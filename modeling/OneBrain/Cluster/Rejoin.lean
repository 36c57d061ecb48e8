import Mathlib.Logic.Function.Basic
import Mathlib.Tactic.Cases
import OneBrain.Lib.Runs

/-!
# The request to plan again

When a peer is back, the cluster task sets a flag and sends the supervisor a message; the
handler of the message takes the flag and plans again if no job is in flight. A busy
handler sets the flag again, and each job looks at it when it ends, so that the last job
out does what was put off.

## The model

The flag, the counter of jobs and the ledger's lock are read and written one at a time by
tasks on different threads. So, unlike in `Daemon`, where a step goes from one `await` to the
next, a step here is one atomic operation: the handler's look at the counter and its
setting of the flag are two steps. The counter is raised before the gateway knows
whether it has room for the job, and lowered again if it has not.

* A task is a job, or a run of `maybe_rejoin_replan` (`check`): from the supervisor's queue
  on, or from the end of the job whose task runs it.
* Whether the flag matters at all (a model is loaded, this node is its head) and how long
  planning takes is left open (`Choice`).
* Interrupted jobs and handlers of failed epochs take the ledger too: `othersLock`.

## What is proved

In a run in which no handler sets the flag again after the last job has looked at it, a
request that is set has someone to look at it (`no_lost_wakeup`). A handler that does
loses the request (`wakeup_lost`).
-/

namespace OneBrain.Cluster

open OneBrain.Lib

/-- Where a run of `maybe_rejoin_replan` is. -/
inductive CheckPc where
  /-- Queued, or called: the flag is not looked at yet. -/
  | pending
  /-- The flag is taken, the ledger awaited. -/
  | locking
  /-- With the ledger, about to look at the model and at the counter. -/
  | looking
  /-- The counter was not zero: about to set the flag again. -/
  | rearming
  | replanning
  deriving DecidableEq

/-- A task, or the place of one that ended or was never started. -/
inductive RejoinTask where
  | ended
  /-- A job that was counted and is not accepted yet; whether there is room for it. -/
  | entering (room : Bool)
  /-- A job in the supervisor's queue or in flight. -/
  | job
  | check (pc : CheckPc)
  deriving DecidableEq

/-- Who holds the ledger. -/
inductive LedgerHolder where
  | check (task : ℕ)
  /-- An interrupted job or a handler of a failed epoch. -/
  | others
  deriving DecidableEq

/-- What the tasks share. -/
structure Rejoin where
  /-- `max_concurrent + queue_depth` -/
  limit : ℕ := 1
  rejoinRequested : Bool := false
  jobs : ℕ := 0
  ledger : Option LedgerHolder := none
  /-- The cluster task has set the flag and not sent its message yet. -/
  announcing : Bool := false
  tasks : ℕ → RejoinTask := fun _ => .ended
  fresh : ℕ := 0

namespace Rejoin

/-- A task goes on. -/
def put (s : Rejoin) (i : ℕ) (t : RejoinTask) : Rejoin := { s with tasks := Function.update s.tasks i t }

/-- A new task. -/
def spawn (s : Rejoin) (t : RejoinTask) : Rejoin := { s.put s.fresh t with fresh := s.fresh + 1 }

/-- A job is no longer counted. -/
def jobFinished (s : Rejoin) : Rejoin := { s with jobs := s.jobs - 1 }

/-- `request_rejoin_replan`, `defer_rejoin_request` -/
def request (s : Rejoin) : Rejoin := { s with rejoinRequested := true }

/-- Give the ledger back. -/
def unlock (s : Rejoin) : Rejoin := { s with ledger := none }

/-- What the outside decides in a step of a task. -/
inductive Choice where
  | go
  /-- There is no room for the job or the supervisor is gone; or the request is moot: nothing
  is loaded, or by another head. -/
  | stop

/-- One atomic operation of a task. -/
def taskStep (s : Rejoin) (i : ℕ) (c : Choice) : Option Rejoin :=
  match s.tasks i, c with
  | .entering true, .go => some (s.put i .job)
  | .entering _, .stop => some (s.jobFinished.put i .ended)
  | .job, .go => some (s.jobFinished.put i (.check .pending))
  | .check .pending, .go =>
    if s.rejoinRequested then some ({ s with rejoinRequested := false }.put i (.check .locking))
    else some (s.put i .ended)
  | .check .locking, .go =>
    if s.ledger = none then some ({ s with ledger := some (.check i) }.put i (.check .looking)) else none
  | .check .looking, .stop => some (s.unlock.put i .ended)
  | .check .looking, .go =>
    if s.jobs = 0 then some (s.put i (.check .replanning)) else some (s.put i (.check .rearming))
  | .check .rearming, .go => some (s.request.unlock.put i .ended)
  | .check .replanning, .go => some (s.unlock.put i .ended)
  | _, _ => none

/-- What can happen next. -/
inductive Label where
  /-- The gateway counts a job, before it knows whether there is room. -/
  | tryStart
  /-- A peer is back while this node is the head of a loaded model. -/
  | peerConnected
  | announce
  | othersLock
  | othersUnlock
  | step (i : ℕ) (c : Choice)

/-- One step. -/
def next (s : Rejoin) : Label → Option Rejoin
  | .tryStart => some ({ s with jobs := s.jobs + 1 }.spawn (.entering (s.jobs < s.limit)))
  | .peerConnected => if s.announcing then none else some { s.request with announcing := true }
  | .announce => if s.announcing then some ({ s with announcing := false }.spawn (.check .pending)) else none
  | .othersLock => if s.ledger = none then some { s with ledger := some .others } else none
  | .othersUnlock => if s.ledger = some .others then some s.unlock else none
  | .step i c => s.taskStep i c

end Rejoin

/-- The supervisor and the cluster task, from their start on. -/
def rejoin (limit : ℕ) : Machine Rejoin Rejoin.Label where
  start := { limit }
  next := Rejoin.next

namespace Rejoin

variable {s s' : Rejoin}

/-! ### Who looks at the flag -/

/-- Tasks that will look at the flag: jobs, when they end, and checks that have not yet. -/
def willLook : RejoinTask → Bool
  | .job => true
  | .check .pending => true
  | _ => false

/-- Somebody will look at the flag. -/
def Watched (s : Rejoin) : Prop := s.announcing = true ∨ ∃ k, willLook (s.tasks k) = true

/-- No job is queued or running, and no rejoin handler is pending or running. -/
structure Quiescent (s : Rejoin) : Prop where
  cluster : s.announcing = false
  jobs : ∀ k, s.tasks k ≠ .job
  checks : ∀ k pc, s.tasks k ≠ .check pc

/-- What a step must respect: a handler that found jobs sets the flag again only while some
job, or some other check, has not looked at it yet. -/
def WakeSafe (s : Rejoin) (l : Label) : Prop :=
  ∀ i, l = .step i .go → s.tasks i = .check .rearming → Watched s

/-- A task that will look at the flag is not undone by a step of another one. -/
theorem Watched.put {i : ℕ} {t : RejoinTask} (h : Watched s) (ht : willLook t = true ∨ willLook (s.tasks i) = false) :
    Watched (s.put i t) := by
  rcases h with h | ⟨k, hk⟩
  · exact .inl h
  · rcases ht with ht | hi
    · exact .inr ⟨i, by simp [Rejoin.put, ht]⟩
    · refine .inr ⟨k, ?_⟩
      have hne : k ≠ i := by
        rintro rfl
        rw [hi] at hk
        cases hk
      simp [Rejoin.put, hne, hk]

theorem Watched.congr (h : Watched s) (hcluster : s'.announcing = s.announcing) (htasks : s'.tasks = s.tasks) :
    Watched s' := by
  rcases h with h | ⟨k, hk⟩
  · exact .inl (hcluster.trans h)
  · exact .inr ⟨k, htasks ▸ hk⟩

theorem Watched.spawn {t : RejoinTask} (hunused : s.tasks s.fresh = .ended) (h : Watched s) : Watched (s.spawn t) :=
  (h.put (.inr (by rw [hunused]; rfl))).congr rfl rfl

/-- **A step of a task leaves a set flag watched.** -/
theorem taskStep_watched {i : ℕ} {c : Choice} (h : s.taskStep i c = some s')
    (hs : s.rejoinRequested = true → Watched s) (hsafe : WakeSafe s (.step i c)) :
    s'.rejoinRequested = true → Watched s' := by
  intro hset
  unfold taskStep at h
  split at h
  · rename_i htask
    cases h
    exact (hs hset).put (.inl rfl)
  · rename_i htask
    cases h
    exact ((hs hset).congr rfl rfl : Watched s.jobFinished).put (.inr (by rw [jobFinished, htask]; rfl))
  · rename_i htask
    cases h
    exact ((hs hset).congr rfl rfl : Watched s.jobFinished).put (.inl rfl)
  · -- The flag was looked at: it is down.
    rename_i htask
    split at h
    · cases h
      cases hset
    · rename_i hunset
      cases h
      exact (hunset hset).elim
  · rename_i htask
    split at h
    · cases h
      exact ((hs hset).congr rfl rfl : Watched { s with ledger := some (.check i) }).put (.inr (by rw [htask]; rfl))
    · cases h
  · rename_i htask
    cases h
    exact ((hs hset).congr rfl rfl : Watched s.unlock).put (.inr (by rw [unlock, htask]; rfl))
  · rename_i htask
    split at h
    · cases h
      exact (hs hset).put (.inr (by rw [htask]; rfl))
    · cases h
      exact (hs hset).put (.inr (by rw [htask]; rfl))
  · -- The flag is set again: this is where the condition is used.
    rename_i htask
    cases h
    have hwatched : Watched s := hsafe i rfl htask
    exact (hwatched.congr rfl rfl : Watched s.request.unlock).put (.inr (by rw [unlock, request, htask]; rfl))
  · rename_i htask
    cases h
    exact ((hs hset).congr rfl rfl : Watched s.unlock).put (.inr (by rw [unlock, htask]; rfl))
  · cases h

theorem taskStep_unused {i : ℕ} {c : Choice} (h : s.taskStep i c = some s')
    (hs : ∀ k, s.fresh ≤ k → s.tasks k = .ended) : ∀ k, s'.fresh ≤ k → s'.tasks k = .ended := by
  have hstarted (t : RejoinTask) (ht : s.tasks i = t) (hne : t ≠ .ended) : i < s.fresh := by
    by_contra hle
    exact hne (ht ▸ hs i (Nat.not_lt.mp hle))
  have hput (u : Rejoin) (t : RejoinTask) (hu : u.tasks = s.tasks) (hfresh : u.fresh = s.fresh) (hi : i < s.fresh) :
      ∀ k, (u.put i t).fresh ≤ k → (u.put i t).tasks k = .ended := by
    intro k hk
    change u.fresh ≤ k at hk
    have hne : k ≠ i := by omega
    simp [put, hne, hu, hs k (hfresh ▸ hk)]
  unfold taskStep at h
  split at h
  all_goals rename_i htask
  all_goals first
    | cases h; exact hput _ _ rfl rfl (hstarted _ htask (by simp))
    | split at h <;> cases h <;> exact hput _ _ rfl rfl (hstarted _ htask (by simp))
    | cases h

theorem spawn_unused {t : RejoinTask} (hs : ∀ k, s.fresh ≤ k → s.tasks k = .ended) :
    ∀ k, (s.spawn t).fresh ≤ k → (s.spawn t).tasks k = .ended := by
  intro k hk
  change s.fresh + 1 ≤ k at hk
  have hne : k ≠ s.fresh := by omega
  simp [spawn, put, hne, hs k (by omega)]

theorem next_unused {l : Label} (h : s.next l = some s') (hs : ∀ k, s.fresh ≤ k → s.tasks k = .ended) :
    ∀ k, s'.fresh ≤ k → s'.tasks k = .ended := by
  cases l with
  | tryStart =>
    cases h
    exact spawn_unused (s := { s with jobs := s.jobs + 1 }) hs
  | announce =>
    change (if _ then _ else _) = _ at h
    split at h
    · cases h
      exact spawn_unused (s := { s with announcing := false }) hs
    · cases h
  | step => exact taskStep_unused h hs
  | _ =>
    change (if _ then _ else _) = _ at h
    split at h
    all_goals cases h
    all_goals exact hs

/-- **Every step leaves a set flag watched**, under the condition. -/
theorem next_watched {l : Label} (h : s.next l = some s') (hunused : s.tasks s.fresh = .ended)
    (hs : s.rejoinRequested = true → Watched s) (hsafe : WakeSafe s l) :
    s'.rejoinRequested = true → Watched s' := by
  cases l with
  | tryStart =>
    cases h
    intro hset
    exact ((hs hset).congr rfl rfl : Watched { s with jobs := s.jobs + 1 }).spawn hunused
  | peerConnected =>
    change (if _ then _ else _) = _ at h
    split at h
    · cases h
    · cases h
      exact fun _ => .inl rfl
  | announce =>
    change (if _ then _ else _) = _ at h
    split at h
    · cases h
      exact fun _ => .inr ⟨s.fresh, by simp [spawn, put, willLook]⟩
    · cases h
  | othersLock | othersUnlock =>
    change (if _ then _ else _) = _ at h
    split at h
    · cases h
      exact fun hset => (hs hset).congr rfl rfl
    · cases h
  | step => exact taskStep_watched h hs hsafe

theorem unused_of_run {limit : ℕ} {labels : List Label} {s : Rejoin} (hrun : (rejoin limit).run labels = some s) :
    ∀ k, s.fresh ≤ k → s.tasks k = .ended :=
  Machine.run_invariant (M := rejoin limit) (I := fun s => ∀ k, s.fresh ≤ k → s.tasks k = .ended)
    (fun _ _ => rfl) (fun _ _ _ hs h => next_unused h hs) hrun

end Rejoin

open Rejoin in
/-- **No lost wake-up.** In every run in which a handler sets the flag again only while
somebody has still to look at it: when no job is queued or running and no rejoin handler is
pending or running, no request is left. -/
theorem no_lost_wakeup (limit : ℕ) (labels : List Label) (s : Rejoin)
    (hsafe : (rejoin limit).Meets WakeSafe labels) (hrun : (rejoin limit).run labels = some s)
    (hquiescent : Quiescent s) : s.rejoinRequested = false := by
  have hwatched : s.rejoinRequested = true → Watched s := by
    refine Machine.run_induct_of_meets (M := rejoin limit) (I := fun _ s => s.rejoinRequested = true → Watched s)
      (fun h => (by cases h)) (fun ls s l t hls hs hp h => ?_) hsafe hrun
    exact next_watched h (unused_of_run hls s.fresh (Nat.le_refl _)) hs hp
  cases hset : s.rejoinRequested
  · rfl
  · rcases hwatched hset with hannouncing | ⟨k, hk⟩
    · rw [hquiescent.cluster] at hannouncing
      cases hannouncing
    · cases htask : s.tasks k with
      | job => exact (hquiescent.jobs k htask).elim
      | check pc => exact (hquiescent.checks k pc htask).elim
      | _ =>
        rw [htask] at hk
        cases hk

namespace Rejoin

/-- The condition, computed. -/
def wakeCheck (s : Rejoin) : Label → Bool
  | .step i .go =>
    s.tasks i ≠ .check .rearming || s.announcing || (List.range s.fresh).any fun k => willLook (s.tasks k)
  | _ => true

theorem WakeSafe.of_check {s : Rejoin} {l : Label} (h : s.wakeCheck l = true) : WakeSafe s l := by
  rintro i rfl htask
  simp only [wakeCheck, htask, ne_eq, not_true_eq_false, decide_false, Bool.false_or, Bool.or_eq_true,
    List.any_eq_true] at h
  rcases h with hannouncing | ⟨k, -, hk⟩
  · exact .inl hannouncing
  · exact .inr ⟨k, hk⟩

/-- Nothing is under way, computed for the tasks that were started. -/
theorem Quiescent.of_tasks {s : Rejoin} (hcluster : s.announcing = false) (n : ℕ)
    (hunused : ∀ k, n ≤ k → s.tasks k = .ended) (htasks : ∀ k < n, s.tasks k = .ended) : Quiescent s := by
  have hended (k : ℕ) : s.tasks k = .ended := by
    by_cases hk : k < n
    · exact htasks k hk
    · exact hunused k (Nat.not_lt.mp hk)
  exact ⟨hcluster, fun k => by simp [hended k], fun k pc => by simp [hended k]⟩

/-- A job runs, a peer comes back, and the handler takes the flag and finds the job. -/
def busyHandler : List Label :=
  [.tryStart, .step 0 .go, .peerConnected, .announce, .step 1 .go, .step 1 .go, .step 1 .go]

end Rejoin

open Rejoin in
/-- The handler sets the flag again while the job runs; the job ends, takes the flag and
plans again. -/
theorem no_lost_wakeup_busy : ∃ s,
    (rejoin 1).run (busyHandler ++ .step 1 .go :: List.replicate 5 (.step 0 .go)) = some s ∧ Quiescent s ∧
    s.rejoinRequested = false := by
  have hsafe : (rejoin 1).Meets WakeSafe (busyHandler ++ .step 1 .go :: List.replicate 5 (.step 0 .go)) :=
    Machine.meets_of_checks (f := wakeCheck) (fun _ _ _ _ h => .of_check h) rfl
  obtain ⟨s, hrun, hcluster, hfresh, h0, h1⟩ : ∃ s,
      (rejoin 1).run (busyHandler ++ .step 1 .go :: List.replicate 5 (.step 0 .go)) = some s ∧
      s.announcing = false ∧ s.fresh = 2 ∧ s.tasks 0 = .ended ∧ s.tasks 1 = .ended :=
    ⟨_, rfl, rfl, rfl, rfl, rfl⟩
  have hquiescent : Quiescent s := by
    refine .of_tasks hcluster 2 (hfresh ▸ unused_of_run hrun) (fun k hk => ?_)
    obtain rfl | rfl : k = 0 ∨ k = 1 := by omega
    · exact h0
    · exact h1
  exact ⟨s, hrun, hquiescent, no_lost_wakeup 1 _ s hsafe hrun hquiescent⟩

open Rejoin in
/-- **A wake-up is lost**: the handler has taken the flag and found the job. The job ends and
looks at the flag, which is down; then the handler sets it. Nothing is under way, and the
request is left. -/
theorem wakeup_lost : ∃ s,
    (rejoin 1).run (busyHandler ++ [.step 0 .go, .step 0 .go, .step 1 .go]) = some s ∧ Quiescent s ∧
    s.rejoinRequested = true := by
  obtain ⟨s, hrun, hcluster, hfresh, h0, h1, hset⟩ : ∃ s,
      (rejoin 1).run (busyHandler ++ [.step 0 .go, .step 0 .go, .step 1 .go]) = some s ∧
      s.announcing = false ∧ s.fresh = 2 ∧ s.tasks 0 = .ended ∧ s.tasks 1 = .ended ∧ s.rejoinRequested = true :=
    ⟨_, rfl, rfl, rfl, rfl, rfl, rfl⟩
  refine ⟨s, hrun, ?_, hset⟩
  refine .of_tasks hcluster 2 (hfresh ▸ unused_of_run hrun) (fun k hk => ?_)
  obtain rfl | rfl : k = 0 ∨ k = 1 := by omega
  · exact h0
  · exact h1

end OneBrain.Cluster
