import OneBrain.Cluster.Moves

/-!
# Who holds the ledger, and where an attempt is

Two facts about every run of the daemon, used wherever a recovery is followed through its
`await`s.

* `Exclusive` — a task in the middle of surgery holds the ledger, so there is at most one.
* `Tokens` — an attempt is in exactly one place: in the host's mailbox, running, or
  answered.
-/

namespace OneBrain.Cluster

open Function OneBrain.Lib

/-- Places of a job in the middle of surgery on the active plan. -/
def JobPc.critical : JobPc → Bool
  | .checked _ _ => true
  | .unloading _ _ _ => true
  | .naming _ _ _ => true
  | .replanning _ _ _ => true
  | .activating _ _ _ _ => true
  | _ => false

/-- A job that waits for its attempt's outcome. -/
def JobPc.awaiting : JobPc → Bool
  | .attempting _ => true
  | _ => false

/-- Tasks in the middle of surgery on the active plan. -/
def Task.critical : Task → Bool
  | .job j => j.pc.critical
  | .failure (.checked _) => true
  | .failure (.unloading _) => true
  | .rejoin (.planning _ _) => true
  | .rejoin (.activating _ _) => true
  | _ => false

/-- A leader that has cleared the view is in the middle of surgery. -/
theorem critical_of_leading {pc : JobPc} {failed : Option ActivePlanView} (h : pc.leading = some failed) :
    pc.critical = true := by
  cases pc <;> first | rfl | cases h

theorem not_awaiting_of_leading {pc : JobPc} {failed : Option ActivePlanView} (h : pc.leading = some failed) :
    pc.awaiting = false := by
  cases pc <;> first | rfl | cases h

namespace Daemon

variable {s s' : Daemon} {i k : ℕ}

/-! ### The ledger -/

variable {t t' : Task} {c : Choice} {u : Daemon}

theorem Piece.tasks (h : Piece s i t c u t') (k : ℕ) : u.tasks k = s.tasks k := by
  cases h with
  | jobSends _ _ _ hsends | jobStopped _ _ _ hsends => cases hsends <;> rfl
  | _ => simp

theorem Piece.fresh (h : Piece s i t c u t') : u.fresh = s.fresh := by
  cases h with
  | jobSends _ _ _ hsends | jobStopped _ _ _ hsends => cases hsends <;> rfl
  | _ => simp

theorem Piece.holder (h : Piece s i t c u t') :
    (u.ledger.holder = s.ledger.holder ∧ t'.critical = t.critical) ∨
      (s.ledger.holder = none ∧ u.ledger.holder = some i ∧ t'.critical = true) ∨
      t.critical = true ∧ u.ledger.holder = none ∧ t'.critical = false := by
  cases h with
  | jobSends _ _ _ hsends | jobStopped _ _ _ hsends =>
    cases hsends with
    | recovers => exact .inr (.inr ⟨rfl, rfl, rfl⟩)
    | _ => exact .inl ⟨rfl, rfl⟩
  | jobChecks _ _ _ hfree | failureChecks _ _ hfree | rejoinLocks _ _ hfree =>
    exact .inr (.inl ⟨hfree, by simp, rfl⟩)
  | jobGivesUp job pc failed message c hpc => exact .inr (.inr ⟨critical_of_leading hpc, rfl, rfl⟩)
  | failureClears | rejoinNoPlan | rejoinSame | rejoinInstalls | rejoinAborts | rejoinFails =>
    exact .inr (.inr ⟨rfl, rfl, rfl⟩)
  | rejoinEnds pc hpc => rcases hpc with rfl | rfl <;> exact .inl ⟨rfl, rfl⟩
  | _ => exact .inl ⟨by simp, rfl⟩

/-- A step leaves the other tasks alone, and keeps, takes or leaves the ledger. -/
theorem TaskMove.holder (h : TaskMove s i t c s') :
    (∀ k, k ≠ i → s'.tasks k = s.tasks k) ∧ s'.fresh = s.fresh ∧
      ((s'.ledger.holder = s.ledger.holder ∧ (s'.tasks i).critical = t.critical) ∨
        (s.ledger.holder = none ∧ s'.ledger.holder = some i ∧ (s'.tasks i).critical = true) ∨
        t.critical = true ∧ s'.ledger.holder = none ∧ (s'.tasks i).critical = false) := by
  obtain ⟨u, t', h, rfl⟩ := h
  refine ⟨fun k hk => ?_, h.fresh, ?_⟩
  · rw [put_other _ _ _ hk, h.tasks]
  · rw [put_same]
    exact h.holder

theorem TaskMove.ne_ended (h : TaskMove s i t c s') : t ≠ .ended := by
  obtain ⟨u, t', h, rfl⟩ := h
  cases h <;> simp

@[simp] theorem ranTask_critical (plan : Plan) (t : Task) : (ranTask plan t).critical = t.critical := by
  cases t <;> rfl

/-- What the host leaves alone. -/
structure HostFrame (s s' : Daemon) : Prop where
  cluster : s'.cluster = s.cluster
  ledger : s'.ledger = s.ledger
  fresh : s'.fresh = s.fresh
  torn : s'.torn = s.torn
  replanned : s'.replanned = s.replanned
  tasks : ∀ k, s'.tasks k = s.tasks k ∨ ∃ plan, s'.tasks k = ranTask plan (s.tasks k)

theorem HostMove.frame {act : HostAct} (h : HostMove s act s') : HostFrame s s' := by
  cases h with
  | runs i rest failure plan =>
    refine ⟨rfl, rfl, rfl, rfl, rfl, fun k => ?_⟩
    by_cases hk : k = i
    · subst hk
      exact .inr ⟨plan, put_same ..⟩
    · exact .inl (put_other _ _ _ hk)
  | _ => exact ⟨rfl, rfl, rfl, rfl, rfl, fun k => .inl rfl⟩

/-- What of a task does not depend on the plan it ran under is left alone by the host. -/
theorem HostFrame.reads {α : Type} (h : HostFrame s s') {f : Task → α} (hf : ∀ plan t, f (ranTask plan t) = f t)
    (k : ℕ) : f (s'.tasks k) = f (s.tasks k) := by
  rcases h.tasks k with heq | ⟨plan, heq⟩
  · rw [heq]
  · rw [heq, hf]

/-- Only a job goes on to be one. -/
theorem TaskMove.was_job {job' : Job} (h : TaskMove s i t c s') (ht' : s'.tasks i = .job job') : ∃ job, t = .job job := by
  obtain ⟨u, t', h, rfl⟩ := h
  rw [put_same] at ht'
  cases h <;> first | exact ⟨_, rfl⟩ | cases ht'

theorem HostFrame.known_job {job' : Job} (h : HostFrame s s') (ht' : s'.tasks k = .job job') :
    ∃ job ran, s.tasks k = .job job ∧ job' = { job with ranOn := ran } := by
  rcases h.tasks k with heq | ⟨plan, heq⟩
  · exact ⟨job', job'.ranOn, heq ▸ ht', rfl⟩
  · rw [heq] at ht'
    cases htask : s.tasks k <;> rw [htask] at ht' <;> cases ht'
    exact ⟨_, _, rfl, rfl⟩

theorem spawn_job {job' : Job} (ht' : (s.spawn t).tasks k = .job job') : t = .job job' ∨ s.tasks k = .job job' := by
  rw [spawn_tasks] at ht'
  by_cases hk : k = s.fresh
  · subst hk
    rw [update_self] at ht'
    exact .inl ht'
  · rw [update_of_ne hk] at ht'
    exact .inr ht'

/-- **Where a job comes from**: it is new, it is as it was but for the plan it ran under, or it
took the step. -/
theorem Move.job_cases {l : Label} {job' : Job} (h : Move s l s') (ht' : s'.tasks k = .job job') :
    job' = {} ∨ (∃ job ran, s.tasks k = .job job ∧ job' = { job with ranOn := ran }) ∨
      ∃ c job, l = .step k c ∧ s.tasks k = .job job ∧ TaskMove s k (.job job) c s' := by
  have hold (ht : s.tasks k = .job job') : ∃ job ran, s.tasks k = .job job ∧ job' = { job with ranOn := ran } :=
    ⟨job', job'.ranOn, ht, rfl⟩
  cases h with
  | starts l f t h =>
    rcases spawn_job ht' with hnew | ht
    · cases h <;> cases hnew
      exact .inl rfl
    · exact .inr (.inl (hold ht))
  | streams | bridgeTears | adopt => exact .inr (.inl (hold ht'))
  | task i c s' h =>
    by_cases hk : k = i
    · subst hk
      obtain ⟨job, ht⟩ := h.was_job ht'
      exact .inr (.inr ⟨c, job, rfl, ht, ht ▸ h⟩)
    · exact .inr (.inl (hold (h.holder.1 k hk ▸ ht')))
  | host act s' hgone h => exact .inr (.inl (h.frame.known_job ht'))

/-- **At most one task is in surgery**: it holds the ledger. -/
structure Exclusive (s : Daemon) : Prop where
  unused : ∀ k, s.fresh ≤ k → s.tasks k = .ended
  holder : ∀ k, (s.tasks k).critical = true → s.ledger.holder = some k

section

variable (hs : Exclusive s)
include hs

theorem Exclusive.updateCluster (f : ClusterState → ClusterState) :
    Exclusive (s.updateCluster f) :=
  ⟨hs.unused, hs.holder⟩

theorem Exclusive.spawn (ht : t.critical = false) : Exclusive (s.spawn t) := by
  constructor
  · intro k hk
    rw [spawn_fresh] at hk
    rw [spawn_tasks, update_of_ne (by omega), hs.unused k (by omega)]
  · intro k hk
    rw [spawn_tasks] at hk
    by_cases hfresh : k = s.fresh
    · subst hfresh
      rw [update_self, ht] at hk
      cases hk
    · rw [update_of_ne hfresh] at hk
      exact hs.holder k hk

theorem Exclusive.task (h : TaskMove s i (s.tasks i) c s') : Exclusive s' := by
  obtain ⟨hother, hfresh, hholder⟩ := h.holder
  have hi : i < s.fresh := by
    by_contra hle
    exact h.ne_ended (hs.unused i (by omega))
  constructor
  · intro k hk
    rw [hother k (by omega), hs.unused k (by omega)]
  · intro k hk
    rcases hholder with ⟨hsame, hcritical⟩ | ⟨hfree, hlocked, -⟩ | ⟨hcritical, -, hcalm⟩
    · rw [hsame]
      by_cases hki : k = i
      · subst hki
        exact hs.holder k (hcritical ▸ hk)
      · rw [hother k hki] at hk
        exact hs.holder k hk
    · by_cases hki : k = i
      · rw [hki, hlocked]
      · rw [hother k hki] at hk
        rw [hs.holder k hk] at hfree
        cases hfree
    · by_cases hki : k = i
      · rw [hki, hcalm] at hk
        cases hk
      · -- The holder was this task, so no other one was in surgery.
        rw [hother k hki] at hk
        have hsame := (hs.holder k hk).symm.trans (hs.holder i hcritical)
        exact (hki (Option.some.inj hsame)).elim

/-- **Surgery stays exclusive.** -/
theorem Exclusive.move {l : Label} (h : Move s l s') : Exclusive s' := by
  cases h with
  | starts l f t h => exact (hs.updateCluster f).spawn (by cases h <;> rfl)
  | bridgeTears => exact hs.updateCluster _
  | streams | adopt => exact ⟨hs.unused, hs.holder⟩
  | task i c s' h => exact hs.task h
  | host act s' hgone h =>
    have hframe := h.frame
    constructor
    · intro k hk
      rw [hframe.fresh] at hk
      rcases hframe.tasks k with heq | ⟨plan, heq⟩
      · rw [heq, hs.unused k hk]
      · rw [heq, hs.unused k hk]
        rfl
    · intro k hk
      rw [hframe.reads ranTask_critical k] at hk
      rw [hframe.ledger]
      exact hs.holder k hk

theorem Exclusive.unique (hi : (s.tasks i).critical = true) (hk : (s.tasks k).critical = true) : i = k :=
  Option.some.inj ((hs.holder i hi).symm.trans (hs.holder k hk))

theorem Exclusive.calm (hfree : s.ledger.holder = none) (k : ℕ) : (s.tasks k).critical = false := by
  cases hk : (s.tasks k).critical
  · rfl
  · rw [hs.holder k hk] at hfree
    cases hfree

end

/-! ### Where an attempt is -/

/-- An answer that ends an attempt. -/
def isOutcome : Option Reply → Bool
  | some .finished => true
  | some (.interrupted _) => true
  | _ => false

/-- A task that waits for an attempt's outcome. -/
def awaitsOutcome : Task → Bool
  | .job job => job.pc.awaiting
  | _ => false

/-- The attempts of a task that are with the host. -/
def withHost (s : Daemon) (k : ℕ) : ℕ := s.host.inbox.count (.generate k) + s.host.running.count k

/-- **An attempt is in one place**: a job that waits for an outcome has at most one attempt
out, counting an outcome that was not taken yet; any other task has none with the host. -/
structure Tokens (s : Daemon) : Prop where
  waiting : ∀ k, awaitsOutcome (s.tasks k) = true →
    s.withHost k + (isOutcome (s.replies k)).toNat ≤ 1
  others : ∀ k, awaitsOutcome (s.tasks k) = false → s.withHost k = 0
  gone : s.host.gone = true → ∀ k, s.withHost k = 0

variable (hs : Tokens s)
include hs

/-- Tokens depend on the tasks, the host and the answers only through what they count. -/
theorem Tokens.congr (htasks : ∀ k, awaitsOutcome (s'.tasks k) = awaitsOutcome (s.tasks k))
    (hhost : ∀ k, s'.withHost k = s.withHost k) (hgone : s'.host.gone = s.host.gone)
    (hreplies : ∀ k, isOutcome (s'.replies k) = true → isOutcome (s.replies k) = true) : Tokens s' := by
  constructor
  · intro k hk
    rw [htasks] at hk
    have hle := hs.waiting k hk
    rw [hhost]
    cases hout : isOutcome (s'.replies k)
    · exact Nat.le_trans (Nat.le_add_right _ _) hle
    · rwa [hreplies k hout] at hle
  · intro k hk
    rw [htasks] at hk
    rw [hhost]
    exact hs.others k hk
  · intro h k
    rw [hgone] at h
    rw [hhost, hs.gone h k]

theorem Tokens.waits (h : s.withHost i ≠ 0) :
    awaitsOutcome (s.tasks i) = true ∧ s.withHost i = 1 ∧ isOutcome (s.replies i) = false := by
  cases hwaits : awaitsOutcome (s.tasks i)
  · exact (h (hs.others i hwaits)).elim
  · have hle := hs.waiting i hwaits
    cases hout : isOutcome (s.replies i)
    · rw [hout] at hle
      exact ⟨rfl, by simp at hle; omega, rfl⟩
    · rw [hout] at hle
      simp at hle
      omega

theorem Tokens.put (ht : awaitsOutcome t = awaitsOutcome (s.tasks i)) :
    Tokens (s.put i t) := by
  refine hs.congr (fun k => ?_) (fun k => rfl) rfl (fun k h => h)
  by_cases hk : k = i
  · subst hk
    rw [put_same, ht]
  · rw [put_other _ _ _ hk]

theorem Tokens.send {msg : HostMsg} (hmsg : ∀ k, msg ≠ .generate k) :
    Tokens (s.send i msg) := by
  refine hs.congr (fun k => rfl) (fun k => ?_) rfl (fun k h => ?_)
  · unfold withHost
    rw [send_host_inbox, send_host_running, List.count_append, List.count_singleton, if_neg, Nat.add_zero]
    simpa using hmsg k
  · rw [send_replies] at h
    by_cases hk : k = i
    · subst hk
      rw [update_self] at h
      cases h
    · rwa [update_of_ne hk] at h

theorem Tokens.sent (hcalm : awaitsOutcome (s.tasks i) = false) (hgone : s.host.gone = false)
    (ht : awaitsOutcome t = true) : Tokens ((s.send i (.generate i)).put i t) := by
  have hzero := hs.others i hcalm
  have hhost (k : ℕ) : ((s.send i (.generate i)).put i t).withHost k = s.withHost k + if k = i then 1 else 0 := by
    unfold withHost
    rw [put_host, send_host_inbox, send_host_running, List.count_append, List.count_singleton]
    by_cases hk : k = i
    · subst hk
      simp
      omega
    · have hne : ¬ i = k := fun h => hk h.symm
      simp [hk, hne]
  constructor
  · intro k hk
    rw [hhost]
    by_cases hki : k = i
    · subst hki
      simp [hzero, isOutcome]
    · rw [put_other _ _ _ hki, send_tasks] at hk
      have hle := hs.waiting k hk
      simpa [hki] using hle
  · intro k hk
    rw [hhost]
    by_cases hki : k = i
    · subst hki
      rw [put_same, ht] at hk
      cases hk
    · rw [put_other _ _ _ hki, send_tasks] at hk
      simp [hki, hs.others k hk]
  · intro h
    rw [put_host, send_host_gone, hgone] at h
    cases h

theorem Tokens.taken (hwaits : awaitsOutcome (s.tasks i) = true)
    (hout : isOutcome (s.replies i) = true ∨ s.host.gone = true) (ht : awaitsOutcome t = false) :
    Tokens (s.put i t) := by
  have hzero : s.withHost i = 0 := by
    rcases hout with hout | hgone
    · have hle := hs.waiting i hwaits
      rw [hout] at hle
      simp at hle
      omega
    · exact hs.gone hgone i
  constructor
  · intro k hk
    by_cases hki : k = i
    · subst hki
      rw [put_same, ht] at hk
      cases hk
    · rw [put_other _ _ _ hki] at hk
      exact hs.waiting k hk
  · intro k hk
    by_cases hki : k = i
    · subst hki
      exact hzero
    · rw [put_other _ _ _ hki] at hk
      exact hs.others k hk
  · exact hs.gone

theorem Tokens.updateCluster (f : ClusterState → ClusterState) : Tokens (s.updateCluster f) :=
  ⟨hs.waiting, hs.others, hs.gone⟩

theorem Tokens.stamped {model : String} {strategy : Strategy} {assignments : List Assignment} :
    Tokens (s.stamped model strategy assignments) := by
  cases strategy
  · exact hs
  · exact ⟨hs.waiting, hs.others, hs.gone⟩

theorem Tokens.tell : Tokens (s.tell i) := by
  unfold Daemon.tell
  split
  · exact hs
  · exact hs.send (by simp)

theorem Tokens.sends {before job : Job} {u : Daemon} (h : Sends s i before u job) : Tokens u := by
  cases h <;> exact ⟨hs.waiting, hs.others, hs.gone⟩

omit hs

theorem Sends.calm {before job : Job} (h : Sends s i before u job) (ht : s.tasks i = .job before) :
    awaitsOutcome (u.tasks i) = false := by
  cases h <;> exact congrArg awaitsOutcome ht

include hs

theorem Tokens.task (h : TaskMove s i (s.tasks i) c s') : Tokens s' := by
  obtain ⟨u, t', h, rfl⟩ := h
  generalize ht : s.tasks i = t at h
  have hawaits : awaitsOutcome (s.tasks i) = awaitsOutcome t := congrArg _ ht
  cases h with
  | jobSends before job u hsends hgone => exact (hs.sends hsends).sent (hsends.calm ht) hgone rfl
  | jobStopped before job u hsends => exact (hs.sends hsends).put (hsends.calm ht).symm
  | jobFinishes _ _ hreply | jobInterrupted _ _ _ hreply =>
    exact hs.taken hawaits (.inl (by rw [hreply]; rfl)) rfl
  | jobOrphaned job epoch hgone => exact hs.taken hawaits (.inr hgone) rfl
  | jobGivesUp job pc failed message c hpc =>
    refine Tokens.put ?_ (hawaits.trans (not_awaiting_of_leading hpc)).symm
    exact ⟨hs.waiting, hs.others, hs.gone⟩
  | loadPlans | jobPlans | rejoinPlans =>
    apply hs.stamped.put
    rw [stamped_tasks]
    exact hawaits.symm
  | rejoinSame source active strategy assignments =>
    have hstamped : Tokens (s.stamped source.name strategy assignments) := hs.stamped
    refine Tokens.put ?_ ?_
    · exact ⟨hstamped.waiting, hstamped.others, hstamped.gone⟩
    · rw [unlock_tasks, stamped_tasks]
      exact hawaits.symm
  | loadAsks | jobAsks | rejoinAsks => exact (hs.send (by simp)).put hawaits.symm
  | jobLeads | failureUnloads =>
    refine Tokens.put (Tokens.tell ?_) ?_
    · exact ⟨hs.waiting, hs.others, hs.gone⟩
    · rw [tell_tasks]
      exact hawaits.symm
  | _ =>
    refine Tokens.put ?_ hawaits.symm
    exact ⟨hs.waiting, hs.others, hs.gone⟩

theorem Tokens.answered {r : Reply} (hcluster : s'.tasks = s.tasks)
    (hgone : s'.host.gone = s.host.gone) (hreplies : s'.replies = Function.update s.replies i (some r))
    (hother : ∀ k, k ≠ i → s'.withHost k = s.withHost k)
    (hone : s'.withHost i + (isOutcome (some r)).toNat ≤ s.withHost i) : Tokens s' := by
  constructor
  · intro k hk
    rw [hcluster] at hk
    have hle := hs.waiting k hk
    rw [hreplies]
    by_cases hki : k = i
    · subst hki
      rw [update_self]
      omega
    · rwa [update_of_ne hki, hother k hki]
  · intro k hk
    rw [hcluster] at hk
    have hzero := hs.others k hk
    by_cases hki : k = i
    · subst hki
      omega
    · rwa [hother k hki]
  · intro h k
    rw [hgone] at h
    have hzero := hs.gone h k
    by_cases hki : k = i
    · subst hki
      omega
    · rwa [hother k hki]

theorem Tokens.host {act : HostAct} (h : HostMove s act s') : Tokens s' := by
  cases h with
  | refuses i rest failure hinbox =>
    refine hs.answered rfl rfl rfl (fun k hk => ?_) ?_
    · have hne : ¬ i = k := fun h => hk h.symm
      simp [withHost, hinbox, hne]
    · show rest.count (.generate i) + s.host.running.count i + 1 ≤
        s.host.inbox.count (.generate i) + s.host.running.count i
      rw [hinbox, List.count_cons_self]
      omega
  | runs i rest failure plan hinbox =>
    refine hs.congr (fun k => ?_) (fun k => ?_) rfl (fun k h => h)
    · by_cases hk : k = i
      · subst hk
        rw [put_same]
        cases s.tasks k <;> rfl
      · rw [put_other _ _ _ hk]
    · by_cases hk : k = i
      · subst hk
        simp [withHost, hinbox]
        omega
      · have hne : ¬ i = k := fun h => hk h.symm
        simp [withHost, hinbox, hne, List.count_append]
  | loadFails i _ _ _ hinbox | loads i _ _ hinbox | unloads i _ _ hinbox =>
    refine hs.answered rfl rfl rfl (fun k hk => ?_) ?_ <;> simp [withHost, hinbox, isOutcome]
  | serves epoch rest failure hinbox =>
    refine hs.congr (fun k => rfl) (fun k => ?_) rfl (fun k h => h)
    simp [withHost, hinbox]
  | finishes i hmem | interrupts i _ _ hmem =>
    have hpos := List.count_pos_iff.mpr hmem
    refine hs.answered rfl rfl rfl (fun k hk => ?_) ?_
    · simp [withHost, List.count_erase_of_ne hk]
    · simp [withHost, isOutcome]
      omega
  | exits =>
    constructor
    · intro k _
      cases isOutcome (s.replies k) <;> simp [withHost]
    · intro k _
      simp [withHost]
    · intro _ k
      simp [withHost]

theorem Tokens.spawn (hunused : s.tasks s.fresh = .ended) (ht : awaitsOutcome t = false) : Tokens (s.spawn t) := by
  have hput : Tokens (s.put s.fresh t) := hs.put (by rw [hunused, ht]; rfl)
  exact ⟨hput.waiting, hput.others, hput.gone⟩

/-- **Every step keeps an attempt in one place.** -/
theorem Tokens.move (hexcl : Exclusive s) {l : Label} (h : Move s l s') : Tokens s' := by
  have hunused := hexcl.unused s.fresh (Nat.le_refl _)
  cases h with
  | starts l f t h => exact (hs.updateCluster f).spawn hunused (by cases h <;> rfl)
  | bridgeTears => exact hs.updateCluster _
  | streams => exact ⟨hs.waiting, hs.others, hs.gone⟩
  | adopt =>
    refine hs.congr (fun k => rfl) (fun k => ?_) rfl (fun k h => h)
    simp [withHost, List.count_append]
  | task i c s' h => exact hs.task h
  | host act s' hgone h => exact hs.host h

end Daemon

theorem exclusive_of_run {labels : List Daemon.Label} {s : Daemon} (hrun : daemon.run labels = some s) :
    s.Exclusive :=
  Machine.run_invariant (M := daemon) (I := Daemon.Exclusive) ⟨fun _ _ => rfl, fun _ h => by cases h⟩
    (fun _ _ _ hs h => hs.move (.of_next h)) hrun

theorem tokens_of_run {labels : List Daemon.Label} {s : Daemon} (hrun : daemon.run labels = some s) :
    s.Tokens := by
  refine Machine.run_induct (M := daemon) (I := fun _ s => s.Tokens)
    ⟨fun k h => (by cases h), fun k _ => rfl, fun _ k => rfl⟩ (fun ls s l t hs htokens h => ?_) hrun
  exact htokens.move (exclusive_of_run hs) (.of_next h)

end OneBrain.Cluster
