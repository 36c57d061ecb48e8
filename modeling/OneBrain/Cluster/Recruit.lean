import OneBrain.Cluster.Fencing

/-!
# Heads that restart

One worker and the heads that recruit it. A head stamps its plans from a counter in
memory, which starts at zero with its daemon; the worker keeps the epoch it adopted until
its own daemon stops, whatever becomes of the head and its streams. So a head that
restarts has to catch up with the epoch of its last life, or of another head's, before the
worker follows it again: `recruit_iff` says exactly when a first proposal is taken.

## The model

* `Head` — the counter of a head's daemon, the epochs it has stamped, and the plan it
  proposed first. A restart empties all of it.
* The proposals on their way to the worker are the `wire`; they may be delivered in any
  order, or lost.
* Everything else that happens at the worker (streams, peer events, acks, checks) is any
  event of the cluster task but a proposal. The worker's daemon may restart too.
-/

namespace OneBrain.Cluster

open OneBrain.Lib

/-- A head that proposes plans. -/
structure Head where
  counter : ℕ := 0
  /-- Epochs stamped on plans since the daemon started. -/
  stamped : List Epoch := []
  /-- The epoch of the first plan proposed since then. -/
  firstPlan : Option Epoch := none

/-- A proposal on its way to the worker. -/
structure Proposal where
  head : NodeId
  plan : Plan
  /-- No other plan was proposed since the head's daemon started. -/
  first : Bool

/-- A worker and the heads that want it. -/
structure Recruit where
  task : WorkerRun := {}
  heads : NodeId → Head := fun _ => {}
  wire : List Proposal := []

/-- What can happen next. -/
inductive RecruitLabel where
  | stamp (head : NodeId)
  /-- A head proposes a stamped plan, to this worker or to another. -/
  | propose (head : NodeId) (plan : Plan) (here : Bool)
  | restart (head : NodeId)
  | deliver (i : ℕ) (peers : Option (List NodeId))
  | lose (i : ℕ)
  | worker (event : Event)
  | workerRestart

/-- A proposal of a plan. -/
def Event.isProposal : Event → Bool
  | .control _ _ (.planProposal _) => true
  | _ => false

/-- A head proposes a plan. -/
def Recruit.propose (s : Recruit) (head : NodeId) (plan : Plan) (here : Bool) : Recruit :=
  let state := s.heads head
  let first := state.firstPlan.all (· = plan.epoch)
  { s with
    heads := Function.update s.heads head
      { state with firstPlan := state.firstPlan.or (some plan.epoch) }
    wire := if here then s.wire ++ [{ head, plan, first }] else s.wire }

/-- One step. -/
def Recruit.next (s : Recruit) : RecruitLabel → Option Recruit
  | .stamp head =>
    let epoch := (s.heads head).counter + 1
    some { s with
      heads := Function.update s.heads head
        { s.heads head with counter := epoch, stamped := (s.heads head).stamped ++ [epoch] } }
  | .propose head plan here =>
    if plan.epoch ∈ (s.heads head).stamped then some (s.propose head plan here) else none
  | .restart head => some { s with heads := Function.update s.heads head {} }
  | .deliver i peers =>
    match s.wire[i]? with
    | none => none
    | some m =>
      (clusterTask.next s.task (.control peers m.head (.planProposal m.plan))).map fun task =>
        { s with task, wire := s.wire.eraseIdx i }
  | .lose i => some { s with wire := s.wire.eraseIdx i }
  | .worker event =>
    if event.isProposal then none
    else (clusterTask.next s.task event).map fun task => { s with task }
  | .workerRestart => some { s with task := {} }

/-- The system, from fresh daemons on. -/
def recruiting : Machine Recruit RecruitLabel where
  start := {}
  next := Recruit.next

/-- The worker's part of a step is a step of its task, or a restart. -/
theorem Recruit.next_task {s s' : Recruit} {l : RecruitLabel} (h : s.next l = some s') :
    s'.task = s.task ∨ s'.task = {} ∨ ∃ event, clusterTask.next s.task event = some s'.task := by
  cases l with
  | stamp | restart | lose =>
    cases h
    exact .inl rfl
  | propose =>
    simp only [next] at h
    split at h
    · cases h
      exact .inl rfl
    · cases h
  | deliver | worker =>
    simp only [next] at h
    split at h
    · cases h
    · obtain ⟨task, htask, rfl⟩ := Option.map_eq_some_iff.mp h
      exact .inr (.inr ⟨_, htask⟩)
  | workerRestart =>
    cases h
    exact .inr (.inl rfl)

theorem recruiting_ledger {labels : List RecruitLabel} {s : Recruit}
    (hrun : recruiting.run labels = some s) : Ledger s.task := by
  have hfresh : Ledger {} := ⟨List.Pairwise.nil, fun _ => rfl⟩
  refine Machine.run_invariant (M := recruiting) (I := fun s => Ledger s.task) hfresh
    (fun s l s' hs h => ?_) hrun
  rcases Recruit.next_task h with heq | heq | ⟨event, hevent⟩
  · rw [heq]
    exact hs
  · rw [heq]
    exact hfresh
  · exact hs.step hevent

theorem Worker.handleProposal_refuses {w : Worker} {peers : List NodeId} {sender : NodeId} {plan : Plan}
    (hpaired : sender ∈ peers) : (∃ reason, .planAck sender plan.epoch false (some reason) ∈
        (w.handleProposal (some peers) sender plan).2) ↔
      ¬ ∀ current, w.epoch = some current → current < plan.epoch := by
  have hcontains : peers.contains sender = true := List.contains_iff_mem.mpr hpaired
  simp only [handleProposal, hcontains]
  cases hdecide : decideProposal w.epoch true plan.epoch with
  | ignore =>
    unfold decideProposal at hdecide
    simp only [Bool.not_true, Bool.false_eq_true, if_false] at hdecide
    split at hdecide
    · split at hdecide <;> cases hdecide
    · cases hdecide
  | reject reason =>
    refine ⟨fun _ hnewer => ?_, fun _ => ⟨reason, List.mem_singleton_self _⟩⟩
    rw [decideProposal_eq_adopt.mpr ⟨rfl, hnewer⟩] at hdecide
    cases hdecide
  | adopt =>
    constructor
    · rintro ⟨reason, hmem⟩
      simp at hmem
    · intro hnot
      exact (hnot (decideProposal_eq_adopt.mp hdecide).2).elim

/-- **When a first proposal is taken.** In every run, a proposal that a paired head sent
as its first since its daemon started, and that reaches the worker while none of the
worker's streams is open, is refused as stale unless its epoch is above every epoch the
worker adopted since its own daemon started. -/
theorem recruit_iff {labels : List RecruitLabel} {s : Recruit} (hrun : recruiting.run labels = some s)
    {i : ℕ} {m : Proposal} {peers : List NodeId} {s' : Recruit} (hwire : s.wire[i]? = some m)
    (_hfirst : m.first = true) (hpaired : m.head ∈ peers) (_hidle : s.task.worker.openStreams = [])
    (hstep : recruiting.next s (.deliver i (some peers)) = some s') :
    (¬ ∃ reason, .planAck m.head m.plan.epoch false (some reason) ∈
        s'.task.effects.drop s.task.effects.length) ↔
      ∀ epoch ∈ adoptions s.task.effects, epoch < m.plan.epoch := by
  have hledger := recruiting_ledger hrun
  obtain ⟨task, htask, rfl⟩ : ∃ task, clusterTask.next s.task
      (.control (some peers) m.head (.planProposal m.plan)) = some task ∧
        { s with task, wire := s.wire.eraseIdx i } = s' := by
    simpa [recruiting, Recruit.next, hwire] using hstep
  obtain ⟨hrunning, -, heffects⟩ := clusterTask_next htask
  have hnew : task.effects.drop s.task.effects.length =
      (s.task.worker.handleProposal (some peers) m.head m.plan).2 := by
    rw [heffects, List.drop_left]
    rfl
  rw [hnew, Worker.handleProposal_refuses hpaired, not_not, ← hledger.current hrunning]
  -- The last adopted epoch is the largest.
  constructor
  · intro hnewer epoch hmem
    cases hlast : (adoptions s.task.effects).getLast? with
    | none =>
      rw [List.getLast?_eq_none_iff.mp hlast] at hmem
      cases hmem
    | some last =>
      exact Nat.lt_of_le_of_lt (le_of_getLast hledger.increasing hlast epoch hmem) (hnewer last hlast)
  · intro hall current hlast
    exact hall current (List.mem_of_getLast? hlast)

/-- A head recruits the worker with its first plan. -/
def recruitOnce : List RecruitLabel :=
  [.stamp "h", .propose "h" (smallPlan 1) true]

theorem recruit_iff_fresh : ∃ s s', recruiting.run recruitOnce = some s ∧
    recruiting.next s (.deliver 0 (some ["h"])) = some s' ∧
    ¬ ∃ reason, .planAck "h" 1 false (some reason) ∈ s'.task.effects.drop s.task.effects.length := by
  refine ⟨_, _, rfl, rfl, (recruit_iff (i := 0) (show recruiting.run recruitOnce = some _ from rfl)
    (show _ = some (Proposal.mk "h" (smallPlan 1) true) from rfl) rfl (List.mem_singleton_self _) rfl rfl).mpr ?_⟩
  intro epoch hmem
  cases hmem

/-- **A restarted head is turned away.** A head recruits the worker and restarts; its
first proposal after the restart has epoch 1 again and is refused as stale, though no
stream was ever opened. -/
theorem restarted_head_refused : ∃ s s' m,
    recruiting.run (recruitOnce ++ [.deliver 0 (some ["h"]), .restart "h", .stamp "h",
      .propose "h" (smallPlan 1) true]) = some s ∧
    s.wire[0]? = some m ∧ m.first = true ∧ m.head = "h" ∧ s.task.worker.openStreams = [] ∧
    recruiting.next s (.deliver 0 (some ["h"])) = some s' ∧
    .planAck "h" 1 false (some "epoch 1 is not newer than the active epoch 1 (stale plans are fenced)") ∈
      s'.task.effects.drop s.task.effects.length :=
  ⟨_, _, _, rfl, rfl, rfl, rfl, rfl, rfl, List.mem_singleton_self _⟩

end OneBrain.Cluster
