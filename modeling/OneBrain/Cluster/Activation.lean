import OneBrain.Cluster.Fencing

/-!
# Proposing a plan, and giving up

A head that activates a plan proposes it to the plan's workers one after another, and then
waits for their answers: a refusal, or a worker that is silent for fifteen seconds, ends
the activation, and the head keeps what it had. Its record still shows the plan that was
active before, and its model is still loaded.

The workers do not keep what they had. A worker adopts a newer plan of a paired head the
moment the proposal reaches it, stops the sessions of the plan before, and only then
answers. No message takes an adoption back, so a plan that one worker adopted and another
refused leaves the first on an epoch the head never activates. This module says when that
happens: `aborted_iff`.

## The model

* `Exchange` — the head, the workers of both plans, and the messages between them. The
  workers are the cluster tasks of `OneBrain.Cluster.Worker`; answers are recorded and
  awaited by the functions of `OneBrain.Cluster.State`.
* `Line` — what happens next: the head sends the next proposal, or fails to; a message is
  delivered, in any order, or lost; the head looks at the answers it has, before or after
  its deadline. A message that is still on its way when the head gives up can be delivered
  after that.
-/

namespace OneBrain.Cluster

open Function OneBrain.Lib

/-- How an activation stands. -/
inductive Outcome where
  /-- Proposals are sent, or answers are awaited. -/
  | going
  | unsent (message : String)
  /-- A worker refused, or did not answer in time. -/
  | aborted (message : String)
  /-- All workers accepted: the bridges are opened next. -/
  | accepted
  deriving DecidableEq

/-- An answer on its way to the head. -/
structure Answer where
  worker : NodeId
  epoch : Epoch
  ready : Bool
  detail : Option String
  deriving DecidableEq

/-- A head that activates a plan, and the nodes it proposes it to. -/
structure Exchange where
  own : NodeId
  /-- What the head shows for a node: its name, or the start of its id. -/
  labelOf : NodeId → String
  cluster : ClusterState
  plan : Plan
  /-- The workers that have not been sent the plan. -/
  unsent : List NodeId
  proposals : List NodeId := []
  answers : List Answer := []
  /-- The cluster task of each other node. -/
  tasks : NodeId → WorkerRun
  outcome : Outcome := .going

/-- What happens next between a head and its workers. -/
inductive Line where
  /-- The next worker is sent the plan. -/
  | send
  /-- The mesh cannot send to the next worker. -/
  | sendFails (err : String)
  /-- A proposal arrives. `peers` is the worker's list of paired peers, if its mesh answers. -/
  | propose (i : ℕ) (peers : Option (List NodeId))
  | loseProposal (i : ℕ)
  | answer (i : ℕ)
  | loseAnswer (i : ℕ)
  /-- The head looks at the answers it has. -/
  | look (timedOut : Bool)

/-- What a worker answers. -/
def answersOf (worker : NodeId) (effects : List Effect) : List Answer :=
  effects.filterMap fun
    | .planAck _ epoch ready detail => some { worker, epoch, ready, detail }
    | _ => none

/-- The workers of the proposed plan, with the names they are shown under. -/
def Exchange.labelled (x : Exchange) : List (NodeId × String) :=
  (x.plan.workers x.own).map fun id => (id, x.labelOf id)

/-- The proposal, as an event of a worker's cluster task. -/
def Exchange.proposal (x : Exchange) (peers : Option (List NodeId)) : Event :=
  .control peers x.own (.planProposal x.plan)

/-- A proposal reaches its worker. -/
def Exchange.deliver (x : Exchange) (i : ℕ) (worker : NodeId) (peers : Option (List NodeId)) :
    Option Exchange :=
  (clusterTask.next (x.tasks worker) (x.proposal peers)).map fun task =>
    { x with
      proposals := x.proposals.eraseIdx i
      tasks := Function.update x.tasks worker task
      answers := x.answers ++ answersOf worker ((x.tasks worker).worker.handle (x.proposal peers)).2 }

/-- The seconds a head waits for the answers. -/
def ackTimeout : ℕ := 15

/-- One turn of the wait for the answers. -/
def Exchange.look (x : Exchange) (timedOut : Bool) : Exchange :=
  match x.cluster.awaitAcks x.plan.epoch x.labelled timedOut ackTimeout with
  | none => x
  | some (.ok ()) => { x with outcome := .accepted }
  | some (.error message) => { x with outcome := .aborted message }

/-- One step. -/
def Exchange.next (x : Exchange) : Line → Option Exchange
  | .send =>
    match x.outcome, x.unsent with
    | .going, worker :: rest => some { x with unsent := rest, proposals := x.proposals ++ [worker] }
    | _, _ => none
  | .sendFails err =>
    match x.outcome, x.unsent with
    | .going, worker :: _ =>
      some { x with outcome := .unsent s!"could not send the plan to node '{x.labelOf worker}': {err}" }
    | _, _ => none
  | .propose i peers => x.proposals[i]?.bind fun worker => x.deliver i worker peers
  | .loseProposal i => some { x with proposals := x.proposals.eraseIdx i }
  | .answer i => x.answers[i]?.map fun a =>
    { x with
      answers := x.answers.eraseIdx i
      cluster := x.cluster.recordAck a.worker a.epoch a.ready a.detail }
  | .loseAnswer i => some { x with answers := x.answers.eraseIdx i }
  | .look timedOut =>
    match x.outcome, x.unsent with
    | .going, [] => some (x.look timedOut)
    | _, _ => none

/-- The activation of a plan, from where the head starts it. -/
def activation (start : Exchange) : Machine Exchange Line where
  start := start
  next := Exchange.next

/-! ### The plan that was active before -/

/-- Every worker of a plan has that plan's epoch as its adopted one. -/
def Exchange.Served (x : Exchange) (active : Plan) : Prop :=
  ∀ w ∈ active.workers x.own, (x.tasks w).worker.epoch = some active.epoch

/-- The head starts to activate a plan while another one is active, which its workers
follow. -/
structure Exchange.Starts (x : Exchange) (active : Plan) : Prop where
  shown : x.cluster.active = some { role := .head, plan := active }
  served : x.Served active
  outcome : x.outcome = .going
  unsent : x.unsent = x.plan.workers x.own
  proposals : x.proposals = []
  answers : x.answers = []

/-- A step that leaves the workers of the active plan alone: no proposal of a newer plan
reaches one of them that knows the head as paired. -/
def Harmless (active : Plan) (x : Exchange) : Line → Prop
  | .propose i peers => ∀ w, x.proposals[i]? = some w → w ∈ active.workers x.own →
      (∃ ids, peers = some ids ∧ x.own ∈ ids) → x.plan.epoch ≤ active.epoch
  | _ => True

/-- A worker that handles a proposal adopts it exactly when it knows the sender as paired
and the plan is newer than its own. -/
theorem Worker.handleProposal_epoch (w : Worker) (peers : Option (List NodeId)) (sender : NodeId)
    (plan : Plan) : ((w.handleProposal peers sender plan).1.epoch = some plan.epoch ∧
      (∃ ids, peers = some ids ∧ sender ∈ ids) ∧ ∀ current, w.epoch = some current → current < plan.epoch) ∨
    ((w.handleProposal peers sender plan).1.epoch = w.epoch ∧
      ((∃ ids, peers = some ids ∧ sender ∈ ids) → ∃ current, w.epoch = some current ∧ plan.epoch ≤ current)) := by
  unfold handleProposal
  dsimp only
  cases peers with
  | none => exact .inr ⟨rfl, by rintro ⟨_, h, -⟩; cases h⟩
  | some ids =>
    dsimp only
    by_cases hpaired : sender ∈ ids
    · cases hdecide : decideProposal w.epoch (ids.contains sender) plan.epoch with
      | ignore => simp [decideProposal, hpaired] at hdecide; grind
      | reject =>
        refine .inr ⟨rfl, fun _ => ?_⟩
        cases hepoch : w.epoch with
        | none => simp [decideProposal, hepoch, hpaired] at hdecide
        | some current =>
          refine ⟨current, rfl, Nat.le_of_not_lt fun hnewer => ?_⟩
          simp [decideProposal, hepoch, hpaired, Nat.not_le.mpr hnewer] at hdecide
      | adopt => exact .inl ⟨rfl, ⟨ids, rfl, hpaired⟩, (decideProposal_eq_adopt.mp hdecide).2⟩
    · have hignore : decideProposal w.epoch (ids.contains sender) plan.epoch = .ignore := by
        simp [decideProposal, hpaired]
      rw [hignore]
      refine .inr ⟨rfl, ?_⟩
      rintro ⟨_, h, hmem⟩
      cases h
      exact absurd hmem hpaired

variable {x y : Exchange} {l : Line} {own : NodeId} {active plan : Plan}

theorem Exchange.next_cases (h : x.next l = some y) :
    y.own = x.own ∧ y.plan = x.plan ∧ y.cluster.active = x.cluster.active ∧
      (y.tasks = x.tasks ∧ (∀ i peers, l ≠ .propose i peers) ∨
        ∃ i peers w task, l = .propose i peers ∧ x.proposals[i]? = some w ∧
          clusterTask.next (x.tasks w) (x.proposal peers) = some task ∧
          y.tasks = Function.update x.tasks w task) := by
  cases l with
  | send | sendFails =>
    simp only [next] at h
    split at h
    · cases h
      exact ⟨rfl, rfl, rfl, .inl ⟨rfl, by simp⟩⟩
    · cases h
  | propose i peers =>
    obtain ⟨w, hw, hdeliver⟩ := Option.bind_eq_some_iff.mp h
    obtain ⟨task, htask, rfl⟩ := Option.map_eq_some_iff.mp hdeliver
    exact ⟨rfl, rfl, rfl, .inr ⟨i, peers, w, task, rfl, hw, htask, rfl⟩⟩
  | loseProposal | loseAnswer =>
    cases h
    exact ⟨rfl, rfl, rfl, .inl ⟨rfl, by simp⟩⟩
  | answer =>
    obtain ⟨a, -, rfl⟩ := Option.map_eq_some_iff.mp h
    exact ⟨rfl, rfl, rfl, .inl ⟨rfl, by simp⟩⟩
  | look =>
    simp only [next] at h
    split at h
    · cases h
      unfold look
      split <;> exact ⟨rfl, rfl, rfl, .inl ⟨rfl, by simp⟩⟩
    · cases h

/-- What holds all along: the head shows the plan that was active before, and each of its
workers follows that plan or, if it is newer, the proposed one. -/
structure Exchange.Keeps (own : NodeId) (active plan : Plan) (x : Exchange) : Prop where
  own_eq : x.own = own
  plan_eq : x.plan = plan
  shown : x.cluster.active = some { role := .head, plan := active }
  follows : ∀ w ∈ active.workers own, (x.tasks w).worker.epoch = some active.epoch ∨
    (x.tasks w).worker.epoch = some plan.epoch ∧ active.epoch < plan.epoch

variable (hx : x.Keeps own active plan)
include hx

/-- A proposal that reaches a worker of the active plan: the worker leaves that plan
exactly when it was on it, knows the head, and the proposed plan is newer. -/
theorem Exchange.Keeps.deliver {w : NodeId} (hw : w ∈ active.workers own)
    {peers : Option (List NodeId)} {task : WorkerRun}
    (htask : clusterTask.next (x.tasks w) (x.proposal peers) = some task) :
    (task.worker.epoch = some plan.epoch ∧ active.epoch < plan.epoch ∧
      ∃ ids, peers = some ids ∧ own ∈ ids) ∨ (task.worker.epoch = (x.tasks w).worker.epoch ∧
      ((∃ ids, peers = some ids ∧ own ∈ ids) → (x.tasks w).worker.epoch = some active.epoch →
        plan.epoch ≤ active.epoch)) := by
  obtain ⟨-, hworker, -⟩ := clusterTask_next htask
  have hhandle : (x.tasks w).worker.handle (x.proposal peers) =
      (x.tasks w).worker.handleProposal peers own plan := by
    unfold proposal
    rw [hx.own_eq, hx.plan_eq]
    rfl
  rw [hworker, hhandle]
  rcases (x.tasks w).worker.handleProposal_epoch peers own plan with ⟨hepoch, hpaired, hnewer⟩ | ⟨hepoch, hstale⟩
  · refine .inl ⟨hepoch, ?_, hpaired⟩
    rcases hx.follows w hw with hold | ⟨-, hlt⟩
    · exact hnewer _ hold
    · exact hlt
  · refine .inr ⟨hepoch, fun hpaired hold => ?_⟩
    obtain ⟨current, hcurrent, hle⟩ := hstale hpaired
    cases hold.symm.trans hcurrent
    exact hle

theorem Exchange.Keeps.next (h : x.next l = some y) : y.Keeps own active plan := by
  obtain ⟨hown, hplan, hactive, htasks⟩ := next_cases h
  refine ⟨hown.trans hx.own_eq, hplan.trans hx.plan_eq, hactive.trans hx.shown, fun w hw => ?_⟩
  rcases htasks with ⟨htasks, -⟩ | ⟨i, peers, v, task, -, -, htask, htasks⟩
  · rw [htasks]
    exact hx.follows w hw
  · rw [htasks]
    by_cases heq : w = v
    · subst heq
      rw [update_self]
      rcases hx.deliver hw htask with ⟨hepoch, hlt, -⟩ | ⟨hepoch, -⟩
      · exact .inr ⟨hepoch, hlt⟩
      · rw [hepoch]
        exact hx.follows w hw
    · rw [update_of_ne heq]
      exact hx.follows w hw

theorem Exchange.Keeps.served_next (h : x.next l = some y) :
    y.Served active ↔ x.Served active ∧ Harmless active x l := by
  obtain ⟨hown, -, -, htasks⟩ := next_cases h
  unfold Served
  rw [hown, hx.own_eq]
  rcases htasks with ⟨htasks, hother⟩ | ⟨i, peers, v, task, rfl, hv, htask, htasks⟩
  · have hharmless : Harmless active x l := by
      cases l with
      | propose i peers => exact absurd rfl (hother i peers)
      | _ => trivial
    rw [htasks]
    exact ⟨fun hs => ⟨hs, hharmless⟩, And.left⟩
  · rw [htasks]
    constructor
    · intro hs
      -- A worker that left the active plan stays away, so those that follow it now did before.
      have hbefore : ∀ w ∈ active.workers own, (x.tasks w).worker.epoch = some active.epoch := by
        intro w hw
        have hafter := hs w hw
        by_cases heq : w = v
        · subst heq
          rw [update_self] at hafter
          rcases hx.deliver hw htask with ⟨hepoch, hlt, -⟩ | ⟨hepoch, -⟩
          · have hsame : plan.epoch = active.epoch := Option.some.inj (hepoch.symm.trans hafter)
            rw [hsame] at hlt
            exact absurd hlt (Nat.lt_irrefl _)
          · exact hepoch.symm.trans hafter
        · rwa [update_of_ne heq] at hafter
      refine ⟨hbefore, fun w hw hmem hpaired => ?_⟩
      cases hv.symm.trans hw
      rw [hx.own_eq] at hmem hpaired
      rw [hx.plan_eq]
      have hafter := hs v hmem
      rw [update_self] at hafter
      rcases hx.deliver hmem htask with ⟨hepoch, hlt, -⟩ | ⟨-, hstale⟩
      · rw [hepoch] at hafter
        exact Nat.le_of_eq (Option.some.inj hafter)
      · exact hstale hpaired (hbefore v hmem)
    · rintro ⟨hs, hharmless⟩ w hw
      by_cases heq : w = v
      · subst heq
        rw [update_self]
        rcases hx.deliver hw htask with ⟨-, hlt, hpaired⟩ | ⟨hepoch, -⟩
        · have hle := hharmless w hv (hx.own_eq.symm ▸ hw) (hx.own_eq.symm ▸ hpaired)
          rw [hx.plan_eq] at hle
          exact absurd hlt (Nat.not_lt.mpr hle)
        · exact hepoch.trans (hs w hw)
      · rw [update_of_ne heq]
        exact hs w hw

omit hx

theorem Exchange.Starts.run {start : Exchange} (hstart : start.Starts active)
    {lines : List Line} (hrun : (activation start).run lines = some x) :
    x.Keeps start.own active start.plan ∧
      (x.Served active ↔ (activation start).Meets (Harmless active) lines) := by
  refine Machine.run_induct (M := activation start)
    (I := fun ls x => x.Keeps start.own active start.plan ∧
      (x.Served active ↔ (activation start).Meets (Harmless active) ls)) ?_ ?_ hrun
  · exact ⟨⟨rfl, rfl, hstart.shown, fun w hw => .inl (hstart.served w hw)⟩,
      fun _ => Machine.Meets.nil, fun _ => hstart.served⟩
  · rintro ls x l y hx ⟨hkeeps, hserved⟩ hnext
    refine ⟨hkeeps.next hnext, (hkeeps.served_next hnext).trans ?_⟩
    rw [hserved]
    constructor
    · rintro ⟨hmeets, hharmless⟩
      refine hmeets.snoc fun s hs => ?_
      cases hs.symm.trans hx
      exact hharmless
    · exact fun hmeets => ⟨hmeets.init, hmeets.last hx⟩

/-- **A given-up activation.** A head starts to activate a plan while another one is active
and followed by all its workers. Whatever is delivered, lost, refused or not answered: once
the head has given up waiting for the answers, it still shows the plan from before; and all
workers of that plan still follow it exactly when every step was harmless, that is, when no
proposal of a newer plan reached one of them that knows the head as paired. -/
theorem aborted_iff {start x : Exchange} {active : Plan} (hstart : start.Starts active) {lines : List Line}
    (hrun : (activation start).run lines = some x) {message : String} (_habort : x.outcome = .aborted message) :
    x.cluster.active = some { role := .head, plan := active } ∧
      (x.Served active ↔ (activation start).Meets (Harmless active) lines) :=
  ⟨(hstart.run hrun).1.shown, (hstart.run hrun).2⟩

/-! ### Two workers -/

/-- A plan of a head with two workers. -/
def threeNodes (epoch : Epoch) : Plan :=
  { epoch, model := "m", strategy := .pipelineParallel
    assignments := [⟨"v", ⟨0, 1⟩, 0⟩, ⟨"w", ⟨1, 2⟩, 1⟩, ⟨"h", ⟨2, 3⟩, 2⟩], ctxLen := 8 }

/-- The head activates a second plan on the two workers that follow its first one. -/
def secondPlan : Exchange where
  own := "h"
  labelOf := id
  cluster := { active := some { role := .head, plan := threeNodes 1 } }
  plan := threeNodes 2
  unsent := ["v", "w"]
  tasks := fun _ => { worker := Worker.adopt {} "h" (threeNodes 1) }

theorem secondPlan_starts : secondPlan.Starts (threeNodes 1) :=
  ⟨rfl, fun _ _ => rfl, rfl, rfl, rfl, rfl⟩

/-- One worker takes the plan and says so; the other is never reached, and the head gives up. -/
def oneSilent : List Line :=
  [.send, .send, .propose 0 (some ["h"]), .answer 0, .loseProposal 0, .look false, .look true]

/-- **A worker left behind.** The head gives up on its second plan and shows the first one,
but one worker of the first plan has adopted the second. -/
theorem aborted_leaves_worker : ∃ x, (activation secondPlan).run oneSilent = some x ∧
    x.outcome = .aborted
      "node 'w' did not acknowledge plan epoch 2 within 15s; check it is online (`onebrain status`) and retry" ∧
    x.cluster.active = some { role := .head, plan := threeNodes 1 } ∧
    "v" ∈ (threeNodes 1).workers "h" ∧ (x.tasks "v").worker.epoch = some 2 ∧ ¬ x.Served (threeNodes 1) := by
  obtain ⟨x, hrun, hout, hactive, hown, hepoch⟩ : ∃ x, (activation secondPlan).run oneSilent = some x ∧
      x.outcome = .aborted
        "node 'w' did not acknowledge plan epoch 2 within 15s; check it is online (`onebrain status`) and retry" ∧
      x.cluster.active = some { role := .head, plan := threeNodes 1 } ∧ x.own = "h" ∧
      (x.tasks "v").worker.epoch = some 2 :=
    ⟨_, rfl, rfl, rfl, rfl, rfl⟩
  have hmem : "v" ∈ (threeNodes 1).workers "h" := by decide
  refine ⟨x, hrun, hout, hactive, hmem, hepoch, fun hserved => ?_⟩
  have hold := hserved "v" (hown.symm ▸ hmem)
  rw [hepoch] at hold
  exact absurd hold (by decide)

/-- The second plan is lost on its way to one worker, and the other cannot ask its mesh who
is paired: both follow the first plan still. -/
def bothSilent : List Line := [.send, .send, .loseProposal 1, .propose 0 none, .look true]

/-- A step that delivers nothing to a node that knows its peers. -/
def deliversNothing : Line → Bool
  | .propose _ peers => peers.isNone
  | _ => true

theorem harmless_of_deliversNothing (h : deliversNothing l = true) : Harmless active x l := by
  cases l with
  | propose =>
    rintro w - - ⟨ids, rfl, -⟩
    cases h
  | _ => trivial

theorem aborted_iff_silent : ∃ x, (activation secondPlan).run bothSilent = some x ∧
    (∃ message, x.outcome = .aborted message) ∧ x.Served (threeNodes 1) := by
  obtain ⟨x, message, hrun, hout⟩ : ∃ x message, (activation secondPlan).run bothSilent = some x ∧
      x.outcome = .aborted message := ⟨_, _, rfl, rfl⟩
  have hharmless : (activation secondPlan).Meets (Harmless (threeNodes 1)) bothSilent :=
    Machine.meets_of_checks (f := fun _ l => deliversNothing l)
      (fun _ _ _ _ h => harmless_of_deliversNothing h) rfl
  exact ⟨x, hrun, ⟨message, hout⟩, (aborted_iff secondPlan_starts hrun hout).2.mpr hharmless⟩

/-! ### The plan that was accepted -/

/-- No worker is missing only if every one has answered that it is ready. -/
theorem ClusterState.ready_of_scanAcks {s : ClusterState} {epoch : Epoch} {workers : List (NodeId × String)}
    {missing : Option String} (h : s.scanAcks epoch missing workers = .ok none) :
    missing = none ∧ ∀ w ∈ workers, ∃ ack, s.acks (w.1, epoch) = some ack ∧ ack.ready = true := by
  induction workers generalizing missing with
  | nil => exact ⟨Except.ok.inj h, by simp⟩
  | cons w workers ih =>
    simp only [scanAcks] at h
    split at h
    · rename_i ack hack
      split at h
      · rename_i hready
        exact ⟨(ih h).1, List.forall_mem_cons.mpr ⟨⟨ack, hack, hready⟩, (ih h).2⟩⟩
      · cases h
    · cases missing <;> cases (ih h).1

theorem Worker.handleProposal_ready (own : NodeId) (w : Worker) (peers : Option (List NodeId)) (sender : NodeId) (plan : Plan) :
    (w.epoch = some plan.epoch → (w.handleProposal peers sender plan).1.epoch = some plan.epoch) ∧
    ∀ a ∈ answersOf own (w.handleProposal peers sender plan).2, a.worker = own ∧ (a.ready = true →
      (w.handleProposal peers sender plan).1.epoch = some plan.epoch) := by
  constructor
  · intro h
    rcases w.handleProposal_epoch peers sender plan with ⟨hnew, -⟩ | ⟨hsame, -⟩
    · exact hnew
    · exact hsame.trans h
  · unfold handleProposal
    dsimp only
    split
    · simp [answersOf]
    · simp [answersOf]
    · intro a ha
      refine ⟨?_, fun _ => rfl⟩
      obtain ⟨e, -, he⟩ := List.mem_filterMap.mp ha
      split at he <;> cases he
      rfl

/-- What says that a worker is ready, on its way or recorded, is backed by the worker's epoch. -/
structure Exchange.Backed (x : Exchange) : Prop where
  answers : ∀ a ∈ x.answers, a.ready = true → (x.tasks a.worker).worker.epoch = some x.plan.epoch
  acks : ∀ w ack, x.cluster.acks (w, x.plan.epoch) = some ack → ack.ready = true →
    (x.tasks w).worker.epoch = some x.plan.epoch
  accepted : x.outcome = .accepted → x.Served x.plan

theorem Exchange.Backed.next (hx : x.Backed) (h : x.next l = some y) : y.Backed := by
  cases l with
  | send | sendFails =>
    simp only [Exchange.next] at h
    split at h <;> cases h
    exact ⟨hx.answers, hx.acks, fun h => by first | exact hx.accepted h | cases h⟩
  | loseProposal =>
    cases h
    exact ⟨hx.answers, hx.acks, hx.accepted⟩
  | loseAnswer =>
    cases h
    exact ⟨fun a ha => hx.answers a (List.mem_of_mem_eraseIdx ha), hx.acks, hx.accepted⟩
  | answer i =>
    obtain ⟨a, ha, rfl⟩ := Option.map_eq_some_iff.mp h
    refine ⟨fun b hb => hx.answers b (List.mem_of_mem_eraseIdx hb), fun w ack hack hready => ?_, hx.accepted⟩
    simp only [ClusterState.recordAck, Function.update_apply, Prod.mk.injEq] at hack
    split at hack
    · rename_i heq
      cases hack
      exact heq.1 ▸ hx.answers a (List.mem_of_getElem? ha) hready
    · exact hx.acks w ack hack hready
  | look timedOut =>
    simp only [Exchange.next] at h
    split at h
    · rename_i hgoing _
      cases h
      unfold look
      split
      · exact hx
      · rename_i hawait
        refine ⟨hx.answers, hx.acks, fun _ w hw => ?_⟩
        have hscan : x.cluster.scanAcks x.plan.epoch none x.labelled = .ok none := by
          unfold ClusterState.awaitAcks at hawait
          split at hawait
          · cases hawait
          · assumption
          · split at hawait <;> cases hawait
        obtain ⟨ack, hack, hready⟩ := (ClusterState.ready_of_scanAcks hscan).2 (w, x.labelOf w)
          (List.mem_map_of_mem hw)
        exact hx.acks w ack hack hready
      · exact ⟨hx.answers, hx.acks, fun h => by cases h⟩
    · cases h
  | propose i peers =>
    obtain ⟨w, hw, hdeliver⟩ := Option.bind_eq_some_iff.mp h
    obtain ⟨task, htask, rfl⟩ := Option.map_eq_some_iff.mp hdeliver
    obtain ⟨-, hworker, -⟩ := clusterTask_next htask
    obtain ⟨hkeeps, hready⟩ := (x.tasks w).worker.handleProposal_ready w peers x.own x.plan
    have hstays : ∀ v, (x.tasks v).worker.epoch = some x.plan.epoch →
        (Function.update x.tasks w task v).worker.epoch = some x.plan.epoch := by
      intro v hv
      by_cases heq : v = w
      · subst heq
        rw [update_self, hworker]
        exact hkeeps hv
      · rwa [update_of_ne heq]
    refine ⟨fun a ha hok => ?_, fun v ack hack hok => hstays v (hx.acks v ack hack hok),
      fun h v hv => hstays v (hx.accepted h v hv)⟩
    rcases List.mem_append.mp ha with hold | hnew
    · exact hstays _ (hx.answers a hold hok)
    · obtain ⟨hfrom, hepoch⟩ := hready a hnew
      show (Function.update x.tasks w task a.worker).worker.epoch = some x.plan.epoch
      rw [hfrom, update_self, hworker]
      exact hepoch hok

end OneBrain.Cluster
