import OneBrain.Cluster.Worker

/-!
# Loads, jobs and recoveries of a daemon

A head's daemon runs many tasks at once: loads that users request, one task for each
generation job, handlers of failed epochs, and handlers that plan again when a peer is
back. They share the cluster state, the engine host with its mailbox, and the retry
ledger, a lock with a memory of what became of each failed epoch.

## The model

A task is its program counter with the variables it carries along. A step is the piece of a
task from one `await` to the next; where a task looks at the active plan and later acts on it,
the two are separate steps, since tasks run on several threads and a load shows its plan
without taking the ledger. What the outside decides (whether a plan is found and which,
whether workers accept it, whether the host answers in time, which peers are known) is the
`Choice` of the step.

* The engine host is a mailbox and the model it has: it takes its messages in order, and
  one that replaces the model only when no attempt runs (`Host.take`). Of a model the plan
  it was loaded under is kept.
* `Job` is `run_supervised` with `handle_interrupted`: an attempt remembers the epoch that
  was active when it was sent; an interrupted attempt takes the ledger and either leads
  (tears down, plans again, reloads) or follows what a leader recorded.
* An activation is shared by loads, recoveries and rejoin handlers. Proposals, acks and
  bridges of a distributed plan come before the host is asked and may fail.

What has happened is recorded beside the source's variables: how often a job was
attempted, how many of these were not counted, the epoch that was shown when its last attempt
was sent and the model that ran on, and the errors its client got from the supervisor; and
for the daemon the failed epochs that were torn down, and those that were planned again.
-/

namespace OneBrain.Cluster

open OneBrain.Lib

/-! ### The engine host -/

/-- A message to the engine host; the answer goes to the task. -/
inductive HostMsg where
  | load (task : ℕ) (plan : Plan)
  | unload (task : ℕ)
  | serveShard (epoch : Epoch)
  | generate (task : ℕ)
  deriving DecidableEq

/-- An answer of the engine host. -/
inductive Reply where
  | loaded
  | loadFailed (message : String)
  | unloaded
  | finished
  | interrupted (error : String)
  deriving DecidableEq

/-- The engine host. -/
structure Host where
  /-- The loaded model, by the plan it was loaded under. -/
  model : Option Plan := none
  inbox : List HostMsg := []
  running : List ℕ := []
  gone : Bool := false
  deriving DecidableEq

/-! ### Tasks -/

/-- A plan that is being activated. -/
inductive Activation where
  /-- About to be proposed, if it is distributed, and handed to the host. -/
  | starting (plan : Plan)
  /-- The host has been asked to load. -/
  | waiting (plan : Plan)
  deriving DecidableEq

/-- The plan it activates. -/
def Activation.plan : Activation → Plan
  | .starting plan => plan
  | .waiting plan => plan

/-- A load that a user requested. -/
inductive LoadPc where
  | planning
  /-- The plan is being shown to the client. -/
  | planned (plan : Plan)
  | activating (a : Activation)
  deriving DecidableEq

/-- How a job is over. -/
inductive Ending where
  /-- The host finished it: done, cancelled, or ended with an error of its own. -/
  | finished
  | failed
  /-- The host thread ended with the job in it. -/
  | hostGone
  deriving DecidableEq

/-- Where a job is. -/
inductive JobPc where
  | starting
  /-- With the host; the epoch that was active when it was sent. -/
  | attempting (epoch : Option Epoch)
  | interrupted (epoch : Option Epoch) (error : String)
  /-- With the ledger: the epoch of the attempt was the active one, or the attempt has none. -/
  | checked (epoch : Option Epoch) (error : String)
  /-- Leading: the host has been told to unload. -/
  | unloading (failed : Option ActivePlanView) (source : Option LoadedSource) (error : String)
  /-- Leading: the view is cleared, the mesh is asked for its peers. -/
  | naming (failed : Option ActivePlanView) (source : Option LoadedSource) (error : String)
  | replanning (failed : Option ActivePlanView) (source : LoadedSource) (lost : String)
  | activating (failed : Option ActivePlanView) (source : LoadedSource) (lost : String) (a : Activation)
  /-- An error is on its way to the client. -/
  | failing (message : String)
  | done (ending : Ending)
  deriving DecidableEq

/-- A supervised job. -/
structure Job where
  pc : JobPc := .starting
  retriesUsed : ℕ := 0
  /-- How often it was sent to the host. -/
  attempts : ℕ := 0
  /-- How many of these were re-issues that did not count. -/
  uncounted : ℕ := 0
  /-- The epoch this node showed as head when the last attempt was sent. -/
  under : Option Epoch := none
  /-- The model the last attempt ran on. -/
  ranOn : Option Plan := none
  /-- The errors the supervisor sent to the client. -/
  errors : List String := []
  deriving DecidableEq

/-- A handler of a failed epoch. -/
inductive FailurePc where
  | waiting (epoch : Epoch)
  /-- With the ledger: the epoch was the active one and no job was counted. -/
  | checked (epoch : Epoch)
  | unloading (epoch : Epoch)
  deriving DecidableEq

/-- A handler that plans again after a rejoin. -/
inductive RejoinPc where
  | starting
  | waiting
  | planning (source : LoadedSource) (active : ActivePlanView)
  | activating (source : LoadedSource) (a : Activation)
  deriving DecidableEq

/-- A task, or the place of one that ended or was never started. -/
inductive Task where
  | ended
  | load (source : LoadedSource) (pc : LoadPc)
  | job (job : Job)
  /-- A request that was counted as a job, and is to be refused for want of room. -/
  | refused
  | failure (pc : FailurePc)
  | rejoin (pc : RejoinPc)
  deriving DecidableEq

/-! ### The ledger -/

/-- What became of a failed epoch. -/
inductive EpochOutcome where
  /-- Reloaded on a new plan; the name of the lost node. -/
  | reloaded (lost : String)
  | failed (message : String)
  deriving DecidableEq

/-- How many epochs back an outcome is kept. -/
def retainEpochs : ℕ := 32

/-- What became of failed epochs, under a lock. -/
structure RetryLedger where
  holder : Option ℕ := none
  outcomes : Epoch → Option EpochOutcome := fun _ => none

/-- Record the outcome of an epoch, and forget those too far back. -/
def RetryLedger.record (l : RetryLedger) (failed : Option Epoch) (outcome : EpochOutcome) : RetryLedger :=
  match failed with
  | none => l
  | some epoch =>
    { l with
      outcomes := fun e =>
        if epoch < e + retainEpochs then Function.update l.outcomes epoch (some outcome) e else none }

/-! ### Decisions and texts -/

/-- What is done with an interrupted attempt. -/
inductive InterruptedAction where
  | retryOnce
  | failTyped
  deriving DecidableEq

/-- Exactly one transparent retry for each job. -/
def decideInterrupted (retriesUsed : ℕ) : InterruptedAction :=
  if retriesUsed = 0 then .retryOnce else .failTyped

/-- The model no longer fits. -/
def lostNodeError (lost : String) (needsMb haveMb : ℕ) : String :=
  s!"the node '{lost}' was lost mid-generation and the remaining nodes cannot hold the " ++
    s!"model (needs {needsMb} MB, have {haveMb} MB); reconnect the node or choose a smaller model"

/-- The retry was interrupted too. -/
def retryExhaustedError (lost : String) : String :=
  s!"the node '{lost}' was lost mid-generation and the automatic retry failed too; " ++
    s!"check the cluster with `onebrain status` and retry the request"

/-- There is nothing to load again. -/
def unidentifiedError (error : String) : String :=
  s!"the distributed generation failed ({error}) and the loaded model could not be " ++
    s!"identified for a retry; reload it with `onebrain run`"

/-- The error of a follower of an epoch nobody recorded. -/
def unresolvedError (error : String) : String :=
  s!"the distributed generation failed ({error}); check the cluster with " ++
    s!"`onebrain status` and retry"

/-- The text of `ApiError::ShuttingDown`. -/
def shuttingDown : String := "the engine is busy shutting down"

/-- The text when the host thread ends during a load. -/
def hostExited : String := "the engine host exited unexpectedly; restart with `onebrain up`"

/-- What the mesh knows of a peer. -/
structure PeerStatus where
  id : NodeId
  name : String
  state : PeerState
  draining : Bool
  deriving DecidableEq

/-- The name of a peer, or the start of its id. -/
def peerName (peers : List PeerStatus) (id : NodeId) : String :=
  match peers.find? fun p => p.id = id with
  | some p => p.name
  | none => String.ofList (id.toList.take 8)

/-- The node lost to a failed epoch: one recorded as lost, or else one that is not
connected, or else the first worker. -/
def lostNodeLabel (assignments : List Assignment) (own : NodeId) (lost : List NodeId)
    (peers : List PeerStatus) : String :=
  let workers := assignments.filter fun a => a.node ≠ own
  let alive := fun id =>
    (peers.find? fun p => p.id = id).any fun p => p.state = .connected && !p.draining
  match workers.find? fun a => a.node ∈ lost with
  | some a => peerName peers a.node
  | none =>
    match workers.find? fun a => !alive a.node with
    | some a => peerName peers a.node
    | none =>
      match workers.head? with
      | some a => peerName peers a.node
      | none => "unknown"

/-- The epoch of a view. -/
def epochOf (view : Option ActivePlanView) : Option Epoch := view.map fun v => v.plan.epoch

/-- How planning failed. -/
inductive PlanLoadError where
  | doesNotFit (requiredMb availableMb : ℕ) (message : String)
  | other (message : String)
  deriving DecidableEq

/-- The text of an error. -/
def PlanLoadError.message : PlanLoadError → String
  | .doesNotFit _ _ message => message
  | .other message => message

/-- Mark the active epoch failed. -/
def ClusterState.markActiveFailed (c : ClusterState) : ClusterState :=
  match c.active with
  | some v => (c.markEpochFailed v.plan.epoch none).2
  | none => c

/-! ### The daemon -/

/-- The daemon. -/
structure Daemon where
  own : NodeId := "head"
  ctxLen : ℕ := 4096
  cluster : ClusterState := {}
  host : Host := {}
  ledger : RetryLedger := {}
  /-- Tasks, by number; the numbers from `fresh` on are not used yet. -/
  tasks : ℕ → Task := fun _ => .ended
  fresh : ℕ := 0
  /-- Answers of the host that were not taken yet. -/
  replies : ℕ → Option Reply := fun _ => none
  /-- The channel to the client of a job is full, and the client has not left. -/
  full : ℕ → Bool := fun _ => false
  /-- Failed epochs whose model was unloaded and whose view was cleared. -/
  torn : List Epoch := []
  /-- Failed epochs for which a recovery planned again. -/
  replanned : List Epoch := []

namespace Daemon

/-- Whether a place holds a job that is not over. -/
def inflight : Task → Bool
  | .job job =>
    match job.pc with
    | .done _ => false
    | _ => true
  | _ => false

/-- Whether a place is counted as a job, as in `Rejoin.jobs`: a request is counted before it
is known whether there is room for it, so also one that will be refused. -/
def counted : Task → Bool
  | .refused => true
  | t => inflight t

/-- The counter of jobs is at zero. -/
def idle (s : Daemon) : Bool := (List.range s.fresh).all fun i => !counted (s.tasks i)

/-- A task goes on. -/
@[simps] def put (s : Daemon) (i : ℕ) (t : Task) : Daemon := { s with tasks := Function.update s.tasks i t }

/-- A new task. -/
def spawn (s : Daemon) (t : Task) : Daemon := { s.put s.fresh t with fresh := s.fresh + 1 }

/-- Put a message in the host's mailbox. An answer to an earlier one is no longer awaited. -/
@[simps] def send (s : Daemon) (i : ℕ) (msg : HostMsg) : Daemon :=
  { s with
    host := { s.host with inbox := s.host.inbox ++ [msg] }
    replies := Function.update s.replies i none }

/-- A change of the cluster state. -/
@[simps] def updateCluster (s : Daemon) (f : ClusterState → ClusterState) : Daemon := { s with cluster := f s.cluster }

/-- Give the ledger back. -/
@[simps] def unlock (s : Daemon) : Daemon := { s with ledger := { s.ledger with holder := none } }

/-- A task takes the ledger. -/
@[simps] def lock (s : Daemon) (i : ℕ) : Daemon := { s with ledger := { s.ledger with holder := some i } }

/-- What became of an epoch is recorded. -/
@[simps] def record (s : Daemon) (failed : Option Epoch) (outcome : EpochOutcome) : Daemon :=
  { s with ledger := s.ledger.record failed outcome }

/-- Note that an epoch was torn down. -/
@[simps] def tear (s : Daemon) (failed : Option Epoch) : Daemon := { s with torn := s.torn ++ failed.toList }

/-- The epoch of the view. -/
def activeEpoch (s : Daemon) : Option Epoch := epochOf s.cluster.active

/-- The plan that this node shows as its head. -/
def headPlan (s : Daemon) : Option Plan :=
  s.cluster.active.bind fun v => if v.role = .head then some v.plan else none

/-- The epoch this node shows as head. -/
def shownEpoch (s : Daemon) : Option Epoch := s.headPlan.map Plan.epoch

/-- Show a plan that was loaded, with where it came from. -/
def install (s : Daemon) (plan : Plan) (source : LoadedSource) : Daemon :=
  s.updateCluster fun c => (c.setActive (some { role := .head, plan })).noteLoaded source

/-! ### What the outside decides -/

/-- What a task finds when it goes on. -/
inductive Choice where
  | go
  | planFails (error : PlanLoadError)
  | plans (strategy : Strategy) (assignments : List Assignment)
  /-- The client of a load is gone. -/
  | abandon
  /-- A proposal could not be sent, was not accepted, or a bridge could not be set up. -/
  | fails (message : String)
  /-- The host did not answer in time. -/
  | timeout
  | peers (peers : List PeerStatus)

/-- A plan gets its epoch. -/
def stamp (s : Daemon) (model : String) (strategy : Strategy) (assignments : List Assignment) :
    Plan × Daemon :=
  match strategy with
  | .solo => ({ epoch := 0, model, strategy, assignments, ctxLen := s.ctxLen }, s)
  | .pipelineParallel =>
    ({ epoch := s.cluster.nextEpoch.1, model, strategy, assignments, ctxLen := s.ctxLen },
      s.updateCluster fun c => c.nextEpoch.2)

/-- The result of a step of an activation. -/
inductive Activated where
  | asked
  | ready
  /-- It failed; `clear_loaded` is done where the source does it. -/
  | failed (message : String)

/-- An activation goes on. -/
def activate (s : Daemon) (i : ℕ) (source : LoadedSource) (a : Activation) (c : Choice) :
    Option (Activated × Daemon) :=
  match a, c with
  | .starting plan, .fails message =>
    if plan.strategy = .solo then none else some (.failed message, s)
  | .starting plan, .go =>
    if s.host.gone then some (.failed shuttingDown, s) else some (.asked, s.send i (.load i plan))
  | .waiting plan, .go =>
    match s.replies i with
    | some .loaded => some (.ready, s.install plan source)
    | some (.loadFailed message) => some (.failed message, s.updateCluster ClusterState.clearLoaded)
    | _ => if s.host.gone then some (.failed hostExited, s.updateCluster ClusterState.clearLoaded) else none
  | _, _ => none

/-! ### Loads -/

/-- A step of a load. -/
def loadStep (s : Daemon) (i : ℕ) (source : LoadedSource) : LoadPc → Choice → Option Daemon
  | .planning, .planFails _ => some (s.put i .ended)
  | .planning, .plans strategy assignments =>
    let (plan, s') := s.stamp source.name strategy assignments
    some (s'.put i (.load source (.planned plan)))
  | .planned _, .abandon => some (s.put i .ended)
  | .planned plan, .go => some (s.put i (.load source (.activating (.starting plan))))
  | .activating a, c =>
    match s.activate i source a c with
    | none => none
    | some (.asked, s') => some (s'.put i (.load source (.activating (.waiting a.plan))))
    | some (.ready, s') => some (s'.put i .ended)
    | some (.failed _, s') => some (s'.put i .ended)
  | _, _ => none

/-! ### Jobs -/

/-- An attempt is sent to the host. -/
def startAttempt (s : Daemon) (i : ℕ) (job : Job) : Daemon :=
  if s.host.gone then s.put i (.job { job with pc := .failing shuttingDown })
  else
    (s.send i (.generate i)).put i
      (.job { job with
        pc := .attempting s.activeEpoch, attempts := job.attempts + 1
        under := s.shownEpoch, ranOn := none })

/-- A leader gives up: the model is forgotten, the outcome recorded, the ledger given back,
and the error goes to the client. -/
def giveUp (s : Daemon) (i : ℕ) (job : Job) (failed : Option ActivePlanView) (message : String) : Daemon :=
  (((s.updateCluster ClusterState.clearLoaded).record (epochOf failed)
    (.failed message)).unlock).put i (.job { job with pc := .failing message })

/-- A follower resolves from the ledger. -/
def follow (s : Daemon) (i : ℕ) (job : Job) (epoch : Epoch) (error : String) : Daemon :=
  match s.ledger.outcomes epoch with
  | some (.reloaded lost) =>
    match decideInterrupted job.retriesUsed with
    | .failTyped => s.put i (.job { job with pc := .failing (retryExhaustedError lost) })
    | .retryOnce => s.startAttempt i { job with retriesUsed := job.retriesUsed + 1 }
  | some (.failed message) => s.put i (.job { job with pc := .failing message })
  | none =>
    -- The epoch changed hands without a recorded failure: a re-issue that does not count.
    if decideInterrupted job.retriesUsed = .retryOnce ∧ s.cluster.loadedSource.isSome then
      s.startAttempt i { job with uncounted := job.uncounted + 1 }
    else s.put i (.job { job with pc := .failing (unresolvedError error) })

/-- A leader begins: the epoch that is active now is captured and marked, and the host told
to unload. Nothing is sent when the host thread is gone. -/
def lead (s : Daemon) (i : ℕ) (job : Job) (error : String) : Daemon :=
  let marked := s.updateCluster ClusterState.markActiveFailed
  let told := if s.host.gone then marked else marked.send i (.unload i)
  told.put i (.job { job with pc := .unloading s.cluster.active s.cluster.loadedSource error })

/-- The reload of a leader succeeded. -/
def recovered (s : Daemon) (i : ℕ) (job : Job) (failed : Option ActivePlanView) (lost : String) :
    Daemon :=
  ((s.record (epochOf failed) (.reloaded lost)).unlock).startAttempt i
    { job with retriesUsed := job.retriesUsed + 1 }

/-- A step of a job. -/
def jobStep (s : Daemon) (i : ℕ) (job : Job) (c : Choice) : Option Daemon :=
  match job.pc, c with
  | .starting, .go => some (s.startAttempt i job)
  | .attempting epoch, .go =>
    match s.replies i with
    | some .finished => some (s.put i (.job { job with pc := .done .finished }))
    | some (.interrupted error) => some (s.put i (.job { job with pc := .interrupted epoch error }))
    | _ => if s.host.gone then some (s.put i (.job { job with pc := .done .hostGone })) else none
  | .interrupted epoch error, .go =>
    if s.ledger.holder ≠ none then none
    else
      let leads := (s.lock i).put i (.job { job with pc := .checked epoch error })
      match epoch with
      | some e => some (if s.activeEpoch = some e then leads else s.follow i job e error)
      | none => some leads
  | .checked _ error, .go => some (s.lead i job error)
  | .unloading failed source error, choice =>
    -- The bridges are closed and the view is cleared, whether or not the host confirmed.
    let cleared := ((s.updateCluster fun c => c.setActive none).tear (epochOf failed)).put i
      (.job { job with pc := .naming failed source error })
    match choice with
    | .timeout => some cleared
    | .go => if s.replies i = some .unloaded ∨ s.host.gone then some cleared else none
    | _ => none
  | .naming failed source error, .peers peers =>
    let lost :=
      match failed with
      | some v => lostNodeLabel v.plan.assignments s.own (s.cluster.epochLostPeers v.plan.epoch) peers
      | none => "unknown"
    match decideInterrupted job.retriesUsed, source with
    | .failTyped, _ => some (s.giveUp i job failed (retryExhaustedError lost))
    | .retryOnce, none => some (s.giveUp i job failed (unidentifiedError error))
    | .retryOnce, some src =>
      some ({ s with replanned := s.replanned ++ (epochOf failed).toList }.put i
        (.job { job with pc := .replanning failed src lost }))
  | .replanning failed _ lost, .planFails e =>
    some (s.giveUp i job failed
      (match e with
        | .doesNotFit requiredMb availableMb _ => lostNodeError lost requiredMb availableMb
        | .other message => message))
  | .replanning failed source lost, .plans strategy assignments =>
    let (plan, s') := s.stamp source.name strategy assignments
    some (s'.put i (.job { job with pc := .activating failed source lost (.starting plan) }))
  | .activating failed source lost a, c =>
    match s.activate i source a c with
    | none => none
    | some (.asked, s') =>
      some (s'.put i (.job { job with pc := .activating failed source lost (.waiting a.plan) }))
    | some (.ready, s') => some (s'.recovered i job failed lost)
    | some (.failed message, s') => some (s'.giveUp i job failed message)
  | .failing message, .go =>
    -- The channel is bounded: the send waits for room, or for the client to leave.
    if s.full i then none
    else some (s.put i (.job { job with pc := .done .failed, errors := job.errors ++ [message] }))
  | _, _ => none

/-! ### Handlers -/

/-- A step of a failure handler. -/
def failureStep (s : Daemon) (i : ℕ) : FailurePc → Choice → Option Daemon
  | .waiting epoch, .go =>
    if s.ledger.holder ≠ none then none
    else
      match s.cluster.active with
      | none => some (s.put i .ended)
      | some active =>
        if active.role ≠ .head ∨ active.plan.epoch ≠ epoch then some (s.put i .ended)
        else if !s.idle then some (s.put i .ended)
        else some ((s.lock i).put i (.failure (.checked epoch)))
  | .checked epoch, .go =>
    let told := if s.host.gone then s else s.send i (.unload i)
    some (told.put i (.failure (.unloading epoch)))
  | .unloading epoch, choice =>
    let cleared := (((s.updateCluster fun c => (c.setActive none).clearLoaded).tear (some epoch)).unlock).put i
      .ended
    match choice with
    | .timeout => some cleared
    | .go => if s.replies i = some .unloaded ∨ s.host.gone then some cleared else none
    | _ => none
  | _, _ => none

/-- A step of a rejoin handler. -/
def rejoinStep (s : Daemon) (i : ℕ) : RejoinPc → Choice → Option Daemon
  | .starting, .go =>
    if s.cluster.rejoinRequested then
      some ((s.updateCluster fun c => c.takeRejoinRequest.2).put i (.rejoin .waiting))
    else some (s.put i .ended)
  | .waiting, .go =>
    if s.ledger.holder ≠ none then none
    else
      match s.cluster.loadedSource, s.cluster.active with
      | some source, some active =>
        if active.role ≠ .head then some (s.put i .ended)
        else if !s.idle then
          -- A busy host puts the request back; it is looked at again after the last job.
          some ((s.updateCluster ClusterState.requestRejoinReplan).put i .ended)
        else some ((s.lock i).put i (.rejoin (.planning source active)))
      | _, _ => some (s.put i .ended)
  | .planning _ _, .planFails _ => some (s.unlock.put i .ended)
  | .planning source active, .plans strategy assignments =>
    let (plan, s') := s.stamp source.name strategy assignments
    if strategy = active.plan.strategy ∧ assignments = active.plan.assignments then
      some (s'.unlock.put i .ended)
    else some (s'.put i (.rejoin (.activating source (.starting plan))))
  | .activating source a, c =>
    match s.activate i source a c with
    | none => none
    | some (.asked, s') => some (s'.put i (.rejoin (.activating source (.waiting a.plan))))
    | some (.ready, s') => some (s'.unlock.put i .ended)
    | some (.failed _, s') => some ((s'.updateCluster ClusterState.clearLoaded).unlock.put i .ended)
  | _, _ => none

/-- A step of a task. -/
def taskStep (s : Daemon) (i : ℕ) (c : Choice) : Option Daemon :=
  match s.tasks i with
  | .ended => none
  | .load source pc => s.loadStep i source pc c
  | .job job => s.jobStep i job c
  | .refused =>
    match c with
    | .go => some (s.put i .ended)
    | _ => none
  | .failure pc => s.failureStep i pc c
  | .rejoin pc => s.rejoinStep i pc c

/-! ### The host -/

/-- What the host does next. -/
inductive HostAct where
  /-- It takes its next message; a load may fail. -/
  | take (failure : Option String)
  | finish (i : ℕ)
  /-- A decode of a distributed model fails under an attempt. -/
  | interrupt (i : ℕ) (error : String)
  | exit

/-- Answer a task. -/
@[simps] def reply (s : Daemon) (i : ℕ) (r : Reply) : Daemon :=
  { s with replies := Function.update s.replies i (some r) }

/-- The task of a job that is run on a model. -/
def ranTask (plan : Plan) : Task → Task
  | .job job => .job { job with ranOn := some plan }
  | t => t

/-- The host takes a message: a generation any time, one that replaces the model when no
attempt runs. -/
def hostTakes (s : Daemon) (msg : HostMsg) (rest : List HostMsg) (failure : Option String) : Option Daemon :=
  match msg with
  | .generate i =>
    match s.host.model with
    | none => some ({ s with host := { s.host with inbox := rest } }.reply i .finished)
    | some plan =>
      some ({ s with host := { s.host with inbox := rest, running := s.host.running ++ [i] } }.put i
        (ranTask plan (s.tasks i)))
  | .load i plan =>
    if s.host.running ≠ [] then none
    else
      match failure with
      | some message =>
        some ({ s with host := { s.host with inbox := rest, model := none } }.reply i (.loadFailed message))
      | none => some ({ s with host := { s.host with inbox := rest, model := some plan } }.reply i .loaded)
  | .unload i =>
    if s.host.running ≠ [] then none
    else some ({ s with host := { s.host with inbox := rest, model := none } }.reply i .unloaded)
  | .serveShard _ =>
    if s.host.running ≠ [] then none
    else some { s with host := { s.host with inbox := rest, model := none } }

/-- A step of the host. -/
def hostStep (s : Daemon) (act : HostAct) : Option Daemon :=
  if s.host.gone then none
  else
    match act with
    | .take failure =>
      match s.host.inbox with
      | [] => none
      | msg :: rest => s.hostTakes msg rest failure
    | .finish i =>
      if i ∈ s.host.running then
        some ({ s with host := { s.host with running := s.host.running.erase i } }.reply i .finished)
      else none
    | .interrupt i error =>
      if i ∈ s.host.running ∧ s.host.model.any fun p => p.strategy ≠ .solo then
        some ({ s with host := { s.host with running := s.host.running.erase i } }.reply i (.interrupted error))
      else none
    | .exit => some { s with host := { model := none, inbox := [], running := [], gone := true } }

/-! ### The machine -/

/-- What can happen next. -/
inductive Label where
  | submit
  /-- A request is counted beyond the limit. -/
  | overload
  /-- An attempt's events fill the channel to its client. -/
  | fills (i : ℕ)
  /-- The client of a job reads an event, or leaves. -/
  | drains (i : ℕ)
  | load (source : LoadedSource)
  /-- A peer of the active plan is lost. -/
  | peerLost (peer : NodeId)
  /-- A stream over a bridge to a peer tears. The bridges of an epoch are up from its
  activation to its teardown; which are up is left open. -/
  | bridgeTears (epoch : Epoch) (peer : NodeId)
  | peerBack
  /-- A job that ended looks whether to plan again. -/
  | rejoinCheck
  /-- A plan of another head is adopted. -/
  | adopt (head : NodeId) (plan : Plan)
  | step (i : ℕ) (c : Choice)
  | host (act : HostAct)

/-- One step. -/
def next (s : Daemon) : Label → Option Daemon
  | .submit => some (s.spawn (.job {}))
  | .overload => some (s.spawn .refused)
  | .fills i => if i ∈ s.host.running then some { s with full := Function.update s.full i true } else none
  | .drains i => some { s with full := Function.update s.full i false }
  | .load source => some (s.spawn (.load source .planning))
  | .peerLost peer =>
    match s.cluster.active with
    | none => none
    | some active =>
      if active.role ≠ .head ∨ active.plan.strategy = .solo then none
      else if ¬ active.plan.assignments.any (fun a => a.node = peer) then none
      else
        some ((s.updateCluster fun c => (c.markEpochFailed active.plan.epoch (some peer)).2).spawn
          (.failure (.waiting active.plan.epoch)))
  | .bridgeTears epoch peer => some (s.updateCluster fun c => (c.markEpochFailed epoch (some peer)).2)
  | .peerBack =>
    if (s.cluster.active.any fun a => a.role = .head) && s.cluster.loadedSource.isSome then
      some ((s.updateCluster ClusterState.requestRejoinReplan).spawn (.rejoin .starting))
    else none
  | .rejoinCheck => some (s.spawn (.rejoin .starting))
  | .adopt head plan =>
    let told : Host := { s.host with inbox := s.host.inbox ++ [.serveShard plan.epoch] }
    some ({ s with host := told }.updateCluster fun c =>
      (c.setActive (some { role := .worker, plan })).setWorkerShard (some (plan.epoch, head)))
  | .step i c => s.taskStep i c
  | .host act => s.hostStep act

end Daemon

/-- The daemon as a machine. -/
def daemon : Machine Daemon Daemon.Label where
  start := {}
  next := Daemon.next

end OneBrain.Cluster
