import OneBrain.Cluster.State
import OneBrain.Lib.Runs

/-!
# The cluster task of a daemon

One task per daemon takes the mesh's control messages, `rpc` streams and peer events, one
at a time. As a worker it adopts plans that paired heads propose, and bridges the `rpc`
streams of the adopted plan's head into the engine; every other stream is refused. As a
head it records the answers of its workers and marks epochs failed.

## The model

* `handle` — what the task does with one event: the state after it, and what it did to the
  outside (`Effect`), in order. The task handles an event to its end before it takes the
  next one, so an event is one step; what runs beside the task are the pumps of bridged
  streams, whose natural end is an event of its own, and the delayed checks a last pump
  starts.
* The count of live streams of an adopted plan is a cell shared with the pumps and checks
  of that plan, which may outlive it: cells are numbered by adoption.
* The mesh's answer to "who is paired" is part of the event: `none` when asking failed.
  Whether the engine can start a serve session, and whether its socket can be wrapped, are
  part of the event too.

The range fetch that an adoption starts in the background only touches files, and is not
part of this state.
-/

namespace OneBrain.Cluster

open OneBrain.Lib

/-! ### Fencing -/

/-- What a worker decides about a proposal. -/
inductive ProposalDecision where
  /-- The sender is not paired: no state change, no reply. -/
  | ignore
  /-- A stale epoch: replied with a refusal. -/
  | reject (reason : String)
  /-- A newer epoch of a paired peer. -/
  | adopt
  deriving DecidableEq

/-- Only a paired sender may propose, and only an epoch newer than the active one. -/
def decideProposal (active : Option Epoch) (senderPaired : Bool) (proposed : Epoch) :
    ProposalDecision :=
  if !senderPaired then .ignore
  else
    match active with
    | some current =>
      if proposed ≤ current then
        .reject s!"epoch {proposed} is not newer than the active epoch {current} (stale plans are fenced)"
      else .adopt
    | none => .adopt

/-- An `rpc` stream a peer opened: its epoch is the one its header declares. -/
structure RpcStream where
  id : ℕ
  peer : NodeId
  epoch : Epoch
  deriving DecidableEq, Repr

/-- A bridged stream; `live` until its pump ends. -/
structure WorkerServe where
  stream : RpcStream
  live : Bool
  deriving DecidableEq, Repr

/-- The plan a worker serves. -/
structure AdoptedPlan where
  epoch : Epoch
  head : NodeId
  serves : List WorkerServe
  /-- The cell with the number of live streams. -/
  cell : ℕ
  deriving DecidableEq, Repr

/-- A delayed check whether an epoch is still without streams. -/
structure RetireCheck where
  epoch : Epoch
  cell : ℕ
  deriving DecidableEq, Repr

/-- What the task does to the outside. -/
inductive Effect where
  | planAck (peer : NodeId) (epoch : Epoch) (ready : Bool) (detail : Option String)
  | adopted (epoch : Epoch) (head : NodeId)
  /-- The sessions of a replaced plan are stopped. -/
  | teardown (plan : AdoptedPlan)
  /-- Tell the engine to drop its model and serve. -/
  | serveShard (epoch : Epoch)
  | bridge (stream : RpcStream)
  /-- Close a stream with an error code. -/
  | refuse (stream : RpcStream) (code : ℕ)
  /-- Tell the supervisor that an epoch failed. -/
  | epochFailed (epoch : Epoch)
  /-- Tell the supervisor that a peer is back. -/
  | peerRejoined
  deriving DecidableEq

/-- The state of the task. -/
structure Worker where
  cluster : ClusterState := {}
  adopted : Option AdoptedPlan := none
  fresh : ℕ := 0
  liveStreams : ℕ → ℕ := fun _ => 0
  checks : List RetireCheck := []
  /-- The mesh service has stopped, and the task with it. -/
  stopped : Bool := false

/-- Its epoch. -/
def Worker.epoch (w : Worker) : Option Epoch := w.adopted.map AdoptedPlan.epoch

/-- The streams that are served. -/
def Worker.openStreams (w : Worker) : List WorkerServe :=
  match w.adopted with
  | some plan => plan.serves.filter WorkerServe.live
  | none => []

/-! ### Control messages -/

/-- A control message of a peer. -/
inductive Message where
  | planProposal (plan : Plan)
  | planAck (epoch : Epoch) (ready : Bool) (detail : Option String)
  | nodeStatus
  | draining (epoch : Epoch) (reason : String)
  | other
  deriving DecidableEq

/-- Adopt a plan in the place of the one before. -/
def Worker.adopt (w : Worker) (sender : NodeId) (plan : Plan) : Worker :=
  { w with
    cluster := (w.cluster.setActive (some { role := .worker, plan })).setWorkerShard
      (some (plan.epoch, sender))
    adopted := some { epoch := plan.epoch, head := sender, serves := [], cell := w.fresh }
    fresh := w.fresh + 1
    liveStreams := Function.update w.liveStreams w.fresh 0 }

/-- A proposal arrived. `peers` is the mesh's list of paired peers, if it answered. -/
def Worker.handleProposal (w : Worker) (peers : Option (List NodeId)) (sender : NodeId) (plan : Plan) :
    Worker × List Effect :=
  let senderPaired :=
    match peers with
    | some ids => ids.contains sender
    | none => false
  match decideProposal w.epoch senderPaired plan.epoch with
  | .ignore => (w, [])
  | .reject reason => (w, [.planAck sender plan.epoch false (some reason)])
  | .adopt =>
    (w.adopt sender plan,
      w.adopted.toList.map .teardown ++
        [.serveShard plan.epoch, .adopted plan.epoch sender, .planAck sender plan.epoch true none])

/-- A control message. -/
def Worker.handleControl (w : Worker) (peers : Option (List NodeId)) (sender : NodeId) (msg : Message) :
    Worker × List Effect :=
  match msg with
  | .planProposal plan => w.handleProposal peers sender plan
  | .planAck epoch ready detail =>
    ({ w with cluster := w.cluster.recordAck sender epoch ready detail }, [])
  | .nodeStatus | .draining _ _ | .other => (w, [])

/-! ### Streams -/

/-- The close code of a stream with the wrong epoch. -/
def badEpoch : ℕ := 4

/-- Bridge a stream of the adopted plan. Every accepted stream asserts the shard again. -/
def Worker.bridge (w : Worker) (plan : AdoptedPlan) (stream : RpcStream) : Worker :=
  { w with
    cluster := w.cluster.setWorkerShard (some (plan.epoch, plan.head))
    adopted := some { plan with serves := plan.serves ++ [{ stream, live := true }] }
    liveStreams := Function.update w.liveStreams plan.cell (w.liveStreams plan.cell + 1) }

/-- A stream of a head is taken on or refused. -/
def Worker.handleRpcStream (w : Worker) (stream : RpcStream) (sessionStarts bridgeWraps : Bool) :
    Worker × List Effect :=
  match w.adopted with
  | none => (w, [.refuse stream badEpoch])
  | some plan =>
    if stream.epoch ≠ plan.epoch ∨ stream.peer ≠ plan.head then (w, [.refuse stream badEpoch])
    else if !sessionStarts then (w, [.refuse stream badEpoch])
    else if !bridgeWraps then (w, [.refuse stream badEpoch])
    else (w.bridge plan stream, [.bridge stream])

/-- Mark the first open serve of a stream as ended. -/
def endServe (id : ℕ) : List WorkerServe → Option (List WorkerServe)
  | [] => none
  | serve :: serves =>
    if serve.stream.id = id ∧ serve.live then some ({ serve with live := false } :: serves)
    else (endServe id serves).map (serve :: ·)

/-- The pump of a stream of the adopted plan ended by itself. The last one starts a check;
pumps of replaced plans were aborted and do not come here. -/
def Worker.pumpEnds (w : Worker) (id : ℕ) : Worker :=
  match w.adopted with
  | none => w
  | some plan =>
    match endServe id plan.serves with
    | none => w
    | some serves =>
      { w with
        adopted := some { plan with serves }
        liveStreams := Function.update w.liveStreams plan.cell (w.liveStreams plan.cell - 1)
        checks := if w.liveStreams plan.cell ≠ 1 then w.checks
          else w.checks ++ [{ epoch := plan.epoch, cell := plan.cell }] }

/-- A delayed check runs. -/
def Worker.retireCheck (w : Worker) (i : ℕ) : Worker :=
  match w.checks[i]? with
  | none => w
  | some check =>
    { w with
      cluster := if w.liveStreams check.cell = 0 then w.cluster.clearWorkerShardFor check.epoch
        else w.cluster
      checks := w.checks.eraseIdx i }

/-! ### Peers -/

/-- What the mesh reports about a peer. -/
inductive PeerState where
  | unknown
  | reachable
  | connected
  | suspect
  | down
  | incompatible
  | draining
  deriving DecidableEq, Repr

/-- A peer of the active plan of this head is lost, or a peer is back. -/
def Worker.handlePeerEvent (w : Worker) (peer : NodeId) (state : PeerState) : Worker × List Effect :=
  match state with
  | .down | .draining =>
    match w.cluster.active with
    | none => (w, [])
    | some active =>
      if active.role ≠ .head ∨ active.plan.strategy = .solo then (w, [])
      else if ¬ active.plan.assignments.any (fun a => a.node = peer) then (w, [])
      else
        ({ w with cluster := (w.cluster.markEpochFailed active.plan.epoch (some peer)).2 },
          [.epochFailed active.plan.epoch])
  | .connected =>
    if (w.cluster.active.any fun a => a.role = .head) && w.cluster.loadedSource.isSome then
      ({ w with cluster := w.cluster.requestRejoinReplan }, [.peerRejoined])
    else (w, [])
  | _ => (w, [])

/-! ### The task -/

/-- What the task takes next, and what happens beside it. -/
inductive Event where
  | control (peers : Option (List NodeId)) (sender : NodeId) (msg : Message)
  | rpcStream (stream : RpcStream) (sessionStarts bridgeWraps : Bool)
  | peerEvent (peer : NodeId) (state : PeerState)
  | pumpEnds (id : ℕ)
  | retireCheck (i : ℕ)
  /-- All channels of the mesh are closed. -/
  | meshStops

/-- One event. -/
def Worker.handle (w : Worker) : Event → Worker × List Effect
  | .control peers sender msg => w.handleControl peers sender msg
  | .rpcStream stream sessionStarts bridgeWraps => w.handleRpcStream stream sessionStarts bridgeWraps
  | .peerEvent peer state => w.handlePeerEvent peer state
  | .pumpEnds id => (w.pumpEnds id, [])
  | .retireCheck i => (w.retireCheck i, [])
  | .meshStops => ({ w with adopted := none, stopped := true }, w.adopted.toList.map .teardown)

/-- The task and all it has done so far. -/
structure WorkerRun where
  worker : Worker := {}
  effects : List Effect := []

/-- The task as a machine. A stopped task takes nothing. -/
def clusterTask : Machine WorkerRun Event where
  start := {}
  next r event :=
    if r.worker.stopped then none
    else some {
      worker := (r.worker.handle event).1
      effects := r.effects ++ (r.worker.handle event).2 }

end OneBrain.Cluster
