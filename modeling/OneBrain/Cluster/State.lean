import Mathlib.Data.List.Basic
import Mathlib.Logic.Function.Basic

/-!
# Plans and the cluster state of a daemon

Every daemon keeps one record of its part in the cluster: the counter its plans' epochs
are stamped from, the plan it shows as active, the answers of workers to its proposals,
the epochs that failed and the peers lost to them, where the loaded model came from, a
latched request to plan again, and the shard it serves for another head. The record is
shared by the load flow, the supervisor and the cluster task; each operation here is one
critical section of the source.

## The model

Epochs are numbers; a counter of 64 bits is not exhausted in the life of a daemon, so it
is not taken modulo anything. Hash maps are functions from keys to optional values. The
texts of errors are those of the source. Of a plan's view only the role and the plan are
kept: the explanation and the predicted times are for display.
-/

namespace OneBrain.Cluster

/-- A node: its mesh public key. -/
abbrev NodeId := String

/-- A plan's generation. -/
abbrev Epoch := ℕ

/-- A range of layers, the end exclusive. -/
structure LayerRange where
  start : ℕ
  stop : ℕ
  deriving DecidableEq, Repr

/-- How a plan runs across nodes. -/
inductive Strategy where
  | solo
  /-- Layer ranges, one node after the other. -/
  | pipelineParallel
  deriving DecidableEq, Repr

/-- One node's part of a plan. -/
structure Assignment where
  node : NodeId
  layers : LayerRange
  stage : ℕ
  deriving DecidableEq, Repr

/-- A placement with its epoch. -/
structure Plan where
  epoch : Epoch
  model : String
  strategy : Strategy
  assignments : List Assignment
  ctxLen : ℕ
  deriving DecidableEq, Repr

/-- The workers of a plan: its nodes but the head, in stage order. -/
def Plan.workers (p : Plan) (own : NodeId) : List NodeId :=
  (p.assignments.map Assignment.node).filter fun n => n ≠ own

/-- What a node is in its active plan. -/
inductive Role where
  | head
  | worker
  deriving DecidableEq, Repr

/-- The plan shown as active. -/
structure ActivePlanView where
  role : Role
  plan : Plan
  deriving DecidableEq, Repr

/-- A worker's answer to a proposal. -/
structure AckResult where
  ready : Bool
  detail : Option String
  deriving DecidableEq, Repr

/-- Where the loaded model came from. -/
structure LoadedSource where
  reference : String
  name : String
  paths : List String
  sizeBytes : ℕ
  draftReference : Option String
  deriving DecidableEq, Repr

/-- The shared state of the cluster. -/
structure ClusterState where
  epochCounter : ℕ := 0
  active : Option ActivePlanView := none
  acks : NodeId × Epoch → Option AckResult := fun _ => none
  /-- Failed epochs, each with the peers lost to it. -/
  failed : Epoch → Option (List NodeId) := fun _ => none
  loadedSource : Option LoadedSource := none
  rejoinRequested : Bool := false
  /-- The shard this node serves: its epoch, and the head it is served for. -/
  workerShard : Option (Epoch × NodeId) := none

namespace ClusterState

/-- Stamp the next plan epoch; the first is 1. -/
def nextEpoch (s : ClusterState) : Epoch × ClusterState :=
  (s.epochCounter + 1, { s with epochCounter := s.epochCounter + 1 })

/-- Replace or clear the active plan. -/
def setActive (s : ClusterState) (view : Option ActivePlanView) : ClusterState :=
  { s with active := view }

/-- Record a worker's answer. -/
def recordAck (s : ClusterState) (peer : NodeId) (epoch : Epoch) (ready : Bool) (detail : Option String) :
    ClusterState :=
  { s with acks := Function.update s.acks (peer, epoch) (some { ready, detail }) }

/-- Mark an epoch failed, with the lost peer when it is known. The flag says whether this
was news. -/
def markEpochFailed (s : ClusterState) (epoch : Epoch) (lostPeer : Option NodeId) :
    Bool × ClusterState :=
  match s.failed epoch, lostPeer with
  | none, peer => (true, { s with failed := Function.update s.failed epoch (some peer.toList) })
  | some peers, some peer =>
    if peer ∈ peers then (false, s)
    else (true, { s with failed := Function.update s.failed epoch (some (peers ++ [peer])) })
  | some _, none => (false, s)

/-- Whether an epoch was marked failed. -/
def isEpochFailed (s : ClusterState) (epoch : Epoch) : Bool := (s.failed epoch).isSome

/-- The peers lost under an epoch. -/
def epochLostPeers (s : ClusterState) (epoch : Epoch) : List NodeId := (s.failed epoch).getD []

/-- Record where the loaded model came from. -/
def noteLoaded (s : ClusterState) (source : LoadedSource) : ClusterState :=
  { s with loadedSource := some source }

/-- Forget where the loaded model came from. -/
def clearLoaded (s : ClusterState) : ClusterState := { s with loadedSource := none }

/-- Request to plan again when the engine is idle. -/
def requestRejoinReplan (s : ClusterState) : ClusterState := { s with rejoinRequested := true }

/-- Take the request for a new plan, if there is one. -/
def takeRejoinRequest (s : ClusterState) : Bool × ClusterState :=
  (s.rejoinRequested, { s with rejoinRequested := false })

/-- Remember the shard this node serves. -/
def setWorkerShard (s : ClusterState) (shard : Option (Epoch × NodeId)) : ClusterState :=
  { s with workerShard := shard }

/-- Forget the shard if it is still that of the epoch. -/
def clearWorkerShardFor (s : ClusterState) (epoch : Epoch) : ClusterState :=
  if s.workerShard.any fun shard => shard.1 = epoch then { s with workerShard := none } else s

/-- The answers of some workers, each with the name it is shown under: an error for the
first refusal, or else the first worker that has not answered. -/
def scanAcks (s : ClusterState) (epoch : Epoch) :
    Option String → List (NodeId × String) → Except String (Option String)
  | missing, [] => .ok missing
  | missing, (id, label) :: workers =>
    match s.acks (id, epoch) with
    | some ack =>
      if ack.ready then s.scanAcks epoch missing workers
      else
        let detail := ack.detail.getD "no reason given"
        .error <| s!"node '{label}' rejected plan epoch {epoch}: {detail}; run " ++
          s!"`onebrain status` on that node and retry"
    | none => s.scanAcks epoch (missing.or (some label)) workers

/-- One turn of waiting for the answers: `none` means to wait on. `waited` are the seconds
after which the wait is given up. -/
def awaitAcks (s : ClusterState) (epoch : Epoch) (workers : List (NodeId × String)) (timedOut : Bool)
    (waited : ℕ) : Option (Except String Unit) :=
  match s.scanAcks epoch none workers with
  | .error message => some (.error message)
  | .ok none => some (.ok ())
  | .ok (some label) =>
    if timedOut then
      some (.error <| s!"node '{label}' did not acknowledge plan epoch {epoch} within " ++
        s!"{waited}s; check it is online (`onebrain status`) and retry")
    else none

end ClusterState

end OneBrain.Cluster
