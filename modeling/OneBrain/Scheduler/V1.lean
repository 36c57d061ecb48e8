import OneBrain.Cluster.State
import OneBrain.Lib.Apportion
import OneBrain.Scheduler.Dims

/-!
# The planner

Given a model's dimensions, the nodes of a cluster and the round trips between them, the
planner decides which layers run on which node. A model that fits the head runs there alone.
Otherwise every node is given a capacity in whole layers, a set of workers is chosen, the
layers are apportioned over the set within the capacities, and the nodes that got layers are
put in an order with the head last.

## The model

Rates, times and costs are exact rationals where the source has `f64`. Where the source
keeps vectors over the same nodes and passes indices around, a candidate knows its place in
the candidate table and a node's layers stand beside it in a `Lot`. A `Panic` is an
`expect` or an index that fails. The explanation of a plan, a text for the user, is left
out, and with it the notes the selection leaves for it.

The two planners share everything but the budget of a node and how a set of nodes is
evaluated; `distribute` and `planWith` are that common part, and `planV1` is the first
planner.
-/

namespace OneBrain.Scheduler

open OneBrain.Lib OneBrain.Cluster

/-! ### What a plan is asked for -/

/-- Kept back on every node for the compute graph. -/
def overheadReserveBytes : UInt64 := 512 * 1024 * 1024

/-- Round trip of a pair of nodes that was not measured. -/
def defaultLinkRttMs : ℚ := 1

/-- By how much a node has to improve the time per token to join a plan that fits without it. -/
def addedNodeTptGain : ℚ := 5 / 100

/-- Up to so many nodes every stage order is tried. -/
def exactOrderMaxNodes : ℕ := 8

/-- Result of the compute microbench. -/
structure ComputeProfile where
  prefillTps : ℚ
  decodeTps : ℚ
  deriving DecidableEq

/-- A node as the planner sees it. -/
structure NodeCaps where
  node : NodeId
  usableMemoryBytes : UInt64
  compute : Option ComputeProfile
  draining : Bool
  deriving DecidableEq

/-- A measured link, in both directions. -/
structure LinkRtt where
  a : NodeId
  b : NodeId
  rttMs : ℚ
  bandwidthMbps : Option ℚ
  deriving DecidableEq

/-- Everything a plan is made from. -/
structure PlanRequest where
  head : NodeCaps
  workers : List NodeCaps
  dims : ModelDims
  ctxLen : UInt32
  /-- `none` and `0` leave the number of nodes to the planner. -/
  forcedNodes : Option UInt32
  links : List LinkRtt
  /-- `0` is the default. -/
  nUbatch : UInt32
  deriving DecidableEq

/-- A plan. -/
structure PlannedPlacement where
  plan : Plan
  /-- The share of the layers of each stage. -/
  tensorSplit : List ℚ
  deriving DecidableEq

/-- A failed `expect` or an index out of bounds. -/
structure Panic where
  message : String
  deriving DecidableEq

/-- What a planner returns. -/
abbrev Outcome := Except Panic (Except ScheduleError PlannedPlacement)

/-! ### Budgets and capacities -/

/-- Saturating 64-bit subtraction. -/
def satSub (a b : UInt64) : UInt64 := UInt64.ofNat (a.toNat - b.toNat)

/-- Saturating 64-bit addition. -/
def satAdd (a b : UInt64) : UInt64 := UInt64.ofNat (min (a.toNat + b.toNat) (2 ^ 64 - 1))

/-- Saturating 64-bit multiplication. -/
def satMul (a b : UInt64) : UInt64 := UInt64.ofNat (min (a.toNat * b.toNat) (2 ^ 64 - 1))

/-- A mebibyte. -/
def mib : UInt64 := 1024 * 1024

/-- Mebibytes, rounded up. -/
def mbCeil (bytes : UInt64) : UInt64 := bytes / mib + if bytes % mib = 0 then 0 else 1

/-- Mebibytes, rounded down. -/
def mbFloor (bytes : UInt64) : UInt64 := bytes / mib

/-- The bytes a plan may fill on a node. -/
def nodeBudget (usableMemoryBytes : UInt64) : UInt64 := satSub usableMemoryBytes overheadReserveBytes

/-- What a layer costs: mean weights and cache, and at least one byte. -/
def perLayerCost (dims : ModelDims) (ctxLen : UInt32) : ℚ :=
  max (dims.meanWeightBytesPerLayer + dims.kvBytesPerLayer ctxLen).toNat 1

/-- How many layers a budget holds. -/
def layersIn (budget : UInt64) (cost : ℚ) : ℕ := ⌊(budget.toNat : ℚ) / cost⌋₊

/-- Whole layers a node can hold. -/
def nodeLayerCapacity (usableMemoryBytes : UInt64) (dims : ModelDims) (ctxLen : UInt32) : ℕ :=
  layersIn (nodeBudget usableMemoryBytes) (perLayerCost dims ctxLen)

/-- A node with the numbers derived for it. -/
structure Cand where
  caps : NodeCaps
  place : ℕ
  isHead : Bool
  budget : UInt64
  capF : ℚ
  capLayers : ℕ
  decode : Option ℚ
  factor : ℚ
  /-- The decode rate it is costed at: its own, or that of the slowest measured node. -/
  tptDecode : Option ℚ
  deriving DecidableEq

/-- A node's measured decode rate. -/
def NodeCaps.decode (caps : NodeCaps) : Option ℚ :=
  (caps.compute.map ComputeProfile.decodeTps).filter fun d => decide (0 < d)

/-- The numbers of a node, given the rates of the fastest and of the slowest measured one. -/
def cand (budgetOf : UInt64 → UInt64) (cost : ℚ) (maxDecode minDecode : Option ℚ) (isHead : Bool)
    (place : ℕ) (caps : NodeCaps) : Cand :=
  let budget := budgetOf caps.usableMemoryBytes
  { caps, place, isHead, budget
    capF := budget.toNat / cost
    capLayers := min (layersIn budget cost) (2 ^ 32 - 1)
    decode := caps.decode
    factor :=
      match caps.decode, maxDecode with
      | some d, some fastest => 1 / 2 + 1 / 2 * d / fastest
      | _, _ => 1
    tptDecode := caps.decode.or minDecode }

/-- The candidate table: the workers in their order, then the head. -/
structure Cands where
  workers : List Cand
  head : Cand

/-- All candidates, the head last. -/
def Cands.all (t : Cands) : List Cand := t.workers ++ [t.head]

/-- The candidates for a cost of a layer. -/
def buildCands (workers : List NodeCaps) (head : NodeCaps) (cost : ℚ) (budgetOf : UInt64 → UInt64) : Cands :=
  let profiled := (workers ++ [head]).filterMap NodeCaps.decode
  { workers := workers.zipIdx.map fun w => cand budgetOf cost profiled.max? profiled.min? false w.2 w.1
    head := cand budgetOf cost profiled.max? profiled.min? true workers.length head }

/-! ### Shares and stage orders -/

/-- The link between two nodes, if it was measured. -/
def link (links : List LinkRtt) (a b : NodeId) : Option LinkRtt :=
  links.find? fun l => (l.a == a && l.b == b) || (l.a == b && l.b == a)

/-- The round trip between two nodes. -/
def linkRtt (links : List LinkRtt) (a b : NodeId) : ℚ := ((link links a b).map LinkRtt.rttMs).getD defaultLinkRttMs

/-- The bandwidth between two nodes, if known. -/
def linkBandwidth (links : List LinkRtt) (a b : NodeId) : Option ℚ :=
  ((link links a b).bind LinkRtt.bandwidthMbps).filter fun bw => decide (0 < bw)

/-- Largest-remainder apportionment of the layers; `none` when the nodes cannot hold them. -/
def apportion (score : Cand → ℚ) (cands : List Cand) (nLayers : ℕ) : Except Panic (Option (List (Lot Cand))) :=
  if (cands.map score).sum ≤ 0 ∨ (cands.map Cand.capLayers).sum < nLayers then pure none
  else
    match largestRemainder score Cand.capLayers cands nLayers with
    | some lots => pure (some lots)
    | none => throw ⟨"total capacity >= n_layers guarantees a node with slack"⟩

/-- The nodes that got layers. -/
def active (lots : List (Lot Cand)) : List (Lot Cand) := lots.filter fun p => decide (0 < p.count)

/-- The lot of the head. -/
def ofHead (p : Lot Cand) : Bool := p.item.isHead

/-- The node of a lot. -/
def nodeOf (p : Lot Cand) : NodeId := p.item.caps.node

/-- The head's lot, which comes last. -/
def tail (lots : List (Lot Cand)) : Option (Lot Cand) := lots.find? ofHead

/-- The other lots. -/
def movable (lots : List (Lot Cand)) : List (Lot Cand) := lots.eraseP ofHead

/-- The round trip between two lots. -/
def hopRtt (links : List LinkRtt) (a b : Lot Cand) : ℚ := linkRtt links (nodeOf a) (nodeOf b)

/-- The round trips between the stages of a chain. -/
def boundaryRtts (links : List LinkRtt) (chain : List (Lot Cand)) : List ℚ :=
  List.zipWith (hopRtt links) chain chain.tail

/-- Every order of the stages that leaves the head last. -/
def exactOrders (lots : List (Lot Cand)) : List (List (Lot Cand)) :=
  (orderings (movable lots)).map (· ++ (tail lots).toList)

/-- Grow a chain from its end, each time with the node closest to its first one. -/
def greedyOrder (links : List LinkRtt) (lots : List (Lot Cand)) : Except Panic (List (Lot Cand)) :=
  match tail lots with
  | some t => pure (nearest (hopRtt links) (movable lots).length t [] (movable lots))
  | none =>
    match (movable lots).getLast? with
    | some anchor =>
      pure (nearest (hopRtt links) (movable lots).dropLast.length anchor [] (movable lots).dropLast)
    | none => throw ⟨"active.len() > 1"⟩

/-- The order of the stages with the smallest sum of round trips. -/
def orderStages (lots : List (Lot Cand)) (links : List LinkRtt) :
    Except Panic (List (Lot Cand) × List ℚ) :=
  let lots := active lots
  if lots.length ≤ 1 then pure (lots, [])
  else if lots.length ≤ exactOrderMaxNodes then
    match (exactOrders lots).argmin fun chain => (boundaryRtts links chain).sum with
    | some chain => pure (chain, boundaryRtts links chain)
    | none => throw ⟨"at least one permutation exists"⟩
  else do
    let chain ← greedyOrder links lots
    pure (chain, boundaryRtts links chain)

/-! ### Evaluating and choosing a set of nodes -/

/-- An evaluated set of nodes. -/
structure Evaluated where
  /-- All nodes of the set with their layers. -/
  lots : List (Lot Cand)
  order : List (Lot Cand)
  boundaryRtts : List ℚ
  tpt : ℚ

/-- What a stage costs to compute. -/
def stageMs (p : Lot Cand) : ℚ :=
  match p.item.tptDecode with
  | some tps => p.count / tps * 1000
  | none => 0

/-- The best order of a set of nodes. -/
def evaluate (nLayers : ℕ) (links : List LinkRtt) (cands : List Cand) : Except Panic (Option Evaluated) := do
  match ← apportion (fun c => c.capF * c.factor) cands nLayers with
  | none => pure none
  | some lots =>
    let (order, rtts) ← orderStages lots links
    let computeMs := order.foldl (fun worst p => max worst (stageMs p)) 0
    pure (some { lots, order, boundaryRtts := rtts, tpt := computeMs + rtts.sum })

/-- The chosen workers in table order, then the head. -/
def participants (t : Cands) (selected : List Cand) : List Cand :=
  selected.insertionSort (fun a b => a.place ≤ b.place) ++ [t.head]

/-- Workers are ranked: those that do not drain first, then by score, then by place. -/
def rankedBefore (a b : Cand) : Prop :=
  a.caps.draining < b.caps.draining ∨ a.caps.draining = b.caps.draining ∧
    (b.capF * b.factor < a.capF * a.factor ∨ b.capF * b.factor = a.capF * a.factor ∧ a.place ≤ b.place)

instance : DecidableRel rankedBefore := fun a b => by unfold rankedBefore; infer_instance

/-- The workers, best first. -/
def rankedWorkers (t : Cands) : List Cand := t.workers.insertionSort rankedBefore

/-- Whether a worker joins those already chosen: always when the model does not fit without
it, otherwise, unless it drains, when it makes the plan faster by enough. -/
def joins (t : Cands) (evalTpt : List Cand → Except Panic (Option ℚ)) (selected : List Cand) (c : Cand) :
    Except Panic Bool :=
  if c.capLayers = 0 then pure false
  else do
    let current ← evalTpt (participants t selected)
    match current, c.caps.draining with
    | none, _ => pure true
    | some _, true => pure false
    | some cur, false =>
      let added ← evalTpt (participants t (selected ++ [c]))
      match added with
      | none => pure false
      | some new => pure (decide (addedNodeTptGain ≤ (cur - new) / max cur (1 / 10 ^ 9)))

/-- Add a worker, or do not. -/
def consider (t : Cands) (evalTpt : List Cand → Except Panic (Option ℚ)) (selected : List Cand) (c : Cand) :
    Except Panic (List Cand) := do
  let joining ← joins t evalTpt selected c
  pure (if joining then selected ++ [c] else selected)

/-- The workers of a plan. -/
def selectWorkers (t : Cands) (forced : Option UInt32) (evalTpt : List Cand → Except Panic (Option ℚ)) :
    Except Panic (List Cand) :=
  match forced with
  | some n => pure ((rankedWorkers t).take (n.toNat - 1))
  | none => (rankedWorkers t).foldlM (consider t evalTpt) []

/-! ### The plan -/

/-- The weights of some layers; out of range it panics. -/
def weightSlice (dims : ModelDims) (start stop : ℕ) : Except Panic (List UInt64) :=
  if stop ≤ dims.weightBytesPerLayer.length then pure ((dims.weightBytesPerLayer.drop start).take (stop - start))
  else throw ⟨"range end index out of range for slice"⟩

/-- The stages of a plan, from a stage number and a layer on. -/
def assemble (dims : ModelDims) : ℕ → ℕ → List (Lot Cand) → Except Panic (List Assignment)
  | _, _, [] => pure []
  | stage, cursor, p :: rest => do
    let stop := cursor + p.count
    -- The source sums these up for the explanation.
    let _ ← weightSlice dims cursor stop
    let later ← assemble dims (stage + 1) stop rest
    pure ({ node := nodeOf p, layers := { start := cursor, stop }, stage } :: later)

/-- Choose workers by the time per token of an evaluation, and evaluate them with the head. -/
def searchChosen {ε : Type} (t : Cands) (forced : Option UInt32) (search : List Cand → Except Panic (Option ε))
    (tpt : ε → ℚ) : Except Panic (Option ε) := do
  let selected ← selectWorkers t forced fun nodes => (search nodes).map (Option.map tpt)
  search (participants t selected)

/-- The outcome for the stages found, if any were. -/
def pipelinePlacement (input : PlanRequest) (t : Cands) (found : Option (List (Lot Cand))) : Outcome :=
  match found with
  | none =>
    let pooled := (t.all.map Cand.budget).foldl (· + ·) 0
    pure (.error (.doesNotFit (mbCeil (input.dims.totalRequiredBytes input.ctxLen)) (mbFloor pooled)))
  | some order => do
    let assignments ← assemble input.dims 0 0 order
    pure (.ok
      { plan := { epoch := 0, model := "", strategy := .pipelineParallel, assignments, ctxLen := input.ctxLen.toNat }
        tensorSplit := order.map fun p => (p.count : ℚ) / input.dims.nLayers.toNat })

/-- The candidates of a request. -/
abbrev tableOf (input : PlanRequest) (budgetOf : UInt64 → UInt64) : Cands :=
  buildCands input.workers input.head (perLayerCost input.dims input.ctxLen) budgetOf

/-- The distributed part of a planner, over its budgets and its evaluation of a set of nodes. -/
def distribute {ε : Type} (budgetOf : UInt64 → UInt64) (search : List Cand → Except Panic (Option ε))
    (tpt : ε → ℚ) (order : ε → List (Lot Cand)) (input : PlanRequest) (forced : Option UInt32) : Outcome := do
  let found ← searchChosen (tableOf input budgetOf) forced search tpt
  pipelinePlacement input (tableOf input budgetOf) (found.map order)

/-- The head alone. -/
def soloPlacement (input : PlanRequest) : PlannedPlacement where
  plan :=
    { epoch := 0, model := "", strategy := .solo, ctxLen := input.ctxLen.toNat
      assignments := [{ node := input.head.node, layers := { start := 0, stop := input.dims.nLayers.toNat }, stage := 0 }] }
  tensorSplit := [1]

/-- A planner over its distributed part. -/
def planWith (distributed : PlanRequest → Option UInt32 → Outcome) (input : PlanRequest) : Outcome :=
  let available := UInt32.ofNat input.workers.length + 1
  let required := input.dims.totalRequiredBytes input.ctxLen
  let headBudget := nodeBudget input.head.usableMemoryBytes
  match input.forcedNodes.filter fun n => decide (n ≠ 0) with
  | none => if required ≤ headBudget then pure (.ok (soloPlacement input)) else distributed input none
  | some n =>
    if available < n then pure (.error (.notEnoughNodes n available))
    else if n = 1 then
      if required ≤ headBudget then pure (.ok (soloPlacement input))
      else pure (.error (.doesNotFit (mbCeil required) (mbFloor headBudget)))
    else distributed input (some n)

/-- The first planner, over several nodes. -/
def distributedV1 (input : PlanRequest) (forced : Option UInt32) : Outcome :=
  distribute nodeBudget (evaluate input.dims.nLayers.toNat input.links) Evaluated.tpt Evaluated.order input forced

/-- The first planner. -/
def planV1 (input : PlanRequest) : Outcome := planWith distributedV1 input

end OneBrain.Scheduler
