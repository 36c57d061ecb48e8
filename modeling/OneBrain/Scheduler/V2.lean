import OneBrain.Scheduler.V1

/-!
# The second planner

The second planner chooses workers by the same rules and searches harder over how a chosen
set is used: the layers are apportioned in several ways (`Tilt`, each once more with the
slowest node one layer short), every way is combined with every stage order, and the
candidate with the smallest predicted time per token wins. Where that ties, the cost of
moving the activations of a prompt between the stages decides; where that ties too, the
earlier candidate.

On a node of a distributed plan the buffers of the pipeline are kept back as well.
-/

namespace OneBrain.Scheduler

open OneBrain.Lib OneBrain.Cluster

/-- The batch size where none is given. -/
def defaultNUbatch : UInt32 := 512

/-- The batch size; zero stands for the default. -/
def effectiveNUbatch (nUbatch : UInt32) : UInt32 := if nUbatch = 0 then defaultNUbatch else nUbatch

/-- Milliseconds to move the activations of a microbatch over a link. -/
def boundaryTransferMs (nEmbd : UInt64) (nUbatch : UInt32) (bandwidthMbps : ℚ) : ℚ :=
  if bandwidthMbps ≤ 0 then 0
  else 4 * nEmbd.toNat * (effectiveNUbatch nUbatch).toNat * 8 / (bandwidthMbps * 1000)

/-- The buffers a pipeline keeps on a node. -/
def pipelineCopies (nEmbd : UInt64) (nUbatch : UInt32) : UInt64 :=
  satMul (satMul 16 nEmbd) (effectiveNUbatch nUbatch).toUInt64

/-- The bytes a distributed plan may fill on a node. -/
def nodeBudgetV2 (usableMemoryBytes nEmbd : UInt64) (nUbatch : UInt32) : UInt64 :=
  satSub usableMemoryBytes (satAdd overheadReserveBytes (pipelineCopies nEmbd nUbatch))

/-- Whole layers a node can hold in a distributed plan. -/
def nodeLayerCapacityV2 (usableMemoryBytes : UInt64) (dims : ModelDims) (ctxLen nUbatch : UInt32) : ℕ :=
  layersIn (nodeBudgetV2 usableMemoryBytes dims.nEmbd nUbatch) (perLayerCost dims ctxLen)

/-! ### The family of apportionments -/

/-- What the shares are proportional to. -/
inductive Tilt where
  | memory
  | hybrid
  | compute
  deriving DecidableEq

/-- In the order tried. -/
def Tilt.all : List Tilt := [.memory, .hybrid, .compute]

/-- What a node counts for. -/
def Tilt.score : Tilt → Cand → ℚ
  | .memory, c => c.capF
  | .hybrid, c => c.capF * c.factor
  | .compute, c => max (2 * c.factor - 1) 0

/-- The slowest measured node, the first one where several are. -/
def slowest (lots : List (Lot Cand)) : Option (Spot (Lot Cand)) :=
  ((spots lots).filter fun s => s.here.item.decode.isSome).argmin fun s => s.here.item.decode.getD 0

/-- Take one layer from the slowest node, unless it would be left without any, and give it to
another node by the rule of the apportionment. The nodes that can get it have the same
layers before and after it is taken. -/
def underweight (score want : Cand → ℚ) (lots : List (Lot Cand)) : Option (List (Lot Cand)) :=
  match slowest lots with
  | none => none
  | some s =>
    if s.here.count ≤ 1 then none
    else
      let lots := s.set s.here.less
      let fits := fun r : Spot (Lot Cand) => decide (r.index ≠ s.index) && hasRoom Cand.capLayers r
      (neediest score want fits lots).map fun r => r.set r.here.more

/-- One way to apportion the layers. -/
structure FamilyCandidate where
  tilt : Tilt
  underweighted : Bool
  lots : List (Lot Cand)

/-- The members of the family, in their order. -/
def variants : List (Bool × Tilt) := [false, true].flatMap fun underweighted => Tilt.all.map (underweighted, ·)

/-- One apportionment of the family. -/
def familyCandidate (cands : List Cand) (nLayers : ℕ) (v : Bool × Tilt) : Except Panic (Option FamilyCandidate) := do
  match ← apportion v.2.score cands nLayers with
  | none => pure none
  | some lots =>
    let lots := if v.1 then underweight v.2.score (quota v.2.score cands nLayers) lots else some lots
    pure (lots.map fun lots => { tilt := v.2, underweighted := v.1, lots })

/-- The apportionments that are possible. -/
def familyCounts (cands : List Cand) (nLayers : ℕ) : Except Panic (List FamilyCandidate) := do
  pure ((← variants.mapM (familyCandidate cands nLayers)).filterMap id)

/-- The orders tried for an apportionment. -/
def enumerateOrders (lots : List (Lot Cand)) (links : List LinkRtt) : Except Panic (List (List (Lot Cand))) :=
  if (active lots).length ≤ 1 then pure [active lots]
  else if exactOrderMaxNodes < (active lots).length then do
    let (order, _) ← orderStages lots links
    pure [order]
  else pure (exactOrders (active lots))

/-! ### The search -/

/-- A candidate with its costs. -/
structure V2Eval where
  /-- All nodes of the set with their layers. -/
  lots : List (Lot Cand)
  order : List (Lot Cand)
  boundaryRtts : List ℚ
  boundaryTransfer : List ℚ
  /-- Predicted time per token, by which candidates are compared first. -/
  tpt : ℚ
  /-- The cost of the boundaries for a prompt, which breaks ties. -/
  prefillCost : ℚ
  tilt : Tilt
  underweighted : Bool
  considered : ℕ
  variants : ℕ

/-- What moving the activations from one stage to the next costs. -/
def hopTransfer (dims : ModelDims) (nUbatch : UInt32) (links : List LinkRtt) (a b : Lot Cand) : ℚ :=
  ((linkBandwidth links (nodeOf a) (nodeOf b)).map (boundaryTransferMs dims.nEmbd nUbatch)).getD 0

/-- The slowest stage of those from a layer on. -/
def worstStageMs (dims : ModelDims) : ℕ → ℚ → List (Lot Cand) → ℚ
  | _, worst, [] => worst
  | cursor, worst, p :: rest =>
    let units := dims.activeComputeUnits cursor (cursor + p.count)
    let worst :=
      match p.item.tptDecode with
      | some tps => max worst (units / tps * 1000)
      | none => worst
    worstStageMs dims (cursor + p.count) worst rest

/-- What an order costs. -/
def price (dims : ModelDims) (nUbatch : UInt32) (links : List LinkRtt) (fc : FamilyCandidate)
    (order : List (Lot Cand)) : V2Eval :=
  let rtts := boundaryRtts links order
  let transfer := List.zipWith (hopTransfer dims nUbatch links) order order.tail
  { lots := fc.lots, order
    boundaryRtts := rtts
    boundaryTransfer := transfer
    tpt := worstStageMs dims 0 0 order + rtts.sum
    prefillCost := rtts.sum + transfer.sum
    tilt := fc.tilt
    underweighted := fc.underweighted
    considered := 0
    variants := 0 }

/-- All candidates of an apportionment. -/
def priceOrders (dims : ModelDims) (nUbatch : UInt32) (links : List LinkRtt) (fc : FamilyCandidate) :
    Except Panic (List V2Eval) := do
  pure ((← enumerateOrders fc.lots links).map (price dims nUbatch links fc))

/-- The best apportionment and order of a set of nodes. -/
def searchV2 (nLayers : ℕ) (links : List LinkRtt) (dims : ModelDims) (nUbatch : UInt32) (cands : List Cand) :
    Except Panic (Option V2Eval) := do
  let family ← familyCounts cands nLayers
  let evals := (← family.mapM (priceOrders dims nUbatch links)).flatten
  let best := evals.argmin fun e => toLex (e.tpt, e.prefillCost)
  pure (best.map fun e => { e with considered := evals.length, variants := family.length })

/-- The second planner, over several nodes. -/
def distributedV2 (input : PlanRequest) (forced : Option UInt32) : Outcome :=
  let nUbatch := effectiveNUbatch input.nUbatch
  distribute (fun usable => nodeBudgetV2 usable input.dims.nEmbd nUbatch)
    (searchV2 input.dims.nLayers.toNat input.links input.dims nUbatch) V2Eval.tpt V2Eval.order input forced

/-- The second planner. -/
def planV2 (input : PlanRequest) : Outcome := planWith distributedV2 input

end OneBrain.Scheduler
