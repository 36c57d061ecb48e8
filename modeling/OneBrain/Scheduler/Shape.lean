import OneBrain.Scheduler.Table

/-!
# The shape of a plan

Whatever request a planner is given, a plan it returns is the head alone or a pipeline
(`Staged`): the stages are numbered from `0`, on distinct nodes; their layer ranges are not
empty, follow one another and tile all layers; the head, where it has layers, is the last
stage; no node has more layers than it can hold; and the tensor split gives each stage its
share of the layers.

The stages are the lots of a `Layout` laid end to end (`stagesFrom`); each property is one
induction over them. The two planners differ in their search only, and both searches return
layouts, so the shape is proved once, for `distribute` (`distribute_staged`).
-/

namespace OneBrain.Scheduler

open List OneBrain.Lib OneBrain.Cluster

/-! ### Stages end to end -/

/-- Ranges that are not empty, follow one another and cover the layers from `a` to `b`. -/
def Tiles : ℕ → ℕ → List LayerRange → Prop
  | a, b, [] => a = b
  | a, b, r :: rest => r.start = a ∧ r.start < r.stop ∧ Tiles r.stop b rest

/-- How many layers a range has. -/
def width (r : LayerRange) : ℕ := r.stop - r.start

/-- The stages of an order, from a layer on. -/
def stagesFrom : ℕ → ℕ → List (Lot Cand) → List Assignment
  | _, _, [] => []
  | stage, cursor, p :: rest =>
    { node := nodeOf p, layers := { start := cursor, stop := cursor + p.count }, stage }
      :: stagesFrom (stage + 1) (cursor + p.count) rest

variable {dims : ModelDims} {order : List (Lot Cand)} {stage cursor n : ℕ}

theorem weightSlice_ok (start : ℕ) {stop : ℕ} (h : stop ≤ dims.weightBytesPerLayer.length) :
    ∃ slice, weightSlice dims start stop = .ok slice := by
  unfold weightSlice
  rw [if_pos h]
  exact ⟨_, rfl⟩

theorem assemble_eq_ok {assignments : List Assignment} (h : assemble dims stage cursor order = .ok assignments) :
    assignments = stagesFrom stage cursor order := by
  induction order generalizing stage cursor assignments with
  | nil =>
    cases h
    rfl
  | cons p rest ih =>
    obtain ⟨slice, -, h⟩ := bind_eq_ok_iff.mp h
    obtain ⟨later, hlater, h⟩ := bind_eq_ok_iff.mp h
    cases h
    rw [ih hlater]
    rfl

theorem assemble_succeeds (h : cursor + total order ≤ dims.weightBytesPerLayer.length) :
    assemble dims stage cursor order = .ok (stagesFrom stage cursor order) := by
  induction order generalizing stage cursor with
  | nil => rfl
  | cons p rest ih =>
    rw [total_cons, ← Nat.add_assoc] at h
    obtain ⟨slice, hslice⟩ := weightSlice_ok cursor (Nat.le_of_add_right_le h)
    exact bind_eq_ok_iff.mpr ⟨slice, hslice, bind_eq_ok_iff.mpr ⟨_, ih h, rfl⟩⟩

theorem map_stage_stagesFrom : (stagesFrom stage cursor order).map Assignment.stage = List.range' stage order.length := by
  induction order generalizing stage cursor with
  | nil => rfl
  | cons p rest ih =>
    simp only [stagesFrom, map_cons, ih, length_cons]
    rfl

theorem map_node_stagesFrom : (stagesFrom stage cursor order).map Assignment.node = order.map nodeOf := by
  induction order generalizing stage cursor with
  | nil => rfl
  | cons p rest ih => simp only [stagesFrom, map_cons, ih]

theorem map_width_stagesFrom :
    (stagesFrom stage cursor order).map (fun a => width a.layers) = order.map Lot.count := by
  induction order generalizing stage cursor with
  | nil => rfl
  | cons p rest ih =>
    rw [stagesFrom, map_cons, map_cons, ih]
    congr 1
    exact Nat.add_sub_cancel_left cursor p.count

theorem length_stagesFrom : (stagesFrom stage cursor order).length = order.length := by
  rw [← length_map Assignment.node, map_node_stagesFrom, length_map]

theorem tiles_stagesFrom (hpos : ∀ p ∈ order, 0 < p.count) :
    Tiles cursor (cursor + total order) ((stagesFrom stage cursor order).map Assignment.layers) := by
  induction order generalizing stage cursor with
  | nil => exact (Nat.add_zero cursor).symm
  | cons p rest ih =>
    rw [forall_mem_cons] at hpos
    refine ⟨rfl, Nat.lt_add_of_pos_right hpos.1, ?_⟩
    rw [total_cons, ← Nat.add_assoc]
    exact ih hpos.2

/-- A stage belongs to one of the lots, which stands where the stage stands. -/
theorem mem_stagesFrom {a : Assignment} (h : a ∈ stagesFrom stage cursor order) :
    ∃ p ∈ order, a.node = nodeOf p ∧ width a.layers = p.count ∧
      (order.getLast? = some p → (order.map nodeOf).Nodup → (stagesFrom stage cursor order).getLast? = some a) := by
  induction order generalizing stage cursor with
  | nil => cases h
  | cons p rest ih =>
    rcases mem_cons.mp h with rfl | h
    · refine ⟨p, mem_cons_self, rfl, Nat.add_sub_cancel_left _ _, fun hlast hnodup => ?_⟩
      cases rest with
      | nil => rfl
      | cons q rest =>
        -- Then `p` would stand twice.
        rw [List.getLast?_cons_cons] at hlast
        have hmem : nodeOf p ∈ (q :: rest).map nodeOf := mem_map_of_mem (mem_of_getLast? hlast)
        exact absurd hmem (nodup_cons.mp hnodup).1
    · obtain ⟨q, hq, hnode, hwidth, hlast⟩ := ih h
      refine ⟨q, mem_cons_of_mem p hq, hnode, hwidth, fun hq' hnodup => ?_⟩
      cases rest with
      | nil => cases hq
      | cons =>
        rw [List.getLast?_cons_cons] at hq'
        have := hlast hq' (nodup_cons.mp hnodup).2
        rwa [stagesFrom, List.getLast?_cons_of_ne_nil (ne_nil_of_mem h)]

/-! ### Pipelines -/

/-- The shape of a pipeline over the nodes of a request. -/
structure Staged (input : PlanRequest) (capacity : UInt64 → ℕ) (p : PlannedPlacement) : Prop where
  strategy : p.plan.strategy = .pipelineParallel
  numbered : p.plan.assignments.map Assignment.stage = List.range p.plan.assignments.length
  distinct : (p.plan.assignments.map Assignment.node).Nodup
  tiles : Tiles 0 input.dims.nLayers.toNat (p.plan.assignments.map Assignment.layers)
  headLast : ∀ a ∈ p.plan.assignments, a.node = input.head.node → p.plan.assignments.getLast? = some a
  withinCapacity : ∀ a ∈ p.plan.assignments, ∃ c ∈ input.workers ++ [input.head],
    c.node = a.node ∧ width a.layers ≤ capacity c.usableMemoryBytes
  split : p.tensorSplit = p.plan.assignments.map fun a => (width a.layers : ℚ) / input.dims.nLayers.toNat

variable {ε : Type} {budgetOf : UInt64 → UInt64} {search : List Cand → Except Panic (Option ε)} {tpt : ε → ℚ}
  {orderOf : ε → List (Lot Cand)} {input : PlanRequest} {forced : Option UInt32} {p : PlannedPlacement}

theorem map_caps_tableOf (input : PlanRequest) (budgetOf : UInt64 → UInt64) :
    (tableOf input budgetOf).all.map Cand.caps = input.workers ++ [input.head] := map_caps_all

theorem tableOf_built : (tableOf input budgetOf).Built := buildCands_built (perLayerCost_pos _ _)

/-- A search gives every layer out. -/
def LaysOut (search : List Cand → Except Panic (Option ε)) (orderOf : ε → List (Lot Cand)) (n : ℕ) : Prop :=
  ∀ cands, Team cands → ∃ r, search cands = .ok r ∧ ∀ e, r = some e → Layout cands n (orderOf e)

theorem distribute_layout (hsearch : LaysOut search orderOf input.dims.nLayers.toNat)
    (h : distribute budgetOf search tpt orderOf input forced = .ok (.ok p)) : ∃ selected order,
      selectWorkers (tableOf input budgetOf) forced (fun nodes => (search nodes).map (Option.map tpt)) = .ok selected ∧
      Layout (participants (tableOf input budgetOf) selected) input.dims.nLayers.toNat order ∧
      p.plan.strategy = .pipelineParallel ∧ p.plan.assignments = stagesFrom 0 0 order ∧
      p.tensorSplit = order.map fun q => (q.count : ℚ) / input.dims.nLayers.toNat := by
  obtain ⟨found, hsearched, h⟩ := bind_eq_ok_iff.mp h
  obtain ⟨selected, hselected, hfound⟩ := bind_eq_ok_iff.mp hsearched
  have hmem : ∀ c ∈ selected, c ∈ (tableOf input budgetOf).workers :=
    fun c hc => (selectWorkers_subperm hselected).subset hc
  obtain ⟨r, hr, hlayout⟩ := hsearch _ (team_participants tableOf_built hmem)
  obtain rfl : r = found := Except.ok.inj (hr.symm.trans hfound)
  cases r with
  | none => cases h
  | some e =>
    obtain ⟨assignments, hassignments, h⟩ := bind_eq_ok_iff.mp h
    cases h
    exact ⟨selected, orderOf e, hselected, hlayout e rfl, rfl, assemble_eq_ok hassignments, rfl⟩

theorem nodup_map_of_subperm {α β : Type} {f : α → β} {l l' : List α} (h : l.Subperm l') (hnodup : (l'.map f).Nodup) :
    (l.map f).Nodup := by
  obtain ⟨m, hperm, hsub⟩ := h
  exact (hperm.map f).nodup_iff.mp ((hsub.map f).nodup hnodup)

theorem isHead_of_node (hids : ((input.workers ++ [input.head]).map NodeCaps.node).Nodup) {c : Cand}
    (hc : c ∈ (tableOf input budgetOf).all) (hnode : c.caps.node = input.head.node) : c.isHead = true := by
  rcases mem_append.mp hc with hc | hc
  · obtain ⟨w, hw, rfl⟩ := mem_map.mp hc
    rw [map_append, nodup_append] at hids
    exact absurd hnode (hids.2.2 _ (mem_map_of_mem (fst_mem_of_mem_zipIdx hw)) _ (mem_singleton_self _))
  · rw [mem_singleton.mp hc]
    rfl

/-- A node of a layout is a node of the request with the capacity of its candidate. -/
theorem node_of_mem {q : Lot Cand} {cands : List Cand} (hcands : cands.Subperm (tableOf input budgetOf).all)
    (hlayout : Layout cands n order) (hq : q ∈ order) :
    q.item ∈ (tableOf input budgetOf).all ∧ q.item.caps ∈ input.workers ++ [input.head] ∧
      q.count ≤ layersIn (budgetOf q.item.caps.usableMemoryBytes) (perLayerCost input.dims input.ctxLen) := by
  have hall : q.item ∈ (tableOf input budgetOf).all :=
    hcands.subset (hlayout.nodes.subset (mem_map_of_mem hq))
  refine ⟨hall, ?_, (hlayout.within q hq).trans (capLayers_le hall)⟩
  rw [← map_caps_tableOf input budgetOf]
  exact mem_map_of_mem hall

/-- **A distributed plan is a pipeline.** -/
theorem distribute_staged (hids : ((input.workers ++ [input.head]).map NodeCaps.node).Nodup)
    (hsearch : LaysOut search orderOf input.dims.nLayers.toNat)
    (h : distribute budgetOf search tpt orderOf input forced = .ok (.ok p)) :
    Staged input (fun usable => layersIn (budgetOf usable) (perLayerCost input.dims input.ctxLen)) p := by
  obtain ⟨selected, order, hselected, hlayout, hstrategy, hassignments, hsplit⟩ := distribute_layout hsearch h
  have hcands := participants_subperm hselected
  have hnodup : (order.map nodeOf).Nodup := by
    rw [← map_caps_tableOf input budgetOf, map_map] at hids
    have := nodup_map_of_subperm (hlayout.nodes.trans hcands) hids
    rwa [map_map] at this
  refine ⟨hstrategy, ?_, ?_, ?_, ?_, ?_, ?_⟩
  · rw [hassignments, map_stage_stagesFrom, length_stagesFrom, range_eq_range']
  · rw [hassignments, map_node_stagesFrom]
    exact hnodup
  · have htiles : Tiles 0 (0 + total order) ((stagesFrom 0 0 order).map Assignment.layers) :=
      tiles_stagesFrom hlayout.positive
    rwa [Nat.zero_add, hlayout.all, ← hassignments] at htiles
  · intro a ha hhead
    rw [hassignments] at ha ⊢
    obtain ⟨q, hq, hnode, -, hlast⟩ := mem_stagesFrom ha
    have hofHead : ofHead q = true :=
      isHead_of_node hids (node_of_mem hcands hlayout hq).1 (hnode.symm.trans hhead)
    exact hlast (hlayout.headLast q hq hofHead) hnodup
  · intro a ha
    rw [hassignments] at ha
    obtain ⟨q, hq, hnode, hwidth, -⟩ := mem_stagesFrom ha
    obtain ⟨-, hcaps, hcount⟩ := node_of_mem hcands hlayout hq
    exact ⟨q.item.caps, hcaps, hnode.symm, hwidth.trans_le hcount⟩
  · rw [hsplit, hassignments]
    have hwidths : (stagesFrom 0 0 order).map (fun a => width a.layers) = order.map Lot.count := map_width_stagesFrom
    have := congrArg (List.map fun k : ℕ => (k : ℚ) / input.dims.nLayers.toNat) hwidths
    rw [map_map, map_map] at this
    exact this.symm

/-! ### Both planners -/

theorem filter_forced (forced : Option UInt32) :
    (forced.filter fun n => decide (n ≠ 0)) = if forced.getD 0 = 0 then none else some (forced.getD 0) := by
  cases forced with
  | none => rfl
  | some n => by_cases h : n = 0 <;> simp [h]

/-- A plan is on the head alone, or comes from the search over several nodes. -/
theorem planWith_cases {distributed : PlanRequest → Option UInt32 → Outcome}
    (h : planWith distributed input = .ok (.ok p)) :
    p = soloPlacement input ∨ ∃ forced, distributed input forced = .ok (.ok p) := by
  unfold planWith at h
  cases hforced : input.forcedNodes.filter fun n => decide (n ≠ 0) with
  | none =>
    simp only [hforced] at h
    split at h
    · cases h
      exact .inl rfl
    · exact .inr ⟨none, h⟩
  | some n =>
    simp only [hforced] at h
    split at h
    · cases h
    · split at h
      · split at h <;> cases h
        exact .inl rfl
      · exact .inr ⟨some n, h⟩

theorem effectiveNUbatch_idem (nUbatch : UInt32) :
    effectiveNUbatch (effectiveNUbatch nUbatch) = effectiveNUbatch nUbatch := by
  by_cases h : nUbatch = 0
  · subst h
    rfl
  · have hself : effectiveNUbatch nUbatch = nUbatch := if_neg h
    rw [hself, hself]

theorem nodeBudgetV2_effective (usable nEmbd : UInt64) (nUbatch : UInt32) :
    nodeBudgetV2 usable nEmbd (effectiveNUbatch nUbatch) = nodeBudgetV2 usable nEmbd nUbatch := by
  simp only [nodeBudgetV2, pipelineCopies, effectiveNUbatch_idem]

theorem laysOut_evaluate (n : ℕ) (links : List LinkRtt) : LaysOut (evaluate n links) Evaluated.order n := by
  intro cands hteam
  obtain ⟨r, hr, hlayout, -⟩ := evaluate_spec links hteam
  exact ⟨r, hr, hlayout⟩

theorem laysOut_searchV2 (n : ℕ) (links : List LinkRtt) (dims : ModelDims) (nUbatch : UInt32) :
    LaysOut (searchV2 n links dims nUbatch) V2Eval.order n := by
  intro cands hteam
  obtain ⟨r, hr, hlayout, -⟩ := searchV2_spec links dims nUbatch hteam
  exact ⟨r, hr, hlayout⟩

/-- **The shape of a plan**: whatever either planner returns is the head alone or a pipeline
over distinct nodes whose layer ranges tile the layers within the capacities of the nodes,
with the head last. -/
theorem plan_shape (input : PlanRequest) (hids : ((input.workers ++ [input.head]).map NodeCaps.node).Nodup) :
    (∀ p, planV1 input = .ok (.ok p) → p = soloPlacement input ∨
      Staged input (fun usable => nodeLayerCapacity usable input.dims input.ctxLen) p) ∧
    (∀ p, planV2 input = .ok (.ok p) → p = soloPlacement input ∨
      Staged input (fun usable => nodeLayerCapacityV2 usable input.dims input.ctxLen input.nUbatch) p) := by
  constructor
  · intro p h
    rcases planWith_cases h with hsolo | ⟨forced, h⟩
    · exact .inl hsolo
    · exact .inr (distribute_staged hids (laysOut_evaluate _ _) h)
  · intro p h
    rcases planWith_cases h with hsolo | ⟨forced, h⟩
    · exact .inl hsolo
    · have hstaged := distribute_staged hids (laysOut_searchV2 _ _ _ _) h
      simp only [nodeBudgetV2_effective] at hstaged
      exact .inr hstaged

/-- Four layers of 100 MiB. -/
def fourLayers : ModelDims where
  nLayers := 4
  kvBytesPerLayerPerCtxToken := 0
  weightBytesPerLayer := [104857600, 104857600, 104857600, 104857600]
  totalWeightBytes := 419430400
  nEmbd := 64
  nExpert := 0
  nExpertUsed := 0
  expertWeightBytesPerLayer := [0, 0, 0, 0]

/-- Two nodes that can hold three of the layers each. -/
def pairRequest : PlanRequest where
  head := { node := "head", usableMemoryBytes := 891289600, compute := none, draining := false }
  workers := [{ node := "worker", usableMemoryBytes := 891289600, compute := none, draining := false }]
  dims := fourLayers
  ctxLen := 2048
  forcedNodes := none
  links := []
  nUbatch := 0

/-- Two layers on each. -/
def pairPlacement : PlannedPlacement where
  plan :=
    { epoch := 0, model := "", strategy := .pipelineParallel, ctxLen := 2048
      assignments :=
        [{ node := "worker", layers := { start := 0, stop := 2 }, stage := 0 },
          { node := "head", layers := { start := 2, stop := 4 }, stage := 1 }] }
  tensorSplit := [1 / 2, 1 / 2]

theorem plan_shape_pair :
    (planV1 pairRequest = .ok (.ok pairPlacement) ∧ (pairPlacement = soloPlacement pairRequest ∨
      Staged pairRequest (fun usable => nodeLayerCapacity usable fourLayers 2048) pairPlacement)) ∧
    (planV2 pairRequest = .ok (.ok pairPlacement) ∧ (pairPlacement = soloPlacement pairRequest ∨
      Staged pairRequest (fun usable => nodeLayerCapacityV2 usable fourLayers 2048 0) pairPlacement)) := by
  have hv1 : planV1 pairRequest = .ok (.ok pairPlacement) := by decide +kernel
  have hv2 : planV2 pairRequest = .ok (.ok pairPlacement) := by decide +kernel
  have hshape := plan_shape pairRequest (by decide)
  exact ⟨⟨hv1, hshape.1 _ hv1⟩, hv2, hshape.2 _ hv2⟩

/-- The stages of the placement are a cheapest order of an apportionment over some of the nodes. -/
def CheapestStages (input : PlanRequest) (p : PlannedPlacement) : Prop :=
  ∃ nodes family e, nodes.Subperm (tableOf input fun usable => nodeBudgetV2 usable input.dims.nEmbd input.nUbatch).all ∧
    familyCounts nodes input.dims.nLayers.toNat = .ok family ∧
    Cheapest input.links input.dims (effectiveNUbatch input.nUbatch) family e ∧
    p.plan.assignments = stagesFrom 0 0 e.order

/-- **The second planner's search is exhaustive**: a plan it makes is the head alone, or of all the ways it has to
apportion the layers over some set of nodes, and all orders of up to eight stages with the head
last, none is cheaper. -/
theorem plan_optimal {input : PlanRequest} {p : PlannedPlacement} (h : planV2 input = .ok (.ok p)) :
    p = soloPlacement input ∨ CheapestStages input p := by
  obtain hsolo | ⟨forced, h⟩ := planWith_cases h
  · exact .inl hsolo
  obtain ⟨found, hsearched, h⟩ := bind_eq_ok_iff.mp h
  obtain ⟨selected, hselected, hfound⟩ := bind_eq_ok_iff.mp hsearched
  cases found with
  | none => cases h
  | some e =>
    obtain ⟨assignments, hassignments, h⟩ := bind_eq_ok_iff.mp h
    cases h
    have hteam := team_participants tableOf_built fun _ hc => (selectWorkers_subperm hselected).subset hc
    obtain ⟨family, hfamily, hcheapest⟩ := searchV2_cheapest _ _ _ hteam hfound
    simp only [nodeBudgetV2_effective] at hselected hfamily
    exact .inr ⟨_, family, e, participants_subperm hselected, hfamily, hcheapest, assemble_eq_ok hassignments⟩

theorem plan_optimal_pair : CheapestStages pairRequest pairPlacement :=
  (plan_optimal (by decide +kernel : planV2 pairRequest = .ok (.ok pairPlacement))).resolve_left (by decide)

end OneBrain.Scheduler
