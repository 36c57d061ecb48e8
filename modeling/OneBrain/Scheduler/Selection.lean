import OneBrain.Scheduler.Shape

/-!
# Which workers are chosen

In automatic mode the planners go through the ranked workers and add one when the model does
not fit without it, or when it makes the plan faster. `Chosen` is what holds between two turns
of that loop: as long as the nodes chosen cannot hold the model, every worker with room that was
looked at is among them, and a draining one was added only because all the others together do
not suffice. For it the evaluation has to answer exactly when the nodes can hold the layers
(`Judges`), which both evaluations do for one layer or more (`exact_evaluate`,
`exact_searchV2`).

At the end of the loop this says two things about the plans:

* **nothing is missed** (`plan_complete`): there is a plan when the head can take the model alone
  or when all the nodes together have the capacity;
* **draining is a last resort** (`draining_last`): no draining worker gets layers when the others
  have the capacity, and a forced number of nodes takes draining workers only after all others.
-/

namespace OneBrain.Scheduler

open List OneBrain.Lib OneBrain.Cluster

/-! ### Capacity of some nodes -/

/-- The whole layers some nodes can hold. -/
def capacity (cands : List Cand) : ℕ := (cands.map Cand.capLayers).sum

variable {t : Cands} {n : ℕ} {cands selected done : List Cand} {c : Cand}

theorem capacity_append (l₁ l₂ : List Cand) : capacity (l₁ ++ l₂) = capacity l₁ + capacity l₂ := by
  rw [capacity, map_append, sum_append]
  rfl

theorem capacity_perm {l₁ l₂ : List Cand} (h : l₁.Perm l₂) : capacity l₁ = capacity l₂ := (h.map _).sum_eq

theorem capacity_le_of_subperm {l₁ l₂ : List Cand} (h : l₁.Subperm l₂) : capacity l₁ ≤ capacity l₂ := by
  obtain ⟨l, hperm, hsub⟩ := h
  rw [← capacity_perm hperm]
  exact (hsub.map _).sum_le_sum fun _ _ => Nat.zero_le _

theorem capacity_participants (t : Cands) (selected : List Cand) :
    capacity (participants t selected) = capacity selected + t.head.capLayers := by
  rw [capacity_perm (participants_perm t selected), capacity_append]
  rfl

/-- A score that is positive wherever there is room is positive in the sum. -/
theorem sum_score_pos {score : Cand → ℚ} (hscore : ∀ c ∈ cands, 0 ≤ score c)
    (hroom : ∀ c ∈ cands, 0 < c.capLayers → 0 < score c) (hcap : 0 < capacity cands) :
    0 < (cands.map score).sum := by
  obtain ⟨m, hm, hne⟩ := exists_mem_ne_zero_of_sum_ne_zero hcap.ne'
  obtain ⟨c, hc, rfl⟩ := mem_map.mp hm
  have hle : score c ≤ (cands.map score).sum := by
    apply single_le_sum
    · intro q hq
      obtain ⟨d, hd, rfl⟩ := mem_map.mp hq
      exact hscore d hd
    · exact mem_map_of_mem hc
  exact (hroom c hc (Nat.pos_of_ne_zero hne)).trans_le hle

theorem Layout.le_capacity {order : List (Lot Cand)} (h : Layout cands n order) : n ≤ capacity cands := by
  calc n = total order := h.all.symm
    _ ≤ capacity (order.map Lot.item) := by
        rw [capacity, map_map]
        exact sum_le_sum h.within
    _ ≤ capacity cands := capacity_le_of_subperm h.nodes

/-! ### Exact evaluations -/

/-- An evaluation that finds nothing exactly when the nodes cannot hold the layers. -/
def Judges (t : Cands) (n : ℕ) (evalTpt : List Cand → Except Panic (Option ℚ)) : Prop :=
  ∀ selected : List Cand, (∀ c ∈ selected, c ∈ t.workers) →
    ∃ r, evalTpt (participants t selected) = .ok r ∧ (r = none ↔ capacity (participants t selected) < n)

/-- What makes scores positive where there is room. -/
structure Sized (cands : List Cand) : Prop where
  layers : ∀ c ∈ cands, 0 < c.capLayers → 0 < c.capF
  factor : ∀ c ∈ cands, 0 < c.factor

variable {workers : List NodeCaps} {head : NodeCaps} {cost : ℚ} {budgetOf : UInt64 → UInt64}

theorem buildCands_sized : Sized (buildCands workers head cost budgetOf).all where
  layers c hc hroom := by
    obtain ⟨caps, -, place, isHead, rfl⟩ := mem_all_buildCands hc
    have hfloor : 0 < layersIn (budgetOf caps.usableMemoryBytes) cost := hroom.trans_le (Nat.min_le_left _ _)
    exact lt_of_lt_of_le one_pos (Nat.floor_pos.mp hfloor)
  factor _ := factor_pos

theorem mem_participants (hsel : ∀ c ∈ selected, c ∈ t.workers) : ∀ c ∈ participants t selected, c ∈ t.all := by
  intro c hc
  rcases mem_append.mp ((participants_perm t selected).subset hc) with hc | hc
  · exact mem_append_left _ (hsel c hc)
  · exact mem_append_right _ hc

variable {ε : Type} {search : List Cand → Except Panic (Option ε)} {orderOf : ε → List (Lot Cand)} {tpt : ε → ℚ}

/-- A search that lays out whatever fits. -/
def Exact (search : List Cand → Except Panic (Option ε)) (orderOf : ε → List (Lot Cand)) (n : ℕ) : Prop :=
  ∀ cands, Team cands → Sized cands →
    ∃ r, search cands = .ok r ∧ (∀ e, r = some e → Layout cands n (orderOf e)) ∧ (n ≤ capacity cands → r ≠ none)

theorem Sized.participants (hsized : Sized t.all) (hsel : ∀ c ∈ selected, c ∈ t.workers) :
    Sized (participants t selected) where
  layers c hc := hsized.layers c (mem_participants hsel c hc)
  factor c hc := hsized.factor c (mem_participants hsel c hc)

theorem judges_of_exact (ht : t.Built) (hsized : Sized t.all) (hsearch : Exact search orderOf n) :
    Judges t n fun nodes => (search nodes).map (Option.map tpt) := by
  intro selected hsel
  obtain ⟨r, hr, hlayout, hfits⟩ := hsearch _ (team_participants ht hsel) (hsized.participants hsel)
  refine ⟨r.map tpt, congrArg (Except.map (Option.map tpt)) hr, ?_⟩
  rw [Option.map_eq_none_iff]
  constructor
  · intro hnone
    by_contra hcap
    exact hfits (not_lt.mp hcap) hnone
  · intro hcap
    cases r with
    | none => rfl
    | some e => exact absurd (hlayout e rfl).le_capacity (not_le.mpr hcap)

theorem exact_evaluate (links : List LinkRtt) (hn : 0 < n) : Exact (evaluate n links) Evaluated.order n := by
  intro cands hteam hsized
  obtain ⟨r, hr, hlayout, hfits⟩ := evaluate_spec (n := n) links hteam
  refine ⟨r, hr, hlayout, fun hcap => hfits ?_ hcap⟩
  apply sum_score_pos hteam.hybrid _ (hn.trans_le hcap)
  intro c hc hroom
  exact mul_pos (hsized.layers c hc hroom) (hsized.factor c hc)

theorem exact_searchV2 (links : List LinkRtt) (dims : ModelDims) (nUbatch : UInt32) (hn : 0 < n) :
    Exact (searchV2 n links dims nUbatch) V2Eval.order n := by
  intro cands hteam hsized
  obtain ⟨r, hr, hlayout, hfits⟩ := searchV2_spec (n := n) links dims nUbatch hteam
  exact ⟨r, hr, hlayout, fun hcap => hfits (sum_score_pos hteam.capF hsized.layers (hn.trans_le hcap)) hcap⟩

/-! ### The ranking -/

instance : Std.Total rankedBefore where
  total a b := by
    unfold rankedBefore
    rcases lt_trichotomy a.caps.draining b.caps.draining with h | h | h
    · exact .inl (.inl h)
    · rcases lt_trichotomy (a.capF * a.factor) (b.capF * b.factor) with hs | hs | hs
      · exact .inr (.inr ⟨h.symm, .inl hs⟩)
      · rcases le_total a.place b.place with hp | hp
        · exact .inl (.inr ⟨h, .inr ⟨hs.symm, hp⟩⟩)
        · exact .inr (.inr ⟨h.symm, .inr ⟨hs, hp⟩⟩)
      · exact .inl (.inr ⟨h, .inl hs⟩)
    · exact .inr (.inl h)

instance : IsTrans Cand rankedBefore where
  trans a b c := by
    rintro (hab | ⟨hab, hab'⟩) (hbc | ⟨hbc, hbc'⟩)
    · exact .inl (hab.trans hbc)
    · exact .inl (hbc ▸ hab)
    · exact .inl (hab ▸ hbc)
    · refine .inr ⟨hab.trans hbc, ?_⟩
      rcases hab' with hab' | ⟨hab', hplace⟩ <;> rcases hbc' with hbc' | ⟨hbc', hplace'⟩
      · exact .inl (hbc'.trans hab')
      · exact .inl (hbc' ▸ hab')
      · exact .inl (hab' ▸ hbc')
      · exact .inr ⟨hbc'.trans hab', hplace.trans hplace'⟩

/-- The workers that do not drain. -/
def staying (cands : List Cand) : List Cand := cands.filter fun c => !c.caps.draining

theorem staying_perm {l₁ l₂ : List Cand} (h : l₁.Perm l₂) : (staying l₁).Perm (staying l₂) := h.filter _

theorem draining_of_rankedBefore {a b : Cand} (h : rankedBefore a b) (ha : a.caps.draining = true) :
    b.caps.draining = true := by
  rcases h with h | ⟨h, -⟩
  · rw [ha] at h
    exact absurd h (not_lt.mpr le_top)
  · rw [← h, ha]

/-- By the time a draining worker is looked at, all the others have been. -/
theorem staying_ranked {todo : List Cand} (h : done ++ c :: todo = rankedWorkers t) (hc : c.caps.draining = true) :
    staying (rankedWorkers t) = staying done := by
  have hsorted : (rankedWorkers t).Pairwise rankedBefore := pairwise_insertionSort rankedBefore t.workers
  rw [← h] at hsorted ⊢
  have hrest : staying (c :: todo) = [] := by
    apply filter_eq_nil_iff.mpr
    intro d hd
    have hdrain : d.caps.draining = true := by
      rcases mem_cons.mp hd with rfl | hd
      · exact hc
      · exact draining_of_rankedBefore (rel_of_pairwise_cons (pairwise_append.mp hsorted).2.1 hd) hc
    simp [hdrain]
  rw [staying, filter_append]
  change staying done ++ staying (c :: todo) = staying done
  rw [hrest, append_nil]

/-! ### The loop -/

variable {evalTpt : List Cand → Except Panic (Option ℚ)}

theorem joins_of_short (h : evalTpt (participants t selected) = .ok none) :
    joins t evalTpt selected c = .ok (decide (c.capLayers ≠ 0)) := by
  unfold joins
  by_cases hroom : c.capLayers = 0
  · rw [if_pos hroom, decide_eq_false (not_not_intro hroom)]
    rfl
  · rw [if_neg hroom, decide_eq_true hroom]
    exact bind_eq_ok_iff.mpr ⟨none, h, rfl⟩

theorem joins_of_enough {cur : ℚ} (h : evalTpt (participants t selected) = .ok (some cur))
    (hdrain : c.caps.draining = true) : joins t evalTpt selected c = .ok false := by
  unfold joins
  split
  · rfl
  · refine bind_eq_ok_iff.mpr ⟨some cur, h, ?_⟩
    simp only [hdrain]
    rfl

/-- What holds after the workers `done` were looked at. -/
structure Chosen (t : Cands) (n : ℕ) (done selected : List Cand) : Prop where
  sublist : List.Sublist selected done
  /-- As long as the layers do not fit, nothing looked at was left out. -/
  enough : n ≤ capacity selected + t.head.capLayers ∨ capacity selected = capacity done
  /-- A draining worker is there only when the others do not suffice. -/
  needed : ∀ c ∈ selected, c.caps.draining = true →
    capacity (staying (rankedWorkers t)) + t.head.capLayers < n

theorem Chosen.nil (t : Cands) (n : ℕ) : Chosen t n [] [] where
  sublist := .refl []
  enough := .inr rfl
  needed c hc := by cases hc

/-- A worker that is passed over where it has no room, or where there is enough. -/
theorem Chosen.skip (h : Chosen t n done selected)
    (hskip : n ≤ capacity selected + t.head.capLayers ∨ c.capLayers = 0) : Chosen t n (done ++ [c]) selected where
  sublist := h.sublist.trans (sublist_append_left done [c])
  enough := by
    rcases hskip with hskip | hzero
    · exact .inl hskip
    · refine h.enough.imp_right fun heq => ?_
      rw [heq, capacity_append]
      change capacity done = capacity done + c.capLayers
      rw [hzero, Nat.add_zero]
  needed := h.needed

theorem Chosen.add (h : Chosen t n done selected)
    (hdrain : c.caps.draining = true → capacity (staying (rankedWorkers t)) + t.head.capLayers < n) :
    Chosen t n (done ++ [c]) (selected ++ [c]) where
  sublist := h.sublist.append (.refl [c])
  enough := by
    rw [capacity_append, capacity_append]
    rcases h.enough with henough | heq
    · exact .inl (by omega)
    · exact .inr (by rw [heq])
  needed d hd := by
    rcases mem_append.mp hd with hd | hd
    · exact h.needed d hd
    · rw [mem_singleton.mp hd]
      exact hdrain

theorem Chosen.consider {selected' todo : List Cand} (hjudge : Judges t n evalTpt) (hranked : done ++ c :: todo = rankedWorkers t)
    (h : Chosen t n done selected) (hturn : Scheduler.consider t evalTpt selected c = .ok selected') :
    Chosen t n (done ++ [c]) selected' := by
  have hworkers : ∀ d ∈ selected, d ∈ t.workers := by
    intro d hd
    apply (rankedWorkers_perm t).subset
    rw [← hranked]
    exact mem_append_left _ (h.sublist.subset hd)
  obtain ⟨joining, hjoining, hturn⟩ := bind_eq_ok_iff.mp hturn
  cases hturn
  obtain ⟨r, hr, hnone⟩ := hjudge selected hworkers
  rw [capacity_participants] at hnone
  cases r with
  | none =>
    have hshort := hnone.mp rfl
    rw [joins_of_short hr] at hjoining
    cases hjoining
    by_cases hroom : c.capLayers = 0
    · rw [decide_eq_false (not_not_intro hroom)]
      exact h.skip (.inr hroom)
    · rw [decide_eq_true hroom]
      apply h.add
      intro hdrain
      -- All that does not drain was looked at, and none of it left out.
      have hall : capacity selected = capacity done := h.enough.resolve_left (not_le.mpr hshort)
      have hstaying : capacity (staying done) ≤ capacity done :=
        capacity_le_of_subperm filter_sublist.subperm
      rw [staying_ranked hranked hdrain]
      omega
  | some =>
    have hfits : n ≤ capacity selected + t.head.capLayers := by
      by_contra hshort
      cases hnone.mpr (not_le.mp hshort)
    cases joining with
    | false => exact h.skip (.inl hfits)
    | true =>
      apply h.add
      intro hdrain
      rw [joins_of_enough hr hdrain] at hjoining
      cases hjoining

theorem chosen_of_selectWorkers (hjudge : Judges t n evalTpt) (h : selectWorkers t none evalTpt = .ok selected) :
    Chosen t n (rankedWorkers t) selected :=
  foldlM_invariant (P := Chosen t n) (Chosen.nil t n)
    (fun _ _ _ _ _ hranked hchosen hturn => hchosen.consider hjudge hranked hturn) h

/-! ### Capacities of the nodes of a request -/

/-- The layers some nodes can hold, by a capacity of their memory. -/
def nodesCapacity (capacityOf : UInt64 → ℕ) (nodes : List NodeCaps) : ℕ :=
  (nodes.map fun c => capacityOf c.usableMemoryBytes).sum

/-- Capping the terms of a sum does not matter to a bound below the cap. -/
theorem le_sum_min {m : ℕ} (l : List ℕ) (hn : n ≤ m) : n ≤ (l.map (min · m)).sum ↔ n ≤ l.sum := by
  induction l generalizing n with
  | nil => rfl
  | cons x l ih =>
    rw [map_cons, sum_cons, sum_cons]
    rcases le_total m x with hx | hx
    · rw [min_eq_right hx]
      exact iff_of_true (by omega) (by omega)
    · rw [min_eq_left hx]
      have := ih (n := n - x) (by omega)
      omega

theorem le_capacity_iff (hn : n < 2 ^ 32) (hmem : ∀ c ∈ cands, c ∈ (buildCands workers head cost budgetOf).all) :
    n ≤ capacity cands ↔ n ≤ nodesCapacity (fun usable => layersIn (budgetOf usable) cost) (cands.map Cand.caps) := by
  rw [nodesCapacity, ← le_sum_min _ (Nat.le_sub_one_of_lt hn), map_map, map_map, capacity,
    map_congr_left fun c hc => capLayers_eq (hmem c hc)]
  rfl

theorem map_caps_workers : (buildCands workers head cost budgetOf).workers.map Cand.caps = workers := by
  simp only [buildCands, map_map]
  exact zipIdx_map_fst 0 workers

theorem map_caps_staying : (staying (buildCands workers head cost budgetOf).workers).map Cand.caps =
    workers.filter fun w => !w.draining := by
  have hfilter := filter_map (f := Cand.caps) (p := fun w => !w.draining)
    (l := (buildCands workers head cost budgetOf).workers)
  rw [map_caps_workers] at hfilter
  exact hfilter.symm

/-! ### The plans -/

variable {input : PlanRequest} {p : PlannedPlacement}

theorem capacity_all (t : Cands) : capacity t.all = capacity t.workers + t.head.capLayers := capacity_append _ _

theorem Chosen.fits (h : Chosen t n (rankedWorkers t) selected) (hcap : n ≤ capacity t.all) :
    n ≤ capacity (participants t selected) := by
  rw [capacity_participants]
  rcases h.enough with henough | heq
  · exact henough
  · rwa [heq, capacity_perm (rankedWorkers_perm t), ← capacity_all]

theorem distribute_selected {forced : Option UInt32} (hsearch : LaysOut search orderOf input.dims.nLayers.toNat)
    (hexact : Exact search orderOf input.dims.nLayers.toNat)
    (hdims : input.dims.nLayers.toNat ≤ input.dims.weightBytesPerLayer.length)
    (hselected : selectWorkers (tableOf input budgetOf) forced (fun nodes => (search nodes).map (Option.map tpt)) =
      .ok selected) :
    (∃ p, distribute budgetOf search tpt orderOf input forced = .ok (.ok p)) ↔
      input.dims.nLayers.toNat ≤ capacity (participants (tableOf input budgetOf) selected) := by
  constructor
  · rintro ⟨p, h⟩
    obtain ⟨selected', order, hselected', hlayout, -⟩ := distribute_layout hsearch h
    obtain rfl := Except.ok.inj (hselected.symm.trans hselected')
    exact hlayout.le_capacity
  · intro hcap
    have hmem : ∀ c ∈ selected, c ∈ (tableOf input budgetOf).workers :=
      fun c hc => (selectWorkers_subperm hselected).subset hc
    obtain ⟨r, hr, hlayout, hfits⟩ := hexact _ (team_participants tableOf_built hmem) (buildCands_sized.participants hmem)
    obtain ⟨e, rfl⟩ := Option.ne_none_iff_exists'.mp (hfits hcap)
    have hassignments : assemble input.dims 0 0 (orderOf e) = .ok (stagesFrom 0 0 (orderOf e)) := by
      apply assemble_succeeds
      rw [Nat.zero_add, (hlayout e rfl).all]
      exact hdims
    exact ⟨_, bind_eq_ok_iff.mpr ⟨some e, bind_eq_ok_iff.mpr ⟨selected, hselected, hr⟩,
      bind_eq_ok_iff.mpr ⟨_, hassignments, rfl⟩⟩⟩

theorem distribute_complete (hsearch : LaysOut search orderOf input.dims.nLayers.toNat)
    (hexact : Exact search orderOf input.dims.nLayers.toNat)
    (hdims : input.dims.nLayers.toNat ≤ input.dims.weightBytesPerLayer.length) :
    (∃ p, distribute budgetOf search tpt orderOf input none = .ok (.ok p)) ↔
      input.dims.nLayers.toNat ≤ capacity (tableOf input budgetOf).all := by
  have hjudge : Judges (tableOf input budgetOf) input.dims.nLayers.toNat
      fun nodes => (search nodes).map (Option.map tpt) := judges_of_exact tableOf_built buildCands_sized hexact
  obtain ⟨selected, hselected⟩ : ∃ selected, selectWorkers (tableOf input budgetOf) none
      (fun nodes => (search nodes).map (Option.map tpt)) = .ok selected := by
    apply selectWorkers_succeeds
    intro selected hsel
    obtain ⟨r, hr, -⟩ := hjudge selected hsel
    exact ⟨r, hr⟩
  rw [distribute_selected hsearch hexact hdims hselected]
  exact ⟨fun h => h.trans (capacity_le_of_subperm (participants_subperm hselected)),
    (chosen_of_selectWorkers hjudge hselected).fits⟩

theorem planWith_automatic (distributed : PlanRequest → Option UInt32 → Outcome) (h : input.forcedNodes.getD 0 = 0) :
    planWith distributed input =
      if input.dims.totalRequiredBytes input.ctxLen ≤ nodeBudget input.head.usableMemoryBytes then
        pure (.ok (soloPlacement input)) else distributed input none := by
  simp only [planWith, filter_forced, if_pos h]

/-- **Automatic planning is complete**: the second planner returns a plan exactly when the model
fits on the head alone or the nodes together have the capacity for all layers. -/
theorem plan_complete (input : PlanRequest) (hauto : input.forcedNodes.getD 0 = 0) (hn : 1 ≤ input.dims.nLayers.toNat)
    (hdims : input.dims.weightBytesPerLayer.length = input.dims.nLayers.toNat) :
    (∃ p, planV2 input = .ok (.ok p)) ↔
      input.dims.totalRequiredBytes input.ctxLen ≤ nodeBudget input.head.usableMemoryBytes ∨
      input.dims.nLayers.toNat ≤ nodesCapacity
        (fun usable => nodeLayerCapacityV2 usable input.dims input.ctxLen input.nUbatch) (input.workers ++ [input.head]) := by
  rw [planV2, planWith_automatic _ hauto]
  by_cases hsolo : input.dims.totalRequiredBytes input.ctxLen ≤ nodeBudget input.head.usableMemoryBytes
  · rw [if_pos hsolo]
    exact iff_of_true ⟨soloPlacement input, rfl⟩ (.inl hsolo)
  · rw [if_neg hsolo, or_iff_right hsolo]
    refine (distribute_complete (laysOut_searchV2 _ _ _ _) (exact_searchV2 _ _ _ hn) hdims.ge).trans ?_
    rw [le_capacity_iff input.dims.nLayers.toNat_lt fun _ hc => hc, map_caps_tableOf]
    simp only [nodeBudgetV2_effective, nodeLayerCapacityV2]

/-- Two nodes that can hold three layers each have a plan for four. -/
theorem plan_complete_pair : ∃ p, planV2 pairRequest = .ok (.ok p) :=
  (plan_complete pairRequest rfl (by decide) rfl).mpr (.inr (by decide +kernel))

/-! ### Draining workers -/

theorem length_staying_ranked (input : PlanRequest) (budgetOf : UInt64 → UInt64) :
    (staying (rankedWorkers (tableOf input budgetOf))).length = (input.workers.filter fun w => !w.draining).length := by
  rw [(staying_perm (rankedWorkers_perm _)).length_eq, ← length_map Cand.caps]
  exact congrArg List.length map_caps_staying

theorem forced_draining {k : UInt32} (h : selectWorkers (tableOf input budgetOf) (some k) evalTpt = .ok selected)
    (hc : c ∈ selected) (hdrain : c.caps.draining = true) :
    (input.workers.filter fun w => !w.draining).length < k.toNat - 1 := by
  cases h
  obtain ⟨i, hi, rfl⟩ := mem_take_iff_getElem.mp hc
  rw [lt_min_iff] at hi
  have hsplit := take_append_drop i (rankedWorkers (tableOf input budgetOf))
  rw [drop_eq_getElem_cons hi.2] at hsplit
  -- All that do not drain come before this worker.
  rw [← length_staying_ranked input budgetOf, staying_ranked hsplit hdrain]
  calc (staying ((rankedWorkers (tableOf input budgetOf)).take i)).length
      ≤ ((rankedWorkers (tableOf input budgetOf)).take i).length := length_filter_le _ _
    _ ≤ i := length_take_le _ _
    _ < k.toNat - 1 := hi.1

/-- The nodes that do not drain. -/
def stayingNodes (input : PlanRequest) : List NodeCaps := (input.workers.filter fun w => !w.draining) ++ [input.head]

/-- The stages of a plan stand on some of these nodes, each used once. -/
def StandsOn (p : PlannedPlacement) (nodes : List NodeCaps) : Prop :=
  ∃ used : List NodeCaps, used.Subperm nodes ∧ p.plan.assignments.map Assignment.node = used.map NodeCaps.node

theorem standsOn_solo (input : PlanRequest) : StandsOn (soloPlacement input) (stayingNodes input) :=
  ⟨[input.head], (sublist_append_right _ _).subperm, rfl⟩

/-- A choice without draining workers is one of the others. -/
theorem Chosen.staying (h : Chosen t n (rankedWorkers t) selected)
    (hcap : n ≤ capacity (staying (rankedWorkers t)) + t.head.capLayers) :
    (participants t selected).Subperm (Scheduler.staying t.workers ++ [t.head]) := by
  have hself : Scheduler.staying selected = selected := by
    apply filter_eq_self.mpr
    intro c hc
    cases hdrain : c.caps.draining with
    | false => rfl
    | true => exact absurd (h.needed c hc hdrain) (not_lt.mpr hcap)
  have hsub : List.Sublist (Scheduler.staying selected) (Scheduler.staying (rankedWorkers t)) := h.sublist.filter _
  rw [hself] at hsub
  exact (participants_perm t selected).subperm.trans
    ((hsub.subperm.trans (staying_perm (rankedWorkers_perm t)).subperm).append (List.Subperm.refl _))

theorem Layout.eq_nil {order : List (Lot Cand)} (h : Layout cands 0 order) : order = [] := by
  cases order with
  | nil => rfl
  | cons q =>
    have hpos := h.positive q mem_cons_self
    have hall := h.all
    rw [total_cons] at hall
    omega

theorem distribute_staying (hsearch : LaysOut search orderOf input.dims.nLayers.toNat)
    (hexact : 0 < input.dims.nLayers.toNat → Exact search orderOf input.dims.nLayers.toNat)
    (hcap : input.dims.nLayers.toNat ≤ nodesCapacity
      (fun usable => layersIn (budgetOf usable) (perLayerCost input.dims input.ctxLen)) (stayingNodes input))
    (h : distribute budgetOf search tpt orderOf input none = .ok (.ok p)) : StandsOn p (stayingNodes input) := by
  obtain ⟨selected, order, hselected, hlayout, -, hassignments, -⟩ := distribute_layout hsearch h
  rcases Nat.eq_zero_or_pos input.dims.nLayers.toNat with hzero | hpos
  · -- Nothing to place: no stages.
    rw [hzero] at hlayout
    rw [hlayout.eq_nil] at hassignments
    exact ⟨[], nil_subperm, congrArg (List.map Assignment.node) hassignments⟩
  · have hjudge : Judges (tableOf input budgetOf) input.dims.nLayers.toNat
        fun nodes => (search nodes).map (Option.map tpt) := judges_of_exact tableOf_built buildCands_sized (hexact hpos)
    have hnodes : (staying (tableOf input budgetOf).workers ++ [(tableOf input budgetOf).head]).map Cand.caps =
        stayingNodes input := by
      rw [map_append, map_caps_staying]
      rfl
    have hroom : input.dims.nLayers.toNat ≤
        capacity (staying (rankedWorkers (tableOf input budgetOf))) + (tableOf input budgetOf).head.capLayers := by
      rw [← hnodes, ← le_capacity_iff input.dims.nLayers.toNat_lt, capacity_append] at hcap
      · rw [capacity_perm (staying_perm (rankedWorkers_perm (tableOf input budgetOf)))]
        exact hcap
      · exact fun c hc => (filter_sublist.append (.refl _)).subset hc
    have hsub := (chosen_of_selectWorkers hjudge hselected).staying hroom
    refine ⟨(order.map Lot.item).map Cand.caps, ?_, ?_⟩
    · rw [← hnodes]
      obtain ⟨l, hperm, hsublist⟩ := hlayout.nodes.trans hsub
      exact ⟨l.map Cand.caps, hperm.map _, hsublist.map _⟩
    · rw [hassignments, map_node_stagesFrom, map_map, map_map]
      rfl

/-- **Draining is a last resort**: in automatic mode the stages stand on the head and workers that
do not drain when these have the capacity for all layers, and a forced number of nodes is filled
with draining workers only when there are too few others. -/
theorem draining_last (input : PlanRequest) : (input.forcedNodes.getD 0 = 0 →
      (input.dims.nLayers.toNat ≤ nodesCapacity
          (fun usable => nodeLayerCapacity usable input.dims input.ctxLen) (stayingNodes input) →
        ∀ p, planV1 input = .ok (.ok p) → StandsOn p (stayingNodes input)) ∧
      (input.dims.nLayers.toNat ≤ nodesCapacity
          (fun usable => nodeLayerCapacityV2 usable input.dims input.ctxLen input.nUbatch) (stayingNodes input) →
        ∀ p, planV2 input = .ok (.ok p) → StandsOn p (stayingNodes input))) ∧
    (∀ (k : UInt32) (budgetOf : UInt64 → UInt64) (evalTpt : List Cand → Except Panic (Option ℚ)) (selected : List Cand),
      selectWorkers (tableOf input budgetOf) (some k) evalTpt = .ok selected →
      (∃ c ∈ selected, c.caps.draining = true) → (input.workers.filter fun w => !w.draining).length < k.toNat - 1) := by
  refine ⟨fun hauto => ⟨fun hcap p h => ?_, fun hcap p h => ?_⟩, fun k budgetOf evalTpt selected h => ?_⟩
  · rw [planV1, planWith_automatic _ hauto] at h
    split at h
    · cases h
      exact standsOn_solo input
    · exact distribute_staying (laysOut_evaluate _ _) (exact_evaluate _) hcap h
  · rw [planV2, planWith_automatic _ hauto] at h
    split at h
    · cases h
      exact standsOn_solo input
    · refine distribute_staying (laysOut_searchV2 _ _ _ _) (exact_searchV2 _ _ _) ?_ h
      simp only [nodeBudgetV2_effective]
      exact hcap
  · rintro ⟨c, hc, hdrain⟩
    exact forced_draining h hc hdrain

/-- With a worker that drains. -/
def leavingRequest : PlanRequest :=
  { pairRequest with
    workers := { node := "leaving", usableMemoryBytes := 1782579200, compute := none, draining := true } ::
      pairRequest.workers }

/-- The draining node could hold the whole model, and gets no layer. -/
theorem draining_last_leaving :
    planV2 leavingRequest = .ok (.ok pairPlacement) ∧ StandsOn pairPlacement (stayingNodes leavingRequest) := by
  have hplan : planV2 leavingRequest = .ok (.ok pairPlacement) := by decide +kernel
  exact ⟨hplan, ((draining_last leavingRequest).1 rfl).2 (by decide +kernel) pairPlacement hplan⟩

end OneBrain.Scheduler
