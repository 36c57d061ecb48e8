import OneBrain.Scheduler.Shape

/-!
# Requests with round trips only

With no compute profiles, no measured bandwidths and a dense model of unknown embedding
width, the time per token of a plan is the sum of the round trips between its stages, and the
second planner is meant to plan as the first one does. Of its apportionments the one by
memory and the one with the compute tilt are then the first planner's own. The one in
proportion to compute is another: it gives every node the same share, up to the capacities,
and can so leave out or bring in a node. Where one of its orders has a strictly smaller sum of
round trips, the second planner takes it.

`MemoryCheapest` says that this is not so for a set of nodes. Where it holds for every set that
the first planner evaluates, the second evaluates the same ones, and the two have the same outcome;
with a forced number of nodes there is one such set, and the condition is exact (`rttOnly_agree`).
-/

namespace OneBrain.Scheduler

open List OneBrain.Lib OneBrain.Cluster

/-- No profiles, no bandwidths, a dense model without a recorded embedding width. -/
structure RttOnly (input : PlanRequest) : Prop where
  profiles : ∀ c ∈ input.workers ++ [input.head], c.compute = none
  bandwidths : ∀ l ∈ input.links, l.bandwidthMbps = none
  dense : input.dims.nExpert = 0
  width : input.dims.nEmbd = 0

/-- The sum of the round trips between the stages. -/
def rttSum (links : List LinkRtt) (chain : List (Lot Cand)) : ℚ := (boundaryRtts links chain).sum

/-- The orders tried for an apportionment. -/
def triedOrders (score : Cand → ℚ) (n : ℕ) (links : List LinkRtt) (cands : List Cand) :
    Except Panic (List (List (Lot Cand))) := do
  match ← apportion score cands n with
  | none => pure []
  | some lots => enumerateOrders lots links

/-- No order of the apportionment in proportion to compute has a smaller sum of round trips
than every order of the apportionment by memory. -/
def MemoryCheapest (n : ℕ) (links : List LinkRtt) (cands : List Cand) : Prop :=
  ∀ orders, triedOrders Tilt.compute.score n links cands = .ok orders → ∀ o ∈ orders,
    ∃ orders', triedOrders Tilt.memory.score n links cands = .ok orders' ∧ ∃ o' ∈ orders', rttSum links o' ≤ rttSum links o

instance (n : ℕ) (links : List LinkRtt) (cands : List Cand) : Decidable (MemoryCheapest n links cands) :=
  match hc : triedOrders Tilt.compute.score n links cands, hm : triedOrders Tilt.memory.score n links cands with
  | .error _, _ => isTrue (by simp [MemoryCheapest, hc])
  | .ok oc, .error _ => decidable_of_iff (∀ o ∈ oc, False) (by simp [MemoryCheapest, hc, hm])
  | .ok oc, .ok om =>
    decidable_of_iff (∀ o ∈ oc, ∃ o' ∈ om, rttSum links o' ≤ rttSum links o) (by simp [MemoryCheapest, hc, hm])

/-! ### Candidates without profiles -/

/-- Candidates of nodes that were not profiled, in a table of such nodes. -/
structure Unprofiled (cands : List Cand) : Prop where
  decode : ∀ c ∈ cands, c.decode = none
  factor : ∀ c ∈ cands, c.factor = 1
  tptDecode : ∀ c ∈ cands, c.tptDecode = none

variable {input : PlanRequest} {cands : List Cand} {n : ℕ} {links : List LinkRtt} {dims : ModelDims} {nUbatch : UInt32}

theorem RttOnly.decode (h : RttOnly input) {c : NodeCaps} (hc : c ∈ input.workers ++ [input.head]) : c.decode = none := by
  rw [NodeCaps.decode, h.profiles c hc]
  rfl

theorem RttOnly.unprofiled (h : RttOnly input) (budgetOf : UInt64 → UInt64) : Unprofiled (tableOf input budgetOf).all := by
  have hnone : (input.workers ++ [input.head]).filterMap NodeCaps.decode = [] :=
    filterMap_eq_nil_iff.mpr fun c hc => h.decode hc
  constructor
  all_goals
    intro c hc
    obtain ⟨caps, hcaps, place, isHead, rfl⟩ := mem_all_buildCands hc
    simp only [cand, h.decode hcaps, hnone, List.min?_nil, Option.or_none]

theorem Unprofiled.mono {cands' : List Cand} (h : Unprofiled cands) (hsub : ∀ c ∈ cands', c ∈ cands) : Unprofiled cands' :=
  ⟨fun c hc => h.decode c (hsub c hc), fun c hc => h.factor c (hsub c hc), fun c hc => h.tptDecode c (hsub c hc)⟩

/-- Without an embedding width both planners have the same budgets. -/
theorem nodeBudgetV2_zero (usable : UInt64) (nUbatch : UInt32) : nodeBudgetV2 usable 0 nUbatch = nodeBudget usable := by
  have hcopies : pipelineCopies 0 nUbatch = 0 := by
    have hzero : satMul 16 0 = 0 := rfl
    rw [pipelineCopies, hzero, satMul, UInt64.toNat_zero, Nat.zero_mul]
    rfl
  rw [nodeBudgetV2, nodeBudget, hcopies]
  rfl

theorem apportion_hybrid (h : Unprofiled cands) :
    apportion (fun c => c.capF * c.factor) cands n = apportion Tilt.memory.score cands n := by
  have hsame : ∀ c ∈ cands, c.capF * c.factor = Tilt.memory.score c := by
    intro c hc
    rw [h.factor c hc, mul_one]
    rfl
  unfold apportion
  rw [map_congr_left hsame, largestRemainder_congr hsame fun _ _ => rfl]

/-! ### What the first planner finds -/

/-- What the selection and the plan look at of an evaluated set. -/
def summary {ε : Type} (search : List Cand → Except Panic (Option ε)) (tpt : ε → ℚ) (order : ε → List (Lot Cand))
    (cands : List Cand) : Except Panic (Option (List (Lot Cand) × ℚ)) :=
  (search cands).map (Option.map fun e => (order e, tpt e))

theorem map_eq_ok {α β : Type} {x : Except Panic α} {f : α → β} {a : α} (h : x = .ok a) : x.map f = .ok (f a) := by
  rw [h]
  rfl

/-- The first order with the smallest sum of round trips, and that sum. -/
def cheapest (links : List LinkRtt) (orders : List (List (Lot Cand))) : Option (List (Lot Cand) × ℚ) :=
  (orders.argmin (rttSum links)).map fun o => (o, rttSum links o)

/-- The order of the first planner is the cheapest of those tried. -/
theorem orderStages_cheapest (links : List LinkRtt) {lots : List (Lot Cand)} (hone : lots.countP ofHead ≤ 1) :
    ∃ orders chain, enumerateOrders lots links = .ok orders ∧
      orderStages lots links = .ok (chain, boundaryRtts links chain) ∧ orders.argmin (rttSum links) = some chain := by
  obtain ⟨chain, hchain, -⟩ := orderStages_spec links hone
  unfold enumerateOrders
  by_cases hfew : (active lots).length ≤ 1
  · rw [if_pos hfew]
    refine ⟨_, chain, rfl, hchain, ?_⟩
    unfold orderStages at hchain
    rw [if_pos hfew] at hchain
    obtain ⟨rfl, -⟩ := Prod.mk.inj (Except.ok.inj hchain)
    rfl
  · rw [if_neg hfew]
    by_cases hmany : exactOrderMaxNodes < (active lots).length
    · rw [if_pos hmany]
      exact ⟨_, chain, bind_eq_ok_iff.mpr ⟨_, hchain, rfl⟩, hchain, rfl⟩
    · rw [if_neg hmany]
      refine ⟨_, chain, rfl, hchain, ?_⟩
      unfold orderStages at hchain
      rw [if_neg hfew, if_pos (Nat.not_lt.mp hmany)] at hchain
      cases hbest : (exactOrders (active lots)).argmin fun chain => (boundaryRtts links chain).sum with
      | none => exact absurd (argmin_eq_none.mp hbest) (exactOrders_ne_nil _)
      | some =>
        simp only [hbest] at hchain
        obtain ⟨rfl, -⟩ := Prod.mk.inj (Except.ok.inj hchain)
        exact hbest

theorem foldl_stageMs {order : List (Lot Cand)} (h : ∀ p ∈ order, p.item.tptDecode = none) :
    order.foldl (fun worst p => max worst (stageMs p)) 0 = 0 := by
  induction order with
  | nil => rfl
  | cons p order ih =>
    rw [forall_mem_cons] at h
    rw [foldl_cons, stageMs, h.1, max_self]
    exact ih h.2

theorem worstStageMs_zero {order : List (Lot Cand)} {cursor : ℕ} (h : ∀ p ∈ order, p.item.tptDecode = none) :
    worstStageMs dims cursor 0 order = 0 := by
  induction order generalizing cursor with
  | nil => rfl
  | cons p order ih =>
    rw [forall_mem_cons] at h
    simp only [worstStageMs, h.1]
    exact ih h.2

theorem Arranged.tptDecode {lots order : List (Lot Cand)} (h : Arranged (active lots) order) (happ : Apportioned cands n lots)
    (hplain : Unprofiled cands) : ∀ p ∈ order, p.item.tptDecode = none := by
  intro p hp
  apply hplain.tptDecode
  rw [← happ.items]
  exact mem_map_of_mem (mem_active.mp (h.perm.subset hp)).1

theorem summary_evaluate (links : List LinkRtt) (hteam : Team cands) (hplain : Unprofiled cands) :
    ∃ om, triedOrders Tilt.memory.score n links cands = .ok om ∧
      summary (evaluate n links) Evaluated.tpt Evaluated.order cands = .ok (cheapest links om) := by
  rcases apportion_spec (n := n) (hteam.tilt .memory) with ⟨hnone, -⟩ | ⟨lots, hlots, happ⟩
  · have hevaluate : evaluate n links cands = .ok none :=
      bind_eq_ok_iff.mpr ⟨none, (apportion_hybrid hplain).trans hnone, rfl⟩
    exact ⟨[], bind_eq_ok_iff.mpr ⟨none, hnone, rfl⟩, map_eq_ok hevaluate⟩
  · obtain ⟨orders, chain, horders, hchain, hbest⟩ := orderStages_cheapest links (happ.oneHead hteam)
    obtain ⟨chain', hchain', harranged⟩ := orderStages_spec links (happ.oneHead hteam)
    obtain ⟨rfl, -⟩ := Prod.mk.inj (Except.ok.inj (hchain'.symm.trans hchain))
    refine ⟨orders, bind_eq_ok_iff.mpr ⟨some lots, hlots, horders⟩, ?_⟩
    have hevaluate : evaluate n links cands = .ok (some
        { lots, order := chain', boundaryRtts := boundaryRtts links chain', tpt := rttSum links chain' }) := by
      refine bind_eq_ok_iff.mpr ⟨some lots, (apportion_hybrid hplain).trans hlots, bind_eq_ok_iff.mpr ⟨_, hchain, ?_⟩⟩
      simp only [foldl_stageMs (harranged.tptDecode happ hplain), zero_add]
      rfl
    rw [summary, map_eq_ok hevaluate, cheapest, hbest]
    rfl

/-! ### What the second planner finds -/

theorem linkBandwidth_none (hlinks : ∀ l ∈ links, l.bandwidthMbps = none) (a b : NodeId) : linkBandwidth links a b = none := by
  unfold linkBandwidth
  cases hlink : link links a b with
  | none => rfl
  | some l =>
    rw [Option.bind_some, hlinks l (mem_of_find?_eq_some hlink)]
    rfl

theorem price_plain (hlinks : ∀ l ∈ links, l.bandwidthMbps = none) (fc : FamilyCandidate) {order : List (Lot Cand)}
    (h : ∀ p ∈ order, p.item.tptDecode = none) :
    (price dims nUbatch links fc order).tpt = rttSum links order ∧
      (price dims nUbatch links fc order).prefillCost = rttSum links order := by
  have htransfer : (List.zipWith (hopTransfer dims nUbatch links) order order.tail).sum = 0 := by
    apply sum_eq_zero
    intro x hx
    obtain ⟨i, hi, rfl⟩ := mem_iff_getElem.mp hx
    rw [getElem_zipWith, hopTransfer, linkBandwidth_none hlinks]
    rfl
  constructor
  · simp only [price, worstStageMs_zero h, zero_add]
    rfl
  · simp only [price, htransfer, add_zero]
    rfl

/-- A priced order whose costs are its round trips. -/
def Plain (links : List LinkRtt) (e : V2Eval) : Prop := e.tpt = rttSum links e.order ∧ e.prefillCost = rttSum links e.order

/-- The candidates of one tilt are the orders tried for it. -/
theorem tilt_spec (dims : ModelDims) (nUbatch : UInt32) (hteam : Team cands) (hplain : Unprofiled cands)
    (hlinks : ∀ l ∈ links, l.bandwidthMbps = none) (tilt : Tilt) :
    ∃ fc orders evals, familyCandidate cands n (false, tilt) = .ok fc ∧
      triedOrders tilt.score n links cands = .ok orders ∧
      fc.toList.mapM (priceOrders dims nUbatch links) = .ok evals ∧ evals.flatten.map V2Eval.order = orders ∧
      ∀ e ∈ evals.flatten, Plain links e := by
  rcases apportion_spec (n := n) (hteam.tilt tilt) with ⟨hnone, -⟩ | ⟨lots, hlots, happ⟩
  · refine ⟨none, [], [], bind_eq_ok_iff.mpr ⟨none, hnone, rfl⟩, bind_eq_ok_iff.mpr ⟨none, hnone, rfl⟩, rfl, rfl, ?_⟩
    intro e he
    cases he
  · obtain ⟨orders, horders, -, harranged⟩ := enumerateOrders_spec links (happ.oneHead hteam)
    have hprice : priceOrders dims nUbatch links ⟨tilt, false, lots⟩ =
        .ok (orders.map (price dims nUbatch links ⟨tilt, false, lots⟩)) :=
      bind_eq_ok_iff.mpr ⟨orders, horders, rfl⟩
    refine ⟨some ⟨tilt, false, lots⟩, orders, [orders.map (price dims nUbatch links ⟨tilt, false, lots⟩)],
      bind_eq_ok_iff.mpr ⟨some lots, hlots, rfl⟩, bind_eq_ok_iff.mpr ⟨some lots, hlots, horders⟩, ?_, ?_, ?_⟩
    · rw [Option.toList_some, mapM_cons, hprice]
      rfl
    · rw [flatten_singleton, map_map]
      exact map_id orders
    · intro e he
      rw [flatten_singleton] at he
      obtain ⟨o, ho, rfl⟩ := mem_map.mp he
      exact price_plain hlinks _ ((harranged o ho).tptDecode happ hplain)

/-- No node can be called the slowest, so nothing is taken from it. -/
theorem familyCandidate_underweighted (hteam : Team cands) (hplain : Unprofiled cands) (tilt : Tilt) :
    familyCandidate cands n (true, tilt) = .ok none := by
  rcases apportion_spec (n := n) (hteam.tilt tilt) with ⟨hnone, -⟩ | ⟨lots, hlots, happ⟩
  · exact bind_eq_ok_iff.mpr ⟨none, hnone, rfl⟩
  · refine bind_eq_ok_iff.mpr ⟨some lots, hlots, ?_⟩
    have hslowest : slowest lots = none := by
      apply argmin_eq_none.mpr
      apply filter_eq_nil_iff.mpr
      intro s hs
      have hmem : s.here.item ∈ cands := happ.items ▸ mem_map_of_mem (Spot.here_mem hs)
      rw [hplain.decode _ hmem]
      exact Bool.false_ne_true
    simp only [if_true, underweight, hslowest]
    rfl

theorem cheapest_of_plain {evals : List V2Eval} (h : ∀ e ∈ evals, Plain links e) (update : V2Eval → V2Eval)
    (horder : ∀ e, (update e).order = e.order) (htpt : ∀ e, (update e).tpt = e.tpt) :
    (((evals.argmin fun e => toLex (e.tpt, e.prefillCost)).map update).map fun e => (e.order, e.tpt)) =
      cheapest links (evals.map V2Eval.order) := by
  have hkey : (evals.argmin fun e => toLex (e.tpt, e.prefillCost)) = evals.argmin (rttSum links ∘ V2Eval.order) := by
    apply argmin_congr
    intro a ha b hb
    rw [Prod.Lex.toLex_lt_toLex, (h a ha).1, (h a ha).2, (h b hb).1, (h b hb).2]
    simp only [Function.comp_apply, or_iff_left_iff_imp]
    exact And.right
  rw [cheapest, argmin_map, hkey, Option.map_map, Option.map_map]
  cases hbest : evals.argmin (rttSum links ∘ V2Eval.order) with
  | none => rfl
  | some e =>
    simp only [Option.map_some, Function.comp_apply, horder, htpt, (h e (argmin_mem hbest)).1]

theorem summary_searchV2 (dims : ModelDims) (nUbatch : UInt32) (hteam : Team cands) (hplain : Unprofiled cands)
    (hlinks : ∀ l ∈ links, l.bandwidthMbps = none) :
    ∃ om oc, triedOrders Tilt.memory.score n links cands = .ok om ∧
      triedOrders Tilt.compute.score n links cands = .ok oc ∧
      summary (searchV2 n links dims nUbatch) V2Eval.tpt V2Eval.order cands = .ok (cheapest links (om ++ (om ++ oc))) := by
  obtain ⟨fm, om, em, hfm, hom, hem, hemo, hemp⟩ :=
    tilt_spec (n := n) dims nUbatch hteam hplain hlinks .memory
  obtain ⟨fh, oh, eh, hfh, hoh, heh, heho, hehp⟩ :=
    tilt_spec (n := n) dims nUbatch hteam hplain hlinks .hybrid
  obtain ⟨fc, oc, ec, hfc, hoc, hec, heco, hecp⟩ :=
    tilt_spec (n := n) dims nUbatch hteam hplain hlinks .compute
  refine ⟨om, oc, hom, hoc, ?_⟩
  -- The tilt by compute of nodes without profiles is the apportionment by memory.
  obtain rfl : om = oh := by
    have hsame : triedOrders Tilt.hybrid.score n links cands = triedOrders Tilt.memory.score n links cands := by
      unfold triedOrders
      rw [show apportion Tilt.hybrid.score cands n = _ from apportion_hybrid hplain]
    exact Except.ok.inj (hom.symm.trans (hsame.symm.trans hoh))
  have hvariants : variants.mapM (familyCandidate cands n) = .ok [fm, fh, fc, none, none, none] := by
    change ([(false, .memory), (false, .hybrid), (false, .compute), (true, .memory), (true, .hybrid), (true, .compute)] :
      List (Bool × Tilt)).mapM (familyCandidate cands n) = _
    simp only [mapM_cons, mapM_nil, hfm, hfh, hfc, familyCandidate_underweighted hteam hplain]
    rfl
  have hfamily : familyCounts cands n = .ok (fm.toList ++ (fh.toList ++ fc.toList)) := by
    refine bind_eq_ok_iff.mpr ⟨_, hvariants, ?_⟩
    cases fm <;> cases fh <;> cases fc <;> rfl
  have hevals : (fm.toList ++ (fh.toList ++ fc.toList)).mapM (priceOrders dims nUbatch links) = .ok (em ++ (eh ++ ec)) := by
    rw [mapM_append, hem, mapM_append, heh, hec]
    rfl
  have horders : (em ++ (eh ++ ec)).flatten.map V2Eval.order = om ++ (om ++ oc) := by
    rw [flatten_append, flatten_append, map_append, map_append, hemo, heho, heco]
  have hcosts : ∀ e ∈ (em ++ (eh ++ ec)).flatten, Plain links e := by
    intro e he
    rw [flatten_append, flatten_append, mem_append, mem_append] at he
    rcases he with he | he | he
    · exact hemp e he
    · exact hehp e he
    · exact hecp e he
  rw [← horders]
  refine (map_eq_ok (x := searchV2 n links dims nUbatch cands)
    (bind_eq_ok_iff.mpr ⟨_, hfamily, bind_eq_ok_iff.mpr ⟨_, hevals, rfl⟩⟩)).trans ?_
  exact congrArg Except.ok (cheapest_of_plain hcosts _ (fun _ => rfl) fun _ => rfl)

/-! ### The sets a planner evaluates -/

section Weighed

variable (t : Cands) (evalTpt : List Cand → Except Panic (Option ℚ))

/-- The sets evaluated to decide on a worker: those chosen so far and, if they can hold the model
and the worker may stay out, the worker with them. -/
def weighed (selected : List Cand) (c : Cand) : List (List Cand) :=
  if c.capLayers = 0 then []
  else
    participants t selected ::
      match evalTpt (participants t selected), c.caps.draining with
      | .ok (some _), false => [participants t (selected ++ [c])]
      | _, _ => []

/-- The sets evaluated from a point of the selection on, and the one it ends with. -/
def weighedFrom : List Cand → List Cand → List (List Cand)
  | selected, [] => [participants t selected]
  | selected, c :: todo =>
    weighed t evalTpt selected c ++
      match consider t evalTpt selected c with
      | .ok selected => weighedFrom selected todo
      | .error _ => []

/-- The sets of nodes that are evaluated: with a forced count one set, otherwise those that the
selection weighs. -/
def lookedAt (forced : Option UInt32) : List (List Cand) :=
  match forced with
  | some k => [participants t ((rankedWorkers t).take (k.toNat - 1))]
  | none => weighedFrom t evalTpt [] (rankedWorkers t)

end Weighed

/-- The time per token that the first planner expects of a set. -/
def tptV1 (input : PlanRequest) (nodes : List Cand) : Except Panic (Option ℚ) :=
  (evaluate input.dims.nLayers.toNat input.links nodes).map (Option.map Evaluated.tpt)

/-- The sets of nodes that a request makes the first planner evaluate. -/
def consulted (input : PlanRequest) : List (List Cand) :=
  match input.forcedNodes.filter fun k => decide (k ≠ 0) with
  | none =>
    if input.dims.totalRequiredBytes input.ctxLen ≤ nodeBudget input.head.usableMemoryBytes then []
    else lookedAt (tableOf input nodeBudget) (tptV1 input) none
  | some k =>
    if UInt32.ofNat input.workers.length + 1 < k ∨ k = 1 then []
    else lookedAt (tableOf input nodeBudget) (tptV1 input) (some k)

variable {t : Cands} {forced : Option UInt32} {nodes selected todo : List Cand} {f g : List Cand → Except Panic (Option ℚ)}

/-- A decision rests on the sets weighed for it. -/
theorem consider_congr {c : Cand} (h : ∀ nodes ∈ weighed t f selected c, f nodes = g nodes) :
    consider t g selected c = consider t f selected c := by
  have hjoins : joins t g selected c = joins t f selected c := by
    unfold joins
    by_cases hroom : c.capLayers = 0
    · rw [if_pos hroom, if_pos hroom]
    · rw [weighed, if_neg hroom, forall_mem_cons] at h
      rw [if_neg hroom, if_neg hroom, ← h.1]
      rcases hcur : f (participants t selected) with _ | _ | cur
      · rfl
      · rfl
      · cases hdrains : c.caps.draining with
        | true => rfl
        | false =>
          have hadded := h.2 (participants t (selected ++ [c])) (by rw [hcur, hdrains]; exact mem_singleton_self _)
          change (g _ >>= _) = f _ >>= _
          rw [hadded]
  rw [consider, consider, hjoins]

theorem selection_congr (h : ∀ nodes ∈ weighedFrom t f selected todo, f nodes = g nodes) :
    todo.foldlM (consider t g) selected = todo.foldlM (consider t f) selected := by
  induction todo generalizing selected with
  | nil => rfl
  | cons c todo ih =>
    rw [weighedFrom, forall_mem_append] at h
    rw [foldlM_cons, foldlM_cons, consider_congr h.1]
    cases hnext : consider t f selected c with
    | error => rfl
    | ok selected' =>
      rw [hnext] at h
      exact ih h.2

/-- The set a selection ends with is evaluated. -/
theorem selected_weighed {chosen : List Cand} (h : todo.foldlM (consider t f) selected = .ok chosen) :
    participants t chosen ∈ weighedFrom t f selected todo := by
  induction todo generalizing selected with
  | nil =>
    cases h
    exact mem_singleton_self _
  | cons c todo ih =>
    obtain ⟨selected', hnext, hrest⟩ := bind_eq_ok_iff.mp (foldlM_cons.symm.trans h)
    rw [weighedFrom, hnext]
    exact mem_append_right _ (ih hrest)

theorem weighedFrom_workers (hsel : ∀ c ∈ selected ++ todo, c ∈ t.workers) (h : nodes ∈ weighedFrom t f selected todo) :
    ∃ chosen, nodes = participants t chosen ∧ ∀ c ∈ chosen, c ∈ t.workers := by
  induction todo generalizing selected with
  | nil => exact ⟨selected, mem_singleton.mp h, fun c hc => hsel c (mem_append_left _ hc)⟩
  | cons c todo ih =>
    have hadded : ∀ d ∈ selected ++ [c], d ∈ t.workers := by
      intro d hd
      apply hsel
      simp only [mem_append, mem_cons, not_mem_nil, or_false] at hd ⊢
      exact hd.imp_right .inl
    rcases mem_append.mp h with h | h
    · rw [weighed] at h
      split at h
      · cases h
      · rcases mem_cons.mp h with h | h
        · exact ⟨selected, h, fun d hd => hadded d (mem_append_left _ hd)⟩
        · split at h
          · exact ⟨_, mem_singleton.mp h, hadded⟩
          · cases h
    · cases hnext : consider t f selected c with
      | error =>
        rw [hnext] at h
        cases h
      | ok selected' =>
        rw [hnext] at h
        refine ih (fun d hd => ?_) h
        rcases mem_append.mp hd with hd | hd
        · rcases consider_cases hnext with rfl | rfl
          · exact hadded d hd
          · exact hadded d (mem_append_left _ hd)
        · exact hsel d (mem_append_right _ (mem_cons_of_mem _ hd))

theorem lookedAt_workers (h : nodes ∈ lookedAt t f forced) :
    ∃ selected, nodes = participants t selected ∧ ∀ c ∈ selected, c ∈ t.workers := by
  cases forced with
  | some =>
    refine ⟨_, mem_singleton.mp h, fun c hc => ?_⟩
    exact (rankedWorkers_perm t).subset (mem_of_mem_take hc)
  | none => exact weighedFrom_workers (fun c hc => (rankedWorkers_perm t).subset hc) h

theorem map_summary {ε : Type} (search : List Cand → Except Panic (Option ε)) (tpt : ε → ℚ) (order : ε → List (Lot Cand)) :
    (fun nodes => (summary search tpt order nodes).map (Option.map Prod.snd)) =
      fun nodes => (search nodes).map (Option.map tpt) := by
  funext nodes
  unfold summary
  rcases search nodes with _ | _ | _ <;> rfl

theorem searchChosen_summary {ε : Type} (t : Cands) (forced : Option UInt32)
    (search : List Cand → Except Panic (Option ε)) (tpt : ε → ℚ) (order : ε → List (Lot Cand)) :
    (searchChosen t forced search tpt).map (Option.map order) =
      (searchChosen t forced (summary search tpt order) Prod.snd).map (Option.map Prod.fst) := by
  unfold searchChosen
  rw [map_summary]
  cases selectWorkers t forced (fun nodes => (search nodes).map (Option.map tpt)) with
  | error => rfl
  | ok selected =>
    change (search (participants t selected)).map (Option.map order) =
      (summary search tpt order (participants t selected)).map (Option.map Prod.fst)
    unfold summary
    cases search (participants t selected) with
    | error => rfl
    | ok r => cases r <;> rfl

/-- A search over chosen workers rests on the sets that are evaluated. -/
theorem searchChosen_congr {ε : Type} {search search' : List Cand → Except Panic (Option ε)} {tpt : ε → ℚ}
    (h : ∀ nodes ∈ lookedAt t (fun nodes => (search nodes).map (Option.map tpt)) forced, search nodes = search' nodes) :
    searchChosen t forced search' tpt = searchChosen t forced search tpt := by
  cases forced with
  | some => exact (h _ (mem_singleton_self _)).symm
  | none =>
    have hselect : selectWorkers t none (fun nodes => (search' nodes).map (Option.map tpt)) =
        selectWorkers t none (fun nodes => (search nodes).map (Option.map tpt)) := by
      apply selection_congr
      intro nodes hnodes
      rw [h nodes hnodes]
    unfold searchChosen
    rw [hselect]
    cases hselected : selectWorkers t none (fun nodes => (search nodes).map (Option.map tpt)) with
    | error => rfl
    | ok => exact (h _ (selected_weighed hselected)).symm

theorem distribute_eq {ε : Type} (budgetOf : UInt64 → UInt64) (search : List Cand → Except Panic (Option ε))
    (tpt : ε → ℚ) (order : ε → List (Lot Cand)) (input : PlanRequest) (forced : Option UInt32) :
    distribute budgetOf search tpt order input forced =
      (searchChosen (tableOf input budgetOf) forced (summary search tpt order) Prod.snd).map (Option.map Prod.fst)
        >>= pipelinePlacement input (tableOf input budgetOf) := by
  rw [← searchChosen_summary]
  unfold distribute
  cases searchChosen (tableOf input budgetOf) forced search tpt with
  | error | ok => rfl

/-! ### Both planners -/

theorem RttOnly.team (hnodes : nodes ∈ lookedAt (tableOf input nodeBudget) (tptV1 input) forced) : Team nodes := by
  obtain ⟨selected, rfl, hsel⟩ := lookedAt_workers hnodes
  exact team_participants tableOf_built hsel

theorem RttOnly.unprofiled_nodes (h : RttOnly input)
    (hnodes : nodes ∈ lookedAt (tableOf input nodeBudget) (tptV1 input) forced) : Unprofiled nodes := by
  obtain ⟨selected, rfl, hsel⟩ := lookedAt_workers hnodes
  refine (h.unprofiled nodeBudget).mono fun c hc => ?_
  rcases mem_append.mp ((participants_perm _ _).subset hc) with hc | hc
  · exact mem_append_left _ (hsel c hc)
  · exact mem_append_right _ hc

/-- What the first planner sees of a set. -/
abbrev summaryV1 (input : PlanRequest) : List Cand → Except Panic (Option (List (Lot Cand) × ℚ)) :=
  summary (evaluate input.dims.nLayers.toNat input.links) Evaluated.tpt Evaluated.order

/-- What the second planner sees of a set. -/
abbrev summaryV2 (input : PlanRequest) : List Cand → Except Panic (Option (List (Lot Cand) × ℚ)) :=
  summary (searchV2 input.dims.nLayers.toNat input.links input.dims (effectiveNUbatch input.nUbatch))
    V2Eval.tpt V2Eval.order

/-- Both planners see the same of a set on which the apportionment by memory is the cheapest. -/
theorem RttOnly.summary_eq (h : RttOnly input)
    (hnodes : nodes ∈ lookedAt (tableOf input nodeBudget) (tptV1 input) forced)
    (hcheap : MemoryCheapest input.dims.nLayers.toNat input.links nodes) :
    summaryV2 input nodes = summaryV1 input nodes := by
  have hteam := RttOnly.team hnodes
  have hplain := h.unprofiled_nodes hnodes
  obtain ⟨om, hom, hv1⟩ := summary_evaluate (n := input.dims.nLayers.toNat) input.links hteam hplain
  obtain ⟨om', oc, hom', hoc, hv2⟩ := summary_searchV2 (n := input.dims.nLayers.toNat) input.dims
    (effectiveNUbatch input.nUbatch) hteam hplain h.bandwidths
  obtain rfl : om' = om := Except.ok.inj (hom'.symm.trans hom)
  rw [summaryV2, summaryV1, hv1, hv2, cheapest, cheapest, argmin_append_of_le]
  intro o ho
  rcases mem_append.mp ho with ho | ho
  · exact ⟨o, ho, le_refl _⟩
  · obtain ⟨orders, horders, o', ho', hle⟩ := hcheap oc hoc o ho
    rw [hom] at horders
    exact ⟨o', Except.ok.inj horders ▸ ho', hle⟩

theorem RttOnly.distributedV2_eq (h : RttOnly input) (forced : Option UInt32) :
    distributedV2 input forced = distribute nodeBudget
      (searchV2 input.dims.nLayers.toNat input.links input.dims (effectiveNUbatch input.nUbatch))
      V2Eval.tpt V2Eval.order input forced := by
  have hbudget : (fun usable => nodeBudgetV2 usable input.dims.nEmbd (effectiveNUbatch input.nUbatch)) = nodeBudget := by
    funext usable
    rw [h.width, nodeBudgetV2_zero]
  unfold distributedV2
  simp only [hbudget]

theorem RttOnly.distributed_eq (h : RttOnly input)
    (hcheap : ∀ nodes ∈ lookedAt (tableOf input nodeBudget) (tptV1 input) forced,
      MemoryCheapest input.dims.nLayers.toNat input.links nodes) :
    distributedV2 input forced = distributedV1 input forced := by
  rw [h.distributedV2_eq, distributedV1, distribute_eq, distribute_eq]
  have hsearch := @searchChosen_congr (tableOf input nodeBudget) forced _ (summaryV1 input) (summaryV2 input) Prod.snd
  rw [map_summary] at hsearch
  rw [hsearch fun nodes hnodes => (h.summary_eq hnodes (hcheap nodes hnodes)).symm]

theorem rttSum_congr {a b : List (Lot Cand)} (h : a.map nodeOf = b.map nodeOf) : rttSum links a = rttSum links b := by
  have hnodes : ∀ l : List (Lot Cand),
      boundaryRtts links l = List.zipWith (linkRtt links) (l.map nodeOf) (l.map nodeOf).tail := by
    intro l
    rw [← map_tail, zipWith_map]
    rfl
  rw [rttSum, rttSum, hnodes, hnodes, h]

theorem distribute_forced {ε : Type} (search : List Cand → Except Panic (Option ε)) (tpt : ε → ℚ)
    (order : ε → List (Lot Cand)) (input : PlanRequest) (k : UInt32) {found : Option (List (Lot Cand) × ℚ)}
    (hnodes : lookedAt (tableOf input nodeBudget) (tptV1 input) (some k) = [nodes])
    (hfound : summary search tpt order nodes = .ok found) :
    distribute nodeBudget search tpt order input (some k) =
      pipelinePlacement input (tableOf input nodeBudget) (found.map Prod.fst) := by
  obtain rfl : _ = nodes := singleton_inj.mp hnodes
  rw [distribute_eq]
  have hchosen : searchChosen (tableOf input nodeBudget) (some k) (summary search tpt order) Prod.snd = .ok found := hfound
  rw [hchosen]
  rfl

theorem pipelinePlacement_eq_ok {p : PlannedPlacement} {found : Option (List (Lot Cand))}
    (h : pipelinePlacement input t found = .ok (.ok p)) :
    ∃ order, found = some order ∧ p.plan.assignments = stagesFrom 0 0 order := by
  cases found with
  | none => cases h
  | some order =>
    obtain ⟨assignments, hassignments, h⟩ := bind_eq_ok_iff.mp h
    cases h
    exact ⟨order, rfl, assemble_eq_ok hassignments⟩

theorem RttOnly.cheapest_of_eq (h : RttOnly input) (hlen : input.dims.nLayers.toNat ≤ input.dims.weightBytesPerLayer.length)
    {k : UInt32} (hnodes : lookedAt (tableOf input nodeBudget) (tptV1 input) (some k) = [nodes])
    (heq : distributedV2 input (some k) = distributedV1 input (some k)) :
    MemoryCheapest input.dims.nLayers.toNat input.links nodes := by
  intro oc hoc o ho
  have hmem : nodes ∈ lookedAt (tableOf input nodeBudget) (tptV1 input) (some k) := hnodes ▸ mem_singleton_self nodes
  have hteam := RttOnly.team hmem
  have hplain := h.unprofiled_nodes hmem
  obtain ⟨om, hom, hv1⟩ := summary_evaluate (n := input.dims.nLayers.toNat) input.links hteam hplain
  obtain ⟨om', oc', hom', hoc', hv2⟩ := summary_searchV2 (n := input.dims.nLayers.toNat) input.dims
    (effectiveNUbatch input.nUbatch) hteam hplain h.bandwidths
  obtain rfl : om' = om := Except.ok.inj (hom'.symm.trans hom)
  obtain rfl : oc' = oc := Except.ok.inj (hoc'.symm.trans hoc)
  have ho : o ∈ om' ++ (om' ++ oc') := mem_append_right _ (mem_append_right _ ho)
  -- The second planner finds an order that is no dearer than `o`, and makes a plan of it.
  obtain ⟨b, hb⟩ : ∃ b, (om' ++ (om' ++ oc')).argmin (rttSum input.links) = some b := by
    cases hb : (om' ++ (om' ++ oc')).argmin (rttSum input.links) with
    | none =>
      rw [argmin_eq_none.mp hb] at ho
      cases ho
    | some b => exact ⟨b, rfl⟩
  rw [cheapest, hb] at hv2
  have hassemble : assemble input.dims 0 0 b = .ok (stagesFrom 0 0 b) := by
    obtain ⟨r, hr, hlayout, -⟩ := searchV2_spec (n := input.dims.nLayers.toNat) input.links input.dims
      (effectiveNUbatch input.nUbatch) hteam
    have hsummary := (map_eq_ok (f := Option.map fun e : V2Eval => (e.order, e.tpt)) hr).symm.trans hv2
    obtain ⟨e, rfl, he⟩ := Option.map_eq_some_iff.mp (Except.ok.inj hsummary)
    have htotal := (hlayout e rfl).all
    rw [(Prod.mk.inj he).1] at htotal
    apply assemble_succeeds
    rw [Nat.zero_add, htotal]
    exact hlen
  rw [h.distributedV2_eq, distributedV1, distribute_forced _ _ _ input k hnodes hv1,
    distribute_forced _ _ _ input k hnodes hv2] at heq
  have hplan := heq.symm.trans (bind_eq_ok_iff.mpr ⟨_, hassemble, rfl⟩)
  -- So does the first one, of an order over the same nodes.
  obtain ⟨a, ha, hstages⟩ := pipelinePlacement_eq_ok hplan
  obtain ⟨found, hfound, rfl⟩ := Option.map_eq_some_iff.mp ha
  obtain ⟨a, hbest, rfl⟩ := Option.map_eq_some_iff.mp hfound
  have hsame : b.map nodeOf = a.map nodeOf := by
    have := congrArg (List.map Assignment.node) hstages
    rwa [map_node_stagesFrom, map_node_stagesFrom] at this
  refine ⟨om', hom, a, argmin_mem hbest, ?_⟩
  rw [← rttSum_congr hsame]
  exact le_of_mem_argmin ho hb

/-- **With round trips only, both planners have the same outcome** where on every set of nodes
that the first one evaluates no order of the apportionment in proportion to compute is cheaper than
those of the apportionment by memory; with a forced number of nodes, and weights for every layer, exactly
then. -/
theorem rttOnly_agree (input : PlanRequest) (h : RttOnly input) :
    ((∀ nodes ∈ consulted input, MemoryCheapest input.dims.nLayers.toNat input.links nodes) →
      planV2 input = planV1 input) ∧
    (input.forcedNodes.getD 0 ≠ 0 → input.dims.nLayers.toNat ≤ input.dims.weightBytesPerLayer.length →
      planV2 input = planV1 input →
        ∀ nodes ∈ consulted input, MemoryCheapest input.dims.nLayers.toNat input.links nodes) := by
  unfold consulted planV2 planV1 planWith
  cases hforced : input.forcedNodes.filter fun k => decide (k ≠ 0) with
  | none =>
    refine ⟨fun hcheap => ?_, fun hsome => ?_⟩
    · simp only at hcheap ⊢
      split
      · rfl
      · rename_i hno
        rw [if_neg hno] at hcheap
        exact h.distributed_eq hcheap
    · rw [filter_forced, if_neg hsome] at hforced
      cases hforced
  | some k =>
    simp only
    by_cases hmet : UInt32.ofNat input.workers.length + 1 < k
    · simp only [if_pos hmet, if_pos (Or.inl hmet), implies_true, not_mem_nil, false_implies, and_self]
    · by_cases hone : k = 1
      · simp only [if_neg hmet, if_pos hone, if_pos (Or.inr hone), implies_true, not_mem_nil, false_implies, and_self]
      · simp only [if_neg hmet, if_neg hone, if_neg (not_or.mpr ⟨hmet, hone⟩)]
        refine ⟨fun hcheap => h.distributed_eq hcheap, fun _ hlen heq nodes hnodes => ?_⟩
        rw [show lookedAt _ _ (some k) = [participants _ _] from rfl, mem_singleton] at hnodes
        exact h.cheapest_of_eq hlen (by rw [hnodes]; rfl) heq

/-! ### Two requests -/

/-- A node without a profile. -/
def bareNode (node : NodeId) (usableMemoryBytes : UInt64) : NodeCaps :=
  { node, usableMemoryBytes, compute := none, draining := false }

/-- A dense model of equal layers, without a width. -/
def denseLayers (nLayers : UInt32) : ModelDims where
  nLayers
  kvBytesPerLayerPerCtxToken := 0
  weightBytesPerLayer := List.replicate nLayers.toNat 104857600
  totalWeightBytes := nLayers.toUInt64 * 104857600
  nEmbd := 0
  nExpert := 0
  nExpertUsed := 0
  expertWeightBytesPerLayer := List.replicate nLayers.toNat 0

/-- Three layers over nodes that can hold two, one, one and three of them. -/
def unevenRequest : PlanRequest where
  head := bareNode "head" 746586112
  workers := [bareNode "w1" 641728512, bareNode "w2" 641728512, bareNode "w3" 851443712]
  dims := denseLayers 3
  ctxLen := 2048
  forcedNodes := none
  links := [⟨"w2", "head", 5, none⟩, ⟨"w1", "w2", 1 / 2, none⟩]
  nUbatch := 512

/-- Both planners take `w3` and the head. On all four nodes the planners would part, but neither
evaluates these. -/
theorem rttOnly_agree_uneven : RttOnly unevenRequest ∧ planV2 unevenRequest = planV1 unevenRequest ∧
    ¬ MemoryCheapest 3 unevenRequest.links (tableOf unevenRequest nodeBudget).all := by
  have h : RttOnly unevenRequest := ⟨by decide, by decide, rfl, rfl⟩
  exact ⟨h, (rttOnly_agree unevenRequest h).1 (by decide +kernel), by decide +kernel⟩

/-- Two layers over three nodes: `w1` can hold one of them, `w2` and the head two. The link
between `w2` and the head is slow. -/
def crossedRequest : PlanRequest where
  head := bareNode "head" 746586112
  workers := [bareNode "w1" 641728512, bareNode "w2" 746586112]
  dims := denseLayers 2
  ctxLen := 2048
  forcedNodes := some 3
  links := [⟨"w2", "head", 5, none⟩, ⟨"w1", "w2", 1 / 2, none⟩]
  nUbatch := 512

/-- One layer on each of two nodes. -/
def oneEach (first second : NodeId) : PlannedPlacement where
  plan :=
    { epoch := 0, model := "", strategy := .pipelineParallel, ctxLen := 2048
      assignments :=
        [{ node := first, layers := { start := 0, stop := 1 }, stage := 0 },
          { node := second, layers := { start := 1, stop := 2 }, stage := 1 }] }
  tensorSplit := [1 / 2, 1 / 2]

/-- **The planners part**: by memory the layers go to `w2` and the head, across the slow link;
in proportion to compute, which nothing is known of, they go to `w1` and `w2`. -/
theorem planners_part : RttOnly crossedRequest ∧
    ((crossedRequest.workers ++ [crossedRequest.head]).map NodeCaps.node).Nodup ∧
    planV1 crossedRequest = .ok (.ok (oneEach "w2" "head")) ∧ planV2 crossedRequest = .ok (.ok (oneEach "w1" "w2")) ∧
    oneEach "w1" "w2" ≠ oneEach "w2" "head" := by
  have h : RttOnly crossedRequest := ⟨by decide, by decide, rfl, rfl⟩
  refine ⟨h, ?_, ?_, ?_, ?_⟩ <;> decide +kernel

end OneBrain.Scheduler
