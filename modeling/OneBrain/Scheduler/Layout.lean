import OneBrain.Scheduler.V2

/-!
# What the planners lay out

For any set of nodes that has at most one head, the evaluation of the first planner and the
search of the second do not panic, and what they return is a `Layout`: all layers are handed
out, no node gets more than its capacity, every stage has layers, no node has two stages, and
the head, where it has layers, comes last (`evaluate_spec`, `searchV2_spec`). They return
nothing exactly when there is no way to apportion the layers.
-/

namespace OneBrain.Scheduler

open List OneBrain.Lib OneBrain.Cluster

/-! ### Orders of the stages -/

/-- A chain of all the lots with the head's at the end. -/
structure Arranged (lots chain : List (Lot Cand)) : Prop where
  perm : chain.Perm lots
  headLast : ∀ p ∈ chain, ofHead p = true → chain.getLast? = some p

variable {lots chain m : List (Lot Cand)} (links : List LinkRtt)

theorem tail_none (h : tail lots = none) : movable lots = lots ∧ ∀ p ∈ lots, ofHead p = false := by
  have hno : ∀ p ∈ lots, ¬ ofHead p = true := by simpa using List.find?_eq_none.mp h
  exact ⟨eraseP_of_forall_not hno, fun p hp => Bool.eq_false_iff.mpr (hno p hp)⟩

theorem tail_some {t : Lot Cand} (h : tail lots = some t) :
    ∃ l₁ l₂, lots = l₁ ++ t :: l₂ ∧ movable lots = l₁ ++ l₂ ∧ ofHead t = true := by
  obtain ⟨ht, l₁, l₂, rfl, hno⟩ := List.find?_eq_some_iff_append.mp h
  have hno : ∀ p ∈ l₁, ¬ ofHead p = true := by simpa using hno
  refine ⟨l₁, l₂, rfl, ?_, ht⟩
  rw [movable, eraseP_append_right _ hno, eraseP_cons_of_pos ht]

/-- The others in any order and then the head are an arrangement. -/
theorem arranged_of_movable (hone : lots.countP ofHead ≤ 1) (hm : m.Perm (movable lots)) :
    Arranged lots (m ++ (tail lots).toList) := by
  cases htail : tail lots with
  | none =>
    obtain ⟨hmov, hno⟩ := tail_none htail
    rw [hmov] at hm
    rw [Option.toList_none, append_nil]
    refine ⟨hm, fun p hp hhead => ?_⟩
    rw [hno p (hm.subset hp)] at hhead
    cases hhead
  | some t =>
    obtain ⟨l₁, l₂, rfl, hmov, ht⟩ := tail_some htail
    rw [hmov] at hm
    rw [Option.toList_some]
    constructor
    · have hfront : (m ++ [t]).Perm (t :: (l₁ ++ l₂)) := (hm.append_right [t]).trans perm_append_comm
      exact hfront.trans perm_middle.symm
    · intro p hp hhead
      -- A second head would be among the others.
      have hnone : (l₁ ++ l₂).countP ofHead = 0 := by
        rw [perm_middle.countP_eq, countP_cons_of_pos ht] at hone
        omega
      rcases mem_append.mp hp with hp | hp
      · exact absurd hhead (countP_eq_zero.mp hnone p (hm.subset hp))
      · rw [mem_singleton.mp hp, List.getLast?_append, List.getLast?_singleton, Option.some_or]

theorem mem_exactOrders : chain ∈ exactOrders lots ↔ ∃ m, m.Perm (movable lots) ∧ m ++ (tail lots).toList = chain := by
  simp only [exactOrders, mem_map, mem_orderings]

theorem exactOrders_ne_nil (lots : List (Lot Cand)) : exactOrders lots ≠ [] :=
  ne_nil_of_mem (mem_exactOrders.mpr ⟨_, .refl _, rfl⟩)

theorem greedyOrder_spec (hone : lots.countP ofHead ≤ 1) (hlots : lots ≠ []) :
    ∃ chain, greedyOrder links lots = .ok chain ∧ Arranged lots chain := by
  unfold greedyOrder
  cases htail : tail lots with
  | some t =>
    obtain ⟨m, hm, hchain⟩ := nearest_perm (hopRtt links) t [] (movable lots)
    refine ⟨_, rfl, ?_⟩
    have := arranged_of_movable hone hm
    rw [htail, Option.toList_some] at this
    rw [hchain]
    exact this
  | none =>
    obtain ⟨hmov, hno⟩ := tail_none htail
    rw [hmov]
    obtain ⟨anchor, hanchor⟩ : ∃ anchor, lots.getLast? = some anchor :=
      ⟨_, List.getLast?_eq_some_getLast hlots⟩
    obtain ⟨m, hm, hchain⟩ := nearest_perm (hopRtt links) anchor [] lots.dropLast
    simp only [hanchor]
    refine ⟨_, rfl, ?_⟩
    rw [hchain]
    have hperm : (m ++ [anchor]).Perm lots := by
      rw [← dropLast_append_getLast? anchor hanchor]
      exact hm.append_right [anchor]
    refine ⟨hperm, fun p hp hhead => ?_⟩
    rw [hno p (hperm.subset hp)] at hhead
    cases hhead

theorem countP_active (hone : lots.countP ofHead ≤ 1) : (active lots).countP ofHead ≤ 1 :=
  (filter_sublist.countP_le).trans hone

theorem eq_nil_or_singleton (h : lots.length ≤ 1) : lots = [] ∨ ∃ p, lots = [p] := by
  cases lots with
  | nil => exact .inl rfl
  | cons p rest =>
    have hrest : rest.length = 0 := Nat.le_zero.mp (Nat.le_of_succ_le_succ h)
    exact .inr ⟨p, by rw [eq_nil_of_length_eq_zero hrest]⟩

theorem arranged_of_length (h : lots.length ≤ 1) : Arranged lots lots := by
  refine ⟨.refl _, fun p hp _ => ?_⟩
  obtain rfl | ⟨q, rfl⟩ := eq_nil_or_singleton h
  · cases hp
  · rw [mem_singleton.mp hp, List.getLast?_singleton]

theorem orderStages_spec (hone : lots.countP ofHead ≤ 1) :
    ∃ chain, orderStages lots links = .ok (chain, boundaryRtts links chain) ∧ Arranged (active lots) chain := by
  unfold orderStages
  by_cases hfew : (active lots).length ≤ 1
  · refine ⟨active lots, ?_, arranged_of_length hfew⟩
    rw [if_pos hfew]
    obtain hnil | ⟨p, hp⟩ := eq_nil_or_singleton hfew
    · rw [hnil]
      rfl
    · rw [hp]
      rfl
  · rw [if_neg hfew]
    by_cases hexact : (active lots).length ≤ exactOrderMaxNodes
    · rw [if_pos hexact]
      cases hbest : (exactOrders (active lots)).argmin fun chain => (boundaryRtts links chain).sum with
      | none => exact absurd (argmin_eq_none.mp hbest) (exactOrders_ne_nil _)
      | some chain =>
        refine ⟨chain, rfl, ?_⟩
        obtain ⟨m, hm, rfl⟩ := mem_exactOrders.mp (argmin_mem hbest)
        exact arranged_of_movable (countP_active hone) hm
    · rw [if_neg hexact]
      have hne : active lots ≠ [] := by
        intro hnil
        rw [hnil] at hfew
        exact hfew (Nat.zero_le 1)
      obtain ⟨chain, hchain, harranged⟩ := greedyOrder_spec links (countP_active hone) hne
      refine ⟨chain, ?_, harranged⟩
      rw [hchain]
      rfl

theorem enumerateOrders_spec (hone : lots.countP ofHead ≤ 1) :
    ∃ orders, enumerateOrders lots links = .ok orders ∧ orders ≠ [] ∧ ∀ o ∈ orders, Arranged (active lots) o := by
  unfold enumerateOrders
  by_cases hfew : (active lots).length ≤ 1
  · rw [if_pos hfew]
    refine ⟨_, rfl, cons_ne_nil _ _, fun o ho => ?_⟩
    rw [mem_singleton.mp ho]
    exact arranged_of_length hfew
  · rw [if_neg hfew]
    by_cases hmany : exactOrderMaxNodes < (active lots).length
    · rw [if_pos hmany]
      obtain ⟨chain, hchain, harranged⟩ := orderStages_spec links hone
      rw [hchain]
      refine ⟨_, rfl, cons_ne_nil _ _, fun o ho => ?_⟩
      rw [mem_singleton.mp ho]
      exact harranged
    · rw [if_neg hmany]
      refine ⟨_, rfl, exactOrders_ne_nil _, fun o ho => ?_⟩
      obtain ⟨m, hm, rfl⟩ := mem_exactOrders.mp ho
      exact arranged_of_movable (countP_active hone) hm

/-! ### Apportionments -/

/-- Nodes the planners can work with: no score is negative, and there is at most one head. -/
structure Team (cands : List Cand) : Prop where
  capF : ∀ c ∈ cands, 0 ≤ c.capF
  factor : ∀ c ∈ cands, 0 ≤ c.factor
  oneHead : cands.countP Cand.isHead ≤ 1

/-- All layers handed out over all the nodes, within their capacities. -/
structure Apportioned (cands : List Cand) (n : ℕ) (lots : List (Lot Cand)) : Prop where
  items : lots.map Lot.item = cands
  all : total lots = n
  within : ∀ p ∈ lots, p.count ≤ p.item.capLayers

variable {cands : List Cand} {n : ℕ} {score : Cand → ℚ}

/-- Apportioning does not panic, and fails only where there is nothing to go by or not enough
capacity. -/
theorem apportion_spec (hscore : ∀ c ∈ cands, 0 ≤ score c) :
    apportion score cands n = .ok none ∧ ((cands.map score).sum ≤ 0 ∨ (cands.map Cand.capLayers).sum < n) ∨
      ∃ lots, apportion score cands n = .ok (some lots) ∧ Apportioned cands n lots := by
  unfold apportion
  by_cases hno : (cands.map score).sum ≤ 0 ∨ (cands.map Cand.capLayers).sum < n
  · rw [if_pos hno]
    exact .inl ⟨rfl, hno⟩
  · rw [if_neg hno]
    rw [not_or, not_le, not_lt] at hno
    obtain ⟨lots, hlots, hitems, hall, hcap⟩ := largestRemainder_spec hscore hno.1 hno.2
    rw [hlots]
    exact .inr ⟨lots, rfl, hitems, hall, hcap⟩

theorem Apportioned.oneHead (h : Apportioned cands n lots) (hteam : Team cands) : lots.countP ofHead ≤ 1 := by
  have := hteam.oneHead
  rw [← h.items, countP_map] at this
  exact this

/-- Stages that lay out `n` layers over some of the nodes. -/
structure Layout (cands : List Cand) (n : ℕ) (order : List (Lot Cand)) : Prop where
  nodes : (order.map Lot.item).Subperm cands
  positive : ∀ p ∈ order, 0 < p.count
  all : total order = n
  within : ∀ p ∈ order, p.count ≤ p.item.capLayers
  headLast : ∀ p ∈ order, ofHead p = true → order.getLast? = some p

theorem mem_active {p : Lot Cand} : p ∈ active lots ↔ p ∈ lots ∧ 0 < p.count := by
  rw [active, mem_filter, decide_eq_true_eq]

/-- The nodes that got layers, in an order with the head last, are a layout. -/
theorem Apportioned.layout {order : List (Lot Cand)} (h : Apportioned cands n lots)
    (horder : Arranged (active lots) order) : Layout cands n order where
  nodes := by
    refine ((horder.perm.map _).subperm).trans ?_
    rw [← h.items]
    exact (filter_sublist.map _).subperm
  positive p hp := (mem_active.mp (horder.perm.subset hp)).2
  all := by rw [total_perm horder.perm, active, total_filter_pos, h.all]
  within p hp := h.within p (mem_active.mp (horder.perm.subset hp)).1
  headLast := horder.headLast

theorem Apportioned.underweight {want : Cand → ℚ} {lots' : List (Lot Cand)} (h : Apportioned cands n lots)
    (hlots : underweight score want lots = some lots') : Apportioned cands n lots' := by
  unfold Scheduler.underweight at hlots
  cases hs : slowest lots with
  | none => simp only [hs, reduceCtorEq] at hlots
  | some s =>
    simp only [hs] at hlots
    have hmem : s ∈ spots lots := (mem_filter.mp (argmin_mem hs)).1
    split at hlots
    · cases hlots
    · rename_i hcount
      obtain ⟨r, hr, rfl⟩ := Option.map_eq_some_iff.mp hlots
      obtain ⟨hrmem, hfits⟩ := neediest_mem hr
      obtain ⟨-, hroom⟩ := Bool.and_eq_true_iff.mp hfits
      have hless : ∀ p ∈ s.set s.here.less, p.count ≤ p.item.capLayers := by
        intro p hp
        rcases Spot.mem_set hmem hp with rfl | hp
        · exact (Nat.sub_le _ _).trans (h.within s.here (Spot.here_mem hmem))
        · exact h.within p hp
      refine ⟨?_, ?_, count_le_cap_set_more hrmem hroom hless⟩
      · rw [Spot.map_set (f := Lot.item) (a := r.here.more) hrmem rfl,
          Spot.map_set (f := Lot.item) (a := s.here.less) hmem rfl, h.items]
      · rw [total_set_more hrmem, total_set_less hmem (by omega), h.all]

/-! ### The evaluation of the first planner -/

theorem Team.hybrid (h : Team cands) : ∀ c ∈ cands, 0 ≤ c.capF * c.factor :=
  fun c hc => mul_nonneg (h.capF c hc) (h.factor c hc)

theorem evaluate_spec (hteam : Team cands) :
    ∃ r, evaluate n links cands = .ok r ∧ (∀ e, r = some e → Layout cands n e.order) ∧
      (0 < (cands.map fun c => c.capF * c.factor).sum → n ≤ (cands.map Cand.capLayers).sum → r ≠ none) := by
  rcases apportion_spec (n := n) hteam.hybrid with ⟨hnone, hno⟩ | ⟨lots, hlots, happ⟩
  · refine ⟨none, bind_eq_ok_iff.mpr ⟨none, hnone, rfl⟩, fun e he => ?_, fun hpos hcap _ => ?_⟩
    · cases he
    · rcases hno with hno | hno
      · exact absurd hpos (not_lt.mpr hno)
      · exact absurd hcap (Nat.not_le.mpr hno)
  · obtain ⟨chain, hchain, harranged⟩ := orderStages_spec links (happ.oneHead hteam)
    refine ⟨_, bind_eq_ok_iff.mpr ⟨some lots, hlots, bind_eq_ok_iff.mpr ⟨_, hchain, rfl⟩⟩, fun e he => ?_,
      fun _ _ => Option.some_ne_none _⟩
    cases he
    exact happ.layout harranged

/-! ### The search of the second planner -/

theorem Team.tilt (h : Team cands) (tilt : Tilt) : ∀ c ∈ cands, 0 ≤ tilt.score c := by
  intro c hc
  cases tilt with
  | memory => exact h.capF c hc
  | hybrid => exact h.hybrid c hc
  | compute => exact le_max_right _ _

theorem familyCandidate_spec (hteam : Team cands) (v : Bool × Tilt) :
    ∃ r, familyCandidate cands n v = .ok r ∧ ∀ fc, r = some fc → Apportioned cands n fc.lots := by
  rcases apportion_spec (n := n) (hteam.tilt v.2) with ⟨hnone, -⟩ | ⟨lots, hlots, happ⟩
  · refine ⟨none, bind_eq_ok_iff.mpr ⟨none, hnone, rfl⟩, fun fc hfc => ?_⟩
    cases hfc
  · refine ⟨_, bind_eq_ok_iff.mpr ⟨some lots, hlots, rfl⟩, fun fc hfc => ?_⟩
    obtain ⟨lots', hlots', rfl⟩ := Option.map_eq_some_iff.mp hfc
    split at hlots'
    · exact happ.underweight hlots'
    · cases hlots'
      exact happ

theorem familyCounts_spec (hteam : Team cands) :
    ∃ family, familyCounts cands n = .ok family ∧ (∀ fc ∈ family, Apportioned cands n fc.lots) ∧
      (0 < (cands.map Cand.capF).sum → n ≤ (cands.map Cand.capLayers).sum → family ≠ []) := by
  have hspec := fun v => familyCandidate_spec (n := n) hteam v
  choose g hg happ using hspec
  unfold familyCounts
  rw [mapM_of_ok fun v _ => hg v]
  refine ⟨_, rfl, fun fc hfc => ?_, fun hpos hcap => ?_⟩
  · obtain ⟨r, hr, hid⟩ := mem_filterMap.mp hfc
    obtain ⟨v, -, rfl⟩ := mem_map.mp hr
    exact happ v fc hid
  · -- The apportionment by memory is there.
    have hmemory : ∃ fc, g (false, .memory) = some fc := by
      rcases apportion_spec (n := n) (hteam.tilt .memory) with ⟨-, hno⟩ | ⟨lots, hlots, -⟩
      · rcases hno with hno | hno
        · exact absurd hpos (not_lt.mpr hno)
        · exact absurd hcap (Nat.not_le.mpr hno)
      · have hok : familyCandidate cands n (false, .memory) = .ok (some ⟨.memory, false, lots⟩) :=
          bind_eq_ok_iff.mpr ⟨some lots, hlots, rfl⟩
        exact ⟨_, Except.ok.inj ((hg (false, .memory)).symm.trans hok)⟩
    obtain ⟨fc, hfc⟩ := hmemory
    exact ne_nil_of_mem (mem_filterMap.mpr ⟨_, mem_map.mpr ⟨(false, .memory), by decide, hfc⟩, rfl⟩)

variable (dims : ModelDims) (nUbatch : UInt32)

theorem priceOrders_spec (hteam : Team cands) {fc : FamilyCandidate} (happ : Apportioned cands n fc.lots) :
    ∃ evals, priceOrders dims nUbatch links fc = .ok evals ∧ evals ≠ [] ∧ ∀ e ∈ evals, Layout cands n e.order := by
  obtain ⟨orders, horders, hne, harranged⟩ := enumerateOrders_spec links (happ.oneHead hteam)
  unfold priceOrders
  rw [horders]
  refine ⟨_, rfl, ?_, fun e he => ?_⟩
  · exact fun hnil => hne (map_eq_nil_iff.mp hnil)
  · obtain ⟨o, ho, rfl⟩ := mem_map.mp he
    exact happ.layout (harranged o ho)

theorem searchV2_spec (hteam : Team cands) :
    ∃ r, searchV2 n links dims nUbatch cands = .ok r ∧ (∀ e, r = some e → Layout cands n e.order) ∧
      (0 < (cands.map Cand.capF).sum → n ≤ (cands.map Cand.capLayers).sum → r ≠ none) := by
  obtain ⟨family, hfamily, happ, hsome⟩ := familyCounts_spec (n := n) hteam
  have hspec : ∀ fc : FamilyCandidate, ∃ evals, fc ∈ family → priceOrders dims nUbatch links fc = .ok evals ∧
      evals ≠ [] ∧ ∀ e ∈ evals, Layout cands n e.order := by
    intro fc
    by_cases hfc : fc ∈ family
    · obtain ⟨evals, hevals⟩ := priceOrders_spec links dims nUbatch hteam (happ fc hfc)
      exact ⟨evals, fun _ => hevals⟩
    · exact ⟨[], fun h => absurd h hfc⟩
  choose g hg using hspec
  have hevals : family.mapM (priceOrders dims nUbatch links) = .ok (family.map g) :=
    mapM_of_ok fun fc hfc => (hg fc hfc).1
  refine ⟨_, bind_eq_ok_iff.mpr ⟨family, hfamily, bind_eq_ok_iff.mpr ⟨_, hevals, rfl⟩⟩, fun e he => ?_,
    fun hpos hcap hnone => ?_⟩
  · obtain ⟨e, hbest, rfl⟩ := Option.map_eq_some_iff.mp he
    obtain ⟨evals, hevals, hmem⟩ := mem_flatten.mp (argmin_mem hbest)
    obtain ⟨fc, hfc, rfl⟩ := mem_map.mp hevals
    exact (hg fc hfc).2.2 e hmem
  · have hnil := argmin_eq_none.mp (Option.map_eq_none_iff.mp hnone)
    obtain ⟨fc, hfc⟩ := exists_mem_of_ne_nil family (hsome hpos hcap)
    exact (hg fc hfc).2.1 (flatten_eq_nil_iff.mp hnil _ (mem_map.mpr ⟨fc, hfc, rfl⟩))

/-! ### What the search compares -/

/-- Every arrangement is among the orders that are tried one by one. -/
theorem Arranged.mem_exactOrders (h : Arranged lots chain) : chain ∈ exactOrders lots := by
  refine Scheduler.mem_exactOrders.mpr ?_
  cases htail : tail lots with
  | none =>
    rw [(tail_none htail).1, Option.toList_none]
    exact ⟨chain, h.perm, append_nil _⟩
  | some t =>
    obtain ⟨l₁, l₂, rfl, hmov, ht⟩ := tail_some htail
    have hchain := dropLast_append_getLast? t (h.headLast t (h.perm.mem_iff.mpr (by simp)) ht)
    have hperm := (perm_append_singleton t chain.dropLast).symm.trans (hchain ▸ h.perm)
    rw [hmov]
    exact ⟨chain.dropLast, (hperm.trans perm_middle).cons_inv, hchain⟩

theorem Arranged.mem_enumerateOrders {orders : List (List (Lot Cand))} (h : Arranged (active lots) chain)
    (hfew : (active lots).length ≤ exactOrderMaxNodes) (horders : enumerateOrders lots links = .ok orders) :
    chain ∈ orders := by
  unfold enumerateOrders at horders
  split at horders
  · rename_i hone
    cases horders
    have hperm := h.perm
    obtain hnil | ⟨p, hp⟩ := eq_nil_or_singleton hone
    · rw [hnil] at hperm ⊢
      simp [hperm.eq_nil]
    · rw [hp] at hperm ⊢
      simp [perm_singleton.mp hperm]
  · rw [if_neg (not_lt.mpr hfew)] at horders
    cases horders
    exact h.mem_exactOrders

/-- A priced arrangement of a member of the family. No arrangement of any member has a smaller time per token,
nor the same time and a smaller cost of the boundaries, as far as a member has at most eight stages. -/
structure Cheapest (family : List FamilyCandidate) (e : V2Eval) : Prop where
  priced : ∃ fc ∈ family, Arranged (active fc.lots) e.order ∧ e.tpt = (price dims nUbatch links fc e.order).tpt ∧
    e.prefillCost = (price dims nUbatch links fc e.order).prefillCost
  least : ∀ fc ∈ family, (active fc.lots).length ≤ exactOrderMaxNodes → ∀ order, Arranged (active fc.lots) order →
    toLex (e.tpt, e.prefillCost) ≤
      toLex ((price dims nUbatch links fc order).tpt, (price dims nUbatch links fc order).prefillCost)

theorem searchV2_cheapest (hteam : Team cands) {e : V2Eval} (h : searchV2 n links dims nUbatch cands = .ok (some e)) :
    ∃ family, familyCounts cands n = .ok family ∧ Cheapest links dims nUbatch family e := by
  obtain ⟨family, hfamily, happ, -⟩ := familyCounts_spec (n := n) hteam
  have hspec : ∀ fc : FamilyCandidate, ∃ orders, fc ∈ family → enumerateOrders fc.lots links = .ok orders ∧
      ∀ o ∈ orders, Arranged (active fc.lots) o := by
    intro fc
    by_cases hfc : fc ∈ family
    · obtain ⟨orders, horders, -, harranged⟩ := enumerateOrders_spec links ((happ fc hfc).oneHead hteam)
      exact ⟨orders, fun _ => ⟨horders, harranged⟩⟩
    · exact ⟨[], fun h => absurd h hfc⟩
  choose g hg using hspec
  have hevals : family.mapM (priceOrders dims nUbatch links) =
      .ok (family.map fun fc => (g fc).map (price dims nUbatch links fc)) :=
    mapM_of_ok fun fc hfc => by rw [priceOrders, (hg fc hfc).1]; rfl
  obtain ⟨_, hfamily', h⟩ := bind_eq_ok_iff.mp h
  cases hfamily.symm.trans hfamily'
  obtain ⟨_, hevals', h⟩ := bind_eq_ok_iff.mp h
  cases hevals.symm.trans hevals'
  obtain ⟨best, hbest, rfl⟩ := Option.map_eq_some_iff.mp (Except.ok.inj h)
  refine ⟨family, hfamily, ?_, fun fc hfc hfew order harranged => ?_⟩
  · obtain ⟨evals, hmem, hin⟩ := mem_flatten.mp (argmin_mem hbest)
    obtain ⟨fc, hfc, rfl⟩ := mem_map.mp hmem
    obtain ⟨order, horder, rfl⟩ := mem_map.mp hin
    exact ⟨fc, hfc, (hg fc hfc).2 order horder, rfl, rfl⟩
  · have horder := harranged.mem_enumerateOrders links hfew (hg fc hfc).1
    have hmem : price dims nUbatch links fc order ∈
        (family.map fun fc => (g fc).map (price dims nUbatch links fc)).flatten :=
      mem_flatten.mpr ⟨_, mem_map.mpr ⟨fc, hfc, rfl⟩, mem_map_of_mem horder⟩
    exact (le_of_mem_argmin hmem hbest :)

end OneBrain.Scheduler
