import OneBrain.Scheduler.Layout

/-!
# The candidate table and the choice of workers

What the planners need of the candidate table (`Cands.Built`): no score is negative, and only
the head's candidate is the head's. Any choice of workers from it, together with the head, is
then a team that the evaluations accept (`team_participants`).

The choice of workers is a loop over the ranked workers whose turns add a worker or not
(`consider`); so the workers chosen are some of the table's, each once
(`selectWorkers_subperm`), and the loop does not panic when the evaluation does not
(`selectWorkers_succeeds`).
-/

namespace OneBrain.Scheduler

open List OneBrain.Lib OneBrain.Cluster

/-! ### The table -/

/-- What holds of a candidate table. -/
structure Cands.Built (t : Cands) : Prop where
  capF : ∀ c ∈ t.all, 0 ≤ c.capF
  factor : ∀ c ∈ t.all, 0 ≤ c.factor
  workers : ∀ c ∈ t.workers, c.isHead = false
  head : t.head.isHead = true

theorem perLayerCost_pos (dims : ModelDims) (ctxLen : UInt32) : 0 < perLayerCost dims ctxLen :=
  lt_of_lt_of_le one_pos (le_max_right _ _)

theorem NodeCaps.decode_pos {caps : NodeCaps} {d : ℚ} (h : caps.decode = some d) : 0 < d :=
  of_decide_eq_true (Option.filter_eq_some_iff.mp h).2

variable {workers : List NodeCaps} {head : NodeCaps} {cost : ℚ} {budgetOf : UInt64 → UInt64}

/-- A candidate of the table comes from one of the nodes. -/
theorem mem_all_buildCands {c : Cand} (hc : c ∈ (buildCands workers head cost budgetOf).all) :
    ∃ caps ∈ workers ++ [head], ∃ place isHead,
      c = cand budgetOf cost ((workers ++ [head]).filterMap NodeCaps.decode).max?
        ((workers ++ [head]).filterMap NodeCaps.decode).min? isHead place caps := by
  rcases mem_append.mp hc with hc | hc
  · obtain ⟨⟨caps, i⟩, hw, rfl⟩ := mem_map.mp hc
    exact ⟨caps, mem_append_left _ (fst_mem_of_mem_zipIdx hw), i, false, rfl⟩
  · rw [mem_singleton.mp hc]
    exact ⟨head, mem_append_right _ (mem_singleton_self head), _, true, rfl⟩

theorem factor_pos {c : Cand} (hc : c ∈ (buildCands workers head cost budgetOf).all) : 0 < c.factor := by
  obtain ⟨caps, -, place, isHead, rfl⟩ := mem_all_buildCands hc
  simp only [cand]
  cases hd : caps.decode with
  | none => exact zero_lt_one
  | some =>
    cases hmax : ((workers ++ [head]).filterMap NodeCaps.decode).max? with
    | none => exact zero_lt_one
    | some m =>
      obtain ⟨caps, -, hm⟩ := mem_filterMap.mp (List.max?_mem hmax)
      have hd := NodeCaps.decode_pos hd
      have hm := NodeCaps.decode_pos hm
      positivity

theorem buildCands_built (hcost : 0 < cost) : (buildCands workers head cost budgetOf).Built where
  capF c hc := by
    obtain ⟨caps, -, place, isHead, rfl⟩ := mem_all_buildCands hc
    exact div_nonneg (Nat.cast_nonneg _) hcost.le
  factor c hc := (factor_pos hc).le
  workers c hc := by
    obtain ⟨w, -, rfl⟩ := mem_map.mp hc
    rfl
  head := rfl

theorem map_caps_all : (buildCands workers head cost budgetOf).all.map Cand.caps = workers ++ [head] := by
  simp only [buildCands, Cands.all, map_append, map_cons, map_nil, map_map]
  congr 1
  exact zipIdx_map_fst 0 workers

theorem capLayers_eq {c : Cand} (hc : c ∈ (buildCands workers head cost budgetOf).all) :
    c.capLayers = min (layersIn (budgetOf c.caps.usableMemoryBytes) cost) (2 ^ 32 - 1) := by
  obtain ⟨caps, -, place, isHead, rfl⟩ := mem_all_buildCands hc
  rfl

theorem capLayers_le {c : Cand} (hc : c ∈ (buildCands workers head cost budgetOf).all) :
    c.capLayers ≤ layersIn (budgetOf c.caps.usableMemoryBytes) cost := by
  rw [capLayers_eq hc]
  exact Nat.min_le_left _ _

/-! ### The choice of workers -/

variable {t : Cands} {selected : List Cand} {evalTpt : List Cand → Except Panic (Option ℚ)}
  {forced : Option UInt32}

theorem participants_perm (t : Cands) (selected : List Cand) : (participants t selected).Perm (selected ++ [t.head]) :=
  (perm_insertionSort _ selected).append_right [t.head]

theorem team_participants (ht : t.Built) (hsel : ∀ c ∈ selected, c ∈ t.workers) : Team (participants t selected) := by
  have hmem : ∀ c ∈ participants t selected, c ∈ t.all := by
    intro c hc
    rcases mem_append.mp ((participants_perm t selected).subset hc) with hc | hc
    · exact mem_append_left _ (hsel c hc)
    · exact mem_append_right _ hc
  refine ⟨fun c hc => ht.capF c (hmem c hc), fun c hc => ht.factor c (hmem c hc), ?_⟩
  have hnone : selected.countP Cand.isHead = 0 := by
    apply countP_eq_zero.mpr
    intro c hc
    rw [ht.workers c (hsel c hc)]
    exact Bool.false_ne_true
  rw [(participants_perm t selected).countP_eq, countP_append, hnone, Nat.zero_add]
  exact countP_le_length

theorem consider_cases {c : Cand} {selected' : List Cand} (h : consider t evalTpt selected c = .ok selected') :
    selected' = selected ++ [c] ∨ selected' = selected := by
  obtain ⟨joining, -, h⟩ := bind_eq_ok_iff.mp h
  cases h
  cases joining with
  | true => exact .inl rfl
  | false => exact .inr rfl

theorem rankedWorkers_perm (t : Cands) : (rankedWorkers t).Perm t.workers := perm_insertionSort _ _

variable (h : selectWorkers t forced evalTpt = .ok selected)
include h

theorem selectWorkers_sublist :
    List.Sublist selected (rankedWorkers t) := by
  cases forced with
  | some =>
    cases h
    exact take_sublist _ _
  | none =>
    refine foldlM_invariant (P := fun done selected => List.Sublist selected done) (.refl []) ?_ h
    intro done c _ selected selected' _ hsel hturn
    rcases consider_cases hturn with rfl | rfl
    · exact hsel.append (.refl [c])
    · exact hsel.trans (sublist_append_left done [c])

theorem selectWorkers_subperm : selected.Subperm t.workers :=
  (selectWorkers_sublist h).subperm.trans (rankedWorkers_perm t).subperm

theorem participants_subperm :
    (participants t selected).Subperm t.all :=
  (participants_perm t selected).subperm.trans ((selectWorkers_subperm h).append (List.Subperm.refl [t.head]))

omit h

theorem joins_succeeds (heval : ∀ selected : List Cand, (∀ c ∈ selected, c ∈ t.workers) →
      ∃ r, evalTpt (participants t selected) = .ok r)
    (hsel : ∀ c ∈ selected, c ∈ t.workers) {c : Cand} (hc : c ∈ t.workers) :
    ∃ joining, joins t evalTpt selected c = .ok joining := by
  unfold joins
  split
  · exact ⟨false, rfl⟩
  · obtain ⟨current, hcurrent⟩ := heval selected hsel
    have hadded : ∀ d ∈ selected ++ [c], d ∈ t.workers := by
      intro d hd
      rcases mem_append.mp hd with hd | hd
      · exact hsel d hd
      · exact mem_singleton.mp hd ▸ hc
    obtain ⟨added, hadded⟩ := heval (selected ++ [c]) hadded
    cases current with
    | none => exact ⟨true, bind_eq_ok_iff.mpr ⟨none, hcurrent, rfl⟩⟩
    | some cur =>
      cases hdrain : c.caps.draining with
      | true => exact ⟨false, bind_eq_ok_iff.mpr ⟨some cur, hcurrent, rfl⟩⟩
      | false =>
        cases added with
        | none => exact ⟨false, bind_eq_ok_iff.mpr ⟨some cur, hcurrent, bind_eq_ok_iff.mpr ⟨none, hadded, rfl⟩⟩⟩
        | some new => exact ⟨_, bind_eq_ok_iff.mpr ⟨some cur, hcurrent, bind_eq_ok_iff.mpr ⟨some new, hadded, rfl⟩⟩⟩

theorem selectWorkers_succeeds (forced : Option UInt32)
    (heval : ∀ selected : List Cand, (∀ c ∈ selected, c ∈ t.workers) →
      ∃ r, evalTpt (participants t selected) = .ok r) :
    ∃ selected, selectWorkers t forced evalTpt = .ok selected := by
  cases forced with
  | some => exact ⟨_, rfl⟩
  | none =>
    refine foldlM_succeeds (P := fun selected : List Cand => ∀ c ∈ selected, c ∈ t.workers) ?_ ?_
    · intro c hc
      cases hc
    · intro c hc selected hsel
      have hc : c ∈ t.workers := (rankedWorkers_perm t).subset hc
      obtain ⟨joining, hjoins⟩ := joins_succeeds heval hsel hc
      refine ⟨_, bind_eq_ok_iff.mpr ⟨joining, hjoins, rfl⟩, ?_⟩
      split
      · intro d hd
        rcases mem_append.mp hd with hd | hd
        · exact hsel d hd
        · exact mem_singleton.mp hd ▸ hc
      · exact hsel

end OneBrain.Scheduler
