import OneBrain.Scheduler.Selection

/-!
# A forced number of nodes

With a forced number of nodes the planner takes the first workers of its ranking, and does not ask
whether these can hold the model. The ranking puts workers that drain behind all others and weighs a
worker's room with its speed, so the workers with the most room need not come first.
`forced_complete` says that there is a plan exactly when the workers that do come first suffice; and
that these suffice wherever any choice does, if the workers do not differ in those two respects.
-/

namespace OneBrain.Scheduler

open List OneBrain.Lib

variable {input : PlanRequest} {cost : ℚ} {budgetOf : UInt64 → UInt64}

/-- The candidates of the second planner. -/
abbrev tableV2 (input : PlanRequest) : Cands :=
  tableOf input fun usable => nodeBudgetV2 usable input.dims.nEmbd (effectiveNUbatch input.nUbatch)

/-- The layers that nodes have room for. -/
def capacityV2 (input : PlanRequest) : List NodeCaps → ℕ :=
  nodesCapacity fun usable => nodeLayerCapacityV2 usable input.dims input.ctxLen input.nUbatch

/-- The workers that a forced number of nodes takes. -/
def forcedWorkers (input : PlanRequest) (n : UInt32) : List Cand := (rankedWorkers (tableV2 input)).take (n.toNat - 1)

theorem le_capacityV2_iff {cands : List Cand} (hmem : ∀ c ∈ cands, c ∈ (tableV2 input).workers) :
    input.dims.nLayers.toNat ≤ capacity (cands ++ [(tableV2 input).head]) ↔
      input.dims.nLayers.toNat ≤ capacityV2 input (cands.map Cand.caps ++ [input.head]) := by
  have hall : ∀ c ∈ cands ++ [(tableV2 input).head], c ∈ (tableV2 input).all := by
    intro c hc
    rcases mem_append.mp hc with hc | hc
    · exact mem_append_left _ (hmem c hc)
    · exact mem_append_right _ hc
  rw [le_capacity_iff input.dims.nLayers.toNat_lt hall, map_append]
  simp only [nodeBudgetV2_effective, capacityV2, nodeLayerCapacityV2]
  rfl

theorem forcedWorkers_mem {n : UInt32} : ∀ c ∈ forcedWorkers input n, c ∈ (tableV2 input).workers :=
  fun _ hc => (rankedWorkers_perm _).subset (mem_of_mem_take hc)

theorem planWith_forced (distributed : PlanRequest → Option UInt32 → Outcome) {k : UInt32}
    (hforced : input.forcedNodes = some k) (hk : 2 ≤ k.toNat)
    (hmet : k ≤ UInt32.ofNat input.workers.length + 1) : planWith distributed input = distributed input (some k) := by
  have hzero : k ≠ 0 := by
    rintro rfl
    exact absurd hk (by decide)
  have hone : k ≠ 1 := by
    rintro rfl
    exact absurd hk (by decide)
  simp only [planWith, filter_forced, hforced, Option.getD_some, if_neg hzero]
  rw [if_neg (UInt32.not_lt.mpr hmet), if_neg hone]

/-- There is a plan for a forced number of nodes exactly when the first workers have the capacity. -/
theorem planV2_forced_iff {n : UInt32} (hforced : input.forcedNodes = some n) (hn : 2 ≤ n.toNat)
    (hmet : n ≤ UInt32.ofNat input.workers.length + 1) (hlayers : 1 ≤ input.dims.nLayers.toNat)
    (hdims : input.dims.weightBytesPerLayer.length = input.dims.nLayers.toNat) :
    (∃ p, planV2 input = .ok (.ok p)) ↔ input.dims.nLayers.toNat ≤
      capacityV2 input ((forcedWorkers input n).map Cand.caps ++ [input.head]) := by
  rw [planV2, planWith_forced _ hforced hn hmet]
  refine (distribute_selected (laysOut_searchV2 _ _ _ _) (exact_searchV2 _ _ _ hlayers) hdims.ge rfl).trans ?_
  rw [capacity_participants, ← le_capacityV2_iff forcedWorkers_mem, capacity_append]
  rfl

theorem capLayers_le_of_ranked {maxDecode minDecode : Option ℚ} {v w : NodeCaps} {i j : ℕ} {a b : Cand}
    (hpos : 0 < a.factor) (ha : a = cand budgetOf cost maxDecode minDecode false i w)
    (hb : b = cand budgetOf cost maxDecode minDecode false j v) (hdraining : w.draining = v.draining)
    (hdecode : w.decode = v.decode) (hranked : rankedBefore a b) : b.capLayers ≤ a.capLayers := by
  have hfactor : b.factor = a.factor := by simp only [ha, hb, cand, hdecode]
  have hcap : b.capF ≤ a.capF := by
    rcases hranked with hlt | ⟨-, hlt | ⟨heq, -⟩⟩
    · rw [ha, hb] at hlt
      exact absurd hdraining hlt.ne
    · rw [hfactor] at hlt
      exact ((mul_lt_mul_iff_of_pos_right hpos).mp hlt).le
    · rw [hfactor] at heq
      exact (mul_right_cancel₀ hpos.ne' heq).le
  rw [ha, hb] at hcap ⊢
  exact min_le_min_right _ (Nat.floor_mono hcap)

theorem ranked_by_capacity (halike : ∀ a ∈ input.workers, ∀ b ∈ input.workers,
      a.draining = b.draining ∧ a.decode = b.decode) :
    (rankedWorkers (tableV2 input)).Pairwise fun a b => b.capLayers ≤ a.capLayers := by
  have hsorted : (rankedWorkers (tableV2 input)).Pairwise rankedBefore := pairwise_insertionSort rankedBefore _
  refine hsorted.imp_of_mem fun {a b} ha hb hab => ?_
  have hmem := (rankedWorkers_perm (tableV2 input)).subset ha
  obtain ⟨⟨w, i⟩, hw, hwa⟩ := mem_map.mp hmem
  obtain ⟨⟨v, j⟩, hv, hvb⟩ := mem_map.mp ((rankedWorkers_perm _).subset hb)
  obtain ⟨hdraining, hdecode⟩ := halike w (fst_mem_of_mem_zipIdx hw) v (fst_mem_of_mem_zipIdx hv)
  exact capLayers_le_of_ranked (buildCands_sized.factor a (mem_append_left _ hmem)) hwa.symm hvb.symm hdraining hdecode hab

/-- **Forced planning** finds a plan exactly when the workers it ranks first, with the head, have the
capacity for all layers; and if the workers drain alike and are as fast as each other, these have it
wherever any choice of as many workers has. -/
theorem forced_complete (input : PlanRequest) (n : UInt32) (hforced : input.forcedNodes = some n) (hn : 2 ≤ n.toNat)
    (hmet : n ≤ UInt32.ofNat input.workers.length + 1) (hlayers : 1 ≤ input.dims.nLayers.toNat)
    (hdims : input.dims.weightBytesPerLayer.length = input.dims.nLayers.toNat) :
    ((∃ p, planV2 input = .ok (.ok p)) ↔ input.dims.nLayers.toNat ≤
      capacityV2 input ((forcedWorkers input n).map Cand.caps ++ [input.head])) ∧
    ((∀ a ∈ input.workers, ∀ b ∈ input.workers, a.draining = b.draining ∧ a.decode = b.decode) →
      ∀ chosen, List.Sublist chosen input.workers → chosen.length + 1 = n.toNat →
        input.dims.nLayers.toNat ≤ capacityV2 input (chosen ++ [input.head]) → ∃ p, planV2 input = .ok (.ok p)) := by
  have hplan := planV2_forced_iff hforced hn hmet hlayers hdims
  refine ⟨hplan, fun halike chosen hchosen hlength hfits => hplan.mpr ?_⟩
  have hworkers : (tableV2 input).workers.map Cand.caps = input.workers := map_caps_workers
  rw [← hworkers] at hchosen
  obtain ⟨cands, hcands, rfl⟩ := sublist_map_iff.mp hchosen
  rw [← le_capacityV2_iff fun c hc => hcands.subset hc, capacity_append] at hfits
  rw [← le_capacityV2_iff forcedWorkers_mem, capacity_append]
  refine hfits.trans (Nat.add_le_add_right ?_ _)
  obtain ⟨sorted, hperm, hsorted⟩ := hcands.subperm.trans (rankedWorkers_perm (tableV2 input)).symm.subperm
  have hlen : sorted.length = n.toNat - 1 := by
    rw [hperm.length_eq, ← length_map Cand.caps, ← hlength, Nat.add_sub_cancel]
  rw [← capacity_perm hperm, forcedWorkers, ← hlen]
  exact sum_map_le_take (ranked_by_capacity halike) hsorted

/-- The pair, with its two nodes asked for. -/
theorem forced_complete_pair : ∃ p, planV2 { pairRequest with forcedNodes := some 2 } = .ok (.ok p) :=
  (forced_complete { pairRequest with forcedNodes := some 2 } 2 rfl (by decide) (by decide) (by decide) rfl).1.mpr
    (by decide +kernel)

/-- A large worker that drains, and one without room for a layer. -/
def drainingRequest : PlanRequest :=
  { leavingRequest with
    workers := leavingRequest.workers.take 1 ++
      [{ node := "small", usableMemoryBytes := 0, compute := none, draining := false }]
    forcedNodes := some 2 }

/-- The worker that drains and the head can hold the model; the planner takes the other one. -/
theorem forced_misses : 4 ≤ capacityV2 drainingRequest (drainingRequest.workers.take 1 ++ [drainingRequest.head]) ∧
    drainingRequest.dims.nLayers = 4 ∧ ∃ e, planV2 drainingRequest = .ok (.error e) := by
  refine ⟨by decide +kernel, rfl, ?_⟩
  have hplan : (planV2 drainingRequest).map (fun r => r.isOk) = .ok false := by decide +kernel
  cases h : planV2 drainingRequest with
  | error => rw [h] at hplan; cases hplan
  | ok r =>
    cases r with
    | error e => exact ⟨e, rfl⟩
    | ok => rw [h] at hplan; cases hplan

end OneBrain.Scheduler
