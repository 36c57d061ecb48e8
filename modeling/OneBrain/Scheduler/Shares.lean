import OneBrain.Scheduler.V1

/-!
# Shares of the layers

`apportion` hands the layers of a model out to nodes in proportion to their scores, within
what each node can hold. The planners call it with the scores and the capacities of a list
of candidates; here it is taken at its own types, a list of scores and a list of 64-bit
capacities, which are added up in 64 bits (`apportionLists`).

Wherever the scores are not negative and not all zero, and the capacities add up to the
number of layers, it does not panic and hands out all layers (`apportion_shares`): no node
gets more than its capacity or less than its quota rounded down, if its capacity allows that,
and where no capacity is below its quota every node gets its quota up to less than one layer.

The planners' own `apportion` is this function on their candidates (`apportion_lists`).
-/

namespace OneBrain.Scheduler

open List OneBrain.Lib

/-- The sum of 64-bit numbers, in 64 bits. -/
def sumU64 (l : List UInt64) : UInt64 := l.foldl (· + ·) 0

/-- A score and a capacity. -/
abbrev Share := ℚ × UInt64

/-- The cap of a share. -/
def Share.room (s : Share) : ℕ := s.2.toNat

/-- Apportion layers to scores, within caps. -/
def apportionLists (scores : List ℚ) (caps : List UInt64) (nLayers : UInt32) :
    Except Panic (Option (List ℕ × List ℚ)) :=
  let nodes : List Share := scores.zip caps
  if scores.sum ≤ 0 ∨ sumU64 caps < nLayers.toUInt64 then pure none
  else
    match largestRemainder Prod.fst Share.room nodes nLayers.toNat with
    | some lots => pure (some (lots.map Lot.count, nodes.map (quota Prod.fst nodes nLayers.toNat)))
    | none => throw ⟨"total capacity >= n_layers guarantees a node with slack"⟩

/-! ### Adding up in 64 bits -/

theorem toNat_foldl_add (l : List UInt64) (a : UInt64) :
    (l.foldl (· + ·) a).toNat = (a.toNat + (l.map UInt64.toNat).sum) % 2 ^ 64 := by
  induction l generalizing a with
  | nil =>
    rw [map_nil, sum_nil, Nat.add_zero, Nat.mod_eq_of_lt a.toNat_lt]
    rfl
  | cons b l ih =>
    rw [foldl_cons, ih, UInt64.toNat_add, map_cons, sum_cons, Nat.mod_add_mod, Nat.add_assoc]

theorem toNat_sumU64 (l : List UInt64) : (sumU64 l).toNat = (l.map UInt64.toNat).sum % 2 ^ 64 := by
  rw [sumU64, toNat_foldl_add, UInt64.toNat_zero, Nat.zero_add]

theorem toNat_sumU64_le (l : List UInt64) : (sumU64 l).toNat ≤ (l.map UInt64.toNat).sum := by
  rw [toNat_sumU64]
  exact Nat.mod_le _ _

/-- Capacities as the candidate table has them do not wrap. -/
theorem toNat_sumU64_caps {l : List UInt64} (hcaps : ∀ c ∈ l, c.toNat < 2 ^ 32) (hlen : l.length ≤ 2 ^ 32) :
    (sumU64 l).toNat = (l.map UInt64.toNat).sum := by
  have hle : (l.map UInt64.toNat).sum ≤ (l.map UInt64.toNat).length • (2 ^ 32 - 1) := by
    apply sum_le_card_nsmul
    intro n hn
    obtain ⟨c, hc, rfl⟩ := mem_map.mp hn
    exact Nat.le_sub_one_of_lt (hcaps c hc)
  rw [length_map, smul_eq_mul] at hle
  have hbound : l.length * (2 ^ 32 - 1) ≤ 2 ^ 32 * (2 ^ 32 - 1) := Nat.mul_le_mul_right _ hlen
  rw [toNat_sumU64, Nat.mod_eq_of_lt (by omega)]

/-! ### Fair shares -/

section shares

variable {scores : List ℚ} {caps : List UInt64} {nLayers : UInt32}

variable (hlen : scores.length = caps.length)
include hlen

theorem map_fst_shares : (scores.zip caps).map Prod.fst = scores :=
  map_fst_zip hlen.le

theorem sum_room_shares :
    ((scores.zip caps).map Share.room).sum = (caps.map UInt64.toNat).sum := by
  have hrooms : (scores.zip caps).map Share.room = ((scores.zip caps).map Prod.snd).map UInt64.toNat := by
    rw [map_map]
    rfl
  rw [hrooms, map_snd_zip hlen.ge]

theorem map_quota_shares (n : ℕ) :
    (scores.zip caps).map (quota Prod.fst (scores.zip caps) n) = scores.map fun s => n * s / scores.sum := by
  have hquota : quota (Prod.fst : Share → ℚ) (scores.zip caps) n = (fun s : ℚ => n * s / scores.sum) ∘ Prod.fst := by
    funext p
    rw [quota, map_fst_shares hlen]
    rfl
  rw [hquota, ← map_map, map_fst_shares hlen]

omit hlen

/-- What an apportionment of layers is to be: the quotas are exact, all layers are handed out,
no node gets more than its capacity or less than its quota rounded down and its capacity, and
where no capacity is below its quota every node gets its quota up to less than one layer. -/
structure FairShares (scores : List ℚ) (caps : List UInt64) (nLayers : UInt32) (counts : List ℕ)
    (quotas : List ℚ) : Prop where
  ratio : quotas = scores.map fun s => nLayers.toNat * s / scores.sum
  length : counts.length = scores.length
  all : counts.sum = nLayers.toNat
  within : ∀ (i count : ℕ) (cap : UInt64), counts[i]? = some count → caps[i]? = some cap → count ≤ cap.toNat
  floor : ∀ (i count : ℕ) (cap : UInt64) (quota : ℚ), counts[i]? = some count → caps[i]? = some cap →
    quotas[i]? = some quota → min ⌊quota⌋₊ cap.toNat ≤ count
  near : (∀ (i : ℕ) (cap : UInt64) (quota : ℚ), caps[i]? = some cap → quotas[i]? = some quota → quota ≤ cap.toNat) →
    ∀ (i count : ℕ) (quota : ℚ), counts[i]? = some count → quotas[i]? = some quota → |(count : ℚ) - quota| < 1

/-- **What the planners call is this function**, for candidates as their table has them. -/
theorem apportion_lists (score : Cand → ℚ) {cands : List Cand} (nLayers : UInt32)
    (hcaps : ∀ c ∈ cands, c.capLayers < 2 ^ 32) (hlen : cands.length ≤ 2 ^ 32) :
    (apportion score cands nLayers.toNat).map
        (Option.map fun lots => (lots.map Lot.count, cands.map (quota score cands nLayers.toNat))) =
      apportionLists (cands.map score) (cands.map fun c => UInt64.ofNat c.capLayers) nLayers := by
  have hroom : ∀ c ∈ cands, c.capLayers = (UInt64.ofNat c.capLayers).toNat := fun c hc =>
    (UInt64.toNat_ofNat_of_lt' (Nat.lt_trans (hcaps c hc) (by decide))).symm
  have hsum : (sumU64 (cands.map fun c => UInt64.ofNat c.capLayers)).toNat = (cands.map Cand.capLayers).sum := by
    rw [toNat_sumU64_caps, map_map]
    · exact congrArg List.sum (map_congr_left fun c hc => (hroom c hc).symm)
    · intro m hm
      obtain ⟨c, hc, rfl⟩ := mem_map.mp hm
      rw [← hroom c hc]
      exact hcaps c hc
    · rwa [length_map]
  have hnodes : (cands.map score).zip (cands.map fun c => UInt64.ofNat c.capLayers) =
      cands.map fun c => (score c, UInt64.ofNat c.capLayers) := zip_map'
  have hlots : largestRemainder Prod.fst Share.room (cands.map fun c => (score c, UInt64.ofNat c.capLayers)) nLayers.toNat =
      (largestRemainder score Cand.capLayers cands nLayers.toNat).map
        (List.map (Lot.map fun c => (score c, UInt64.ofNat c.capLayers))) := by
    rw [largestRemainder_map]
    exact congrArg _ (largestRemainder_congr (fun _ _ => rfl) fun c hc => (hroom c hc).symm)
  have hquotas : (cands.map fun c => (score c, UInt64.ofNat c.capLayers)).map
      (quota Prod.fst (cands.map fun c => (score c, UInt64.ofNat c.capLayers)) nLayers.toNat) =
        cands.map (quota score cands nLayers.toNat) := by
    rw [map_map, ← quota_map]
    rfl
  unfold apportion apportionLists
  simp only [hnodes, hlots, hquotas, UInt64.lt_iff_toNat_lt, hsum, UInt32.toNat_toUInt64]
  split
  · rfl
  · cases largestRemainder score Cand.capLayers cands nLayers.toNat with
    | none => rfl
    | some =>
      simp only [Option.map_some, map_map]
      rfl

/-- The lot at a place stands for the capacity and the quota there. -/
theorem shares_at (hlen : scores.length = caps.length) {lots : List (Lot Share)} (n : ℕ)
    (hitems : lots.map Lot.item = scores.zip caps) {i : ℕ} {p : Lot Share} (hp : lots[i]? = some p) :
    caps[i]? = some p.item.2 ∧ ((scores.zip caps).map (quota Prod.fst (scores.zip caps) n))[i]? =
        some (quota Prod.fst (scores.zip caps) n p.item) := by
  have hitem : (scores.zip caps)[i]? = some p.item := by
    rw [← hitems, List.getElem?_map, hp]
    rfl
  constructor
  · rw [← map_snd_zip hlen.ge, List.getElem?_map, hitem]
    rfl
  · rw [List.getElem?_map, hitem]
    rfl

theorem fairShares_lists (hlen : scores.length = caps.length) (hscore : ∀ s ∈ scores, 0 ≤ s) (hpos : 0 < scores.sum)
    (hcap : nLayers.toUInt64 ≤ sumU64 caps) :
    ∃ counts quotas, apportionLists scores caps nLayers = .ok (some (counts, quotas)) ∧
      FairShares scores caps nLayers counts quotas := by
  have hscore' : ∀ s ∈ scores.zip caps, 0 ≤ s.1 := fun s hs => hscore s.1 (of_mem_zip hs).1
  have hpos' : 0 < ((scores.zip caps).map Prod.fst).sum := by rwa [map_fst_shares hlen]
  have hroom : nLayers.toNat ≤ ((scores.zip caps).map Share.room).sum := by
    rw [sum_room_shares hlen]
    have := UInt64.le_iff_toNat_le.mp hcap
    rw [UInt32.toNat_toUInt64] at this
    exact this.trans (toNat_sumU64_le caps)
  obtain ⟨lots, hlots, hitems, htotal, hwithin⟩ := largestRemainder_spec hscore' hpos' hroom
  have hcond : ¬ (scores.sum ≤ 0 ∨ sumU64 caps < nLayers.toUInt64) :=
    not_or.mpr ⟨not_le.mpr hpos, UInt64.not_lt.mpr hcap⟩
  refine ⟨lots.map Lot.count, (scores.zip caps).map (quota Prod.fst (scores.zip caps) nLayers.toNat), ?_, ?_⟩
  · unfold apportionLists
    rw [if_neg hcond, hlots]
    rfl
  refine ⟨map_quota_shares hlen nLayers.toNat, ?_, htotal, ?_, ?_, ?_⟩
  · have hlength := congrArg List.length hitems
    rw [length_map, length_zip, hlen, Nat.min_self] at hlength
    rw [length_map, hlength, hlen]
  · intro i count cap hcount hcapAt
    rw [List.getElem?_map] at hcount
    obtain ⟨p, hp, rfl⟩ := Option.map_eq_some_iff.mp hcount
    rw [(shares_at hlen nLayers.toNat hitems hp).1, Option.some.injEq] at hcapAt
    subst hcapAt
    exact hwithin p (mem_of_getElem? hp)
  · intro i count cap q hcount hcapAt hquota
    rw [List.getElem?_map] at hcount
    obtain ⟨p, hp, rfl⟩ := Option.map_eq_some_iff.mp hcount
    obtain ⟨hcap', hquota'⟩ := shares_at hlen nLayers.toNat hitems hp
    rw [hquota', Option.some.injEq] at hquota
    rw [hcap', Option.some.injEq] at hcapAt
    subst hquota hcapAt
    exact largestRemainder_floor hlots p (mem_of_getElem? hp)
  · intro hfits i count q hcount hquota
    rw [List.getElem?_map] at hcount
    obtain ⟨p, hp, rfl⟩ := Option.map_eq_some_iff.mp hcount
    rw [(shares_at hlen nLayers.toNat hitems hp).2, Option.some.injEq] at hquota
    subst hquota
    refine largestRemainder_near hscore' hpos' (fun s hs => ?_) hlots p (mem_of_getElem? hp)
    rw [← hitems] at hs
    obtain ⟨q, hq, rfl⟩ := mem_map.mp hs
    obtain ⟨j, hj⟩ := mem_iff_getElem?.mp hq
    obtain ⟨hcap', hquota'⟩ := shares_at hlen nLayers.toNat hitems hj
    exact hfits j _ _ hcap' hquota'

/-- **Fair shares**: where the scores are not negative and not all zero and the capacities are
enough, apportioning does not panic and hands out all layers fairly; and so it does for the
candidates of a planner that have these scores and capacities. -/
theorem apportion_shares (scores : List ℚ) (caps : List UInt64) (nLayers : UInt32)
    (hlen : scores.length = caps.length) (hscore : ∀ s ∈ scores, 0 ≤ s) (hpos : 0 < scores.sum)
    (hcap : nLayers.toUInt64 ≤ sumU64 caps) :
    (∃ counts quotas, apportionLists scores caps nLayers = .ok (some (counts, quotas)) ∧
      FairShares scores caps nLayers counts quotas) ∧
    ∀ (score : Cand → ℚ) (cands : List Cand), (∀ c ∈ cands, c.capLayers < 2 ^ 32) → cands.length ≤ 2 ^ 32 →
      cands.map score = scores → (cands.map fun c => UInt64.ofNat c.capLayers) = caps →
      ∃ lots, apportion score cands nLayers.toNat = .ok (some lots) ∧
        FairShares scores caps nLayers (lots.map Lot.count) (cands.map (quota score cands nLayers.toNat)) := by
  obtain ⟨counts, quotas, hlists, hfair⟩ := fairShares_lists hlen hscore hpos hcap
  refine ⟨⟨counts, quotas, hlists, hfair⟩, ?_⟩
  rintro score cands hcaps hmany rfl rfl
  have hsame := (apportion_lists score nLayers hcaps hmany).trans hlists
  cases happ : apportion score cands nLayers.toNat with
  | error => rw [happ] at hsame; cases hsame
  | ok found =>
    rw [happ] at hsame
    obtain ⟨lots, rfl, heq⟩ := Option.map_eq_some_iff.mp (Except.ok.inj hsame)
    obtain ⟨rfl, rfl⟩ := Prod.mk.inj heq
    exact ⟨lots, rfl, hfair⟩

/-- Seven layers over three nodes, the second of which can hold one. -/
theorem apportion_shares_three : apportionLists [1, 2, 4] [3, 1, 9] 7 = .ok (some ([1, 1, 5], [1, 2, 4])) ∧
      ∃ counts quotas, apportionLists [1, 2, 4] [3, 1, 9] 7 = .ok (some (counts, quotas)) ∧
        FairShares [1, 2, 4] [3, 1, 9] 7 counts quotas :=
  ⟨by decide +kernel, (apportion_shares [1, 2, 4] [3, 1, 9] 7 rfl (by decide) (by decide +kernel) (by decide)).1⟩

end shares

end OneBrain.Scheduler
