import OneBrain.Lib.Best
import OneBrain.Lib.Spots

/-!
# Capped largest-remainder apportionment

`n` whole units are handed out to items in proportion to a score, none of them getting more
than its cap. Every item first gets its quota rounded down, or its cap if that is less; what
is left over goes out unit by unit, each to the item with the largest unmet quota that still
has room, ties going to the larger score and then to the earlier item.

The scores are of any ordered field with a floor. `largestRemainder` fails only where no item has
room although a unit is left; `largestRemainder_spec` says that with scores that are not negative,
one of them positive, and with caps for `n` units it does not, that all units are handed out
and that every cap is kept. No item gets less than it was given first
(`largestRemainder_floor`), and where no quota is above its cap every item gets its quota up
to less than one unit (`largestRemainder_near`): as long as a unit is left, the neediest item
has less than its quota. What the items are does not matter (`largestRemainder_map`).
-/

namespace OneBrain.Lib

open List

variable {α K : Type*}

/-- An item and the units it has. -/
structure Lot (α : Type*) where
  item : α
  count : ℕ

/-- One unit more. -/
def Lot.more (p : Lot α) : Lot α := { p with count := p.count + 1 }

/-- One unit less. -/
def Lot.less (p : Lot α) : Lot α := { p with count := p.count - 1 }

/-- The units of all parts. -/
def total (ps : List (Lot α)) : ℕ := (ps.map Lot.count).sum

@[simp] theorem total_nil : total ([] : List (Lot α)) = 0 := rfl

@[simp] theorem total_cons (p : Lot α) (ps : List (Lot α)) : total (p :: ps) = p.count + total ps :=
  sum_cons

@[simp] theorem total_append (ps qs : List (Lot α)) : total (ps ++ qs) = total ps + total qs := by
  simp only [total, map_append, sum_append]

theorem total_perm {ps qs : List (Lot α)} (h : ps.Perm qs) : total ps = total qs := (h.map _).sum_eq

theorem total_filter_pos (ps : List (Lot α)) : total (ps.filter fun p => decide (0 < p.count)) = total ps := by
  induction ps with
  | nil => rfl
  | cons p ps ih =>
    by_cases hp : 0 < p.count
    · rw [filter_cons_of_pos (by simpa using hp), total_cons, total_cons, ih]
    · rw [filter_cons_of_neg (by simpa using hp), total_cons, ih]
      omega

theorem total_set {ps : List (Lot α)} {s : Spot (Lot α)} (h : s ∈ spots ps) (p : Lot α) :
    total (s.set p) + s.here.count = total ps + p.count := by
  rw [← mem_spots.mp h]
  simp only [Spot.set, total_append, total_cons]
  omega

section quota

variable [Field K] (score : α → K)

/-- The exact share of an item in `n` units. -/
def quota (items : List α) (n : ℕ) (a : α) : K := n * score a / (items.map score).sum

theorem sum_map_quota {score : α → K} {items : List α} (h : (items.map score).sum ≠ 0) (n : ℕ) :
    (items.map (quota score items n)).sum = n := by
  have hscale : ∀ l : List α,
      (l.map (quota score items n)).sum = n * (l.map score).sum / (items.map score).sum := by
    intro l
    induction l with
    | nil => simp
    | cons a l ih => simp only [map_cons, sum_cons, ih, quota, mul_add, add_div]
  rw [hscale, mul_div_assoc, div_self h, mul_one]

theorem quota_nonneg [LinearOrder K] [IsStrictOrderedRing K] {score : α → K} {items : List α} {n : ℕ}
    (hscore : ∀ a ∈ items, 0 ≤ score a) {a : α} (ha : a ∈ items) : 0 ≤ quota score items n a := by
  apply div_nonneg
  · exact mul_nonneg (Nat.cast_nonneg n) (hscore a ha)
  · exact sum_nonneg (by simpa using hscore)

end quota

/-! ### Handing out what is left -/

section handOut

variable [Field K] [LinearOrder K] (score : α → K) (cap : α → ℕ)

/-- Of the places that `fits` allows the one with the largest unmet quota, then the largest
score, then the first one. -/
def neediest (want : α → K) (fits : Spot (Lot α) → Bool) (ps : List (Lot α)) : Option (Spot (Lot α)) :=
  ((spots ps).filter fits).argmax fun s => toLex (want s.here.item - s.here.count, score s.here.item)

/-- Whether the part at a place can take one more unit. -/
def hasRoom (s : Spot (Lot α)) : Bool := decide (s.here.count < cap s.here.item)

/-- Hand out units one by one; `none` when a unit is left and no part has room. -/
def handOut (want : α → K) : ℕ → List (Lot α) → Option (List (Lot α))
  | 0, ps => some ps
  | k + 1, ps =>
    match neediest score want (hasRoom cap) ps with
    | none => none
    | some s => handOut want k (s.set s.here.more)

variable {score cap} {want : α → K} {fits : Spot (Lot α) → Bool} {ps qs : List (Lot α)} {s : Spot (Lot α)}
  {k : ℕ}

theorem neediest_mem (h : neediest score want fits ps = some s) : s ∈ spots ps ∧ fits s = true :=
  mem_filter.mp (argmax_mem h)

theorem neediest_eq_none (h : neediest score want fits ps = none) (hs : s ∈ spots ps) : fits s = false := by
  have hnil := argmax_eq_none.mp h
  have hnot : s ∉ (spots ps).filter fits := hnil ▸ not_mem_nil
  rw [mem_filter, not_and, Bool.not_eq_true] at hnot
  exact hnot hs

/-- Parts that together have less than their caps have room somewhere. -/
theorem exists_hasRoom (h : total ps < ((ps.map Lot.item).map cap).sum) : ∃ s ∈ spots ps, hasRoom cap s = true := by
  by_contra hfull
  have hle : ((ps.map Lot.item).map cap).sum ≤ total ps := by
    rw [total, map_map]
    apply sum_le_sum
    intro p hp
    obtain ⟨s, hs, rfl⟩ := exists_spot hp
    have hs' : ¬ hasRoom cap s = true := fun hroom => hfull ⟨s, hs, hroom⟩
    exact Nat.not_lt.mp fun hlt => hs' (decide_eq_true hlt)
  omega

theorem total_set_more (h : s ∈ spots ps) : total (s.set s.here.more) = total ps + 1 := by
  have := total_set h s.here.more
  simp only [Lot.more] at this ⊢
  omega

theorem total_set_less (h : s ∈ spots ps) (hpos : 0 < s.here.count) : total (s.set s.here.less) + 1 = total ps := by
  have := total_set h s.here.less
  simp only [Lot.less] at this ⊢
  omega

theorem count_le_cap_set_more (h : s ∈ spots ps) (hroom : hasRoom cap s = true) (hcap : ∀ p ∈ ps, p.count ≤ cap p.item) :
    ∀ p ∈ s.set s.here.more, p.count ≤ cap p.item := by
  intro p hp
  rcases Spot.mem_set h hp with rfl | hp
  · exact of_decide_eq_true hroom
  · exact hcap p hp

theorem handOut_succ (h : handOut score cap want (k + 1) ps = some qs) :
    ∃ s, neediest score want (hasRoom cap) ps = some s ∧ handOut score cap want k (s.set s.here.more) = some qs := by
  unfold handOut at h
  split at h
  · cases h
  · exact ⟨_, ‹_›, h⟩

theorem handOut_spec (hcap : ∀ p ∈ ps, p.count ≤ cap p.item) (h : handOut score cap want k ps = some qs) :
    qs.map Lot.item = ps.map Lot.item ∧ total qs = total ps + k ∧ ∀ q ∈ qs, q.count ≤ cap q.item := by
  induction k generalizing ps with
  | zero =>
    cases h
    exact ⟨rfl, rfl, hcap⟩
  | succ k ih =>
    obtain ⟨s, hs, h⟩ := handOut_succ h
    obtain ⟨hmem, hroom⟩ := neediest_mem hs
    obtain ⟨hitems, htotal, hkept⟩ := ih (count_le_cap_set_more hmem hroom hcap) h
    refine ⟨hitems.trans (Spot.map_set hmem rfl), ?_, hkept⟩
    rw [htotal, total_set_more hmem]
    omega

theorem handOut_isSome (h : total ps + k ≤ ((ps.map Lot.item).map cap).sum) :
    ∃ qs, handOut score cap want k ps = some qs := by
  induction k generalizing ps with
  | zero => exact ⟨ps, rfl⟩
  | succ k ih =>
    unfold handOut
    cases hs : neediest score want (hasRoom cap) ps with
    | none =>
      obtain ⟨s, hmem, hroom⟩ := exists_hasRoom (Nat.lt_of_lt_of_le (by omega : total ps < total ps + (k + 1)) h)
      rw [neediest_eq_none hs hmem] at hroom
      cases hroom
    | some s =>
      obtain ⟨hmem, -⟩ := neediest_mem hs
      apply ih
      rw [Spot.map_set (f := Lot.item) (a := s.here.more) hmem rfl, total_set_more hmem]
      omega

theorem handOut_grows (h : handOut score cap want k ps = some qs) :
    List.Forall₂ (fun p q => q.item = p.item ∧ p.count ≤ q.count) ps qs := by
  induction k generalizing ps with
  | zero =>
    cases h
    exact forall₂_same.mpr fun p _ => ⟨rfl, le_rfl⟩
  | succ k ih =>
    obtain ⟨s, hs, h⟩ := handOut_succ h
    have hturn := Spot.forall₂_set (R := fun p q : Lot α => q.item = p.item ∧ p.count ≤ q.count)
      (neediest_mem hs).1 (fun p => ⟨rfl, le_rfl⟩) (a := s.here.more) ⟨rfl, Nat.le_succ _⟩
    have htrans : ∀ p q r : Lot α, q.item = p.item ∧ p.count ≤ q.count → r.item = q.item ∧ q.count ≤ r.count →
        r.item = p.item ∧ p.count ≤ r.count := fun p q r hpq hqr => ⟨hqr.1.trans hpq.1, hpq.2.trans hqr.2⟩
    exact forall₂_trans htrans hturn (ih h)

section near

variable [IsStrictOrderedRing K]

theorem neediest_short (hsum : (total ps : K) < ((ps.map Lot.item).map want).sum)
    (hcap : ∀ p ∈ ps, want p.item ≤ cap p.item) (h : neediest score want (hasRoom cap) ps = some s) :
    (s.here.count : K) < want s.here.item := by
  -- Some part has less than its quota, since together they have less than their quotas.
  obtain ⟨p, hp, hshort⟩ : ∃ p ∈ ps, (p.count : K) < want p.item := by
    by_contra hnone
    have hle : ((ps.map Lot.item).map want).sum ≤ (total ps : K) := by
      rw [total, Nat.cast_list_sum, map_map, map_map]
      exact sum_le_sum fun p hp => not_lt.mp fun hlt => hnone ⟨p, hp, hlt⟩
    exact absurd hsum (not_lt.mpr hle)
  obtain ⟨r, hr, rfl⟩ := exists_spot hp
  have hroom : hasRoom cap r = true := decide_eq_true (Nat.cast_lt.mp (hshort.trans_le (hcap _ hp)))
  have hle := le_of_mem_argmax (mem_filter.mpr ⟨hr, hroom⟩) h
  have hfirst : want r.here.item - r.here.count ≤ want s.here.item - s.here.count := by
    rcases Prod.Lex.toLex_le_toLex.mp hle with hlt | ⟨heq, -⟩
    · exact hlt.le
    · exact heq.le
  exact sub_pos.mp ((sub_pos.mpr hshort).trans_le hfirst)

/-- Where no quota is above its cap, parts that are within one unit of their quotas stay so. -/
theorem handOut_near (hsum : ((ps.map Lot.item).map want).sum = total ps + k)
    (hcap : ∀ p ∈ ps, want p.item ≤ cap p.item) (hnear : ∀ p ∈ ps, |(p.count : K) - want p.item| < 1)
    (h : handOut score cap want k ps = some qs) : ∀ q ∈ qs, |(q.count : K) - want q.item| < 1 := by
  induction k generalizing ps with
  | zero =>
    cases h
    exact hnear
  | succ k ih =>
    obtain ⟨s, hs, h⟩ := handOut_succ h
    have hmem := (neediest_mem hs).1
    have hshort : (s.here.count : K) < want s.here.item := by
      apply neediest_short _ hcap hs
      rw [hsum]
      exact lt_add_of_pos_right _ (Nat.cast_pos.mpr (Nat.succ_pos k))
    refine ih ?_ ?_ ?_ h
    · rw [Spot.map_set (f := Lot.item) (a := s.here.more) hmem rfl, total_set_more hmem, hsum]
      push_cast
      ring
    · intro p hp
      rcases Spot.mem_set hmem hp with rfl | hp
      · exact hcap s.here (Spot.here_mem hmem)
      · exact hcap p hp
    · intro p hp
      rcases Spot.mem_set hmem hp with rfl | hp
      · have hbefore := abs_lt.mp (hnear s.here (Spot.here_mem hmem))
        simp only [Lot.more, Nat.cast_add, Nat.cast_one]
        exact abs_lt.mpr ⟨by linarith [hbefore.1], by linarith⟩
      · exact hnear p hp

end near

theorem handOut_congr {score' want' : α → K} {cap' : α → ℕ}
    (h : ∀ a ∈ ps.map Lot.item, score a = score' a ∧ want a = want' a ∧ cap a = cap' a) :
    handOut score cap want k ps = handOut score' cap' want' k ps := by
  induction k generalizing ps with
  | zero => rfl
  | succ k ih =>
    have hitem : ∀ s ∈ spots ps, s.here.item ∈ ps.map Lot.item := fun s hs => mem_map_of_mem (Spot.here_mem hs)
    have hrooms : (spots ps).filter (hasRoom cap) = (spots ps).filter (hasRoom cap') := by
      apply filter_congr
      intro s hs
      rw [hasRoom, hasRoom, (h _ (hitem s hs)).2.2]
    have hsame : neediest score want (hasRoom cap) ps = neediest score' want' (hasRoom cap') ps := by
      unfold neediest
      rw [hrooms]
      apply argmax_congr
      intro s hs
      obtain ⟨hscore, hwant, -⟩ := h _ (hitem s (mem_filter.mp hs).1)
      rw [hscore, hwant]
    unfold handOut
    rw [hsame]
    cases hs : neediest score' want' (hasRoom cap') ps with
    | none => rfl
    | some s =>
      apply ih
      intro a ha
      rw [Spot.map_set (f := Lot.item) (a := s.here.more) (neediest_mem hs).1 rfl] at ha
      exact h a ha

end handOut

/-! ### The whole apportionment -/

section apportion

variable [Field K] [LinearOrder K] [FloorSemiring K] (score : α → K) (cap : α → ℕ)

/-- Every item with its quota rounded down, or its cap. -/
def floors (items : List α) (n : ℕ) : List (Lot α) :=
  items.map fun a => ⟨a, min ⌊quota score items n a⌋₊ (cap a)⟩

/-- The apportionment of `n` units. -/
def largestRemainder (items : List α) (n : ℕ) : Option (List (Lot α)) :=
  let ps := floors score cap items n
  handOut score cap (quota score items n) (n - total ps) ps

variable {score cap} {items : List α} {n : ℕ}

theorem map_item_floors : (floors score cap items n).map Lot.item = items := by
  simp [floors, map_map, Function.comp_def]

theorem count_le_cap_floors : ∀ p ∈ floors score cap items n, p.count ≤ cap p.item := by
  intro p hp
  obtain ⟨a, -, rfl⟩ := mem_map.mp hp
  exact Nat.min_le_right _ _

theorem largestRemainder_congr {score' : α → K} {cap' : α → ℕ} (h : ∀ a ∈ items, score a = score' a)
    (hcap : ∀ a ∈ items, cap a = cap' a) :
    largestRemainder score cap items n = largestRemainder score' cap' items n := by
  have hquota : ∀ a ∈ items, quota score items n a = quota score' items n a := by
    intro a ha
    rw [quota, quota, h a ha, map_congr_left h]
  have hfloors : floors score cap items n = floors score' cap' items n := by
    apply map_congr_left
    intro a ha
    rw [hquota a ha, hcap a ha]
  unfold largestRemainder
  rw [hfloors]
  apply handOut_congr
  intro a ha
  rw [map_item_floors] at ha
  exact ⟨h a ha, hquota a ha, hcap a ha⟩

/-- No item gets less than its quota rounded down, or its cap. -/
theorem largestRemainder_floor {ps : List (Lot α)} (h : largestRemainder score cap items n = some ps) :
    ∀ p ∈ ps, min ⌊quota score items n p.item⌋₊ (cap p.item) ≤ p.count := by
  intro p hp
  have hgrown : List.Forall₂ (fun q p : Lot α => p.item = q.item ∧ q.count ≤ p.count) (floors score cap items n) ps :=
    handOut_grows h
  obtain ⟨i, hi, rfl⟩ := mem_iff_getElem.mp hp
  have hi' : i < (floors score cap items n).length := hgrown.length_eq ▸ hi
  obtain ⟨hitem, hcount⟩ := hgrown.get hi' hi
  rw [get_eq_getElem, get_eq_getElem] at hitem hcount
  obtain ⟨a, -, ha⟩ := mem_map.mp (getElem_mem hi')
  rw [← ha] at hitem hcount
  rw [hitem]
  exact hcount

variable [IsStrictOrderedRing K]

variable (hscore : ∀ a ∈ items, 0 ≤ score a)
include hscore

/-- Rounded down, the quotas do not add up to more than what they are quotas of. -/
theorem total_floors_le (hpos : 0 < (items.map score).sum) :
    total (floors score cap items n) ≤ n := by
  have hle : ∀ l : List α, (∀ a ∈ l, a ∈ items) →
      ((total (l.map fun a => (⟨a, min ⌊quota score items n a⌋₊ (cap a)⟩ : Lot α)) : ℕ) : K)
        ≤ (l.map (quota score items n)).sum := by
    intro l hl
    induction l with
    | nil => simp
    | cons a l ih =>
      rw [forall_mem_cons] at hl
      simp only [map_cons, total_cons, sum_cons, Nat.cast_add]
      refine add_le_add ?_ (ih hl.2)
      calc ((min ⌊quota score items n a⌋₊ (cap a) : ℕ) : K)
          ≤ (⌊quota score items n a⌋₊ : K) := Nat.cast_le.mpr (Nat.min_le_left _ _)
        _ ≤ quota score items n a := Nat.floor_le (quota_nonneg hscore hl.1)
  have h := hle items fun a ha => ha
  rw [sum_map_quota hpos.ne' n] at h
  exact Nat.cast_le.mp h

/-- **All units are handed out, and every cap is kept**, where the scores are not negative,
one of them is positive and the caps are enough for the units. -/
theorem largestRemainder_spec (hpos : 0 < (items.map score).sum) (hn : n ≤ (items.map cap).sum) :
    ∃ ps, largestRemainder score cap items n = some ps ∧ ps.map Lot.item = items ∧ total ps = n ∧
      ∀ p ∈ ps, p.count ≤ cap p.item := by
  have hfloors : total (floors score cap items n) ≤ n := total_floors_le hscore hpos
  have hroom : total (floors score cap items n) + (n - total (floors score cap items n)) ≤
      (((floors score cap items n).map Lot.item).map cap).sum := by
    rw [map_item_floors]
    omega
  obtain ⟨ps, hps⟩ : ∃ ps, largestRemainder score cap items n = some ps := handOut_isSome hroom
  obtain ⟨hitems, htotal, hcap⟩ := handOut_spec count_le_cap_floors hps
  refine ⟨ps, hps, hitems.trans map_item_floors, ?_, hcap⟩
  rw [htotal]
  omega

/-- **Every item gets its quota up to less than one unit**, where no quota is above its cap. -/
theorem largestRemainder_near (hpos : 0 < (items.map score).sum)
    (hcap : ∀ a ∈ items, quota score items n a ≤ cap a) {ps : List (Lot α)}
    (h : largestRemainder score cap items n = some ps) :
    ∀ p ∈ ps, |(p.count : K) - quota score items n p.item| < 1 := by
  refine handOut_near ?_ ?_ ?_ h
  · rw [map_item_floors, sum_map_quota hpos.ne', ← Nat.cast_add,
      Nat.add_sub_cancel' (total_floors_le hscore hpos)]
  · intro p hp
    obtain ⟨a, ha, rfl⟩ := mem_map.mp hp
    exact hcap a ha
  · intro p hp
    obtain ⟨a, ha, rfl⟩ := mem_map.mp hp
    have hfloor : ⌊quota score items n a⌋₊ ≤ cap a := Nat.floor_le_of_le (hcap a ha)
    have hle := Nat.floor_le (quota_nonneg (n := n) hscore ha)
    have hlt := Nat.lt_floor_add_one (quota score items n a)
    rw [Nat.min_eq_left hfloor]
    exact abs_lt.mpr ⟨by linarith, by linarith⟩

end apportion

/-! ### The items do not matter -/

section map

variable {β : Type*}

/-- The same units for the image of the item. -/
def Lot.map (f : α → β) (p : Lot α) : Lot β := ⟨f p.item, p.count⟩

theorem total_map (f : α → β) (ps : List (Lot α)) : total (ps.map (Lot.map f)) = total ps := by
  rw [total, map_map]
  rfl

variable [Field K] {score : β → K} {cap : β → ℕ} {want : β → K}

variable (f : α → β)

theorem quota_map (items : List α) (n : ℕ) :
    quota (score ∘ f) items n = quota score (items.map f) n ∘ f := by
  funext a
  simp only [quota, map_map, Function.comp_apply]

variable [LinearOrder K]

theorem neediest_map (ps : List (Lot α)) :
    neediest score want (hasRoom cap) (ps.map (Lot.map f)) =
      (neediest (score ∘ f) (want ∘ f) (hasRoom (cap ∘ f)) ps).map (Spot.map (Lot.map f)) := by
  unfold neediest
  rw [spots_map, filter_map, argmax_map]
  rfl

/-- Items with the scores and caps of their images are handed what their images are. -/
theorem handOut_map (k : ℕ) (ps : List (Lot α)) :
    handOut score cap want k (ps.map (Lot.map f)) =
      (handOut (score ∘ f) (cap ∘ f) (want ∘ f) k ps).map (List.map (Lot.map f)) := by
  induction k generalizing ps with
  | zero => rfl
  | succ k ih =>
    unfold handOut
    rw [neediest_map]
    cases neediest (score ∘ f) (want ∘ f) (hasRoom (cap ∘ f)) ps with
    | none => rfl
    | some s =>
      have hset : (s.map (Lot.map f)).set (s.map (Lot.map f)).here.more = (s.set s.here.more).map (Lot.map f) :=
        (Spot.set_map (Lot.map f) s s.here.more).symm
      simp only [Option.map_some, hset, ih]

/-- **An apportionment sees the scores and caps of the items only.** -/
theorem largestRemainder_map [FloorSemiring K] (items : List α) (n : ℕ) :
    largestRemainder score cap (items.map f) n =
      (largestRemainder (score ∘ f) (cap ∘ f) items n).map (List.map (Lot.map f)) := by
  have hfloors : floors score cap (items.map f) n = (floors (score ∘ f) (cap ∘ f) items n).map (Lot.map f) := by
    simp only [floors, quota_map, map_map]
    rfl
  simp only [largestRemainder, hfloors, total_map, handOut_map, quota_map]

end map

end OneBrain.Lib
