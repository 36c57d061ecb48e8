import Mathlib.Data.List.MinMax
import Mathlib.Data.List.Permutation
import Mathlib.Data.List.Perm.Basic

/-!
# Places in a list

A loop `for (i, x) in xs.iter().enumerate()` that goes on to change or to remove `xs[i]`
walks over the places of a list. A `Spot` is such a place: what stands before it, the
element, and what stands behind. `spots` lists the places of a list from the first to the
last, and changing (`Spot.set`) or removing (`Spot.rest`) the element there needs no index.

Two searches over arrangements are built on it. `orderings` lists every arrangement of a
list, in lexicographic order of the places; `nearest` grows one arrangement from its end,
each time putting in front the element closest to the one that is in front. Both yield
permutations (`mem_orderings`, `nearest_perm`).
-/

namespace OneBrain.Lib

open List

variable {α β : Type*}

/-- A place in a list. -/
structure Spot (α : Type*) where
  before : List α
  here : α
  after : List α

/-- Its place in the list. -/
def Spot.index (s : Spot α) : ℕ := s.before.length

/-- The list with another element at the place. -/
def Spot.set (s : Spot α) (a : α) : List α := s.before ++ a :: s.after

/-- The list without the element at the place. -/
def Spot.rest (s : Spot α) : List α := s.before ++ s.after

/-- The places of a list, from the first to the last. -/
def spots : List α → List (Spot α)
  | [] => []
  | a :: l => ⟨[], a, l⟩ :: (spots l).map fun s => { s with before := a :: s.before }

variable {l : List α} {s : Spot α} {a : α}

theorem mem_spots : s ∈ spots l ↔ s.set s.here = l := by
  induction l generalizing s with
  | nil => simp [spots, Spot.set]
  | cons a l ih =>
    simp only [spots, mem_cons, mem_map, ih]
    constructor
    · rintro (rfl | ⟨s, rfl, rfl⟩)
      · rfl
      · rfl
    · intro h
      obtain ⟨before, here, after⟩ := s
      cases before with
      | nil =>
        cases h
        exact .inl rfl
      | cons b before =>
        cases h
        exact .inr ⟨⟨before, here, after⟩, rfl, rfl⟩

theorem exists_spot (h : a ∈ l) : ∃ s ∈ spots l, s.here = a := by
  obtain ⟨before, after, rfl⟩ := append_of_mem h
  exact ⟨⟨before, a, after⟩, mem_spots.mpr rfl, rfl⟩

variable (h : s ∈ spots l)
include h

theorem Spot.perm_cons_rest : l.Perm (s.here :: s.rest) := by
  rw [← mem_spots.mp h]
  exact perm_middle

theorem Spot.here_mem : s.here ∈ l := by
  rw [← mem_spots.mp h]
  exact mem_append_right _ mem_cons_self

theorem Spot.length_rest : s.rest.length + 1 = l.length :=
  (Spot.perm_cons_rest h).length_eq.symm

/-- A map that does not tell the new element from the old one does not see the change. -/
theorem Spot.map_set {f : α → β} (ha : f a = f s.here) : (s.set a).map f = l.map f := by
  rw [← mem_spots.mp h]
  simp only [Spot.set, map_append, map_cons, ha]

theorem Spot.mem_set {b : α} (hb : b ∈ s.set a) : b = a ∨ b ∈ l := by
  rw [← mem_spots.mp h]
  simp only [Spot.set, mem_append, mem_cons] at hb ⊢
  tauto

omit h

/-- The place in the image of the list. -/
def Spot.map (f : α → β) (s : Spot α) : Spot β := ⟨s.before.map f, f s.here, s.after.map f⟩

theorem spots_map (f : α → β) (l : List α) : spots (l.map f) = (spots l).map (Spot.map f) := by
  induction l with
  | nil => rfl
  | cons a l ih =>
    simp only [spots, map_cons, ih, map_map]
    rfl

theorem Spot.set_map (f : α → β) (s : Spot α) (a : α) : (s.set a).map f = (s.map f).set (f a) := by
  simp only [Spot.set, Spot.map, map_append, map_cons]

/-- A relation that holds of equals holds across a change that respects it. -/
theorem Spot.forall₂_set {R : α → α → Prop} (h : s ∈ spots l) (hrefl : ∀ a, R a a)
    (ha : R s.here a) : List.Forall₂ R l (s.set a) := by
  rw [← mem_spots.mp h]
  unfold Spot.set
  refine rel_append (forall₂_same.mpr fun b _ => hrefl b) (.cons ha ?_)
  exact forall₂_same.mpr fun b _ => hrefl b

theorem forall₂_trans {R : α → α → Prop} (hR : ∀ a b c, R a b → R b c → R a c) {m n : List α}
    (hlm : List.Forall₂ R l m) (hmn : List.Forall₂ R m n) : List.Forall₂ R l n := by
  induction hlm generalizing n with
  | nil => exact hmn
  | cons hab hrest ih =>
    cases hmn with
    | cons hbc hrest' => exact .cons (hR _ _ _ hab hbc) (ih hrest')

/-! ### Every arrangement -/

/-- The arrangements of `n` elements of a list, in lexicographic order of the places. -/
def arrange : ℕ → List α → List (List α)
  | 0, _ => [[]]
  | n + 1, l => (spots l).flatMap fun s => (arrange n s.rest).map (s.here :: ·)

/-- Every arrangement of a list, in lexicographic order of the places. -/
def orderings (l : List α) : List (List α) := arrange l.length l

theorem mem_orderings {m : List α} : m ∈ orderings l ↔ m.Perm l := by
  unfold orderings
  generalize hn : l.length = n
  induction n generalizing l m with
  | zero =>
    obtain rfl := eq_nil_of_length_eq_zero hn
    simp [arrange]
  | succ n ih =>
    simp only [arrange, mem_flatMap, mem_map]
    constructor
    · rintro ⟨s, hs, m, hm, rfl⟩
      have hlen : s.rest.length = n := Nat.succ_injective ((Spot.length_rest hs).trans hn)
      exact (((ih hlen).mp hm).cons s.here).trans (Spot.perm_cons_rest hs).symm
    · intro hperm
      cases m with
      | nil => exact absurd (hn.symm.trans hperm.symm.length_eq) (Nat.succ_ne_zero n)
      | cons a m =>
        obtain ⟨s, hs, rfl⟩ := exists_spot (hperm.subset mem_cons_self)
        have hlen : s.rest.length = n := Nat.succ_injective ((Spot.length_rest hs).trans hn)
        refine ⟨s, hs, m, (ih hlen).mpr ?_, rfl⟩
        exact (hperm.trans (Spot.perm_cons_rest hs)).cons_inv

/-! ### One arrangement, from its end -/

section nearest

variable [LinearOrder β] (dist : α → α → β)

/-- The place of the element closest to `front`, the first one where several are. -/
def closest (front : α) (l : List α) : Option (Spot α) := (spots l).argmin fun s => dist s.here front

/-- Put in front of a chain, `n` times, the element closest to its first one. -/
def nearest : ℕ → α → List α → List α → List α
  | 0, front, chain, _ => front :: chain
  | n + 1, front, chain, l =>
    match closest dist front l with
    | none => front :: chain
    | some s => nearest n s.here (front :: chain) s.rest

theorem nearest_perm (front : α) (chain l : List α) :
    ∃ m, m.Perm l ∧ nearest dist l.length front chain l = m ++ front :: chain := by
  generalize hn : l.length = n
  induction n generalizing front chain l with
  | zero =>
    obtain rfl := eq_nil_of_length_eq_zero hn
    exact ⟨[], .refl _, rfl⟩
  | succ n ih =>
    cases hs : closest dist front l with
    | none =>
      -- A list that has elements has a closest one.
      have hnone : spots l = [] := argmin_eq_none.mp hs
      cases l with
      | nil => cases hn
      | cons => cases hnone
    | some s =>
      have hmem : s ∈ spots l := argmin_mem hs
      have hlen : s.rest.length = n := Nat.succ_injective ((Spot.length_rest hmem).trans hn)
      obtain ⟨m, hm, hchain⟩ := ih s.here (front :: chain) s.rest hlen
      refine ⟨m ++ [s.here], ?_, ?_⟩
      · refine ((hm.append_right [s.here]).trans ?_).trans (Spot.perm_cons_rest hmem).symm
        exact perm_append_comm
      · simp only [nearest, hs, hchain, append_assoc, singleton_append]

end nearest

end OneBrain.Lib
