import Mathlib.Data.Multiset.UnionInter

/-!
# Counting around one position of a list

Tasks kept in a list are addressed by their position: one is replaced, or taken out, and the
others stay. What such a step does to a count is what it does to the element at the
position.
-/

namespace OneBrain.Lib

open Multiset

variable {α : Type*} {l : List α} {i : ℕ} {a : α}

variable (hat : l[i]? = some a)
include hat

/-- A list is its element at a position, and the list without it. -/
theorem coe_eraseIdx : (l : Multiset α) = a ::ₘ ↑(l.eraseIdx i) := by
  obtain ⟨hi, rfl⟩ := List.getElem?_eq_some_iff.mp hat
  exact coe_eq_coe.mpr (List.getElem_cons_eraseIdx_perm hi).symm

theorem coe_set (b : α) : (l.set i b : Multiset α) = b ::ₘ ↑(l.eraseIdx i) :=
  coe_eq_coe.mpr (List.set_perm_cons_eraseIdx (List.getElem?_eq_some_iff.mp hat).1 b)

theorem count_eraseIdx [DecidableEq α] (b : α) :
    l.count b = (l.eraseIdx i).count b + if b = a then 1 else 0 := by
  rw [← coe_count, ← coe_count, coe_eraseIdx hat, count_cons]

/-- What is in a list is in it without one position, or at that position. -/
theorem mem_eraseIdx_or {x : α} : x ∈ l ↔ x = a ∨ x ∈ l.eraseIdx i := by
  rw [← mem_coe, coe_eraseIdx hat, mem_cons, mem_coe]

theorem mem_set_or {b x : α} : x ∈ l.set i b ↔ x = b ∨ x ∈ l.eraseIdx i := by
  rw [← mem_coe, coe_set hat, mem_cons, mem_coe]

end OneBrain.Lib
