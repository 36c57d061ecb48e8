import Mathlib.Data.List.Basic

/-!
# Reaping down to a cap

A store has outgrown its cap. A reaper goes through what it listed, in order, until the sum of
what is left fits; it passes over what it was told to spare, and removes the rest if it can.
The removals are not one step with the listing: `Reap` is what a reaper has still to do, and
`look` is what it does next. Whether a removal succeeds is decided elsewhere.
-/

namespace OneBrain.Lib

/-- A reaper between two removals. -/
structure Reap (α : Type) where
  /-- What the store holds, as the reaper reckons it. -/
  total : ℕ
  /-- What was listed and not looked at yet. -/
  rest : List α

/-- What a reaper does next. -/
inductive Reap.Turn (α : Type) where
  /-- It is done: the rest fits, or there is none. -/
  | stops
  /-- It passes over one that it was told to spare. -/
  | spares (after : Reap α)
  | tries (a : α) (rest : List α)

namespace Reap

variable {α : Type} {max : ℕ} {spared : α → Bool} {r : Reap α} {a : α} {rest : List α}

/-- One turn of the loop. -/
def look (max : ℕ) (spared : α → Bool) (r : Reap α) : Turn α :=
  match r.rest with
  | [] => .stops
  | a :: rest =>
    if r.total ≤ max then .stops
    else if spared a then .spares ⟨r.total, rest⟩
    else .tries a rest

/-- What a reaper tries to remove it was not told to spare, and it listed it. -/
theorem look_tries (h : r.look max spared = .tries a rest) : spared a = false ∧ a ∈ r.rest := by
  unfold look at h
  cases hrest : r.rest with
  | nil =>
    rw [hrest] at h
    cases h
  | cons b bs =>
    simp only [hrest] at h
    split at h
    · cases h
    · split at h
      · cases h
      · rename_i hspared
        cases h
        exact ⟨by simpa using hspared, List.mem_cons_self⟩

end Reap

end OneBrain.Lib
