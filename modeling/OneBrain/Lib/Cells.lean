import Mathlib.Data.List.Basic
import Mathlib.Tactic.Linarith

/-!
# Position-indexed caches

A key/value cache of an autoregressive model is a list of *cells*, each an
entry together with the position it was computed at. This module is about such
lists over an arbitrary type of entries: the cells of a stream laid out from
position `0` (`layout`), the removal of a tail of positions (`trim`), the cells
an entry at a given position can see (`upTo`), and appending at the next free
position (`extend`).

## What is proved

Everything an implementation needs to keep a cache equal to the layout of the
stream it mirrors: `trim_layout`, `upTo_layout`, `layout_append` and
`extend_layout` say that each operation on a laid-out cache is the layout of the
corresponding operation on the stream.
-/

namespace OneBrain.Lib

variable {α : Type*}

/-- The cells of a stream: entry `i` at position `i`. -/
def layout (ts : List α) : List (α × ℕ) := ts.zipIdx

/-- Remove every cell at position `n` or later. -/
def trim (c : List (α × ℕ)) (n : ℕ) : List (α × ℕ) := c.filter fun e => decide (e.2 < n)

/-- The cells at positions up to and including `n`: what an entry at `n` attends to. -/
def upTo (c : List (α × ℕ)) (n : ℕ) : List (α × ℕ) := c.filter fun e => decide (e.2 ≤ n)

/-- The first position after every cell. -/
def nextPos (c : List (α × ℕ)) : ℕ := c.foldr (fun e n => max (e.2 + 1) n) 0

/-- Append entries at consecutive positions, starting from the next free one. -/
def extend (c : List (α × ℕ)) (ts : List α) : List (α × ℕ) := c ++ ts.zipIdx (nextPos c)

@[simp] theorem layout_nil : layout ([] : List α) = [] := rfl

variable (ts : List α)

@[simp] theorem length_layout : (layout ts).length = ts.length := by
  simp [layout]

theorem layout_append (ts us : List α) : layout (ts ++ us) = layout ts ++ us.zipIdx ts.length := by
  simp [layout, List.zipIdx_append]

theorem layout_concat (t : α) : layout (ts ++ [t]) = layout ts ++ [(t, ts.length)] := by
  simp [layout_append]

theorem trim_zipIdx (k n : ℕ) : trim (ts.zipIdx k) n = (ts.take (n - k)).zipIdx k := by
  induction ts generalizing k with
  | nil => simp [trim]
  | cons t ts ih =>
    have htail : trim (ts.zipIdx (k + 1)) n = (ts.take (n - (k + 1))).zipIdx (k + 1) := ih (k + 1)
    by_cases hk : k < n
    · obtain ⟨m, hm⟩ : ∃ m, n - k = m + 1 := ⟨n - k - 1, by omega⟩
      have hm' : n - (k + 1) = m := by omega
      rw [hm'] at htail
      rw [hm, List.take_succ_cons, List.zipIdx_cons, List.zipIdx_cons, ← htail]
      simp [trim, hk]
    · have h0 : n - k = 0 := by omega
      have h1 : n - (k + 1) = 0 := by omega
      rw [h1] at htail
      rw [h0, List.take_zero, List.zipIdx_cons]
      simpa [trim, hk] using htail

/-- Trimming a laid-out cache keeps the layout of a prefix of the stream. -/
theorem trim_layout (n : ℕ) : trim (layout ts) n = layout (ts.take n) := by
  simpa [layout] using trim_zipIdx ts 0 n

theorem upTo_eq_trim (c : List (α × ℕ)) (n : ℕ) : upTo c n = trim c (n + 1) := by
  simp only [upTo, trim, Nat.lt_succ_iff]

theorem upTo_layout (n : ℕ) : upTo (layout ts) n = layout (ts.take (n + 1)) := by
  rw [upTo_eq_trim, trim_layout]

theorem nextPos_zipIdx (k : ℕ) :
    nextPos (ts.zipIdx k) = if ts = [] then 0 else k + ts.length := by
  induction ts generalizing k with
  | nil => simp [nextPos]
  | cons t ts ih =>
    have hcons : nextPos ((t :: ts).zipIdx k) = max (k + 1) (nextPos (ts.zipIdx (k + 1))) := rfl
    rw [hcons, ih]
    by_cases hts : ts = []
    · simp [hts]
    · simp only [hts, if_false, List.length_cons, reduceCtorEq]
      omega

@[simp] theorem nextPos_layout : nextPos (layout ts) = ts.length := by
  rw [layout, nextPos_zipIdx]
  by_cases hts : ts = [] <;> simp [hts]

/-- Appending to a laid-out cache lays out the longer stream. -/
theorem extend_layout (ts us : List α) : extend (layout ts) us = layout (ts ++ us) := by
  rw [extend, nextPos_layout, layout_append]

end OneBrain.Lib
