import Mathlib.Data.List.Infix

/-!
# Matching in a stream through a window

A scanner that looks for patterns in a text that grows need not keep the text: a suffix
of it that still covers every suffix lighter than the heaviest pattern finds every match
when it happens. Elements have a positive weight, so the window can be cut by weight.

* `Covers` — the window is a suffix of the text and keeps all its light suffixes.
* `Covers.cut` — cutting the window down to the light suffixes keeps it covering.
* `Covers.match_iff` — while the text has no match, a match in the window together with
  the next piece is a match in the text together with it.
-/

namespace OneBrain.Lib

open List

variable {α : Type*} (w : α → ℕ)

/-- The sum of the sizes. -/
def weight : List α → ℕ
  | [] => 0
  | a :: l => w a + weight l

@[simp] theorem weight_nil : weight w [] = 0 := rfl

@[simp] theorem weight_cons (a : α) (l : List α) : weight w (a :: l) = w a + weight w l := rfl

@[simp] theorem weight_append (l m : List α) : weight w (l ++ m) = weight w l + weight w m := by
  induction l with
  | nil => simp
  | cons a l ih => simp [ih, Nat.add_assoc]

theorem weight_pos (hw : ∀ a, 0 < w a) {l : List α} (hl : l ≠ []) : 0 < weight w l := by
  obtain ⟨a, l, rfl⟩ := exists_cons_of_ne_nil hl
  have := hw a
  rw [weight_cons]
  omega

/-- The longest suffix no heavier than `keep`. -/
def cutWindow (keep : ℕ) : List α → List α
  | [] => []
  | a :: l => if keep < weight w (a :: l) then cutWindow keep l else a :: l

/-- A window has the end of a text, and at least so much of it as is kept. -/
structure Covers (keep : ℕ) (window text : List α) : Prop where
  suffix : window <:+ text
  light : ∀ u, u <:+ text → weight w u ≤ keep → u <:+ window

variable {w} {keep : ℕ} {window text : List α}

theorem Covers.refl (keep : ℕ) (text : List α) : Covers w keep text text :=
  ⟨suffix_rfl, fun _ h _ => h⟩

theorem cutWindow_suffix (keep : ℕ) (l : List α) : cutWindow w keep l <:+ l := by
  induction l with
  | nil => exact suffix_rfl
  | cons a l ih =>
    unfold cutWindow
    split
    · exact ih.trans (suffix_cons a l)
    · exact suffix_rfl

theorem cutWindow_covers (keep : ℕ) (l : List α) : Covers w keep (cutWindow w keep l) l := by
  refine ⟨cutWindow_suffix keep l, fun u hu hlight => ?_⟩
  induction l with
  | nil => exact hu
  | cons a l ih =>
    unfold cutWindow
    split
    · rename_i hheavy
      rcases suffix_cons_iff.mp hu with rfl | hu
      · omega
      · exact ih hu
    · exact hu

theorem Covers.append (hc : Covers w keep window text) (piece : List α) :
    Covers w keep (window ++ piece) (text ++ piece) := by
  refine ⟨?_, fun u hu hlight => ?_⟩
  · obtain ⟨a, rfl⟩ := hc.suffix
    exact ⟨a, by simp⟩
  · -- a suffix ends inside the piece, or is a light suffix of the text and the whole piece
    obtain ⟨a, ha⟩ := hu
    rcases append_eq_append_iff.mp ha with ⟨b, hb, rfl⟩ | ⟨b, rfl, rfl⟩
    · have hsuffix : b <:+ text := ⟨a, hb.symm⟩
      rw [weight_append] at hlight
      obtain ⟨c, rfl⟩ := hc.light b hsuffix (by omega)
      exact ⟨c, by simp⟩
    · exact ⟨window ++ b, by simp⟩

theorem Covers.cut (hc : Covers w keep window text) : Covers w keep (cutWindow w keep window) text :=
  ⟨(cutWindow_suffix keep window).trans hc.suffix,
    fun u hu hlight => (cutWindow_covers keep window).light u (hc.light u hu hlight) hlight⟩

/-- **A window finds every match when it happens.** -/
theorem Covers.match_iff (hw : ∀ a, 0 < w a) (hc : Covers w keep window text) {pat piece : List α}
    (hpat : weight w pat ≤ keep + 1) (hnone : ¬ pat <:+: text) :
    pat <:+: window ++ piece ↔ pat <:+: text ++ piece := by
  constructor
  · intro h
    exact h.trans (hc.append piece).suffix.isInfix
  · rintro ⟨a, b, hab⟩
    rw [append_assoc] at hab
    rcases append_eq_append_iff.mp hab with ⟨c, rfl, hc'⟩ | ⟨c, rfl, rfl⟩
    · -- the match starts in the text, so it does not end there
      rcases append_eq_append_iff.mp hc' with ⟨d, rfl, rfl⟩ | ⟨d, rfl, rfl⟩
      · exact absurd ⟨a, d, by simp⟩ hnone
      · by_cases hd : d = []
        · subst hd
          exact absurd ⟨a, [], by simp⟩ hnone
        · have hpos := weight_pos w hw hd
          rw [weight_append] at hpat
          obtain ⟨e, rfl⟩ := hc.light c ⟨a, rfl⟩ (by omega)
          exact ⟨e, b, by simp⟩
    · exact ⟨window ++ c, b, by simp⟩

end OneBrain.Lib
