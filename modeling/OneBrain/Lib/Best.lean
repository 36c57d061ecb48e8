import Mathlib

/-!
# The first best of a list

A search that keeps a candidate until a strictly better one comes returns `List.argmin` of
its cost. What is returned depends on the order of the costs only (`argmin_congr`, `argmax_congr`), goes
through a map (`argmin_map`, `argmax_map`), and does not change when candidates are added behind that are
no better than one already there (`argmin_append_of_le`). Of a list in falling order, the first `k` have
the largest sum of any `k` (`sum_map_le_take`).
-/

namespace OneBrain.Lib

open List

variable {α β γ δ : Type*} [LinearOrder β] [LinearOrder γ]

/-- Two costs that order the candidates alike choose the same one. -/
theorem argmin_congr {f : α → β} {g : α → γ} {l : List α} (h : ∀ a ∈ l, ∀ b ∈ l, f a < f b ↔ g a < g b) :
    l.argmin f = l.argmin g := by
  induction l using List.reverseRecOn with
  | nil => rfl
  | append_singleton l a ih =>
    have hl : l.argmin f = l.argmin g :=
      ih fun b hb c hc => h b (mem_append_left _ hb) c (mem_append_left _ hc)
    rw [argmin_concat, argmin_concat, hl]
    cases hm : l.argmin g with
    | none => rfl
    | some m =>
      have hlt := h a (mem_append_right _ (mem_singleton_self a)) m
        (mem_append_left _ (argmin_mem hm))
      by_cases hf : f a < f m
      · simp only [if_pos hf, if_pos (hlt.mp hf)]
      · simp only [if_neg hf, if_neg (mt hlt.mpr hf)]

theorem argmax_congr {f g : α → β} {l : List α} (h : ∀ a ∈ l, f a = g a) : l.argmax f = l.argmax g := by
  induction l using List.reverseRecOn with
  | nil => rfl
  | append_singleton l a ih =>
    have hl : l.argmax f = l.argmax g := ih fun b hb => h b (mem_append_left _ hb)
    rw [argmax_concat, argmax_concat, hl, h a (mem_append_right _ (mem_singleton_self a))]
    cases hm : l.argmax g with
    | none => rfl
    | some m => simp only [h m (mem_append_left _ (argmax_mem hm))]

/-- The best of the images is the image of the best. -/
theorem argmin_map {f : δ → β} {g : α → δ} {l : List α} : (l.map g).argmin f = (l.argmin (f ∘ g)).map g := by
  induction l using List.reverseRecOn with
  | nil => rfl
  | append_singleton l a ih =>
    rw [map_append, map_singleton, argmin_concat, argmin_concat, ih]
    cases l.argmin (f ∘ g) with
    | none => rfl
    | some m =>
      by_cases hf : f (g a) < f (g m)
      · simp only [Option.map_some, Function.comp_apply, if_pos hf]
      · simp only [Option.map_some, Function.comp_apply, if_neg hf]

theorem argmax_map {f : δ → β} {g : α → δ} {l : List α} : (l.map g).argmax f = (l.argmax (f ∘ g)).map g :=
  argmin_map (β := βᵒᵈ)

/-- Candidates that come later and are no better than an earlier one are not chosen. -/
theorem argmin_append_of_le {f : α → β} {l l' : List α} (h : ∀ b ∈ l', ∃ a ∈ l, f a ≤ f b) :
    (l ++ l').argmin f = l.argmin f := by
  induction l' using List.reverseRecOn with
  | nil => rw [append_nil]
  | append_singleton l' b ih =>
    have hl : (l ++ l').argmin f = l.argmin f := ih fun c hc => h c (mem_append_left _ hc)
    rw [← append_assoc, argmin_concat, hl]
    obtain ⟨a, ha, hab⟩ := h b (mem_append_right _ (mem_singleton_self b))
    cases hm : l.argmin f with
    | none =>
      rw [argmin_eq_none] at hm
      rw [hm] at ha
      cases ha
    | some m =>
      have hmb : ¬ f b < f m := not_lt.mpr ((le_of_mem_argmin ha hm).trans hab)
      simp only [if_neg hmb]

theorem sum_map_take_cons_le {f : α → ℕ} {a : α} {l : List α} (k : ℕ) (h : ∀ b ∈ l, f b ≤ f a) :
    ((l.take k).map f).sum ≤ (((a :: l).take k).map f).sum := by
  cases k with
  | zero => rfl
  | succ k =>
    rw [take_add_one, map_append, sum_append, take_succ_cons, map_cons, sum_cons, Nat.add_comm]
    refine Nat.add_le_add_right ?_ _
    cases hk : l[k]? with
    | none => exact Nat.zero_le _
    | some b => simpa using h b (mem_of_getElem? hk)

theorem sum_map_le_take {f : α → ℕ} {l chosen : List α} (hsorted : l.Pairwise fun a b => f b ≤ f a)
    (hsub : List.Sublist chosen l) : (chosen.map f).sum ≤ ((l.take chosen.length).map f).sum := by
  induction hsub with
  | slnil => rfl
  | cons a _ ih =>
    obtain ⟨hfirst, hrest⟩ := pairwise_cons.mp hsorted
    exact (ih hrest).trans (sum_map_take_cons_le _ hfirst)
  | cons_cons a _ ih =>
    rw [length_cons, take_succ_cons, map_cons, map_cons, sum_cons, sum_cons]
    exact Nat.add_le_add_left (ih (pairwise_cons.mp hsorted).2) _

end OneBrain.Lib
