import Mathlib.Data.List.Basic

/-!
# Computations that can fail

Rules for taking apart computations in `Except`: a sequence succeeds exactly when its parts
do (`bind_eq_ok_iff`), a loop whose turns all succeed collects their results (`mapM_of_ok`),
and what every turn of a loop keeps holds after the loop (`foldlM_invariant`), which
succeeds when every turn from a state of the loop does (`foldlM_succeeds`).
-/

namespace OneBrain.Lib

open List

variable {α : Type*} {ε β γ σ : Type}

theorem bind_eq_ok_iff {x : Except ε β} {f : β → Except ε γ} {c : γ} :
    (x >>= f) = .ok c ↔ ∃ b, x = .ok b ∧ f b = .ok c := by
  cases x with
  | error =>
    constructor
    · intro h
      cases h
    · rintro ⟨a, ha, -⟩
      cases ha
  | ok a =>
    constructor
    · intro h
      exact ⟨a, rfl, h⟩
    · rintro ⟨a, ha, hf⟩
      cases ha
      exact hf

variable {l : List α} {step : σ → α → Except ε σ} {s : σ}

theorem mapM_of_ok {f : α → Except ε β} {g : α → β} (h : ∀ a ∈ l, f a = .ok (g a)) :
    l.mapM f = .ok (l.map g) := by
  induction l with
  | nil => rfl
  | cons a l ih =>
    rw [forall_mem_cons] at h
    rw [mapM_cons, h.1, ih h.2]
    rfl

/-- What holds before a loop and is kept by each of its turns holds after it. The invariant
may speak of the items gone through. -/
theorem foldlM_invariant {P : List α → σ → Prop} {s' : σ} (hstart : P [] s)
    (hturn : ∀ done a todo s s', done ++ a :: todo = l → P done s → step s a = .ok s' → P (done ++ [a]) s')
    (h : l.foldlM step s = .ok s') : P l s' := by
  suffices hloop : ∀ (done todo : List α) (s : σ), done ++ todo = l → P done s → todo.foldlM step s = .ok s' →
      P l s' from hloop [] l s rfl hstart h
  intro done todo
  induction todo generalizing done with
  | nil =>
    intro s hl hs h
    rw [append_nil] at hl
    cases h
    exact hl ▸ hs
  | cons a todo ih =>
    intro s hl hs h
    rw [foldlM_cons] at h
    obtain ⟨u, hu, h⟩ := bind_eq_ok_iff.mp h
    exact ih (done ++ [a]) u (by rw [append_assoc, singleton_append, hl]) (hturn done a todo s u hl hs hu) h

/-- A loop succeeds when every turn does that starts in a state the loop can be in. -/
theorem foldlM_succeeds {P : σ → Prop} (hstart : P s)
    (hturn : ∀ a ∈ l, ∀ s, P s → ∃ s', step s a = .ok s' ∧ P s') : ∃ s', l.foldlM step s = .ok s' := by
  induction l generalizing s with
  | nil => exact ⟨s, rfl⟩
  | cons a l ih =>
    rw [forall_mem_cons] at hturn
    obtain ⟨u, hu, hP⟩ := hturn.1 s hstart
    obtain ⟨s', hs'⟩ := ih hP hturn.2
    refine ⟨s', ?_⟩
    rw [foldlM_cons]
    exact bind_eq_ok_iff.mpr ⟨u, hu, hs'⟩

end OneBrain.Lib
