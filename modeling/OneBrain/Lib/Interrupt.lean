import Mathlib.Data.List.Basic

/-!
# Programs that may be stopped between any two actions

A program acts on a state, one action after the other, and may fail. What the outside decides
at an action (the answer of a server, say) is read from a list of choices, one for each
action; when the list is used up, the program is **stopped** there. A crash, a dropped
connection that never comes back and a program that is still running are all this: a
statement about every list of choices is one about a program that is stopped at any point.

* `act` — one action, and so one place to be stopped at. `bind` runs on.
* `Triple` — a triple with a crash condition, with one rule for each way to build a program.
* `Ends` — the program ends, whatever the choices are, if there are enough of them.
-/

namespace OneBrain.Lib

/-- How a program ended. -/
inductive Halt (σ χ ε α : Type) where
  | stopped (s : σ)
  /-- It returned or failed; these choices were not used. -/
  | ended (result : Except ε α) (s : σ) (rest : List χ)

/-- The state it left. -/
def Halt.state {σ χ ε α : Type} : Halt σ χ ε α → σ
  | .stopped s => s
  | .ended _ s _ => s

/-- It came to its end. -/
def Halt.returned {σ χ ε α : Type} : Halt σ χ ε α → Bool
  | .ended (.ok _) _ _ => true
  | _ => false

theorem Halt.of_returned {σ χ ε α : Type} {e : Halt σ χ ε α} (h : e.returned = true) :
    ∃ a s rest, e = .ended (.ok a) s rest := by
  cases e with
  | stopped => cases h
  | ended result s rest =>
    cases result with
    | error => cases h
    | ok a => exact ⟨a, s, rest, rfl⟩

/-- A program on a state, with choices. -/
def Program (σ χ ε α : Type) : Type := σ → List χ → Halt σ χ ε α

namespace Program

variable {σ χ ε α β : Type}

/-- Run a program and go on with what it returned. -/
def bind (m : Program σ χ ε α) (f : α → Program σ χ ε β) : Program σ χ ε β := fun s os =>
  match m s os with
  | .stopped t => .stopped t
  | .ended (.ok a) t rest => f a t rest
  | .ended (.error e) t rest => .ended (.error e) t rest

instance : Monad (Program σ χ ε) where
  pure a := fun s os => .ended (.ok a) s os
  bind := bind

/-- End with an error. -/
def fail (e : ε) : Program σ χ ε α := fun s os => .ended (.error e) s os

/-- One action: it uses one choice. -/
def act (f : σ → χ → α × σ) : Program σ χ ε α := fun s os =>
  match os with
  | [] => .stopped s
  | o :: rest => .ended (.ok (f s o).1) (f s o).2 rest

/-! ## Triples -/

/-- From a state with `P`, the program returns with `Q`; and wherever it is stopped or fails,
`I` holds. -/
def Triple (I P : σ → Prop) (m : Program σ χ ε α) (Q : α → σ → Prop) : Prop :=
  ∀ s os, P s →
    match m s os with
    | .stopped t => I t
    | .ended (.ok a) t _ => Q a t
    | .ended (.error _) t _ => I t

variable {I I' P P' : σ → Prop} {m : Program σ χ ε α} {f : α → Program σ χ ε β}
  {Q Q' : α → σ → Prop} {R : β → σ → Prop}

theorem Triple.mono (h : Triple I P m Q) (hP : ∀ s, P' s → P s) (hQ : ∀ a s, Q a s → Q' a s)
    (hI : ∀ s, I s → I' s) : Triple I' P' m Q' := by
  intro s os hs
  have hm := h s os (hP s hs)
  split <;> rename_i hend <;> simp only [hend] at hm
  · exact hI _ hm
  · exact hQ _ _ hm
  · exact hI _ hm

theorem triple_pure {a : α} (h : ∀ s, P s → Q a s) :
    Triple I P (pure a : Program σ χ ε α) Q := fun s _ hs => h s hs

theorem triple_fail {e : ε} (h : ∀ s, P s → I s) : Triple I P (fail e : Program σ χ ε α) Q :=
  fun s _ hs => h s hs

theorem triple_act {g : σ → χ → α × σ} (hI : ∀ s, P s → I s)
    (h : ∀ s o, P s → Q (g s o).1 (g s o).2) : Triple I P (act g : Program σ χ ε α) Q := by
  intro s os hs
  cases os with
  | nil => exact hI s hs
  | cons o => exact h s o hs

theorem triple_bind (hm : Triple I P m Q) (hf : ∀ a, Triple I (Q a) (f a) R) : Triple I P (m >>= f) R := by
  intro s os hs
  have hend := hm s os hs
  show match Program.bind m f s os with
    | .stopped t => I t
    | .ended (.ok a) t _ => R a t
    | .ended (.error _) t _ => I t
  unfold Program.bind
  cases hres : m s os with
  | stopped => simpa only [hres] using hend
  | ended result t rest =>
    cases result with
    | error => simpa only [hres] using hend
    | ok a =>
      simp only [hres] at hend
      exact hf a t rest hend

theorem Triple.of_ended (h : Triple I P m Q) {s t : σ} {os rest : List χ} {a : α} (hs : P s)
    (hend : m s os = .ended (.ok a) t rest) : Q a t := by
  have hm := h s os hs
  simpa only [hend] using hm

/-- Whether it returns, fails or is stopped, a program that keeps `I` leaves it. -/
theorem Triple.keeps (h : Triple I P m Q) (hQ : ∀ a s, Q a s → I s) {s : σ} (hs : P s)
    (os : List χ) : I (m s os).state := by
  have hm := h s os hs
  cases hres : m s os with
  | stopped =>
    simp only [hres] at hm
    exact hm
  | ended result t =>
    cases result with
    | error =>
      simp only [hres] at hm
      exact hm
    | ok a =>
      simp only [hres] at hm
      exact hQ a t hm

/-! ## Endings that do not depend on the choices -/

/-- With enough choices, all of them of the kind `O`, the program ends with this result in
this state. -/
def Ends (O : χ → Prop) (m : Program σ χ ε α) (s : σ) (result : Except ε α) (t : σ) : Prop :=
  ∃ n, ∀ os : List χ, (∀ o ∈ os, O o) → n ≤ os.length →
    ∃ rest, rest <:+ os ∧ os.length ≤ rest.length + n ∧ m s os = .ended result t rest

variable {O : χ → Prop} {s t u : σ} {result : Except ε β}

theorem ends_pure (a : α) : Ends O (pure a : Program σ χ ε α) s (.ok a) s :=
  ⟨0, fun os _ _ => ⟨os, List.suffix_rfl, Nat.le_add_right _ _, rfl⟩⟩

theorem ends_act {g : σ → χ → α × σ} {a : α} (h : ∀ o, O o → g s o = (a, t)) :
    Ends O (act g : Program σ χ ε α) s (.ok a) t := by
  refine ⟨1, fun os hO hlen => ?_⟩
  cases os with
  | nil => cases hlen
  | cons o rest =>
    refine ⟨rest, List.suffix_cons o rest, by simp, ?_⟩
    show Halt.ended (.ok (g s o).1) (g s o).2 rest = _
    rw [h o (hO o List.mem_cons_self)]

theorem Ends.bind {a : α} (hm : Ends O m s (.ok a) t) (hf : Ends O (f a) t result u) :
    Ends O (m >>= f) s result u := by
  obtain ⟨n, hn⟩ := hm
  obtain ⟨k, hk⟩ := hf
  refine ⟨n + k, fun os hO hlen => ?_⟩
  obtain ⟨mid, hmid, hmidlen, hrun⟩ := hn os hO (by omega)
  obtain ⟨rest, hrest, hrestlen, hrun'⟩ := hk mid (fun o ho => hO o (hmid.subset ho)) (by omega)
  refine ⟨rest, hrest.trans hmid, by omega, ?_⟩
  show Program.bind m f s os = _
  simp only [Program.bind, hrun, hrun']

end Program

end OneBrain.Lib
