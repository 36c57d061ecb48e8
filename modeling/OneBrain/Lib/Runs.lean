import Mathlib.Data.List.Induction

/-!
# Machines and their runs

A machine takes one step for each label, or refuses the label in its state. All choices a
scheduler, a network or a user makes are in the labels, so a step is a function and a run
is a list of labels; a statement about every run is a statement about every list.

* `Machine.run` — the state after a list of labels, if none of them is refused.
* `run_induct` — the induction over a run; `run_invariant` is the case without the history.
* `Meets p` — every step of a run meets a condition on the state before it and its label.
  A statement that only holds of such runs is proved by `run_induct_of_meets`; that one run
  is such is computed (`meets_of_checks`).
* `tally` — how many steps of a run meet a test.
-/

namespace OneBrain.Lib

/-- A machine: where it starts, and what a label does to a state that takes it. -/
structure Machine (σ ℓ : Type) where
  start : σ
  next : σ → ℓ → Option σ

namespace Machine

variable {σ ℓ : Type} {M : Machine σ ℓ}

/-- The state after some labels. -/
def runFrom (M : Machine σ ℓ) : σ → List ℓ → Option σ
  | s, [] => some s
  | s, l :: ls => (M.next s l).bind fun t => M.runFrom t ls

/-- The state after some labels, from the start. -/
def run (M : Machine σ ℓ) (ls : List ℓ) : Option σ := M.runFrom M.start ls

theorem runFrom_append (s : σ) (ls ks : List ℓ) :
    M.runFrom s (ls ++ ks) = (M.runFrom s ls).bind fun t => M.runFrom t ks := by
  induction ls generalizing s with
  | nil => rfl
  | cons l ls ih =>
    rw [List.cons_append, runFrom, runFrom, Option.bind_assoc]
    simp only [ih]

variable {ls : List ℓ} {l : ℓ} {t s : σ} {p : σ → ℓ → Prop} {f : σ → ℓ → Bool}

theorem run_snoc : M.run (ls ++ [l]) = some t ↔ ∃ s, M.run ls = some s ∧ M.next s l = some t := by
  unfold run
  rw [runFrom_append, Option.bind_eq_some_iff]
  simp [runFrom]

/-- A condition on every step of a run, on the state before it and its label. -/
def Meets (M : Machine σ ℓ) (p : σ → ℓ → Prop) (ls : List ℓ) : Prop :=
  ∀ ks l, ks ++ [l] <+: ls → ∀ s, M.run ks = some s → p s l

theorem Meets.init (h : M.Meets p (ls ++ [l])) : M.Meets p ls :=
  fun ks k hpre => h ks k (hpre.trans (List.prefix_append ls [l]))

theorem Meets.last (h : M.Meets p (ls ++ [l])) (hrun : M.run ls = some s) : p s l :=
  h ls l List.prefix_rfl s hrun

theorem Meets.nil : M.Meets p [] := fun _ _ hpre => by simp at hpre

theorem Meets.snoc (h : M.Meets p ls) (hlast : ∀ s, M.run ls = some s → p s l) : M.Meets p (ls ++ [l]) := by
  intro ks k hpre s hs
  rcases List.prefix_concat_iff.mp hpre with heq | hold
  · obtain ⟨rfl, hlabel⟩ := List.append_inj' heq rfl
    cases hlabel
    exact hlast s hs
  · exact h ks k hold s hs

/-- Check a condition along a run. -/
def checks (M : Machine σ ℓ) (f : σ → ℓ → Bool) : σ → List ℓ → Bool
  | _, [] => true
  | s, l :: ls => f s l && (M.next s l).all fun t => M.checks f t ls

theorem of_checks {ks : List ℓ} (h : M.checks f s ls = true)
    (hpre : ks ++ [l] <+: ls) (hrun : M.runFrom s ks = some t) : f t l = true := by
  induction ks generalizing s ls with
  | nil =>
    cases hrun
    obtain ⟨rest, rfl⟩ := hpre
    exact (Bool.and_eq_true_iff.mp h).1
  | cons k ks ih =>
    obtain ⟨rest, rfl⟩ := hpre
    obtain ⟨u, hu, hrun⟩ := Option.bind_eq_some_iff.mp hrun
    have hall := (Bool.and_eq_true_iff.mp h).2
    rw [hu] at hall
    exact ih hall ⟨rest, rfl⟩ hrun

theorem meets_of_checks (hp : ∀ ks s l, M.run ks = some s → f s l = true → p s l)
    (h : M.checks f M.start ls = true) : M.Meets p ls :=
  fun ks l hpre s hrun => hp ks s l hrun (of_checks h hpre hrun)

/-- How many steps of a run meet a test. -/
def tally (M : Machine σ ℓ) (f : σ → ℓ → Bool) : σ → List ℓ → ℕ
  | _, [] => 0
  | s, l :: ls => (if f s l then 1 else 0) + (M.next s l).elim 0 fun t => M.tally f t ls

theorem tallyFrom_snoc (h : M.runFrom s ls = some t) :
    M.tally f s (ls ++ [l]) = M.tally f s ls + if f t l then 1 else 0 := by
  induction ls generalizing s with
  | nil =>
    obtain rfl : s = t := Option.some.inj h
    simp only [List.nil_append, tally]
    cases M.next s l <;> simp
  | cons k ks ih =>
    obtain ⟨u, hu, hrun⟩ := Option.bind_eq_some_iff.mp h
    simp only [List.cons_append, tally, hu, Option.elim_some, ih hrun, Nat.add_assoc]

theorem tally_snoc (h : M.run ls = some s) :
    M.tally f M.start (ls ++ [l]) = M.tally f M.start ls + if f s l then 1 else 0 :=
  tallyFrom_snoc h

/-- **The rule of runs**, for runs whose steps all meet a condition. -/
theorem run_induct_of_meets {I : List ℓ → σ → Prop} (hstart : I [] M.start)
    (hstep : ∀ ls s l t, M.run ls = some s → I ls s → p s l → M.next s l = some t → I (ls ++ [l]) t)
    (hmeets : M.Meets p ls) (hrun : M.run ls = some t) : I ls t := by
  induction ls using List.reverseRecOn generalizing t with
  | nil =>
    obtain rfl : M.start = t := Option.some.inj hrun
    exact hstart
  | append_singleton ls l ih =>
    obtain ⟨s, hs, hnext⟩ := run_snoc.mp hrun
    exact hstep ls s l t hs (ih hmeets.init hs) (hmeets.last hs) hnext

/-- **The rule of runs**: what holds at the start and is preserved by every step, with the
labels so far in view, holds after every run. -/
theorem run_induct {I : List ℓ → σ → Prop} (hstart : I [] M.start)
    (hstep : ∀ ls s l t, M.run ls = some s → I ls s → M.next s l = some t → I (ls ++ [l]) t)
    (hrun : M.run ls = some t) : I ls t :=
  run_induct_of_meets (p := fun _ _ => True) hstart
    (fun ls s l t hs hI _ hnext => hstep ls s l t hs hI hnext) (fun _ _ _ _ _ => trivial) hrun

theorem run_invariant {I : σ → Prop} (hstart : I M.start) (hstep : ∀ s l t, I s → M.next s l = some t → I t)
    (hrun : M.run ls = some t) : I t :=
  run_induct (I := fun _ s => I s) hstart (fun _ s l t _ hI hnext => hstep s l t hI hnext) hrun

end Machine

end OneBrain.Lib
