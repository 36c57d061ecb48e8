import OneBrain.Engine.Frame

/-!
# Turns over the active set

A block of the loop takes the active generations through their turns one after
another. `Turn` is one generation's turn inside the list; `Turns.induct` is the rule
by which an invariant of the whole list follows from what the moves of one
generation keep, and the lemmas below it say that the sweeps of the loop are
turns.
-/

namespace OneBrain.Engine

/-- The active set between two turns: `ahead` is what the last decode put in each
sequence's cache beyond what its stream accounts for. -/
structure Mid where
  h : Host
  active : List ActiveGen
  ahead : SeqId → List Token

/-- Nothing is ahead: no decode is being processed. -/
def noAhead : SeqId → List Token := fun _ => []

@[simp] theorem update_noAhead (s : SeqId) : Function.update noAhead s [] = noAhead :=
  Function.update_eq_self s noAhead

/-- The turn of one live generation. -/
inductive Turn (env : Env) (cfg : Cfg) (drafting : Bool) : Mid → Mid → Prop
  /-- The generation between `pre` and `post` makes its moves. -/
  | mk (pre : List ActiveGen) (g : ActiveGen) (post : List ActiveGen) (h : Host)
      (ahead : SeqId → List Token) (f : Focus) (hdone : g.done = false)
      (hsteps : GenSteps env cfg drafting ⟨h, g, ahead g.seq, false⟩ f) (hhit : f.hit = false) :
      Turn env cfg drafting ⟨h, pre ++ g :: post, ahead⟩
        ⟨f.h, pre ++ f.g :: post, Function.update ahead g.seq f.ahead⟩

/-- Turns one after another. -/
abbrev Turns (env : Env) (cfg : Cfg) (drafting : Bool) : Mid → Mid → Prop := Relation.ReflTransGen (Turn env cfg drafting)

variable {env : Env} {cfg : Cfg} {drafting : Bool}

theorem GenSteps.seq_eq {f f' : Focus} (hs : GenSteps env cfg drafting f f') : f'.g.seq = f.g.seq := by
  induction hs with
  | refl => rfl
  | tail _ hstep ih => exact hstep.frame.seq.trans ih

theorem GenSteps.job_eq {f f' : Focus} (hs : GenSteps env cfg drafting f f') : f'.g.job = f.g.job := by
  induction hs with
  | refl => rfl
  | tail _ hstep ih => exact hstep.frame.job.trans ih

theorem GenSteps.induct {P : Focus → Prop} (step : ∀ f f', P f → GenStep env cfg drafting f f' → P f')
    {f f' : Focus} (hs : GenSteps env cfg drafting f f') (hf : P f) : P f' := by
  induction hs with
  | refl => exact hf
  | tail _ hstep ih => exact step _ _ ih hstep

/-- **Rule of turns.** An invariant of the active set is kept by turns when it can be
split into a statement about the generation in focus and its surroundings that every
move keeps. -/
theorem Turns.induct {I : Mid → Prop} {J : List ActiveGen → List ActiveGen → (SeqId → List Token) → Focus → Prop}
    (enter : ∀ pre g post h ahead, g.done = false → I ⟨h, pre ++ g :: post, ahead⟩ →
      J pre post ahead ⟨h, g, ahead g.seq, false⟩)
    (step : ∀ pre post ahead f f', J pre post ahead f → GenStep env cfg drafting f f' → J pre post ahead f')
    (leave : ∀ pre post ahead f, J pre post ahead f → f.hit = false →
      I ⟨f.h, pre ++ f.g :: post, Function.update ahead f.g.seq f.ahead⟩)
    {m m' : Mid} (hs : Turns env cfg drafting m m') (hm : I m) : I m' := by
  induction hs with
  | refl => exact hm
  | tail _ hturn ih =>
    cases hturn with
    | mk pre g post h ahead f hdone hsteps hhit =>
      have hj : J pre post ahead f :=
        GenSteps.induct (step pre post ahead) hsteps (enter pre g post h ahead hdone ih)
      have hleave := leave pre post ahead f hj hhit
      rwa [hsteps.seq_eq] at hleave

theorem sweepActive_turns {F : Host → ActiveGen → Host × ActiveGen}
    (hF : ∀ h g, g.done = false → GenSteps env cfg drafting ⟨h, g, [], false⟩ (.of (F h g) [] false))
    (l pre : List ActiveGen) (h : Host) (hl : ∀ g ∈ l, g.done = false) :
    Turns env cfg drafting ⟨h, pre ++ l, noAhead⟩
      ⟨(sweepActive F h l).1, pre ++ (sweepActive F h l).2, noAhead⟩ := by
  induction l generalizing pre h with
  | nil => exact .refl
  | cons g rest ih =>
    have hturn : Turn env cfg drafting ⟨h, pre ++ g :: rest, noAhead⟩ _ :=
      .mk pre g rest h noAhead _ (hl g (by simp)) (hF h g (hl g (by simp))) rfl
    have hrest := ih (pre ++ [(F h g).2]) (F h g).1 fun g' hg' => hl g' (by simp [hg'])
    simp only [Focus.of, update_noAhead] at hturn
    simp only [List.append_assoc, List.cons_append, List.nil_append] at hrest
    exact .head hturn hrest

theorem turn_set {active : List ActiveGen} {i : ℕ} {g : ActiveGen} (hi : active[i]? = some g)
    (h : Host) (ahead : SeqId → List Token) (f : Focus) (hdone : g.done = false)
    (hsteps : GenSteps env cfg drafting ⟨h, g, ahead g.seq, false⟩ f) (hhit : f.hit = false) :
    Turn env cfg drafting ⟨h, active, ahead⟩ ⟨f.h, active.set i f.g, Function.update ahead g.seq f.ahead⟩ := by
  obtain ⟨hlt, hget⟩ := List.getElem?_eq_some_iff.mp hi
  have hsplit : active = active.take i ++ g :: active.drop (i + 1) := by
    rw [← hget, List.getElem_cons_drop, List.take_append_drop]
  have hset : active.set i f.g = active.take i ++ f.g :: active.drop (i + 1) :=
    List.set_eq_take_append_cons_drop.trans (if_pos hlt)
  rw [hset]
  conv_lhs => rw [hsplit]
  exact .mk (active.take i) g (active.drop (i + 1)) h ahead f hdone hsteps hhit

end OneBrain.Engine
