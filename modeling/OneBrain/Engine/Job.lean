import OneBrain.Engine.SlotRuns

/-!
# The life of one job

The serve loop, the message channel and the supervisor share a job between them: it is
in the mail, queued, active, at the supervisor, or over. `JobView` is what the system
holds of one job, `JobStep` lists everything that can happen to it, and the modules
after this one show that every step of the system takes every job along such steps.
What a client receives is then decided one job at a time.

Two kinds of step are only taken when `Allow` permits them, so that a statement about
runs can name them: losing a terminal event, and interrupting a generation.
-/

namespace OneBrain.Engine

open OneBrain.Lib

/-- Where a job is. -/
inductive Place
  /-- On its way to the engine thread. -/
  | mailed (sup : SupervisedGenerate)
  | queued (p : PreparedGen)
  /-- In the active set, with what the last decode ran ahead and a stop match not yet applied. -/
  | active (cfg : Cfg) (g : ActiveGen) (ahead : List Token) (hit : Bool)
  | interrupted (gen : InterruptedGen)
  /-- Over: reported `Finished`. -/
  | ended

/-- What the system holds of one job. -/
structure JobView where
  place : Place
  chan : List TokenEvent
  parked : List TokenEvent
  /-- The cells successful decodes computed for it. -/
  decoded : List Cell
  /-- Whether it was freed because its client stalled. -/
  reaped : Prop
  /-- What it had come to when it ended. -/
  ending : Option JobRecord
  /-- The time. -/
  clock : ℕ

/-- What a host holds of a job that is in `place`. -/
def Host.view (h : Host) (j : JobId) (place : Place) : JobView where
  place := place
  chan := h.chans j
  parked := (h.outbox.filter fun p => p.tx = j).map PendingTerminal.event
  decoded := h.decoded j
  reaped := j ∈ h.reaped
  ending := h.ends j
  clock := h.clock

/-- The record a job leaves when it ends where it is. -/
def Place.ending : Place → Option JobRecord
  | .mailed sup => some sup.ending
  | .queued p => some p.ending
  | .active _ g _ _ => some g.ending
  | .interrupted gen => some gen.ending
  | .ended => none

/-- Where the moves of an active generation have left its job. -/
def Focus.place (cfg : Cfg) (f : Focus) : Place :=
  if f.g.done then .ended else .active cfg f.g f.ahead f.hit

/-- The events a job can end with before it is active, or at the supervisor. -/
inductive EndsWith (env : Env) : Place → TokenEvent → Prop
  | refused (sup : SupervisedGenerate) (message : String) : EndsWith env (.mailed sup) (.error message)
  /-- A finish carried from an earlier attempt, or a budget already spent. -/
  | settled (sup : SupervisedGenerate) (cfg : Cfg) (p : PreparedGen) (kind : FinishKind)
      (hp : prepareState env cfg sup.job sup.resume = .ok p) (hkind : settledFinish p = some kind) :
      EndsWith env (.mailed sup) (.done (preparedStats p kind))
  | sampler (p : PreparedGen) (message : String) : EndsWith env (.queued p) (.error message)
  | gaveUp (gen : InterruptedGen) (message : String) : EndsWith env (.interrupted gen) (.error message)

/-- Steps a run may rule out. -/
structure Allow where
  loss : Prop
  interrupt : ActiveGen → Prop
  model : Cfg → Prop

/-- What can happen to a job. -/
inductive JobStep (env : Env) (j : JobId) (allow : Allow) : JobView → JobView → Prop
  /-- Time passes. -/
  | wait (v : JobView) (t : ℕ) (hle : v.clock ≤ t) : JobStep env j allow v { v with clock := t }
  | prepared (v : JobView) (sup : SupervisedGenerate) (cfg : Cfg) (p : PreparedGen)
      (hplace : v.place = .mailed sup) (hp : prepareState env cfg sup.job sup.resume = .ok p)
      (hopen : settledFinish p = none) (hmodel : allow.model cfg) :
      JobStep env j allow v { v with place := .queued p }
  /-- It ends outside the active set and its terminal event is sent. -/
  | endSent (v : JobView) (ev : TokenEvent) (hev : EndsWith env v.place ev) :
      JobStep env j allow v { v with place := .ended, chan := v.chan ++ [ev], ending := v.place.ending }
  | endParked (v : JobView) (p : PreparedGen) (ev : TokenEvent) (hplace : v.place = .queued p)
      (hev : EndsWith env v.place ev) :
      JobStep env j allow v { v with place := .ended, parked := v.parked ++ [ev], ending := v.place.ending }
  /-- Its channel is full and the event is lost. -/
  | endLost (v : JobView) (sup : SupervisedGenerate) (ev : TokenEvent) (hplace : v.place = .mailed sup)
      (hev : EndsWith env v.place ev) (hfull : env.room j v.chan.length v.clock = false) (hloss : allow.loss) :
      JobStep env j allow v { v with place := .ended, ending := v.place.ending }
  /-- Its client is gone before it is active, or while it is at the supervisor. -/
  | gone (v : JobView) (hclosed : env.closed j v.clock = true) :
      JobStep env j allow v { v with place := .ended, ending := v.place.ending }
  | admitted (v : JobView) (cfg : Cfg) (p : PreparedGen) (seq : SeqId) (reused uid : ℕ)
      (hplace : v.place = .queued p) (hmodel : allow.model cfg) :
      JobStep env j allow v { v with place := .active cfg (admitGen p seq reused uid) [] false }
  | decoded (v : JobView) (cfg : Cfg) (g : ActiveGen) (toks : List Token)
      (hplace : v.place = .active cfg g [] false) (hstep : g.steppable = true) :
      JobStep env j allow v
        { v with place := .active cfg g toks false, decoded := v.decoded ++ toks.zipIdx g.kvLen }
  | gen (cfg : Cfg) (drafting : Bool) (f f' : Focus) (hid : f.g.job.id = j) (hlive : f.g.done = false)
      (hok : ∃ h, GenOk cfg h f.g f.ahead) (hstep : GenStep env cfg drafting f f') :
      JobStep env j allow (f.h.view j (.active cfg f.g f.ahead f.hit)) (f'.h.view j (f'.place cfg))
  | interrupted (v : JobView) (cfg : Cfg) (g : ActiveGen) (message : String)
      (hplace : v.place = .active cfg g [] false) (hdist : cfg.distributed = true)
      (hok : ∃ h, GenOk cfg h g []) (hallow : allow.interrupt g)
      (hfail : ∃ t, env.decodeFails t = some message) :
      JobStep env j allow v { v with place := .interrupted (interruptGen g message) }
  | reissued (v : JobView) (gen : InterruptedGen) (hplace : v.place = .interrupted gen) :
      JobStep env j allow v { v with place := .mailed { job := gen.job, resume := some gen.state } }
  | retrySent (v : JobView) (pre post : List TokenEvent) (ev : TokenEvent)
      (hparked : v.parked = pre ++ ev :: post) :
      JobStep env j allow v { v with chan := v.chan ++ [ev], parked := pre ++ post }
  /-- A parked terminal event is dropped with its client. -/
  | retryGone (v : JobView) (pre post : List TokenEvent) (ev : TokenEvent)
      (hparked : v.parked = pre ++ ev :: post) (hclosed : env.closed j v.clock = true) :
      JobStep env j allow v { v with parked := pre ++ post }
  /-- The parked terminal events are dropped with the phase. -/
  | dropped (v : JobView) (hloss : v.parked ≠ [] → allow.loss) :
      JobStep env j allow v { v with parked := [] }

/-- Steps one after another. -/
abbrev JobSteps (env : Env) (j : JobId) (allow : Allow) : JobView → JobView → Prop :=
  Relation.ReflTransGen (JobStep env j allow)

/-- A job as it is submitted. -/
def freshJob (j : JobId) (r : Request) : JobView where
  place := .mailed { job := r.toJob j, resume := none }
  chan := []
  parked := []
  decoded := []
  reaped := False
  ending := none
  clock := 0

variable {env : Env} {cfg : Cfg} {drafting : Bool} {j : JobId} {allow : Allow}

/-- **Rule of jobs.** What holds of a submitted job and is kept by every step holds of
every job. -/
theorem JobSteps.induct {P : JobView → Prop} (step : ∀ v v', P v → JobStep env j allow v v' → P v')
    {v v' : JobView} (hs : JobSteps env j allow v v') (hv : P v) : P v' := by
  induction hs with
  | refl => exact hv
  | tail _ hstep ih => exact step _ _ ih hstep

/-- A step that takes a moment. -/
theorem JobStep.ticked {v v' : JobView} (hs : JobStep env j allow v v') :
    JobSteps env j allow v { v' with clock := v'.clock + 1 } :=
  .head hs (.single (.wait _ _ (Nat.le_succ _)))

/-- Time does not run backwards. -/
theorem JobStep.clock_le {v v' : JobView} (hs : JobStep env j allow v v') : v.clock ≤ v'.clock := by
  cases hs with
  | wait _ t hle => exact hle
  | gen cfg drafting f f' hid hlive hok hstep => exact hstep.frame.host.clock
  | _ => exact le_rfl

/-- **Rule of jobs whose client stays**, up to the moment the job is looked at. -/
theorem JobSteps.induct_open {P : JobView → Prop}
    (step : ∀ v v', env.closed j v.clock = false → P v → JobStep env j allow v v' → P v')
    {v v' : JobView} (hs : JobSteps env j allow v v') (hopen : env.closed j v'.clock = false) (hv : P v) : P v' := by
  induction hs with
  | refl => exact hv
  | tail _ hstep ih =>
    have hopen' : env.closed j _ = false := Bool.eq_false_iff.mpr fun hc =>
      Bool.eq_false_iff.mp hopen (env.closed_mono j _ _ hstep.clock_le hc)
    exact step _ _ hopen' (ih hopen') hstep

/-! ### Views -/

/-- A job that sees nothing of what happened has only waited. -/
theorem view_waits {h h' : Host} (place : Place) (hclock : h.clock ≤ h'.clock) (hchan : h'.chans j = h.chans j)
    (hout : (h'.outbox.filter fun p => p.tx = j) = h.outbox.filter fun p => p.tx = j)
    (hdec : h'.decoded j = h.decoded j) (hreap : j ∈ h'.reaped ↔ j ∈ h.reaped) (hends : h'.ends j = h.ends j) :
    JobSteps env j allow (h.view j place) (h'.view j place) := by
  have hview : h'.view j place = { h.view j place with clock := h'.clock } := by
    simp [Host.view, hchan, hout, hdec, hreap, hends]
  rw [hview]
  exact .single (.wait _ _ hclock)

theorem view_tick (h : Host) (place : Place) : JobSteps env j allow (h.view j place) (h.tick.view j place) :=
  view_waits place (Nat.le_succ _) rfl rfl rfl .rfl rfl

theorem view_accept (h : Host) (ev : TokenEvent) (place : Place) :
    (h.accept j ev).view j place =
      { h.view j place with chan := h.chans j ++ [ev], clock := h.tick.clock } := by
  simp [Host.view, Host.accept, Host.tick]

theorem view_park (h : Host) (ev : TokenEvent) (place : Place) :
    ({ h with outbox := h.outbox ++ [⟨j, ev⟩] } : Host).view j place =
      { h.view j place with parked := (h.view j place).parked ++ [ev] } := by
  simp [Host.view]

theorem view_finish (h : Host) {e : JobRecord} (hj : e.job.id = j) (place : Place) :
    (h.finish e).view j place = { h.view j place with ending := some e } := by
  subst hj
  simp [Host.view, Host.finish, Host.record]

theorem view_finish_other (h : Host) {e : JobRecord} (hj : j ≠ e.job.id) (place : Place) :
    (h.finish e).view j place = h.view j place := by
  simp [Host.view, Host.finish, Host.record, Function.update_of_ne hj]

theorem deliverTerminal_view (h : Host) (ev : TokenEvent) (place : Place) :
    (env.closed j h.clock = true ∧
      (deliverTerminal env h j ev).view j place = { h.view j place with clock := h.tick.clock }) ∨
    (deliverTerminal env h j ev).view j place =
      { h.view j place with parked := (h.view j place).parked ++ [ev], clock := h.tick.clock } ∨
    (deliverTerminal env h j ev).view j place =
      { h.view j place with chan := h.chans j ++ [ev], clock := h.tick.clock } := by
  unfold deliverTerminal
  rcases trySend_cases env h j ev with ⟨hc, hs⟩ | ⟨-, -, hs⟩ | ⟨-, -, hs⟩ <;> rw [hs]
  · exact .inl ⟨hc, rfl⟩
  · exact .inr (.inl (view_park h.tick ev place))
  · exact .inr (.inr (view_accept h ev place))

theorem HostFrame.view_waits {k : JobId} {q : SeqId} {h h' : Host} (hf : HostFrame k q h h') (hj : j ≠ k)
    (place : Place) : JobSteps env j allow (h.view j place) (h'.view j place) :=
  Engine.view_waits place hf.clock (hf.chans j hj) (hf.outbox j hj) (congrFun hf.decoded j) (hf.reaped j hj) (hf.ends j hj)

theorem GenStep.done_view {f f' : Focus} (hs : GenStep env cfg drafting f f') (hdone : f.g.done = true)
    (place : Place) : f'.g.done = true ∧ JobSteps env j allow (f.h.view j place) (f'.h.view j place) := by
  cases hs <;>
    first
      | exact ⟨hdone, .refl⟩
      | exact ⟨hdone, view_tick _ _⟩
      | simp_all

theorem GenSteps.job_steps {f f' : Focus} (hs : GenSteps env cfg drafting f f') (hid : f.g.job.id = j)
    (hlive : f.g.done = false) (hok : GenOk cfg f.h f.g f.ahead) :
    JobSteps env j allow (f.h.view j (.active cfg f.g f.ahead f.hit)) (f'.h.view j (f'.place cfg)) := by
  induction hs with
  | refl => simpa [Focus.place, hlive] using Relation.ReflTransGen.refl
  | @tail f₁ f₂ hsteps hstep ih =>
    cases hdone : f₁.g.done with
    | true =>
      obtain ⟨hdone', hwaits⟩ := @GenStep.done_view env cfg drafting j allow f₁ f₂ hstep hdone .ended
      simp only [Focus.place, hdone, hdone', if_true] at ih ⊢
      exact ih.trans hwaits
    | false =>
      have hgen : JobStep env j allow (f₁.h.view j (.active cfg f₁.g f₁.ahead f₁.hit)) (f₂.h.view j (f₂.place cfg)) :=
        .gen cfg drafting f₁ f₂ (by rw [GenSteps.job_eq hsteps, hid]) hdone
          ⟨_, GenSteps.genOk hsteps hdone hok⟩ hstep
      simp only [Focus.place, hdone, Bool.false_eq_true, if_false] at ih
      exact ih.tail hgen

end OneBrain.Engine
