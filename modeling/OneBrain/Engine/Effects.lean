import OneBrain.Engine.JobSys

/-!
# What a client sees of a move

`Effect` sorts the moves of a generation by what they do to its client's channel, its
parked terminal events and its backlog: nothing, one piece sent or parked, the one
terminal event, or silence because the client is gone. Statements about what a client
receives are proved per effect.
-/

namespace OneBrain.Engine

open OneBrain.Lib

variable {env : Env} {cfg : Cfg} {drafting : Bool} {j : JobId} {allow : Allow}

/-- A finish a move ends a generation with, decided now or waiting behind the backlog; a stop match not yet
applied decides its kind. -/
structure GenFinish (env : Env) (f : Focus) (kind : FinishKind) : Prop where
  term : f.g.terminalAfterDrain = none ∧ f.g.pending = none ∨
    f.g.terminalAfterDrain = some (.finish kind) ∧ f.hit = false
  hit : f.hit = true → kind = .stop
  decided : f.g.terminalAfterDrain = none → Decided env f kind

/-- The terminal events a generation can end with. -/
inductive GenEnd (env : Env) (cfg : Cfg) (f : Focus) : TokenEvent → Prop
  | done (kind : FinishKind) (hfin : GenFinish env f kind) : GenEnd env cfg f (.done (doneStats f.g kind))
  | error (message : String) (hcause : Fault env cfg ∨ ∃ m, f.g.terminalAfterDrain = some (.error m)) :
      GenEnd env cfg f (.error message)

/-- What the client of `j` sees of a move. -/
inductive Effect (env : Env) (cfg : Cfg) (j : JobId) (f f' : Focus) : Prop
  | quiet (hdone : f'.g.done = false) (hheld : f'.g.held = f.g.held) (hsent : f'.g.piecesSent = f.g.piecesSent)
      (hview : ∀ p, f'.h.view j p = { f.h.view j p with clock := f'.h.clock })
  | held (piece : Text) (hdone : f'.g.done = false) (hheld : f'.g.held = f.g.held ++ [piece])
      (hsent : f'.g.piecesSent = f.g.piecesSent)
      (hview : ∀ p, f'.h.view j p = { f.h.view j p with clock := f'.h.clock })
  /-- A piece is sent: the oldest held one, or a new one past an empty backlog. -/
  | sent (piece : Text) (hdone : f'.g.done = false)
      (hheld : f.g.held = piece :: f'.g.held ∨ f.g.held = [] ∧ f'.g.held = [])
      (hsent : f'.g.piecesSent = f.g.piecesSent + 1)
      (hview : ∀ p, f'.h.view j p =
        { f.h.view j p with chan := f.h.chans j ++ [.token piece], clock := f'.h.clock })
  | gone (hclosed : env.closed j f.h.clock = true)
      (hview : ∀ p, f'.h.view j p = { f.h.view j p with ending := f'.h.ends j, clock := f'.h.clock })
  /-- The generation ends and its terminal event is sent. -/
  | endSent (ev : TokenEvent) (hev : GenEnd env cfg f ev) (hdone : f'.g.done = true) (hheld : f.g.held = [])
      (hview : ∀ p, f'.h.view j p =
        { f.h.view j p with chan := f.h.chans j ++ [ev], ending := some f.g.ending, clock := f'.h.clock })
  /-- The generation ends and its terminal event is parked. -/
  | endParked (ev : TokenEvent) (hev : GenEnd env cfg f ev) (hdone : f'.g.done = true) (hheld : f.g.held = [])
      (hfull : env.room j (f.h.chans j).length f.h.clock = false) (hview : ∀ p, f'.h.view j p = { f.h.view j p with
        parked := (f.h.view j p).parked ++ [ev], ending := some f.g.ending, clock := f'.h.clock })
  /-- The generation is reaped, and its parked terminal events are dropped. -/
  | reaped (hdone : f'.g.done = true) (hstalled : f.g.stalledSince ≠ none)
      (hview : ∀ p, f'.h.view j p = { f.h.view j p with
        parked := [], reaped := True, ending := some f.g.ending, clock := f'.h.clock })

/-! ### Leaving the active set -/

theorem cancelSeq_view (h : Host) (g : ActiveGen) (place : Place) :
    (cancelSeq h g).1.view g.job.id place = { h.view g.job.id place with ending := some g.ending } := by
  simp [cancelSeq_eq, Host.view]

theorem finishSeq_view (h : Host) (g : ActiveGen) (kind : FinishKind) (retain : Bool) (place : Place) :
    (finishSeq env h g kind retain).1.view g.job.id place =
      { (deliverTerminal env h g.job.id (.done (doneStats g kind))).view g.job.id place with
        ending := some g.ending } := by
  cases retain with
  | false => rw [finishSeq_release, cancelSeq_view]
  | true => simp [finishSeq_retain _ _ _ _ rfl, Host.view]

theorem failSeq_view {h : Host} {g : ActiveGen} {message : String} (hheld : g.held = []) (place : Place) :
    (failSeq env h g message).1.view g.job.id place =
      { (deliverTerminal env h g.job.id (.error message)).view g.job.id place with ending := some g.ending } := by
  rw [failSeq_eq _ _ _ hheld, cancelSeq_view]

/-- Delivering a terminal event is an end of the generation. -/
theorem effect_terminal {f f' : Focus} {ev : TokenEvent} (hid : f.g.job.id = j) (hev : GenEnd env cfg f ev)
    (hdone : f'.g.done = true) (hheld : f.g.held = [])
    (hview : ∀ p, f'.h.view j p =
      { (deliverTerminal env f.h f.g.job.id ev).view j p with ending := some f.g.ending }) :
    Effect env cfg j f f' := by
  rw [hid] at hview
  have hends : f'.h.ends j = some f.g.ending := congrArg JobView.ending (hview .ended)
  have hclock : f'.h.clock = (deliverTerminal env f.h j ev).clock := congrArg JobView.clock (hview .ended)
  unfold deliverTerminal at hview hclock
  rcases trySend_cases env f.h j ev with ⟨hc, hs⟩ | ⟨-, hfull, hs⟩ | ⟨-, -, hs⟩ <;> rw [hs] at hview hclock
  · exact .gone hc fun p => by rw [hview p, hends, hclock]; rfl
  · exact .endParked ev hev hdone hheld hfull fun p => by rw [hview p, hclock, view_park f.h.tick]; rfl
  · exact .endSent ev hev hdone hheld fun p => by rw [hview p, hclock, view_accept]; rfl

theorem effect_piece {f f' : Focus} {g : ActiveGen} {piece : Text}
    (hid : f.g.job.id = j) (hjob : g.job = f.g.job) (hlive : g.done = false) (hheld : g.held = f.g.held)
    (hsent : g.piecesSent = f.g.piecesSent) (hh' : f'.h = (deliverPiece env f.h g piece).1)
    (hdone' : f'.g.done = (deliverPiece env f.h g piece).2.done)
    (hheld' : f'.g.held = (deliverPiece env f.h g piece).2.held)
    (hsent' : f'.g.piecesSent = (deliverPiece env f.h g piece).2.piecesSent) : Effect env cfg j f f' := by
  unfold deliverPiece at hh' hdone' hheld' hsent'
  by_cases hnil : f.g.held = []
  · rw [hheld, if_neg (by simpa using hnil)] at hh' hdone' hheld' hsent'
    rw [hjob, hid] at hh' hdone' hheld' hsent'
    rcases trySend_cases env f.h j (.token piece) with ⟨hc, hs⟩ | ⟨-, -, hs⟩ | ⟨-, -, hs⟩ <;>
      rw [hs] at hh' hdone' hheld' hsent'
    · exact .gone hc fun p => by rw [hh']; rfl
    · exact .held piece (hdone'.trans hlive) hheld' (hsent'.trans hsent) fun p => by rw [hh']; rfl
    · refine .sent piece (hdone'.trans hlive) (.inr ⟨hnil, hheld'.trans (hheld.trans hnil)⟩)
        (hsent'.trans (congrArg (· + 1) hsent)) fun p => ?_
      rw [hh']
      exact view_accept f.h _ p
  · rw [hheld, if_pos hnil] at hh' hdone' hheld' hsent'
    exact .held piece (hdone'.trans hlive) hheld' (hsent'.trans hsent) fun p => by rw [hh']; rfl

theorem effect_stage {f : Focus} {tok : Token} {piece : Text} (hid : f.g.job.id = j) (hlive : f.g.done = false)
    (dist : Bool) : Effect env cfg j f (.of (stagePending env dist f.h f.g tok piece) [] false) := by
  unfold stagePending
  cases dist with
  | true => exact .quiet hlive rfl rfl fun p => rfl
  | false =>
    simp only [Bool.false_eq_true, if_false]
    obtain ⟨scan, admitted⟩ := f.g.scan.admitPiece piece
    cases admitted with
    | false => exact .quiet hlive rfl rfl fun p => rfl
    | true => exact @effect_piece env cfg j f _ { f.g with scan := scan } piece hid rfl hlive rfl rfl rfl rfl rfl rfl

/-- **What a client sees of a move.** -/
theorem GenStep.effect {f f' : Focus} (hs : GenStep env cfg drafting f f') (hid : f.g.job.id = j)
    (hlive : f.g.done = false) : Effect env cfg j f f' := by
  cases hs with
  | heldSent piece rest hdone hheld =>
    exact .sent piece hlive (.inl hheld) rfl fun p => by rw [hid]; exact view_accept f.h _ p
  | heldDropped piece rest hheld hclosed => exact .gone (hid ▸ hclosed) fun p => rfl
  | finish kind retain hdone hheld hahead hterm hhit hretain hdecided =>
    subst hid
    refine effect_terminal rfl (.done kind ⟨hterm, hhit, hdecided⟩) (finishSeq_done _ _ _ _) hheld fun p => ?_
    exact finishSeq_view f.h { f.g with terminalAfterDrain := none } kind retain p
  | fail g message hdone hg hend hheld hheld' _ hcause =>
    subst hid
    refine effect_terminal rfl (.error message hcause) (failSeq_done _ _ _ hheld') hheld fun p => ?_
    have hview := @failSeq_view env f.h g message hheld' p
    rw [hg.job, hend] at hview
    exact hview
  | cancel g hdone hg hclosed =>
    subst hid
    refine .gone hclosed fun p => ?_
    simp [Focus.of, cancelSeq_eq, Host.view]
  | reap _ hstalled =>
    subst hid
    exact .reaped rfl hstalled fun p => by simp [Focus.of, cancelSeq_eq, Host.view]
  | feed tok piece rest scan =>
    exact @effect_piece env cfg j f _ { f.g.confirm tok with scan := scan } piece hid rfl hlive rfl rfl rfl rfl rfl rfl
  | stage =>
    exact effect_stage hid hlive cfg.distributed
  | tick | draft | note | deferError | trimFailed | deferFinish | confirm | reject | prefill | rollback =>
    exact .quiet hlive rfl rfl fun p => rfl

end OneBrain.Engine
