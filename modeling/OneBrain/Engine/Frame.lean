import OneBrain.Engine.Turn

/-!
# What a move leaves alone

A move of one generation touches its own channel, its own sequence's cache and
nothing else of the kind (`HostFrame`); it never changes whose slot, admission or
job it is; and either the generation stays in the active set with the slot lists
untouched, or it leaves it with its slot freed, its outcome reported and its cache
released or retained (`Exit`).
-/

namespace OneBrain.Engine

open OneBrain.Lib

variable {env : Env} {cfg : Cfg} {drafting : Bool}

/-- What a block leaves alone that serves one job in one slot. -/
structure HostFrame (j : JobId) (s : SeqId) (h h' : Host) : Prop where
  clock : h.clock ≤ h'.clock
  chans : ∀ k, k ≠ j → h'.chans k = h.chans k
  kv : ∀ q, q ≠ s → h'.kv q = h.kv q
  outbox : ∀ k, k ≠ j → (h'.outbox.filter fun p => p.tx = k) = h.outbox.filter fun p => p.tx = k
  interrupted : h'.interrupted = h.interrupted
  decoded : h'.decoded = h.decoded
  reaped : ∀ k, k ≠ j → (k ∈ h'.reaped ↔ k ∈ h.reaped)
  ends : ∀ k, k ≠ j → h'.ends k = h.ends k

theorem HostFrame.refl (j : JobId) (s : SeqId) (h : Host) : HostFrame j s h h :=
  ⟨le_rfl, fun _ _ => rfl, fun _ _ => rfl, fun _ _ => rfl, rfl, rfl, fun _ _ => .rfl, fun _ _ => rfl⟩

theorem HostFrame.trans {j : JobId} {s : SeqId} {h h' h'' : Host} (a : HostFrame j s h h')
    (b : HostFrame j s h' h'') : HostFrame j s h h'' where
  clock := a.clock.trans b.clock
  chans k hk := (b.chans k hk).trans (a.chans k hk)
  kv q hq := (b.kv q hq).trans (a.kv q hq)
  outbox k hk := (b.outbox k hk).trans (a.outbox k hk)
  interrupted := b.interrupted.trans a.interrupted
  decoded := b.decoded.trans a.decoded
  reaped k hk := (b.reaped k hk).trans (a.reaped k hk)
  ends k hk := (b.ends k hk).trans (a.ends k hk)

theorem HostFrame.tick (j : JobId) (s : SeqId) (h : Host) : HostFrame j s h h.tick :=
  ⟨Nat.le_succ _, fun _ _ => rfl, fun _ _ => rfl, fun _ _ => rfl, rfl, rfl, fun _ _ => .rfl, fun _ _ => rfl⟩

theorem HostFrame.accept (j : JobId) (s : SeqId) (h : Host) (ev : TokenEvent) :
    HostFrame j s h (h.accept j ev) :=
  ⟨Nat.le_succ _, fun _ hk => Function.update_of_ne hk _ _, fun _ _ => rfl, fun _ _ => rfl, rfl, rfl,
    fun _ _ => .rfl, fun _ _ => rfl⟩

theorem HostFrame.clearSeq (j : JobId) (s : SeqId) (h : Host) : HostFrame j s h (h.clearSeq s) :=
  ⟨le_rfl, fun _ _ => rfl, fun _ hq => Function.update_of_ne hq _ _, fun _ _ => rfl, rfl, rfl,
    fun _ _ => .rfl, fun _ _ => rfl⟩

theorem HostFrame.park (j : JobId) (s : SeqId) (h : Host) (ev : TokenEvent) :
    HostFrame j s h { h with outbox := h.outbox ++ [{ tx := j, event := ev }] } where
  clock := le_rfl
  chans _ _ := rfl
  kv _ _ := rfl
  outbox k hk := by simp [List.filter_append, Ne.symm hk]
  interrupted := rfl
  decoded := rfl
  reaped _ _ := .rfl
  ends _ _ := rfl

/-- The slot and outcome lists of a host are outside every frame. -/
theorem HostFrame.lists (j : JobId) (s : SeqId) (h : Host) (free : List SeqId)
    (retained : List RetainedSlot) (finished : List JobId) (e : Option JobRecord) : HostFrame j s h { h with
      free := free, retained := retained, finished := finished, ends := Function.update h.ends j e } :=
  ⟨le_rfl, fun _ _ => rfl, fun _ _ => rfl, fun _ _ => rfl, rfl, rfl, fun _ _ => .rfl,
    fun _ hk => Function.update_of_ne hk _ _⟩

/-! ### The operations -/

/-- Something was sent: only the clock, the channels and the parked terminals differ. -/
def Sends (h h' : Host) : Prop :=
  ∃ clock chans outbox, h' = { h with clock := clock, chans := chans, outbox := outbox }

variable (h : Host)

theorem Sends.refl : Sends h h := ⟨_, _, _, rfl⟩

theorem Sends.trans {h h' h'' : Host} : Sends h h' → Sends h' h'' → Sends h h'' := by
  rintro ⟨_, _, _, rfl⟩ ⟨_, _, _, rfl⟩
  exact ⟨_, _, _, rfl⟩

theorem Sends.lists {h h' : Host} : Sends h h' →
    h'.free = h.free ∧ h'.retained = h.retained ∧ h'.finished = h.finished ∧ h'.kv = h.kv := by
  rintro ⟨_, _, _, rfl⟩
  exact ⟨rfl, rfl, rfl, rfl⟩

theorem trySend_sends (j : JobId) (ev : TokenEvent) : Sends h (trySend env h j ev).1 := by
  rcases trySend_cases env h j ev with ⟨-, hs⟩ | ⟨-, -, hs⟩ | ⟨-, -, hs⟩ <;> rw [hs] <;> exact ⟨_, _, _, rfl⟩

theorem deliverTerminal_sends (j : JobId) (ev : TokenEvent) :
    Sends h (deliverTerminal env h j ev) := by
  unfold deliverTerminal
  rcases trySend_cases env h j ev with ⟨-, hs⟩ | ⟨-, -, hs⟩ | ⟨-, -, hs⟩ <;> rw [hs] <;> exact ⟨_, _, _, rfl⟩

theorem retryOutbox_sends (l : List PendingTerminal) : Sends h (retryOutbox env h l).1 := by
  induction l generalizing h with
  | nil => exact .refl h
  | cons p rest ih =>
    have hsend := @trySend_sends env h p.tx p.event
    simp only [retryOutbox]
    split <;> (rename_i heq; rw [heq] at hsend; exact hsend.trans (ih _))

theorem deliverPiece_sends (g : ActiveGen) (piece : Text) :
    Sends h (deliverPiece env h g piece).1 := by
  unfold deliverPiece
  split
  · exact .refl h
  · rcases trySend_cases env h g.job.id (.token piece) with ⟨-, hs⟩ | ⟨-, -, hs⟩ | ⟨-, -, hs⟩ <;>
      rw [hs] <;> exact ⟨_, _, _, rfl⟩

variable (distributed : Bool)

theorem stagePending_sends (h : Host) (g : ActiveGen) (tok : Token) (piece : Text) :
    Sends h (stagePending env distributed h g tok piece).1 := by
  cases distributed with
  | true => exact .refl h
  | false =>
    simp only [stagePending, Bool.false_eq_true, if_false]
    split
    · exact deliverPiece_sends h _ piece
    · exact .refl h

theorem deliverTerminal_frame (j : JobId) (s : SeqId) (ev : TokenEvent) :
    HostFrame j s h (deliverTerminal env h j ev) := by
  unfold deliverTerminal
  rcases trySend_cases env h j ev with ⟨-, hs⟩ | ⟨-, -, hs⟩ | ⟨-, -, hs⟩
  · rw [hs]
    exact .tick j s h
  · rw [hs]
    exact (HostFrame.tick j s h).trans (.park j s h.tick ev)
  · rw [hs]
    exact .accept j s h ev

theorem deliverPiece_frame (g : ActiveGen) (s : SeqId) (piece : Text) :
    HostFrame g.job.id s h (deliverPiece env h g piece).1 := by
  unfold deliverPiece
  split
  · exact .refl _ _ _
  · rcases trySend_cases env h g.job.id (.token piece) with ⟨-, hs⟩ | ⟨-, -, hs⟩ | ⟨-, -, hs⟩
    · rw [hs]
      exact .tick _ s h
    · rw [hs]
      exact .tick _ s h
    · rw [hs]
      exact .accept _ s h _

/-- Staging touches the scanner, the pending mark and what delivery touches. -/
theorem stagePending_eq (h : Host) (g : ActiveGen) (tok : Token) (piece : Text) :
    ∃ scan pending held piecesSent stalledSince,
      (stagePending env distributed h g tok piece).2 = { g with
        scan := scan, pending := some pending, held := held, piecesSent := piecesSent
        stalledSince := stalledSince } := by
  cases distributed with
  | true => exact ⟨_, _, _, _, _, rfl⟩
  | false =>
    simp only [stagePending, Bool.false_eq_true, if_false]
    split
    · rw [deliverPiece_eq]
      exact ⟨_, _, _, _, _, rfl⟩
    · exact ⟨_, _, _, _, _, rfl⟩

theorem stagePending_frame (h : Host) (g : ActiveGen) (s : SeqId) (tok : Token)
    (piece : Text) : HostFrame g.job.id s h (stagePending env distributed h g tok piece).1 := by
  cases distributed with
  | true => exact .refl _ _ _
  | false =>
    simp only [stagePending, Bool.false_eq_true, if_false]
    split
    · exact deliverPiece_frame h { g with scan := (g.scan.admitPiece piece).1 } s piece
    · exact .refl _ _ _

/-! ### Leaving the active set -/

/-- How a move ends: the generation stays, or it leaves the active set with its slot
freed and its outcome reported, its cache released or retained. -/
inductive Exit (f f' : Focus) : Prop
  | stays (done : f'.g.done = f.g.done) (outcome : f'.g.outcome = f.g.outcome)
      (promptTokens : f'.g.promptTokens = f.g.promptTokens)
      (priorGenerated : f'.g.priorGenerated = f.g.priorGenerated)
      (prefixToks : f'.g.prefixToks = f.g.prefixToks) (budget : f'.g.budget = f.g.budget)
      (free : f'.h.free = f.h.free) (retained : f'.h.retained = f.h.retained)
      (finished : f'.h.finished = f.h.finished)
  /-- It leaves and its cache is released. -/
  | released (live : f.g.done = false) (done : f'.g.done = true)
      (free : f'.h.free = f.h.free ++ [f.g.seq]) (retained : f'.h.retained = f.h.retained)
      (finished : f'.h.finished = f.h.finished ++ if f.g.outcome then [f.g.job.id] else [])
  /-- It leaves and its cache is retained. -/
  | kept (live : f.g.done = false) (done : f'.g.done = true) (ahead : f.ahead = [])
      (prefilled : f.g.prefilled = true)
      (term : f.g.terminalAfterDrain = none ∨ ∃ kind, f.g.terminalAfterDrain = some (.finish kind))
      (free : f'.h.free = f.h.free ++ [f.g.seq])
      (retained : f'.h.retained = f.h.retained ++ [{ seq := f.g.seq, history := f.g.stream }])
      (kv : f'.h.kv = f.h.kv)
      (finished : f'.h.finished = f.h.finished ++ if f.g.outcome then [f.g.job.id] else [])

theorem reportFinished_eq (g : ActiveGen) :
    reportFinished h g = ({ h.record g.ending with finished := h.finished ++ if g.outcome then [g.job.id] else [] },
      { g with outcome := false }) := by
  unfold reportFinished
  cases hout : g.outcome with
  | false =>
    have hg : { g with outcome := false } = g := by
      cases g
      simp_all
    simp [hg, Host.record]
  | true => simp [Host.record]

theorem cancelSeq_eq (g : ActiveGen) :
    cancelSeq h g = ({ h with
        kv := Function.update h.kv g.seq []
        free := h.free ++ [g.seq]
        finished := h.finished ++ if g.outcome then [g.job.id] else []
        ends := Function.update h.ends g.job.id (some g.ending) },
      { g with outcome := false, done := true }) := by
  simp [cancelSeq, reportFinished_eq, releaseSeq, Host.clearSeq, Host.record, ActiveGen.ending]

theorem failSeq_eq (g : ActiveGen) (message : String) (hheld : g.held = []) :
    failSeq env h g message = cancelSeq (deliverTerminal env h g.job.id (.error message)) g := by
  simp [failSeq, hheld, cancelSeq]

@[simp] theorem failSeq_done (g : ActiveGen) (message : String) (hheld : g.held = []) :
    (failSeq env h g message).2.done = true := by
  rw [failSeq_eq h g message hheld, cancelSeq_eq]

@[simp] theorem finishSeq_done (g : ActiveGen) (kind : FinishKind) (retain : Bool) :
    (finishSeq env h g kind retain).2.done = true := by
  simp only [finishSeq]
  split <;> rfl

theorem finishSeq_release (g : ActiveGen) (kind : FinishKind) : finishSeq env h g kind false =
      cancelSeq (deliverTerminal env h g.job.id (.done (doneStats g kind))) g := by
  simp [finishSeq, cancelSeq]

theorem finishSeq_retain (h h' : Host) (g : ActiveGen) (kind : FinishKind)
    (hh : h' = deliverTerminal env h g.job.id (.done (doneStats g kind))) :
    finishSeq env h g kind true = ({ h' with
          retained := h'.retained ++ [{ seq := g.seq, history := g.stream }]
          free := h'.free ++ [g.seq]
          finished := h'.finished ++ if g.outcome then [g.job.id] else []
          ends := Function.update h'.ends g.job.id (some g.ending) },
        { g with outcome := false, prefixToks := [], done := true }) := by
  simp [finishSeq, reportFinished_eq, ActiveGen.stream, hh, Host.record, ActiveGen.ending]

theorem cancelSeq_frame (g : ActiveGen) : HostFrame g.job.id g.seq h (cancelSeq h g).1 := by
  rw [cancelSeq_eq]
  exact (HostFrame.clearSeq _ g.seq h).trans (.lists _ _ (h.clearSeq g.seq) _ _ _ _)

/-- What the frame of a move says. -/
structure Framed (f f' : Focus) : Prop where
  host : HostFrame f.g.job.id f.g.seq f.h f'.h
  seq : f'.g.seq = f.g.seq
  uid : f'.g.uid = f.g.uid
  job : f'.g.job = f.g.job
  /-- A generation that has left touches no cache. -/
  kv_done : f.g.done = true → f'.h.kv = f.h.kv
  exit : Exit f f'

theorem framed_cancel {f : Focus} {h' : Host} {g : ActiveGen} (hdone : f.g.done = false)
    (hg : SameOwner f.g g) (hframe : HostFrame f.g.job.id f.g.seq f.h h')
    (hfree : h'.free = f.h.free) (hretained : h'.retained = f.h.retained)
    (hfinished : h'.finished = f.h.finished) : Framed f (.of (cancelSeq h' g) [] false) := by
  have hcancel : HostFrame f.g.job.id f.g.seq h' (cancelSeq h' g).1 := by
    rw [← hg.job, ← hg.seq]
    exact cancelSeq_frame h' g
  refine ⟨hframe.trans hcancel, ?_, ?_, ?_, by simp [hdone], .released hdone ?_ ?_ ?_ ?_⟩ <;>
    simp [Focus.of, cancelSeq_eq, hg.seq, hg.uid, hg.job, hg.outcome, hfree, hretained, hfinished]

/-- A move that stays, changing only its own channel and cache. -/
theorem framed_stays {f f' : Focus} (hframe : HostFrame f.g.job.id f.g.seq f.h f'.h)
    (hg : SameOwner f.g f'.g) (hdone : f'.g.done = f.g.done) (hprompt : f'.g.promptTokens = f.g.promptTokens)
    (hprior : f'.g.priorGenerated = f.g.priorGenerated) (hpref : f'.g.prefixToks = f.g.prefixToks)
    (hbudget : f'.g.budget = f.g.budget)
    (hlists : f'.h.free = f.h.free ∧ f'.h.retained = f.h.retained ∧ f'.h.finished = f.h.finished)
    (hkv : f.g.done = true → f'.h.kv = f.h.kv) : Framed f f' :=
  ⟨hframe, hg.seq, hg.uid, hg.job, hkv,
    .stays hdone hg.outcome hprompt hprior hpref hbudget hlists.1 hlists.2.1 hlists.2.2⟩

/-- **Frame of a move.** -/
theorem GenStep.frame {f f' : Focus} (hs : GenStep env cfg drafting f f') : Framed f f' := by
  cases hs with
  | tick => exact framed_stays (.tick _ _ _) (.refl _) rfl rfl rfl rfl rfl ⟨rfl, rfl, rfl⟩ fun _ => rfl
  | draft =>
    exact framed_stays ⟨le_rfl, fun _ _ => rfl, fun _ _ => rfl, fun _ _ => rfl, rfl, rfl, fun _ _ => .rfl, fun _ _ => rfl⟩
      (.refl _) rfl rfl rfl rfl rfl ⟨rfl, rfl, rfl⟩ fun _ => rfl
  | heldSent => exact framed_stays (.accept _ _ _ _) ⟨rfl, rfl, rfl, rfl⟩ rfl rfl rfl rfl rfl ⟨rfl, rfl, rfl⟩ fun _ => rfl
  | finish kind retain hdone hheld hahead hterm hhit hretain =>
    have hframe : HostFrame f.g.job.id f.g.seq f.h
        (deliverTerminal env f.h f.g.job.id (.done (doneStats { f.g with terminalAfterDrain := none } kind))) :=
      deliverTerminal_frame _ _ _ _
    obtain ⟨hfree, hretained, hfinished, hkv⟩ := (@deliverTerminal_sends env f.h f.g.job.id
      (.done (doneStats { f.g with terminalAfterDrain := none } kind))).lists
    cases retain with
    | false =>
      rw [finishSeq_release]
      exact framed_cancel hdone ⟨rfl, rfl, rfl, rfl⟩ hframe hfree hretained hfinished
    | true =>
      rw [finishSeq_retain _ _ _ _ rfl]
      refine ⟨hframe.trans (.lists _ _ _ _ _ _ _), rfl, rfl, rfl, by simp [hdone],
        .kept hdone rfl hahead (hretain rfl) ?_ ?_ ?_ hkv ?_⟩
      · exact hterm.imp (fun h => h.1) fun h => ⟨kind, h.1⟩
      · simp [Focus.of, hfree]
      · simp [Focus.of, hretained, ActiveGen.stream]
      · simp [Focus.of, hfinished]
  | fail g message hdone hg hend hheld hheld' =>
    obtain ⟨hfree, hretained, hfinished, -⟩ :=
      (@deliverTerminal_sends env f.h g.job.id (.error message)).lists
    rw [failSeq_eq f.h g message hheld']
    refine framed_cancel hdone hg ?_ hfree hretained hfinished
    rw [hg.job]
    exact deliverTerminal_frame _ _ _ _
  | cancel g hdone hg => exact framed_cancel hdone hg (.refl _ _ _) rfl rfl rfl
  | reap hdone =>
    have hc : Framed f (.of (cancelSeq f.h f.g) [] false) :=
      framed_cancel hdone (.refl _) (.refl _ _ _) rfl rfl rfl
    obtain ⟨hframe, hseq, huid, hjob, -, hexit⟩ := hc
    refine ⟨?_, hseq, huid, hjob, by simp [hdone], .released hdone ?_ ?_ ?_ ?_⟩
    · refine hframe.trans ⟨le_rfl, fun _ _ => rfl, fun _ _ => rfl, ?_, rfl, rfl, ?_, fun _ _ => rfl⟩
      · intro k hk
        simp only [Focus.of, List.filter_filter]
        refine List.filter_congr fun p _ => ?_
        by_cases hp : p.tx = k <;> simp [hp, hk]
      · intro k hk
        simp [Focus.of, hk]
    all_goals simp [Focus.of, cancelSeq_eq]
  | feed tok piece rest scan =>
    obtain ⟨hfree, hretained, hfinished, hkv⟩ :=
      (@deliverPiece_sends env f.h { f.g.confirm tok with scan := scan } piece).lists
    have heq := @deliverPiece_eq env f.h { f.g.confirm tok with scan := scan } piece
    refine framed_stays ?_ ?_ ?_ ?_ ?_ ?_ ?_ ⟨hfree, hretained, hfinished⟩ fun _ => hkv
    · exact deliverPiece_frame f.h { f.g.confirm tok with scan := scan } f.g.seq piece
    · constructor <;> (simp only [Focus.of]; rw [heq]; rfl)
    all_goals (simp only [Focus.of]; rw [heq]; rfl)
  | stage tok piece =>
    obtain ⟨hfree, hretained, hfinished, hkv⟩ :=
      (@stagePending_sends env cfg.distributed f.h f.g tok piece).lists
    obtain ⟨_, _, _, _, _, heq⟩ := @stagePending_eq env cfg.distributed f.h f.g tok piece
    refine framed_stays ?_ ?_ ?_ ?_ ?_ ?_ ?_ ⟨hfree, hretained, hfinished⟩ fun _ => hkv
    · exact stagePending_frame cfg.distributed f.h f.g f.g.seq tok piece
    · constructor <;> simp [Focus.of, heq]
    all_goals simp [Focus.of, heq]
  | rollback n hdone =>
    refine framed_stays ⟨Nat.le_succ _, fun _ _ => rfl, ?_, fun _ _ => rfl, rfl, rfl, fun _ _ => .rfl, fun _ _ => rfl⟩
      (.refl _) rfl rfl rfl rfl rfl ⟨rfl, rfl, rfl⟩ (by simp [hdone])
    exact fun q hq => Function.update_of_ne hq _ _
  | _ => exact framed_stays (.refl _ _ _) ⟨rfl, rfl, rfl, rfl⟩ rfl rfl rfl rfl rfl ⟨rfl, rfl, rfl⟩ fun _ => rfl

end OneBrain.Engine
