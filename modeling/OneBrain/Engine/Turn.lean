import Mathlib.Logic.Relation
import OneBrain.Engine.Loop

/-!
# What a generation can do

Everything the loop does to one generation, cut into the smallest moves at which
its bookkeeping is consistent. `GenStep` lists the moves; the rest of the module
shows that each function of the loop that works on a generation is a chain of
them. Invariants are then proved for the moves, once each, and hold for the loop.

## The model

A `Focus` is the host and one generation, together with two facts that only exist
between a decode and the end of its bookkeeping: `ahead`, the tokens the decode
put in the generation's cache that its stream does not account for yet, and
`hit`, that the last confirmed token completed a stop string and the finish it
decides has not been applied yet.
-/

namespace OneBrain.Engine

open OneBrain.Lib

/-- One generation in the middle of its turn. -/
structure Focus where
  h : Host
  g : ActiveGen
  /-- Cached tokens its stream does not account for yet. -/
  ahead : List Token
  /-- The last confirmed token completed a stop string. -/
  hit : Bool

/-- The focus a pair of host and generation stands for. -/
def Focus.of (r : Host × ActiveGen) (ahead : List Token) (hit : Bool) : Focus :=
  { h := r.1, g := r.2, ahead := ahead, hit := hit }

/-- A token sampled from the target's logits after a stream. -/
def Chosen (env : Env) (stream : List Token) (tok : Token) : Prop :=
  ∃ t, tok = env.sample t (layout stream)

/-- A token a round may confirm after a stream: a draft the target chose too and that
does not end the draft's own generation, with its piece. -/
structure AcceptedDraft (env : Env) (cfg : Cfg) (stream : List Token) (tok : Token) (piece : Text) : Prop where
  hasDraft : cfg.hasDraft = true
  piece : env.tokenToPiece tok = .ok piece
  chosen : Chosen env stream tok
  eog : env.draftIsEog tok = false

/-- Drafts a round may confirm one after the other. -/
def Accepted (env : Env) (cfg : Cfg) : List Token → List (Token × Text) → Prop
  | _, [] => True
  | stream, (tok, piece) :: rest =>
    AcceptedDraft env cfg stream tok piece ∧ Accepted env cfg (stream ++ [tok]) rest

/-- Where a token being confirmed comes from: it is the unsent pending one, or an
accepted draft. -/
def FeedSource (env : Env) (cfg : Cfg) (g : ActiveGen) (tok : Token) (piece : Text) : Prop :=
  g.pending = some (.unsent tok piece) ∨
    (g.pending = none ∧ AcceptedDraft env cfg g.stream tok piece)

/-- Why a generation finishes: a stop match, a spent budget, or an end-of-generation
token chosen by the target while budget is left. -/
def Decided (env : Env) (f : Focus) (kind : FinishKind) : Prop :=
  f.hit = true ∨ kind = .length ∧ f.g.remaining = 0 ∨
    kind = .stop ∧ 0 < f.g.remaining ∧ ∃ tok, Chosen env f.g.stream tok ∧ env.isEog tok = true

/-- Why a generation fails: the environment failed a call, or the batch is smaller than
the slots. -/
inductive Fault (env : Env) (cfg : Cfg) : Prop
  | render (tok : Token) (e : String) (h : env.tokenToPiece tok = .error e)
  | removal (t : ℕ) (e : String) (h : env.seqRmFails t = some e)
  | decode (t : ℕ) (e : String) (h : env.decodeFails t = some e)
  /-- A pending token found the batch full. -/
  | full (h : cfg.nBatch < cfg.nSeqMax)

/-- Same slot, admission, job and outcome: all that leaving the active set reads. -/
structure SameOwner (g g' : ActiveGen) : Prop where
  seq : g'.seq = g.seq
  uid : g'.uid = g.uid
  job : g'.job = g.job
  outcome : g'.outcome = g.outcome

theorem SameOwner.refl (g : ActiveGen) : SameOwner g g := ⟨rfl, rfl, rfl, rfl⟩

/-- The moves of a generation. Only a speculative round (`drafting`) touches the draft
session. -/
inductive GenStep (env : Env) (cfg : Cfg) (drafting : Bool) : Focus → Focus → Prop
  | tick (f : Focus) : GenStep env cfg drafting f { f with h := f.h.tick }
  | draft (f : Focus) (draftKv : List Cell) (synced : Option (ℕ × ℕ)) (hdraft : drafting = true) :
      GenStep env cfg drafting f { f with h := { f.h with draftKv := draftKv, synced := synced } }
  /-- The stall clock, the draft counters or the suspicion mark change. -/
  | note (f : Focus) (stalled : Option ℕ) (drafted accepted : ℕ) (suspect : Bool)
      (hfull : stalled = f.g.stalledSince ∨ ∃ n t, env.room f.g.job.id n t = false) :
      GenStep env cfg drafting f
        { f with
          g := { f.g with
            stalledSince := stalled, drafted := drafted, accepted := accepted
            kvSuspect := f.g.kvSuspect || suspect } }
  | heldSent (f : Focus) (piece : Text) (rest : List Text) (hdone : f.g.done = false)
      (hheld : f.g.held = piece :: rest) (hopen : env.closed f.g.job.id f.h.clock = false) :
      GenStep env cfg drafting f
        { f with h := f.h.accept f.g.job.id (.token piece), g := { f.g.noteSent with held := rest } }
  /-- The oldest held piece is lost with its client. -/
  | heldDropped (f : Focus) (piece : Text) (rest : List Text) (hheld : f.g.held = piece :: rest)
      (hclosed : env.closed f.g.job.id f.h.clock = true) :
      GenStep env cfg drafting f { f with g := { f.g with held := rest } }
  /-- A finish, decided now or behind the backlog that just drained. -/
  | finish (f : Focus) (kind : FinishKind) (retain : Bool) (hdone : f.g.done = false)
      (hheld : f.g.held = []) (hahead : f.ahead = [])
      (hterm : f.g.terminalAfterDrain = none ∧ f.g.pending = none ∨
        f.g.terminalAfterDrain = some (.finish kind) ∧ f.hit = false)
      (hhit : f.hit = true → kind = .stop)
      (hretain : retain = true → f.g.prefilled = true)
      (hdecided : f.g.terminalAfterDrain = none → Decided env f kind) :
      GenStep env cfg drafting f
        (.of (finishSeq env f.h { f.g with terminalAfterDrain := none } kind retain) [] false)
  | fail (f : Focus) (g : ActiveGen) (message : String) (hdone : f.g.done = false)
      (hg : SameOwner f.g g) (hend : g.ending = f.g.ending) (hheld : f.g.held = []) (hheld' : g.held = [])
      (hhit : f.hit = true → ∃ e, message = trimError e)
      (hcause : Fault env cfg ∨ ∃ m, f.g.terminalAfterDrain = some (.error m)) :
      GenStep env cfg drafting f (.of (failSeq env f.h g message) [] false)
  | deferError (f : Focus) (message : String) (hheld : f.g.held ≠ []) (hahead : f.ahead = [])
      (hterm : f.g.terminalAfterDrain = none) (hhit : f.hit = false) (hcause : Fault env cfg) :
      GenStep env cfg drafting f { f with g := { f.g with terminalAfterDrain := some (.error message) } }
  /-- Tokens past a stop match could not be trimmed while pieces are held. -/
  | trimFailed (f : Focus) (e : String) (hheld : f.g.held ≠ []) (hprefilled : f.g.prefilled = true)
      (hterm : f.g.terminalAfterDrain = none) (hhit : f.hit = true) (hcause : Fault env cfg) :
      GenStep env cfg drafting f
        { f with
          g := { f.g with
            kvLen := f.g.kvLen + f.ahead.length
            terminalAfterDrain := some (.error (trimError e)) }
          ahead := []
          hit := false }
  | deferFinish (f : Focus) (kind : FinishKind) (hheld : f.g.held ≠ []) (hahead : f.ahead = [])
      (hterm : f.g.terminalAfterDrain = none) (hpending : f.g.pending = none)
      (hhit : f.hit = true → kind = .stop) (hdecided : Decided env f kind) :
      GenStep env cfg drafting f
        { f with g := { f.g with terminalAfterDrain := some (.finish kind) }, hit := false }
  | cancel (f : Focus) (g : ActiveGen) (hdone : f.g.done = false) (hg : SameOwner f.g g)
      (hclosed : env.closed f.g.job.id f.h.clock = true) :
      GenStep env cfg drafting f (.of (cancelSeq f.h g) [] false)
  /-- The client stalled through a pending model swap. -/
  | reap (f : Focus) (hdone : f.g.done = false) (hstalled : f.g.stalledSince ≠ none) :
      GenStep env cfg drafting f
        (.of ({ (cancelSeq f.h f.g).1 with
                outbox := (cancelSeq f.h f.g).1.outbox.filter fun p => p.tx ≠ f.g.job.id
                reaped := (cancelSeq f.h f.g).1.reaped ++ [f.g.job.id] },
              (cancelSeq f.h f.g).2) [] false)
  /-- The decode of a token already scanned at sample time succeeded. -/
  | confirm (f : Focus) (tok : Token) (admitted : Bool) (rest : List Token)
      (hahead : f.ahead = tok :: rest) (hpending : f.g.pending = some (.sent tok admitted))
      (hterm : f.g.terminalAfterDrain = none) (hhit : f.hit = false) :
      GenStep env cfg drafting f { f with g := f.g.confirm tok, ahead := rest, hit := !admitted }
  /-- The decode of an unscanned token succeeded and its piece is delivered. -/
  | feed (f : Focus) (tok : Token) (piece : Text) (rest : List Token) (scan : StopScan)
      (hdone : f.g.done = false) (hahead : f.ahead = tok :: rest)
      (hsource : FeedSource env cfg f.g tok piece) (hprefilled : f.g.prefilled = true)
      (hscan : f.g.scan.admitPiece piece = (scan, true))
      (hterm : f.g.terminalAfterDrain = none) (hhit : f.hit = false) :
      GenStep env cfg drafting f
        (.of (deliverPiece env f.h { f.g.confirm tok with scan := scan } piece) rest false)
  /-- The decode of an unscanned token succeeded and its piece completes a stop string. -/
  | reject (f : Focus) (tok : Token) (piece : Text) (rest : List Token) (scan : StopScan)
      (hahead : f.ahead = tok :: rest) (hsource : FeedSource env cfg f.g tok piece)
      (hprefilled : f.g.prefilled = true) (hscan : f.g.scan.admitPiece piece = (scan, false))
      (hterm : f.g.terminalAfterDrain = none) (hhit : f.hit = false) :
      GenStep env cfg drafting f
        { f with g := { f.g.confirm tok with scan := scan }, ahead := rest, hit := true }
  /-- A sampled token becomes the pending one. -/
  | stage (f : Focus) (tok : Token) (piece : Text) (hdone : f.g.done = false)
      (hahead : f.ahead = []) (hpending : f.g.pending = none)
      (hterm : f.g.terminalAfterDrain = none) (hhit : f.hit = false)
      (heog : env.isEog tok = false) (hpiece : env.tokenToPiece tok = .ok piece)
      (hremaining : 0 < f.g.remaining) (hprefilled : f.g.prefilled = true)
      (hchosen : Chosen env f.g.stream tok) :
      GenStep env cfg drafting f (.of (stagePending env cfg.distributed f.h f.g tok piece) [] false)
  | prefill (f : Focus) (n : ℕ) (hahead : f.ahead = (f.g.prefixToks.drop f.g.prefillDone).take n)
      (hprefilled : f.g.prefilled = false) (hterm : f.g.terminalAfterDrain = none) :
      GenStep env cfg drafting f
        { f with g := f.g.notePrefill f.ahead.length, ahead := [] }
  /-- Cached tokens beyond the stream are removed. -/
  | rollback (f : Focus) (n : ℕ) (hdone : f.g.done = false) (hkeep : 0 < n ∨ f.hit = true) :
      GenStep env cfg drafting f
        { f with
          h := { f.h.tick with
            kv := Function.update f.h.kv f.g.seq (trim (f.h.kv f.g.seq) (f.g.kvLen + n)) }
          ahead := f.ahead.take n }

/-- A chain of moves. -/
abbrev GenSteps (env : Env) (cfg : Cfg) (drafting : Bool) : Focus → Focus → Prop :=
  Relation.ReflTransGen (GenStep env cfg drafting)

section chains

variable {env : Env} {cfg : Cfg} {drafting : Bool}

theorem Env.closed_tick {j : JobId} {h : Host} (hc : env.closed j h.clock = true) :
    env.closed j h.tick.clock = true :=
  env.closed_mono j _ _ (Nat.le_succ _) hc

/-- A generation that samples next: live and through its prompt, with nothing pending and no end deferred. -/
structure ActiveGen.Ready (g : ActiveGen) : Prop where
  live : g.done = false
  term : g.terminalAfterDrain = none
  pending : g.pending = none
  prefilled : g.prefilled = true

variable {h : Host} {g : ActiveGen}

theorem GenStep.finishNow {hit : Bool} {kind : FinishKind} {retain : Bool} (hg : g.Ready) (hheld : g.held = [])
    (hhit : hit = true → kind = .stop) (hdecided : Decided env ⟨h, g, [], hit⟩ kind) :
    GenStep env cfg drafting ⟨h, g, [], hit⟩ (.of (finishSeq env h g kind retain) [] false) := by
  have hsame : { g with terminalAfterDrain := none } = g := by
    rw [← hg.term]
  have hstep : GenStep env cfg drafting ⟨h, g, [], hit⟩ _ :=
    .finish ⟨h, g, [], hit⟩ kind retain hg.live hheld rfl (.inl ⟨hg.term, hg.pending⟩) hhit (fun _ => hg.prefilled)
      fun _ => hdecided
  rwa [hsame] at hstep

/-! ### Steps 2 and 4 -/

theorem drainHeld_steps (ps : List Text) (h : Host) (g : ActiveGen) (hdone : g.done = false)
    (a : List Token) (hit : Bool) :
    GenSteps env cfg drafting ⟨h, { g with held := ps }, a, hit⟩ (.of (drainHeld env ps h g) a hit) := by
  induction ps generalizing h g with
  | nil => exact .refl
  | cons p ps ih =>
    rcases trySend_cases env h g.job.id (.token p) with ⟨hc, hs⟩ | ⟨hc, hfull, hs⟩ | ⟨hc, -, hs⟩
    · simp only [drainHeld, hs]
      exact .tail (.single (.heldDropped _ p ps rfl hc)) (.tick _)
    · simp only [drainHeld, hs]
      refine .tail (.single (.tick _)) ?_
      have := @GenStep.note env cfg drafting ⟨h.tick, { g with held := p :: ps }, a, hit⟩
        (some (g.stalledSince.getD (env.now h.tick.clock))) g.drafted g.accepted false (.inr ⟨_, _, hfull⟩)
      simpa [Focus.of, ActiveGen.noteStall] using this
    · simp only [drainHeld, hs]
      exact .head (.heldSent _ p ps hdone rfl hc) (ih _ g.noteSent hdone)

theorem drainHeld_done (ps : List Text) (h : Host) (g : ActiveGen) :
    (drainHeld env ps h g).2.done = g.done := by
  induction ps generalizing h g with
  | nil => rfl
  | cons p ps ih =>
    rcases trySend_cases env h g.job.id (.token p) with ⟨-, hs⟩ | ⟨-, -, hs⟩ | ⟨-, -, hs⟩
    · simp [drainHeld, hs]
    · simp [drainHeld, hs, ActiveGen.noteStall]
    · simpa [drainHeld, hs, ActiveGen.noteSent] using ih _ g.noteSent

theorem failSeq_steps (h : Host) (g : ActiveGen) (message : String) (hdone : g.done = false) (hcause : Fault env cfg) :
    GenSteps env cfg drafting ⟨h, g, [], false⟩ (.of (failSeq env h g message) [] false) := by
  by_cases hheld : g.held = []
  · exact .single (.fail ⟨h, g, [], false⟩ g message hdone (.refl g) rfl hheld hheld (by simp) (.inl hcause))
  · by_cases hterm : g.terminalAfterDrain = none
    · have : failSeq env h g message = (h, { g with terminalAfterDrain := some (.error message) }) := by
        simp [failSeq, hheld, hterm]
      rw [this]
      exact .single (.deferError ⟨h, g, [], false⟩ message hheld rfl hterm rfl hcause)
    · have : failSeq env h g message = (h, g) := by
        simp [failSeq, hheld, hterm]
      rw [this]
      exact .refl

theorem retryHeld_steps (h : Host) (g : ActiveGen) (hdone : g.done = false) :
    GenSteps env cfg drafting ⟨h, g, [], false⟩ (.of (retryHeld env cfg h g) [] false) := by
  have hdrain : GenSteps env cfg drafting ⟨h, g, [], false⟩ _ := drainHeld_steps g.held h g hdone [] false
  have hdone' : (drainHeld env g.held h g).2.done = g.done := drainHeld_done g.held h g
  refine .trans hdrain ?_
  unfold retryHeld
  generalize drainHeld env g.held h g = r at hdone' ⊢
  obtain ⟨h', g'⟩ := r
  simp only at hdone' ⊢
  split
  case isFalse => exact .refl
  case isTrue hcond =>
    split
    case h_1 kind hterm =>
      refine .single (.finish ⟨h', g', [], false⟩ kind _ hcond.2 hcond.1 rfl (.inr ⟨hterm, rfl⟩)
        (by simp) ?_ (by simp [hterm]))
      intro hretain
      simp only [Bool.and_eq_true, Bool.not_eq_true'] at hretain
      exact hretain.1.2
    case h_2 message hterm =>
      exact .single (.fail ⟨h', g', [], false⟩ { g' with terminalAfterDrain := none } message hcond.2
        ⟨rfl, rfl, rfl, rfl⟩ rfl hcond.1 hcond.1 (by simp) (.inr ⟨message, hterm⟩))
    case h_3 => exact .refl

theorem dropClosed_steps (h : Host) (g : ActiveGen) :
    GenSteps env cfg drafting ⟨h, g, [], false⟩ (.of (dropClosed env h g) [] false) := by
  unfold dropClosed
  split
  · exact .refl
  · rename_i hdone
    split
    · rename_i hc
      exact .tail (.single (.tick _))
        (.cancel ⟨h.tick, g, [], false⟩ g (by simpa using hdone) (.refl g) (Env.closed_tick hc))
    · exact .single (.tick _)

theorem reapStalled_steps (h : Host) (g : ActiveGen) :
    GenSteps env cfg drafting ⟨h, g, [], false⟩ (.of (reapStalled env h g) [] false) := by
  unfold reapStalled
  split
  · rename_i since hsince
    split
    · rename_i hcond
      exact .tail (.single (.tick _)) (.reap ⟨h.tick, g, [], false⟩ hcond.1 (by simp [hsince]))
    · exact .single (.tick _)
  · exact .refl

/-! ### Steps 9 and 10 -/

theorem finishOrDefer_steps {hit : Bool} {kind : FinishKind} {retain : Bool} (hg : g.Ready)
    (hhit : hit = true → kind = .stop) (hdecided : Decided env ⟨h, g, [], hit⟩ kind) :
    GenSteps env cfg drafting ⟨h, g, [], hit⟩ (.of (finishOrDefer env h g kind retain) [] false) := by
  unfold finishOrDefer
  split
  · exact .single (.finishNow hg ‹_› hhit hdecided)
  · exact .single (.deferFinish ⟨h, g, [], hit⟩ kind ‹_› rfl hg.term hg.pending hhit hdecided)

theorem takeSample_steps {next : Token} (hg : g.Ready) (hremaining : 0 < g.remaining)
    (hchosen : Chosen env g.stream next) :
    GenSteps env cfg drafting ⟨h, g, [], false⟩ (.of (takeSample env cfg h g next) [] false) := by
  unfold takeSample
  split
  case isTrue heog => exact finishOrDefer_steps hg (by simp) (.inr (.inr ⟨rfl, hremaining, next, hchosen, heog⟩))
  case isFalse heog =>
    split
    case h_1 piece hpiece =>
      exact .single (.stage ⟨h, g, [], false⟩ next piece hg.live rfl hg.pending hg.term rfl (by simpa using heog)
        hpiece hremaining hg.prefilled hchosen)
    case h_2 e hpiece => exact failSeq_steps h g e hg.live (.render _ e hpiece)

theorem continueDecode_steps {context : List Cell} (hg : g.Ready) (hctx : context = layout g.stream) :
    GenSteps env cfg drafting ⟨h, g, [], false⟩ (.of (continueDecode env cfg h g context) [] false) := by
  unfold continueDecode
  split
  case isTrue hzero => exact finishOrDefer_steps hg (by simp) (.inr (.inl ⟨rfl, hzero⟩))
  case isFalse hremaining =>
    exact .head (.tick _) (takeSample_steps hg (Nat.pos_of_ne_zero hremaining) ⟨h.clock, congrArg _ hctx⟩)

/-- The turn of a stepped generation after a successful plain decode. -/
theorem postDecode_steps (h : Host) (g : ActiveGen) (context : List Cell) (p : PendingTok)
    (hdone : g.done = false) (hsteppable : g.steppable = true) (hprefilled : g.prefilled = true)
    (hpending : g.pending = some p) (hctx : context = layout (g.stream ++ [p.tok])) :
    GenSteps env cfg drafting ⟨h, g, [p.tok], false⟩ (.of (postDecode env cfg h g context) [] false) := by
  obtain ⟨hheld, hterm⟩ := ActiveGen.steppable_iff.mp hsteppable
  -- confirming the pending token extends the stream by it
  have hstream : g.stream ++ [p.tok] = (g.confirm p.tok).stream := by
    simp [ActiveGen.stream, ActiveGen.confirm]
  rw [hstream] at hctx
  unfold postDecode
  rw [hpending]
  match p with
  | .sent tok false =>
    refine .tail (.single (.confirm ⟨h, g, [tok], false⟩ tok false [] rfl hpending hterm rfl)) ?_
    exact .finishNow ⟨hdone, hterm, rfl, hprefilled⟩ hheld (fun _ => rfl) (.inl rfl)
  | .sent tok true =>
    refine .head (.confirm ⟨h, g, [tok], false⟩ tok true [] rfl hpending hterm rfl) ?_
    exact continueDecode_steps ⟨hdone, hterm, rfl, hprefilled⟩ hctx
  | .unsent tok piece =>
    have hsource : FeedSource env cfg g tok piece := .inl hpending
    obtain ⟨scan, admitted, hscan⟩ : ∃ scan admitted, g.scan.admitPiece piece = (scan, admitted) := ⟨_, _, rfl⟩
    simp only [hscan]
    cases admitted with
    | false =>
      refine .tail (.single (.reject ⟨h, g, [tok], false⟩ tok piece [] scan rfl hsource hprefilled hscan hterm rfl)) ?_
      exact .finishNow ⟨hdone, hterm, rfl, hprefilled⟩ hheld (fun _ => rfl) (.inl rfl)
    | true =>
      have hfeed : GenStep env cfg drafting ⟨h, g, [tok], false⟩ _ :=
        .feed ⟨h, g, [tok], false⟩ tok piece [] scan hdone rfl hsource hprefilled hscan hterm rfl
      have hheld' : (g.confirm tok).held = [] := hheld
      have hjob : (g.confirm tok).job = g.job := rfl
      simp only [if_true, hjob]
      rcases trySend_cases env h g.job.id (.token piece) with ⟨hc, hs⟩ | ⟨-, -, hs⟩ | ⟨-, -, hs⟩
      · simp only [hs]
        exact .tail (.single (.tick _)) (.cancel ⟨h.tick, g, [tok], false⟩ _ hdone ⟨rfl, rfl, rfl, rfl⟩
          (Env.closed_tick hc))
      · simp only [deliverPiece, hheld', ne_eq, not_true_eq_false, if_false, hjob, hs] at hfeed ⊢
        exact .head hfeed (continueDecode_steps ⟨hdone, hterm, rfl, hprefilled⟩ hctx)
      · simp only [deliverPiece, hheld', ne_eq, not_true_eq_false, if_false, hjob, hs] at hfeed ⊢
        exact .head hfeed (continueDecode_steps ⟨hdone, hterm, rfl, hprefilled⟩ hctx)

theorem firstSample_eq (hheld : g.held = []) (tok : Token) :
    firstSample env cfg h g tok = takeSample env cfg h g tok := by
  rw [firstSample, takeSample, finishOrDefer, if_pos hheld]

theorem postPrefill_steps (h : Host) (g : ActiveGen) (n : ℕ) (context : List Cell)
    (hdone : g.done = false) (hsteppable : g.steppable = true) (hprefilled : g.prefilled = false)
    (hpending : g.pending = none) (hremaining : 0 < g.remaining)
    (hctx : (g.notePrefill (prefillChunk g n).length).prefilled = true →
      context = layout (g.notePrefill (prefillChunk g n).length).stream) :
    GenSteps env cfg drafting ⟨h, g, prefillChunk g n, false⟩
      (.of (postPrefill env cfg h g (prefillChunk g n).length context) [] false) := by
  obtain ⟨hheld, hterm⟩ := ActiveGen.steppable_iff.mp hsteppable
  refine .head (.prefill ⟨h, g, prefillChunk g n, false⟩ n rfl hprefilled hterm) ?_
  rw [postPrefill, if_neg (by simp [hdone])]
  simp only [sampleIth]
  split
  case isFalse => exact .refl
  case isTrue hfull =>
    have hpre : (g.notePrefill (prefillChunk g n).length).prefilled = true := by
      simp [ActiveGen.prefilled, hfull]
    rw [firstSample_eq (g := g.notePrefill _) hheld]
    exact .head (.tick _) (takeSample_steps ⟨hdone, hterm, hpending, hpre⟩ hremaining
      ⟨h.clock, congrArg _ (hctx hpre)⟩)

/-! ### Step 11 -/

variable (env) in
theorem acceptWalk_cons (logits : ℕ → List Cell) (draft : Token) (index : ℕ) (l : List (Token × ℕ))
    (h : Host) (acc : List (Token × Text)) : (env.sample h.clock (logits index) ≠ draft ∧
      acceptWalk env logits ((draft, index) :: l) h acc =
        (h.tick, ⟨acc, some (env.sample h.clock (logits index)), none⟩)) ∨
    (env.sample h.clock (logits index) = draft ∧ ∃ piece, env.tokenToPiece draft = .ok piece ∧
      acceptWalk env logits ((draft, index) :: l) h acc =
        acceptWalk env logits l h.tick (acc ++ [(draft, piece)])) ∨
    (env.sample h.clock (logits index) = draft ∧ ∃ e, env.tokenToPiece draft = .error e ∧
      acceptWalk env logits ((draft, index) :: l) h acc = (h.tick, ⟨acc, none, some e⟩)) := by
  by_cases heq : env.sample h.clock (logits index) = draft
  · right
    cases hpiece : env.tokenToPiece draft with
    | ok piece => exact .inl ⟨heq, piece, rfl, by simp [acceptWalk, sampleIth, heq, hpiece]⟩
    | error e => exact .inr ⟨heq, e, rfl, by simp [acceptWalk, sampleIth, heq, hpiece]⟩
  · exact .inl ⟨heq, by simp [acceptWalk, sampleIth, heq]⟩

theorem acceptWalk_steps (logits : ℕ → List Cell) (l : List (Token × ℕ)) (h : Host)
    (acc : List (Token × Text)) (g : ActiveGen) (a : List Token) (hit : Bool) :
    GenSteps env cfg drafting ⟨h, g, a, hit⟩ ⟨(acceptWalk env logits l h acc).1, g, a, hit⟩ := by
  induction l generalizing h acc with
  | nil => exact .refl
  | cons d l ih =>
    obtain ⟨draft, index⟩ := d
    rcases acceptWalk_cons env logits draft index l h acc with
      ⟨-, hw⟩ | ⟨-, piece, -, hw⟩ | ⟨-, e, -, hw⟩
    · rw [hw]
      exact .single (.tick _)
    · rw [hw]
      exact .head (.tick _) (ih h.tick _)
    · rw [hw]
      exact .single (.tick _)

/-- The logits of a verify decode: at the index of each draft, those after the stream
and the drafts before it. -/
def Exposed (logits : ℕ → List Cell) : List Token → List (Token × ℕ) → Prop
  | _, [] => True
  | stream, (draft, index) :: rest =>
    logits index = layout stream ∧ Exposed logits (stream ++ [draft]) rest

/-- What the acceptance walk leaves after a stream: the accepted drafts are a prefix of
the proposed ones, and the walk ends at a mismatch, at a failed rendering or at the end. -/
structure WalkEnd (env : Env) (cfg : Cfg) (stream drafts : List Token) (m : List (Token × Text)) (w : Walk) :
    Prop where
  map : m.map Prod.fst = drafts.take m.length
  accepted : Accepted env cfg stream m
  next : ∀ t, w.next = some t → Chosen env (stream ++ m.map Prod.fst) t
  /-- Without mismatch or failure every draft was accepted. -/
  all : w.next = none → w.renderError = none → m.length = drafts.length
  render : ∀ e, w.renderError = some e → ∃ tok, env.tokenToPiece tok = .error e

theorem acceptWalk_confirmed (logits : ℕ → List Cell) (l : List (Token × ℕ)) (h : Host)
    (acc : List (Token × Text)) (stream : List Token) (hexp : Exposed logits stream l)
    (hdraft : cfg.hasDraft = true) (heog : ∀ d ∈ l, env.draftIsEog d.1 = false) :
    ∃ m : List (Token × Text), (acceptWalk env logits l h acc).2.confirmed = acc ++ m ∧
      WalkEnd env cfg stream (l.map Prod.fst) m (acceptWalk env logits l h acc).2 := by
  induction l generalizing h acc stream with
  | nil => exact ⟨[], by simp [acceptWalk], ⟨rfl, trivial, by simp [acceptWalk], fun _ _ => rfl, by simp [acceptWalk]⟩⟩
  | cons d l ih =>
    obtain ⟨draft, index⟩ := d
    rcases acceptWalk_cons env logits draft index l h acc with
      ⟨-, hw⟩ | ⟨heq, piece, hpiece, hw⟩ | ⟨-, e, he, hw⟩
    · rw [hw]
      refine ⟨[], by simp, ⟨rfl, trivial, ?_, by simp, by simp⟩⟩
      intro t ht
      simp only [Option.some.injEq] at ht
      exact ⟨h.clock, by rw [← ht, hexp.1]; simp⟩
    · obtain ⟨m, hm, hend⟩ := ih h.tick (acc ++ [(draft, piece)]) (stream ++ [draft]) hexp.2
        fun d hd => heog d (by simp [hd])
      rw [hw]
      refine ⟨(draft, piece) :: m, by simp [hm], ?_⟩
      have hchosen : Chosen env stream draft := ⟨h.clock, by rw [← hexp.1, heq]⟩
      refine ⟨by simp [hend.map], ⟨⟨hdraft, hpiece, hchosen, heog (draft, index) (by simp)⟩, hend.accepted⟩, ?_, ?_, hend.render⟩
      · intro t ht
        simpa using hend.next t ht
      · intro h1 h2
        simpa using hend.all h1 h2
    · rw [hw]
      exact ⟨[], by simp, ⟨rfl, trivial, by simp, by simp, fun e' he' => ⟨draft, by
        simp only [Option.some.injEq] at he'
        rw [he, he']⟩⟩⟩

theorem resyncDraft_steps (h : Host) (g : ActiveGen) (n : ℕ) (g' : ActiveGen) (a : List Token)
    (hit : Bool) : GenSteps env cfg true ⟨h, g', a, hit⟩ ⟨resyncDraft env h g n, g', a, hit⟩ := by
  simp only [resyncDraft]
  split
  · split
    · exact .tail (.single (.tick _)) (.draft ⟨h.tick, g', a, hit⟩ [] none rfl)
    · exact .tail (.single (.tick _)) (.draft ⟨h.tick, g', a, hit⟩ _ _ rfl)
  · exact .single (.draft ⟨h, g', a, hit⟩ h.draftKv _ rfl)

/-- Delivering a piece touches the backlog, the delivery count and the stall clock only. -/
theorem deliverPiece_eq (h : Host) (g : ActiveGen) (piece : Text) :
    (deliverPiece env h g piece).2 = { g with
      held := (deliverPiece env h g piece).2.held
      piecesSent := (deliverPiece env h g piece).2.piecesSent
      stalledSince := (deliverPiece env h g piece).2.stalledSince } := by
  unfold deliverPiece
  split
  · rfl
  · rcases trySend_cases env h g.job.id (.token piece) with ⟨-, hs⟩ | ⟨-, -, hs⟩ | ⟨-, -, hs⟩ <;>
      simp [hs, ActiveGen.noteSent, ActiveGen.noteStall]

theorem deliverPiece_kvLen (h : Host) (g : ActiveGen) (k : ℕ) (piece : Text) :
    deliverPiece env h { g with kvLen := k } piece =
      ((deliverPiece env h g piece).1, { (deliverPiece env h g piece).2 with kvLen := k }) := by
  unfold deliverPiece
  split
  · rfl
  · rcases trySend_cases env h g.job.id (.token piece) with ⟨-, hs⟩ | ⟨-, -, hs⟩ | ⟨-, -, hs⟩ <;>
      simp [hs, ActiveGen.noteSent, ActiveGen.noteStall]

/-- Emission's view of a generation: the cache length counts the tokens kept so far. -/
def Emit.focus (s : Emit) (oldKv : ℕ) (ahead : List Token) : Focus :=
  ⟨s.host, { s.gen with kvLen := oldKv + s.kept }, ahead, decide (s.finish = some .stop)⟩

/-- Emission decides a finish at a stop match or with the budget spent. -/
def Emit.Kind (s : Emit) : Prop :=
  ∀ kind, s.finish = some kind → kind = .stop ∨ kind = .length ∧ s.gen.remaining = 0

/-- What emission may change of a generation. -/
def Emitted (g g' : ActiveGen) : Prop :=
  ∃ held attemptTokens remaining scan piecesSent stalledSince, g' = { g with
    held := held, attemptTokens := attemptTokens, remaining := remaining, scan := scan
    piecesSent := piecesSent, stalledSince := stalledSince }

theorem Emitted.trans {g g' g'' : ActiveGen} (h : Emitted g g') (h' : Emitted g' g'') : Emitted g g'' := by
  obtain ⟨_, _, _, _, _, _, rfl⟩ := h
  obtain ⟨_, _, _, _, _, _, rfl⟩ := h'
  exact ⟨_, _, _, _, _, _, rfl⟩

theorem ActiveGen.Ready.counted (hg : g.Ready) (k : ℕ) : ({ g with kvLen := k } : ActiveGen).Ready :=
  ⟨hg.live, hg.term, hg.pending, hg.prefilled⟩

theorem ActiveGen.Ready.emitted {g' : ActiveGen} (hg : g.Ready) (h : Emitted g g') : g'.Ready := by
  obtain ⟨_, _, _, _, _, _, rfl⟩ := h
  exact ⟨hg.live, hg.term, hg.pending, hg.prefilled⟩

/-- The bookkeeping of an emitted token, whose place in the cache is counted at the end of the round. -/
def ActiveGen.emit (g : ActiveGen) (tok : Token) (scan : StopScan) : ActiveGen :=
  { g with attemptTokens := g.attemptTokens ++ [tok], remaining := usizeSub g.remaining 1, scan := scan }

/-- One emitted token is one move: its piece is delivered, or completes a stop string. -/
theorem emit_step {scan : StopScan} {admitted : Bool} {tok : Token} {piece : Text} {r : Host × ActiveGen}
    (k : ℕ) (p : Option PendingTok) (rest : List Token) (hg : g.Ready) (hpos : 0 < g.remaining)
    (hsource : FeedSource env cfg { g with kvLen := k, pending := p } tok piece)
    (hscan : g.scan.admitPiece piece = (scan, admitted))
    (hr : r = if admitted then deliverPiece env h (g.emit tok scan) piece else (h, g.emit tok scan)) :
    GenStep env cfg drafting ⟨h, { g with kvLen := k, pending := p }, tok :: rest, false⟩
        ⟨r.1, { r.2 with kvLen := k + 1 }, rest, !admitted⟩ ∧
      Emitted g r.2 ∧ r.2.remaining = g.remaining - 1 ∧ r.2.stream = g.stream ++ [tok] := by
  have hconfirm : { ({ g with kvLen := k, pending := p } : ActiveGen).confirm tok with scan := scan } =
      { g.emit tok scan with kvLen := k + 1 } := by
    simp [ActiveGen.confirm, ActiveGen.emit, hg.pending]
  have hem : Emitted g (g.emit tok scan) := ⟨_, _, _, _, _, _, rfl⟩
  have hrem : (g.emit tok scan).remaining = g.remaining - 1 := usizeSub_of_le hpos
  have hstream : (g.emit tok scan).stream = g.stream ++ [tok] := by simp [ActiveGen.stream, ActiveGen.emit]
  cases admitted with
  | false =>
    subst hr
    refine ⟨?_, hem, hrem, hstream⟩
    have hstep : GenStep env cfg drafting ⟨h, { g with kvLen := k, pending := p }, tok :: rest, false⟩ _ :=
      .reject _ tok piece rest scan rfl hsource hg.prefilled hscan hg.term rfl
    rwa [hconfirm] at hstep
  | true =>
    obtain rfl : r = deliverPiece env h (g.emit tok scan) piece := hr
    have hstep : GenStep env cfg drafting ⟨h, { g with kvLen := k, pending := p }, tok :: rest, false⟩ _ :=
      .feed _ tok piece rest scan hg.live rfl hsource hg.prefilled hscan hg.term rfl
    rw [hconfirm, deliverPiece_kvLen] at hstep
    refine ⟨hstep, hem.trans ⟨_, _, _, _, _, _, deliverPiece_eq _ _ _⟩, ?_, ?_⟩
    · rw [deliverPiece_eq, ← hrem]
    · rw [deliverPiece_eq, ← hstream]
      rfl

/-- Where the emission of a round stands: `kept` is confirmed, `left` is not. -/
structure Emits (env : Env) (cfg : Cfg) (drafting : Bool) (f : Focus) (g : ActiveGen) (kept left : List Token)
    (s : Emit) : Prop where
  count : s.kept = kept.length
  steps : GenSteps env cfg drafting f (s.focus f.g.kvLen left)
  emitted : Emitted g s.gen
  stream : s.gen.stream = g.stream ++ kept
  kind : s.Kind

/-- How an emission ends: only a stop match leaves tokens over. -/
structure EmitsAll (env : Env) (cfg : Cfg) (drafting : Bool) (f : Focus) (g : ActiveGen) (kept left : List Token)
    (s : Emit) : Prop extends Emits env cfg drafting f g kept left s where
  all : s.finish ≠ some .stop → left = []
  remaining : s.finish = none → 0 < s.gen.remaining

variable {f : Focus} {kept left : List Token}

theorem Emits.next {s : Emit} {tok : Token} {r : Host × ActiveGen} {fin : Option FinishKind}
    (hs : Emits env cfg drafting f g kept (tok :: left) s) (hfinish : s.finish = none)
    (hstep : GenStep env cfg drafting ⟨s.host, { s.gen with kvLen := f.g.kvLen + s.kept }, tok :: left, false⟩
      ⟨r.1, { r.2 with kvLen := f.g.kvLen + s.kept + 1 }, left, decide (fin = some .stop)⟩)
    (hem : Emitted s.gen r.2) (hstream : r.2.stream = s.gen.stream ++ [tok])
    (hkind : Emit.Kind ⟨r.1, r.2, s.kept + 1, fin⟩) :
    Emits env cfg drafting f g (kept ++ [tok]) left ⟨r.1, r.2, s.kept + 1, fin⟩ := by
  refine ⟨by simp [hs.count], hs.steps.tail ?_, hs.emitted.trans hem, by simp [hstream, hs.stream], hkind⟩
  have hhit : decide (s.finish = some .stop) = false := by simp [hfinish]
  rw [Emit.focus, hhit]
  exact hstep

/-- Emission of the accepted drafts: they are confirmed one by one. -/
theorem emitConfirmed_steps (confirmed : List (Token × Text)) (kept : List Token) (s : Emit) (hg : g.Ready)
    (hs : Emits env cfg drafting f g kept (confirmed.map Prod.fst) s) (hfinish : s.finish = none)
    (hacc : Accepted env cfg s.gen.stream confirmed) (hlen : confirmed.length ≤ s.gen.remaining)
    (hpos : 0 < s.gen.remaining) : ∃ more left, confirmed.map Prod.fst = more ++ left ∧
      EmitsAll env cfg drafting f g (kept ++ more) left (emitConfirmed env confirmed s) := by
  induction confirmed generalizing s kept with
  | nil => exact ⟨[], [], rfl, by rwa [List.append_nil], fun _ => rfl, fun _ => hpos⟩
  | cons c rest ih =>
    obtain ⟨tok, piece⟩ := c
    obtain ⟨haccHead, haccRest⟩ := hacc
    have hready : s.gen.Ready := hg.emitted hs.emitted
    obtain ⟨scan, admitted, hscan⟩ :
        ∃ scan admitted, s.gen.scan.admitPiece piece = (scan, admitted) := ⟨_, _, rfl⟩
    obtain ⟨r, hr⟩ : ∃ r, r = if admitted then deliverPiece env s.host (s.gen.emit tok scan) piece
      else (s.host, s.gen.emit tok scan) := ⟨_, rfl⟩
    obtain ⟨hstep, hem, hrem, hstream⟩ := @emit_step env cfg drafting _ _ _ _ _ _ _ (f.g.kvLen + s.kept) none
      (rest.map Prod.fst) hready hpos (.inr ⟨rfl, haccHead⟩) hscan hr
    rw [← hready.pending] at hstep
    cases admitted with
    | false =>
      have he : emitConfirmed env ((tok, piece) :: rest) s = ⟨r.1, r.2, s.kept + 1, some .stop⟩ := by
        simp [emitConfirmed, hscan, hr, ActiveGen.emit]
      rw [he]
      exact ⟨[tok], _, rfl, hs.next hfinish hstep hem hstream (by simp [Emit.Kind]), by simp, by simp⟩
    | true =>
      simp only [List.length_cons] at hlen
      by_cases hzero : r.2.remaining = 0
      · -- the budget runs out, and no accepted draft is left over
        obtain rfl : rest = [] := List.eq_nil_of_length_eq_zero (by omega)
        have he : emitConfirmed env [(tok, piece)] s = ⟨r.1, r.2, s.kept + 1, some .length⟩ := by
          simp [emitConfirmed, hscan, hr, ActiveGen.emit] at hzero ⊢
          exact hzero
        rw [he]
        exact ⟨[tok], [], rfl, hs.next hfinish hstep hem hstream (by simp [Emit.Kind, hzero]), by simp, by simp⟩
      · have he : emitConfirmed env ((tok, piece) :: rest) s =
            emitConfirmed env rest ⟨r.1, r.2, s.kept + 1, none⟩ := by
          simp [emitConfirmed, hscan, hr, ActiveGen.emit] at hzero ⊢
          simp [hzero]
        obtain ⟨more, left, htoks, hend⟩ := ih (kept ++ [tok]) ⟨r.1, r.2, s.kept + 1, none⟩
          (hs.next hfinish hstep hem hstream (by simp [Emit.Kind])) rfl (hstream ▸ haccRest) (by simp only; omega)
          (by simp only; omega)
        rw [he]
        refine ⟨tok :: more, left, by simp [htoks], ?_⟩
        simpa using hend

theorem emitPending_steps (k : ℕ) (pending : PendingTok) (rest : List Token) (hg : g.Ready) (hpos : 0 < g.remaining) :
    Emits env cfg drafting ⟨h, { g with pending := some pending }, pending.tok :: rest, false⟩ { g with kvLen := k }
        [pending.tok] rest (emitPending env h { g with kvLen := k } pending) ∧
      (emitPending env h { g with kvLen := k } pending).gen.remaining = g.remaining - 1 ∧
      (emitPending env h { g with kvLen := k } pending).finish ∈ [none, some .stop] := by
  have hrem : usizeSub g.remaining 1 = g.remaining - 1 := usizeSub_of_le hpos
  match pending with
  | .sent tok admitted =>
    refine ⟨⟨rfl, .single ?_, ⟨_, _, _, _, _, _, rfl⟩, by simp [emitPending, ActiveGen.stream], ?_⟩, hrem,
      by cases admitted <;> simp [emitPending]⟩
    · have hstep : GenStep env cfg drafting ⟨h, { g with pending := some (.sent tok admitted) }, tok :: rest, false⟩ _ :=
        .confirm _ tok admitted rest rfl rfl hg.term rfl
      cases admitted <;> simpa [Emit.focus, emitPending, ActiveGen.confirm, hg.pending, PendingTok.tok] using hstep
    · cases admitted <;> simp [Emit.Kind, emitPending]
  | .unsent tok piece =>
    obtain ⟨scan, admitted, hscan⟩ :
        ∃ scan admitted, g.scan.admitPiece piece = (scan, admitted) := ⟨_, _, rfl⟩
    obtain ⟨r, hr⟩ : ∃ r, r = if admitted then deliverPiece env h (({ g with kvLen := k } : ActiveGen).emit tok scan) piece
      else (h, ({ g with kvLen := k } : ActiveGen).emit tok scan) := ⟨_, rfl⟩
    obtain ⟨hstep, hem, hremaining, hstream⟩ := @emit_step env cfg drafting _ _ _ _ _ _ _ g.kvLen
      (some (.unsent tok piece)) rest (hg.counted k) hpos (.inl rfl) hscan hr
    have he : emitPending env h { g with kvLen := k } (.unsent tok piece) =
        ⟨r.1, r.2, 1, if admitted then none else some .stop⟩ := by
      cases admitted <;> simp [emitPending, hscan, hr, ActiveGen.emit, PendingTok.tok]
    rw [he]
    refine ⟨⟨rfl, .single ?_, hem, hstream, ?_⟩, hremaining, by cases admitted <;> simp⟩
    · cases admitted <;> exact hstep
    · cases admitted <;> simp [Emit.Kind]

theorem emitRound_steps (k : ℕ) (pending : PendingTok) (confirmed : List (Token × Text)) (hg : g.Ready)
    (hacc : Accepted env cfg (g.stream ++ [pending.tok]) confirmed)
    (hlen : confirmed.length < g.remaining) (hpos : 1 < g.remaining) :
    ∃ kept left, pending.tok :: confirmed.map Prod.fst = kept ++ left ∧
      EmitsAll env cfg drafting ⟨h, { g with pending := some pending }, pending.tok :: confirmed.map Prod.fst, false⟩
        { g with kvLen := k } kept left (emitRound env h { g with kvLen := k } pending confirmed) := by
  obtain ⟨hs, hrem, hfin⟩ := @emitPending_steps env cfg drafting h g k pending (confirmed.map Prod.fst) hg (by omega)
  unfold emitRound
  generalize emitPending env h { g with kvLen := k } pending = s at hs hrem hfin ⊢
  simp only [List.mem_cons, List.not_mem_nil, or_false] at hfin
  rcases hfin with hfin | hfin
  · simp only [hfin, Option.isNone_none, if_true]
    obtain ⟨more, left, htoks, hend⟩ := emitConfirmed_steps confirmed [pending.tok] s (hg.counted k) hs hfin
      (hs.stream ▸ hacc) (by omega) (by omega)
    exact ⟨pending.tok :: more, left, by simp [htoks], hend⟩
  · simp only [hfin, Option.isNone_some, Bool.false_eq_true, if_false]
    exact ⟨[pending.tok], _, rfl, hs, by simp [hfin], by simp [hfin]⟩

theorem settleRound_steps (next : Token) (finish : Option FinishKind) (hg : g.Ready)
    (hremaining : finish = none → 0 < g.remaining)
    (hkind : ∀ kind, finish = some kind → kind = .stop ∨ kind = .length ∧ g.remaining = 0)
    (hchosen : finish = none → Chosen env g.stream next) :
    GenSteps env cfg drafting ⟨h, g, [], decide (finish = some .stop)⟩
      (.of (settleRound env cfg h g next finish) [] false) := by
  match finish with
  | some kind =>
    refine finishOrDefer_steps hg (by simp) ?_
    rcases hkind kind rfl with rfl | hlength
    · exact .inl (by simp)
    · exact .inr (.inl hlength)
  | none => exact takeSample_steps hg (hremaining rfl) (hchosen rfl)

theorem walkNext_steps (logits : ℕ → List Cell) (step : SpecStep) (h : Host) (w : Walk)
    (g : ActiveGen) (a : List Token) (hit : Bool) :
    GenSteps env cfg drafting ⟨h, g, a, hit⟩ ⟨(walkNext env logits step h w).1, g, a, hit⟩ := by
  unfold walkNext
  split
  · exact .refl
  · exact .single (.tick _)

theorem walkNext_chosen {logits : ℕ → List Cell} {step : SpecStep} {h : Host} {w : Walk}
    {stream : List Token} (hw : WalkEnd env cfg stream step.drafts w.confirmed w) (hrender : w.renderError = none)
    (hlast : logits (step.indexes.getD step.drafts.length 0) = layout (stream ++ step.drafts)) :
    Chosen env (stream ++ w.confirmed.map Prod.fst) (walkNext env logits step h w).2 := by
  unfold walkNext
  cases hnext : w.next with
  | some t => exact hw.next t hnext
  | none =>
    have hall : w.confirmed.map Prod.fst = step.drafts := by
      rw [hw.map, List.take_of_length_le (hw.all hnext hrender).ge]
    exact ⟨h.clock, by rw [hall, ← hlast]; rfl⟩

/-- What a verify decode exposes to a generation: the logits after its pending token and
after every draft, none of which ends the draft's own generation. -/
structure Verified (env : Env) (cfg : Cfg) (logits : ℕ → List Cell) (step : SpecStep) (stream : List Token) : Prop where
  /-- One index per token of the round. -/
  indexes : step.indexes.length = step.drafts.length + 1
  /-- The logits each draft is compared at. -/
  exposed : Exposed logits stream (step.drafts.zip step.indexes)
  last : logits (step.indexes.getD step.drafts.length 0) = layout (stream ++ step.drafts)
  eog : ∀ t ∈ step.drafts, env.draftIsEog t = false
  hasDraft : cfg.hasDraft = true

theorem Verified.walk {logits : ℕ → List Cell} {step : SpecStep} {stream : List Token}
    (hv : Verified env cfg logits step stream) (h : Host) :
    WalkEnd env cfg stream step.drafts (acceptWalk env logits (step.drafts.zip step.indexes) h []).2.confirmed
      (acceptWalk env logits (step.drafts.zip step.indexes) h []).2 := by
  have hzip : (step.drafts.zip step.indexes).map Prod.fst = step.drafts :=
    List.map_fst_zip (by have := hv.indexes; omega)
  obtain ⟨m, hm, hend⟩ := acceptWalk_confirmed logits (step.drafts.zip step.indexes) h [] stream hv.exposed hv.hasDraft
    fun d hd => hv.eog d.1 (hzip ▸ List.mem_map_of_mem hd)
  rw [List.nil_append] at hm
  rwa [hzip, ← hm] at hend

end chains

end OneBrain.Engine
