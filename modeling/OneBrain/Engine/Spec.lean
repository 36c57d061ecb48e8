import OneBrain.Engine.Step

/-!
# Speculative rounds

With exactly one greedy generation active, a draft model proposes up to `SPEC_K`
tokens and one decode of the target verifies them all. `buildSpecStep` syncs the
draft cache, drafts, and stages the pending token plus every draft in the batch;
`processSpecStep` accepts the longest prefix of drafts the target's own choices
reproduce, rolls the rest back, emits the confirmed pieces and resyncs the draft.
-/

namespace OneBrain.Engine

open OneBrain.Lib

/-- A built verify round. -/
structure SpecStep where
  batch : List BatchTok
  /-- Batch index of the pending token and of every draft. -/
  indexes : List ℕ
  drafts : List Token
  draftKv : ℕ
  deriving DecidableEq, Repr

/-- Whether the single active generation takes a speculative round. -/
def specEligible (g : ActiveGen) : Bool :=
  g.steppable && g.prefilled &&
    (match g.pending with
      | none => false
      | some (.sent _ false) => false
      | some _ => true) &&
    decide (1 < g.remaining) && decide (g.job.temperature ≤ 0)

theorem specEligible_steps {g : ActiveGen} (h : specEligible g = true) :
    g.steppable = true ∧ g.prefilled = true ∧ 1 < g.remaining := by
  simp only [specEligible, Bool.and_eq_true, decide_eq_true_eq] at h
  exact ⟨h.1.1.1.1, h.1.1.1.2, h.1.2⟩

/-- `draft.session.decode(tokens)`: appended at the next positions, or an error that
leaves the draft cache in an arbitrary state. -/
def draftDecode (env : Env) (h : Host) (toks : List Token) : Host × Option String :=
  match env.draftFails h.clock with
  | some e => ({ h.tick with draftKv := env.draftTorn h.clock }, some e)
  | none => ({ h.tick with draftKv := extend h.draftKv toks }, none)

/-- `draft.session.reset()` with the sync mark cleared. -/
def Host.resetDraft (h : Host) : Host := { h with draftKv := [], synced := none }

/-- The drafting loop: at most `n` more tokens; the draft's own end of generation
stops it, and the last token is not decoded into the draft cache. -/
def propose (env : Env) : ℕ → Host → List Token → ℕ → Host × Except String (List Token × ℕ)
  | 0, h, drafts, draftKv => (h, .ok (drafts, draftKv))
  | n + 1, h, drafts, draftKv =>
    let t := env.draftSample h.clock h.draftKv
    if env.draftIsEog t then (h.tick, .ok (drafts, draftKv))
    else if n = 0 then (h.tick, .ok (drafts ++ [t], draftKv))
    else
      match draftDecode env h.tick [t] with
      | (h', some e) => (h', .error e)
      | (h', none) => propose env n h' (drafts ++ [t]) (draftKv + 1)

/-- Stage tokens of one sequence at consecutive positions, all with logits. -/
def pushSpec (cfg : Cfg) (seq : SeqId) : List Token → ℕ → List BatchTok → List ℕ →
    Except String (List BatchTok × List ℕ)
  | [], _, b, indexes => .ok (b, indexes)
  | tok :: rest, pos, b, indexes =>
    match batchPush cfg b tok pos seq true with
    | .error e => .error e
    | .ok (b', index) => pushSpec cfg seq rest (pos + 1) b' (indexes ++ [index])

/-- How much of the draft cache is reused for `g`; anything else is reset. -/
def draftSynced (h : Host) (g : ActiveGen) : Host × ℕ :=
  match h.synced with
  | some (uid, n) => if uid = g.uid ∧ n ≤ g.kvLen then (h, n) else ({ h with draftKv := [] }, 0)
  | none => ({ h with draftKv := [] }, 0)

/-- Catch the draft up, and let it propose tokens for the target to verify. -/
def buildSpecStep (env : Env) (cfg : Cfg) (h : Host) (g : ActiveGen) (tok : Token) :
    Host × Except String SpecStep :=
  let (h, synced) := draftSynced h g
  let h := { h with synced := none }
  let catchup := (g.stream.drop synced).take (g.kvLen - synced) ++ [tok]
  match draftDecode env h catchup with
  | (h, some e) => (h, .error e)
  | (h, none) =>
    let kMax := min (min SPEC_K (g.remaining - 1)) (cfg.nBatch - 1)
    match propose env kMax h [] (g.kvLen + 1) with
    | (h, .error e) => (h, .error e)
    | (h, .ok (drafts, draftKv)) =>
      let h := { h with synced := some (g.uid, draftKv) }
      match pushSpec cfg g.seq (tok :: drafts) g.kvLen [] [] with
      | .error e => (h, .error e)
      | .ok (batch, indexes) =>
        (h, .ok { batch := batch, indexes := indexes, drafts := drafts, draftKv := draftKv })

/-! ### The verify outcome -/

/-- Result of the acceptance walk. -/
structure Walk where
  confirmed : List (Token × Text)
  /-- The target's own choice at the first mismatch. -/
  next : Option Token
  /-- A piece that could not be rendered. -/
  renderError : Option String
  deriving DecidableEq, Repr

/-- The acceptance walk: a draft is confirmed while the target's choice after the
previous token is that draft. -/
def acceptWalk (env : Env) (logits : ℕ → List Cell) :
    List (Token × ℕ) → Host → List (Token × Text) → Host × Walk
  | [], h, confirmed => (h, { confirmed := confirmed, next := none, renderError := none })
  | (draft, index) :: rest, h, confirmed =>
    let (h, target) := sampleIth env h (logits index)
    if target ≠ draft then
      (h, { confirmed := confirmed, next := some target, renderError := none })
    else
      match env.tokenToPiece target with
      | .ok piece => acceptWalk env logits rest h (confirmed ++ [(target, piece)])
      | .error e => (h, { confirmed := confirmed, next := none, renderError := some e })

/-- Full acceptance samples the next pending token after the last draft. -/
def walkNext (env : Env) (logits : ℕ → List Cell) (step : SpecStep) (h : Host) (w : Walk) :
    Host × Token :=
  match w.next with
  | some t => (h, t)
  | none => sampleIth env h (logits (step.indexes.getD step.drafts.length 0))

/-- Where emission stands: the host, the generation, the tokens kept and the finish
the stop scan or the budget decided. -/
structure Emit where
  host : Host
  gen : ActiveGen
  kept : ℕ
  finish : Option FinishKind

/-- The accepted drafts in stream order: each is counted, scanned and delivered; a
stop match or the spent budget ends the run. -/
def emitConfirmed (env : Env) : List (Token × Text) → Emit → Emit
  | [], s => s
  | (tok, piece) :: rest, s =>
    let (scan, admitted) := s.gen.scan.admitPiece piece
    let g := { s.gen with
      attemptTokens := s.gen.attemptTokens ++ [tok]
      remaining := usizeSub s.gen.remaining 1
      scan := scan }
    if admitted then
      let r := deliverPiece env s.host g piece
      if r.2.remaining = 0 then
        { host := r.1, gen := r.2, kept := s.kept + 1, finish := some .length }
      else emitConfirmed env rest { host := r.1, gen := r.2, kept := s.kept + 1, finish := none }
    else { host := s.host, gen := g, kept := s.kept + 1, finish := some .stop }

/-- Entry 0 of the round: the pending token, confirmed outright. -/
def emitPending (env : Env) (h : Host) (g : ActiveGen) (pending : PendingTok) : Emit :=
  let g := { g with
    attemptTokens := g.attemptTokens ++ [pending.tok]
    remaining := usizeSub g.remaining 1 }
  match pending with
  | .sent _ admitted =>
    { host := h, gen := g, kept := 1, finish := if admitted then none else some .stop }
  | .unsent _ piece =>
    let (scan, admitted) := g.scan.admitPiece piece
    let g := { g with scan := scan }
    if admitted then
      let r := deliverPiece env h g piece
      { host := r.1, gen := r.2, kept := 1, finish := none }
    else { host := h, gen := g, kept := 1, finish := some .stop }

/-- Deliver what a round confirmed. -/
def emitRound (env : Env) (h : Host) (g : ActiveGen) (pending : PendingTok)
    (confirmed : List (Token × Text)) : Emit :=
  let s := emitPending env h g pending
  if s.finish.isNone then emitConfirmed env confirmed s else s

/-- Trim the draft cache to what the confirmed stream shares with it. -/
def resyncDraft (env : Env) (h : Host) (g : ActiveGen) (draftKv : ℕ) : Host :=
  let matched := min draftKv g.kvLen
  if matched < draftKv then
    match env.draftTrimFails h.clock with
    | some _ => h.tick.resetDraft
    | none => { h.tick with draftKv := trim h.draftKv matched, synced := some (g.uid, matched) }
  else { h with synced := some (g.uid, matched) }

/-- The end of a round: stage the next token, or apply the decided finish. -/
def settleRound (env : Env) (cfg : Cfg) (h : Host) (g : ActiveGen) (next : Token) :
    Option FinishKind → Host × ActiveGen
  | some kind => finishOrDefer env h g kind cfg.kvReuse
  | none => takeSample env cfg h g next

/-- The message for a failed rollback. -/
def rollbackError (e : String) : String :=
  "rolling back rejected speculative tokens failed (" ++ e ++ "); "
    ++ "the generation cannot continue safely"

/-- The message for a failed trim. -/
def trimError (e : String) : String :=
  "trimming speculative tokens past a stop match failed (" ++ e ++ "); "
    ++ "the generation cannot continue safely"

/-- Drop the confirmed tokens past a stop match: they never count as generated. -/
def trimPastStop (env : Env) (s : Emit) (oldKv total : ℕ) : Host × ActiveGen × Option String :=
  if s.kept < total then
    match seqRm env s.host s.gen.seq (oldKv + s.kept) with
    | (h, some e) => (h, s.gen, some (trimError e))
    | (h, none) => (h, { s.gen with kvLen := oldKv + s.kept }, none)
  else (s.host, s.gen, none)

/-- Emission, trimming, draft resync and settlement of a verified round whose
rejected drafts are already rolled back. -/
def finishRound (env : Env) (cfg : Cfg) (step : SpecStep) (h : Host) (g : ActiveGen)
    (pending : PendingTok) (confirmed : List (Token × Text)) (next : Token) :
    (Host × ActiveGen) × Option String :=
  let oldKv := g.kvLen
  let total := 1 + confirmed.length
  let s := emitRound env h { g with kvLen := oldKv + total } pending confirmed
  match trimPastStop env s oldKv total with
  | (h, g, some e) => ((h.resetDraft, g), some e)
  | (h, g, none) => (settleRound env cfg (resyncDraft env h g step.draftKv) g next s.finish, none)

/-- `process_spec_step` after its acceptance walk: a render error fails the generation;
otherwise the rejected positions are rolled back with a real removal. -/
def processWalk (env : Env) (cfg : Cfg) (logits : ℕ → List Cell) (step : SpecStep) (h : Host)
    (g : ActiveGen) (pending : PendingTok) (w : Walk) : (Host × ActiveGen) × Option String :=
  match w.renderError with
  | some message =>
    let r := failSeq env h g message
    ((r.1.resetDraft, r.2), none)
  | none =>
    let (h, next) := walkNext env logits step h w
    if w.confirmed.length < step.drafts.length then
      match seqRm env h g.seq (g.kvLen + 1 + w.confirmed.length) with
      | (h, some e) => ((h.resetDraft, g), some (rollbackError e))
      | (h, none) => finishRound env cfg step h g pending w.confirmed next
    else finishRound env cfg step h g pending w.confirmed next

/-- `process_spec_step`; an error is a failed rollback, after which the caller fails
the generation and stands speculation down. -/
def processSpecStep (env : Env) (cfg : Cfg) (logits : ℕ → List Cell) (step : SpecStep) (h : Host)
    (g : ActiveGen) (pending : PendingTok) : (Host × ActiveGen) × Option String :=
  let (h, w) := acceptWalk env logits (step.drafts.zip step.indexes) h []
  let g := { g with
    pending := none
    drafted := g.drafted + step.drafts.length
    accepted := g.accepted + w.confirmed.length }
  processWalk env cfg logits step h g pending w

/-- Step 11: the outcome of a round; a failed rollback fails the generation and
disables speculation for the phase. -/
def postSpec (env : Env) (cfg : Cfg) (logits : ℕ → List Cell) (step : SpecStep) (h : Host)
    (g : ActiveGen) (pending : PendingTok) : Host × ActiveGen × Bool :=
  match processSpecStep env cfg logits step h g pending with
  | ((h, g), none) => (h, g, false)
  | ((h, g), some e) =>
    if g.done then (h, g, true)
    else
      let r := failSeq env h g e
      (r.1, r.2, true)

end OneBrain.Engine
