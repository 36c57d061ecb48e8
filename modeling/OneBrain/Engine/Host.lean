import Mathlib.Logic.Function.Basic
import OneBrain.Engine.Types

/-!
# The engine host: environment, session and delivery

The environment of the engine thread, the state it mutates, and the small
operations every part of the loop shares: sending on a client channel, parking a
terminal event, removing cache ranges, and the ways a generation leaves the
active set (`finishSeq`, `failSeq`, `cancelSeq`).

Functions of the source that borrow `&mut ActiveGen` next to the session and the
loop's lists return the new host together with the new generation.
-/

namespace OneBrain.Engine

open OneBrain.Lib

/-! ### The environment -/

/-- What the engine thread does not control. Questions that may be answered
differently each time take the clock at which they are asked. -/
structure Env where
  tokenize : Text → Except String (List Token)
  /-- The model's chat template; `none` when it ships none. -/
  applyChatTemplate : List (Text × Text) → Except String (Option Text)
  tokenToPiece : Token → Except String Text
  isEog : Token → Bool
  /-- The token a sampler draws after the given cells. -/
  sample : ℕ → List Cell → Token
  /-- Whether the decode asked for now fails. -/
  decodeFails : ℕ → Option String
  /-- What a failed decode leaves in the cache of a pushed sequence. -/
  torn : ℕ → SeqId → List Cell
  /-- Whether the partial removal asked for now fails. -/
  seqRmFails : ℕ → Option String
  samplerFails : ℕ → Option String
  /-- The draft model's greedy choice after the given cells. -/
  draftSample : ℕ → List Cell → Token
  draftIsEog : Token → Bool
  /-- Whether the draft decode asked for now fails. -/
  draftFails : ℕ → Option String
  /-- What a failed draft decode leaves in the draft cache. -/
  draftTorn : ℕ → List Cell
  /-- Whether the partial removal on the draft asked for now fails. -/
  draftTrimFails : ℕ → Option String
  /-- Whether a client's channel has room for one more event after `n` were sent. -/
  room : JobId → ℕ → ℕ → Bool
  room_fresh : ∀ j t, room j 0 t = true
  closed : JobId → ℕ → Bool
  /-- A client that is gone stays gone. -/
  closed_mono : ∀ j t u, t ≤ u → closed j t = true → closed j u = true
  now : ℕ → ℕ

/-- An environment in which nothing fails: the client reads at once and stays, the
prompt is one token, and every sampled token is the letter `a`. -/
def calmEnv : Env where
  tokenize _ := .ok [0]
  applyChatTemplate _ := .ok none
  tokenToPiece _ := .ok ['a']
  isEog _ := false
  sample _ _ := 1
  decodeFails _ := none
  torn _ _ := []
  seqRmFails _ := none
  samplerFails _ := none
  draftSample _ _ := 1
  draftIsEog _ := false
  draftFails _ := none
  draftTorn _ := []
  draftTrimFails _ := none
  room _ _ _ := true
  room_fresh _ _ := rfl
  closed _ _ := false
  closed_mono _ _ _ _ h := h
  now t := t

/-- What a model phase is started with. -/
structure Cfg where
  name : String
  /-- The reference the load was requested with. -/
  reference : String
  nSeqMax : ℕ
  nBatch : ℕ
  /-- Context length: tokens the unified cache holds. -/
  nCtx : ℕ
  /-- Whether the model is split across nodes. -/
  distributed : Bool
  kvReuse : Bool
  hasDraft : Bool
  /-- Set when the batch could not be allocated. -/
  batchError : Option String
  /-- `session.n_seq_max().max(1)` -/
  nSeqMax_pos : 0 < nSeqMax
  /-- `perf.n_batch.max(1)` -/
  nBatch_pos : 0 < nBatch

/-- The smallest session. -/
instance : Inhabited Cfg :=
  ⟨{ name := "", reference := "", nSeqMax := 1, nBatch := 1, nCtx := 0, distributed := false
     kvReuse := false, hasDraft := false, batchError := none
     nSeqMax_pos := Nat.one_pos, nBatch_pos := Nat.one_pos }⟩

/-! ### State -/

/-- The state the engine thread mutates, apart from its job lists. The last five
fields record what became of jobs; the thread never reads them. -/
structure Host where
  clock : ℕ
  chans : JobId → List TokenEvent
  kv : SeqId → List Cell
  draftKv : List Cell
  /-- `DraftCtx::synced`: admission number and length the draft cache follows. -/
  synced : Option (ℕ × ℕ)
  free : List SeqId
  outbox : List PendingTerminal
  retained : List RetainedSlot
  /-- Jobs reported `Finished`. -/
  finished : List JobId
  /-- Generations reported `Interrupted` that the supervisor has not settled. -/
  interrupted : List InterruptedGen
  /-- Jobs freed because their client stalled through a pending model swap. -/
  reaped : List JobId
  /-- The cells every successful decode computed for a job. -/
  decoded : JobId → List Cell
  /-- What the jobs that are over had come to. -/
  ends : JobId → Option JobRecord

/-- Result of a non-blocking send. -/
inductive SendResult
  | ok
  | full
  | closed
  deriving DecidableEq, Repr

/-- Advance the clock past one question. -/
def Host.tick (h : Host) : Host := { h with clock := h.clock + 1 }

/-- Send an event if there is room. -/
def trySend (env : Env) (h : Host) (j : JobId) (ev : TokenEvent) : Host × SendResult :=
  if env.closed j h.clock then (h.tick, .closed)
  else if env.room j (h.chans j).length h.clock then
    ({ h.tick with chans := Function.update h.chans j (h.chans j ++ [ev]) }, .ok)
  else (h.tick, .full)

/-- The host after an accepted send. -/
def Host.accept (h : Host) (j : JobId) (ev : TokenEvent) : Host :=
  { h.tick with chans := Function.update h.chans j (h.chans j ++ [ev]) }

theorem trySend_cases (env : Env) (h : Host) (j : JobId) (ev : TokenEvent) :
    (env.closed j h.clock = true ∧ trySend env h j ev = (h.tick, .closed)) ∨
    (env.closed j h.clock = false ∧ env.room j (h.chans j).length h.clock = false ∧
      trySend env h j ev = (h.tick, .full)) ∨
    (env.closed j h.clock = false ∧ env.room j (h.chans j).length h.clock = true ∧
      trySend env h j ev = (h.accept j ev, .ok)) := by
  unfold trySend Host.accept
  cases env.closed j h.clock <;> cases env.room j (h.chans j).length h.clock <;> simp

/-- `deliver_terminal`: send now, or park the event while the channel is full. -/
def deliverTerminal (env : Env) (h : Host) (j : JobId) (ev : TokenEvent) : Host :=
  match trySend env h j ev with
  | (h', .ok) => h'
  | (h', .closed) => h'
  | (h', .full) => { h' with outbox := h'.outbox ++ [{ tx := j, event := ev }] }

/-- `session.seq_rm(seq, -1, -1)`: removing a whole sequence never fails. -/
def Host.clearSeq (h : Host) (s : SeqId) : Host := { h with kv := Function.update h.kv s [] }

/-- `session.seq_rm(seq, n, -1)`: remove the positions from `n` on, or report failure. -/
def seqRm (env : Env) (h : Host) (s : SeqId) (n : ℕ) : Host × Option String :=
  match env.seqRmFails h.clock with
  | some e => (h.tick, some e)
  | none => ({ h.tick with kv := Function.update h.kv s (trim (h.kv s) n) }, none)

/-- `session.sample_ith_with(chain, index)` on the cells the logits were computed from. -/
def sampleIth (env : Env) (h : Host) (context : List Cell) : Host × Token :=
  (h.tick, env.sample h.clock context)

/-- Record the end of a job. -/
def Host.record (h : Host) (e : JobRecord) : Host := { h with ends := Function.update h.ends e.job.id (some e) }

/-- A job that is not in the active set is reported `Finished`. -/
def Host.finish (h : Host) (e : JobRecord) : Host :=
  { h.record e with finished := h.finished ++ [e.job.id] }

/-- `outcome.send(GenOutcome::Finished)`, at most once. -/
def reportFinished (h : Host) (g : ActiveGen) : Host × ActiveGen :=
  let h := h.record g.ending
  if g.outcome then ({ h with finished := h.finished ++ [g.job.id] }, { g with outcome := false })
  else (h, g)

/-! ### Leaving the active set -/

/-- `release_seq`: free the cache and the slot. -/
def releaseSeq (h : Host) (g : ActiveGen) : Host × ActiveGen :=
  ({ h.clearSeq g.seq with free := h.free ++ [g.seq] }, { g with done := true })

/-- The client-visible statistics of a finish: they span all attempts. -/
def doneStats (g : ActiveGen) (finish : FinishKind) : DoneStats :=
  { promptTokens := g.promptTokens.length
    completionTokens := g.priorGenerated.length + g.attemptTokens.length
    finish := finish
    drafted := g.drafted
    accepted := g.accepted }

/-- `finish_seq`: the terminal `Done`, the outcome, and either the slot's cache
retained for reuse or the slot released. -/
def finishSeq (env : Env) (h : Host) (g : ActiveGen) (finish : FinishKind) (retain : Bool) :
    Host × ActiveGen :=
  let h := deliverTerminal env h g.job.id (.done (doneStats g finish))
  let (h, g) := reportFinished h g
  if retain then
    ({ h with
        retained := h.retained ++ [{ seq := g.seq, history := g.prefixToks ++ g.attemptTokens }]
        free := h.free ++ [g.seq] },
      { g with prefixToks := [], done := true })
  else releaseSeq h g

/-- `fail_seq`: an error terminal, deferred while pieces are still held; a
terminal already decided wins. -/
def failSeq (env : Env) (h : Host) (g : ActiveGen) (message : String) : Host × ActiveGen :=
  if g.held ≠ [] then
    (h, if g.terminalAfterDrain.isNone then { g with terminalAfterDrain := some (.error message) } else g)
  else
    let h := deliverTerminal env h g.job.id (.error message)
    let (h, g) := reportFinished h g
    releaseSeq h g

/-- `cancel_seq`: no terminal event, nobody is listening. -/
def cancelSeq (h : Host) (g : ActiveGen) : Host × ActiveGen :=
  let (h, g) := reportFinished h g
  releaseSeq h g

/-! ### Delivering pieces -/

/-- Bookkeeping of a delivered piece. -/
def ActiveGen.noteSent (g : ActiveGen) : ActiveGen :=
  { g with piecesSent := g.piecesSent + 1, stalledSince := none }

/-- `stalled_since.get_or_insert_with(Instant::now)`. -/
def ActiveGen.noteStall (env : Env) (h : Host) (g : ActiveGen) : ActiveGen :=
  { g with stalledSince := some (g.stalledSince.getD (env.now h.clock)) }

/-- `deliver_piece`: behind any held backlog, otherwise straight to the channel,
parked when it is full; a closed channel drops the piece. -/
def deliverPiece (env : Env) (h : Host) (g : ActiveGen) (piece : Text) : Host × ActiveGen :=
  if g.held ≠ [] then (h, { g with held := g.held ++ [piece] })
  else
    match trySend env h g.job.id (.token piece) with
    | (h', .ok) => (h', g.noteSent)
    | (h', .full) => (h', { g.noteStall env h' with held := g.held ++ [piece] })
    | (h', .closed) => (h', g)

/-- `stage_pending`: park the sampled token unsent on a distributed model; on a
solo model scan and deliver its piece now. -/
def stagePending (env : Env) (distributed : Bool) (h : Host) (g : ActiveGen) (tok : Token)
    (piece : Text) : Host × ActiveGen :=
  if distributed then (h, { g with pending := some (.unsent tok piece) })
  else
    let (scan, admitted) := g.scan.admitPiece piece
    let g := { g with scan := scan }
    let (h, g) := if admitted then deliverPiece env h g piece else (h, g)
    (h, { g with pending := some (.sent tok admitted) })

/-! ### The top of the loop -/

/-- Step 1: retry the parked terminal events; the ones kept are returned. -/
def retryOutbox (env : Env) : Host → List PendingTerminal → Host × List PendingTerminal
  | h, [] => (h, [])
  | h, p :: rest =>
    match trySend env h p.tx p.event with
    | (h', .ok) => retryOutbox env h' rest
    | (h', .closed) => retryOutbox env h' rest
    | (h', .full) =>
      let r := retryOutbox env h' rest
      (r.1, p :: r.2)

/-- Step 2, inner loop: retry the held pieces in order. -/
def drainHeld (env : Env) : List Text → Host → ActiveGen → Host × ActiveGen
  | [], h, g => (h, { g with held := [] })
  | piece :: rest, h, g =>
    match trySend env h g.job.id (.token piece) with
    | (h', .ok) => drainHeld env rest h' g.noteSent
    | (h', .full) => (h', { g.noteStall env h' with held := piece :: rest })
    -- closed: the popped piece is gone, the disconnect sweep reaps the sequence
    | (h', .closed) => (h', { g with held := rest })

/-- Step 2, one generation: drain the backlog, then apply the terminal waiting behind it. -/
def retryHeld (env : Env) (cfg : Cfg) (h : Host) (g : ActiveGen) : Host × ActiveGen :=
  let (h, g) := drainHeld env g.held h g
  if g.held = [] ∧ g.done = false then
    match g.terminalAfterDrain with
    | some (.finish kind) =>
      let kvComplete := decide (g.prefixToks.length ≤ g.prefillDone)
      finishSeq env h { g with terminalAfterDrain := none } kind
        (cfg.kvReuse && kvComplete && !g.kvSuspect)
    | some (.error message) => failSeq env h { g with terminalAfterDrain := none } message
    | none => (h, g)
  else (h, g)

end OneBrain.Engine
