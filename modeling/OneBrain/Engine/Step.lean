import OneBrain.Engine.Admission

/-!
# One engine step

Steps 7 to 10 of the serve loop on the plain path: one pending token per
decodable generation and one prefill chunk are placed in a batch, the batch is
decoded once, and the results are applied generation by generation. A failed
decode interrupts every generation of a distributed model and fails every
generation of a solo one.
-/

namespace OneBrain.Engine

open OneBrain.Lib

/-! ### The batch -/

/-- A token of a batch. -/
structure BatchTok where
  tok : Token
  pos : ℕ
  seq : SeqId
  logits : Bool
  deriving DecidableEq, Repr

/-- The cell a decoded token leaves in the cache. -/
def BatchTok.cell (b : BatchTok) : Cell := (b.tok, b.pos)

/-- `EngineError::BatchFull`. -/
def batchFull (capacity : ℕ) : String :=
  "the token batch is full (" ++ toString capacity ++ " tokens); decode it (or clear it) before "
    ++ "pushing more, or create it with a larger capacity."

/-- `EngineError::BatchSeqId`. -/
def batchSeqId (seq : SeqId) (nSeqMax : ℕ) : String :=
  "sequence id " ++ toString seq ++ " is out of range for this batch (n_seq_max "
    ++ toString nSeqMax ++ "); "
    ++ "create the batch (and the session) with n_seq_max covering every sequence used."

/-- `Batch::push`: the batch with the token, and the token's index. -/
def batchPush (cfg : Cfg) (b : List BatchTok) (tok : Token) (pos : ℕ) (seq : SeqId) (logits : Bool) :
    Except String (List BatchTok × ℕ) :=
  if cfg.nBatch ≤ b.length then .error (batchFull cfg.nBatch)
  else if cfg.nSeqMax ≤ seq then .error (batchSeqId seq cfg.nSeqMax)
  else .ok (b ++ [{ tok := tok, pos := pos, seq := seq, logits := logits }], b.length)

/-- Neither paused by a backlog nor waiting to end. -/
def ActiveGen.steppable (g : ActiveGen) : Bool := g.held.isEmpty && g.terminalAfterDrain.isNone

theorem ActiveGen.steppable_iff {g : ActiveGen} :
    g.steppable = true ↔ g.held = [] ∧ g.terminalAfterDrain = none := by
  simp [ActiveGen.steppable]

/-- The whole prefix is in the cache. -/
def ActiveGen.prefilled (g : ActiveGen) : Bool := decide (g.prefixToks.length ≤ g.prefillDone)

/-- Step 7, decodes: the pending token of every prefilled generation, as pairs of
its index in `active` and its index in the batch. A failed push names the generation. -/
def buildDecodes (cfg : Cfg) : List ActiveGen → ℕ → List BatchTok → List (ℕ × ℕ) →
    Except (ℕ × String) (List BatchTok × List (ℕ × ℕ))
  | [], _, b, decodes => .ok (b, decodes)
  | g :: rest, i, b, decodes =>
    if g.steppable && g.prefilled then
      match g.pending with
      | none => buildDecodes cfg rest (i + 1) b decodes
      | some p =>
        match batchPush cfg b p.tok g.kvLen g.seq true with
        | .error e => .error (i, e)
        | .ok (b', index) => buildDecodes cfg rest (i + 1) b' (decodes ++ [(i, index)])
    else buildDecodes cfg rest (i + 1) b decodes

/-- The tokens of one prefill chunk; the prefix tail carries logits. -/
def pushPrefill (cfg : Cfg) (g : ActiveGen) : List Token → ℕ → List BatchTok → Option ℕ →
    Except String (List BatchTok × Option ℕ)
  | [], _, b, tail => .ok (b, tail)
  | tok :: rest, j, b, tail =>
    let isTail := decide (g.prefillDone + j + 1 = g.prefixToks.length)
    match batchPush cfg b tok (g.kvLen + j) g.seq isTail with
    | .error e => .error e
    | .ok (b', index) => pushPrefill cfg g rest (j + 1) b' (if isTail then some index else tail)

/-- The next prefill chunk of a generation when the batch has `space` left. -/
def prefillChunk (g : ActiveGen) (space : ℕ) : List Token :=
  (g.prefixToks.drop g.prefillDone).take space

/-- Step 7, prefill: one chunk of the first generation that still prefills, as its
index in `active`, the chunk's length and the batch index of the prefix tail. -/
def buildPrefill (cfg : Cfg) : List ActiveGen → ℕ → List BatchTok →
    Except (ℕ × String) (List BatchTok × Option (ℕ × ℕ × Option ℕ))
  | [], _, b => .ok (b, none)
  | g :: rest, i, b =>
    if g.steppable && !g.prefilled then
      let space := cfg.nBatch - b.length
      if space = 0 then .ok (b, none)
      else
        match pushPrefill cfg g (prefillChunk g space) 0 b none with
        | .error e => .error (i, e)
        | .ok (b', tail) => .ok (b', some (i, (prefillChunk g space).length, tail))
    else buildPrefill cfg rest (i + 1) b

/-! ### Decoding -/

/-- The cells a batch computes for a sequence. -/
def batchCells (batch : List BatchTok) (s : SeqId) : List Cell :=
  (batch.filter fun b => b.seq = s).map BatchTok.cell

/-- The cells a successful decode adds to the record of each job. -/
def logDecoded (active : List ActiveGen) (batch : List BatchTok) (decoded : JobId → List Cell) :
    JobId → List Cell := fun j =>
  decoded j ++ (active.filter fun g => g.job.id = j).flatMap fun g => batchCells batch g.seq

/-- A successful `decode_batch`: the pushed tokens are appended at their positions. -/
def decodeOk (h : Host) (active : List ActiveGen) (batch : List BatchTok) : Host :=
  { h.tick with
    kv := fun s => h.kv s ++ batchCells batch s
    decoded := logDecoded active batch h.decoded }

/-- The context that the logits at an index are for. -/
def logitsAt (h : Host) (batch : List BatchTok) (index : ℕ) : List Cell :=
  match batch[index]? with
  | some b => upTo (h.kv b.seq) b.pos
  | none => []

/-- What an interrupted generation reports: its confirmed tokens, what was
delivered, and a finish that was only waiting for its backlog. A deferred error is
dropped. -/
def interruptGen (g : ActiveGen) (error : String) : InterruptedGen :=
  { job := g.job
    state :=
      { promptTokens := g.promptTokens
        generatedTokens := g.priorGenerated ++ g.attemptTokens
        piecesSent := g.piecesSent
        scan := g.scan
        finish :=
          match g.terminalAfterDrain with
          | some (.finish kind) => some kind
          | _ => none }
    error := error }

/-- Free the cache of every retained slot. -/
def clearRetained (h : Host) : Host := h.retained.foldl (fun h r => h.clearSeq r.seq) h

/-- The slots no active generation owns, in the order of a fresh session. -/
def freeSlots (cfg : Cfg) (active : List ActiveGen) : List SeqId :=
  (List.range cfg.nSeqMax).reverse.filter fun s => !active.any fun g => g.seq == s

/-- A failed decode leaves an arbitrary cache for the pushed sequences. -/
def tornHost (env : Env) (h : Host) (batch : List BatchTok) : Host :=
  { h.tick with kv := fun s => if s ∈ batch.map BatchTok.seq then env.torn h.clock s else h.kv s }

/-- Step 8, failure. -/
def decodeFailed (env : Env) (cfg : Cfg) (s : Loop) (batch : List BatchTok) (error : String) : Loop :=
  let h := tornHost env s.host batch
  let h := if cfg.distributed then h else clearRetained h
  let h := { h with retained := [], synced := none }
  let (h, active) :=
    if cfg.distributed then
      ({ h with
          interrupted := h.interrupted ++
            (s.active.filter ActiveGen.outcome).map fun g => interruptGen g error }, [])
    else
      let r := sweepActive (fun h g => failSeq env h { g with kvSuspect := true } error) h s.active
      (r.1, retainActive r.2)
  { s with host := { h with free := freeSlots cfg active }, active := active }

/-! ### After the decode -/

/-- Finish now, or behind the pieces still held. -/
def finishOrDefer (env : Env) (h : Host) (g : ActiveGen) (kind : FinishKind) (retain : Bool) :
    Host × ActiveGen :=
  if g.held = [] then finishSeq env h g kind retain
  else (h, { g with terminalAfterDrain := some (.finish kind) })

/-- A freshly sampled token of a decoding generation: end of generation finishes
it, any other token is rendered and staged. -/
def takeSample (env : Env) (cfg : Cfg) (h : Host) (g : ActiveGen) (next : Token) : Host × ActiveGen :=
  if env.isEog next then finishOrDefer env h g .stop cfg.kvReuse
  else
    match env.tokenToPiece next with
    | .ok piece => stagePending env cfg.distributed h g next piece
    | .error e => failSeq env h g e

/-- The confirmed generation goes on: `Length` on a spent budget, otherwise the
next token is sampled from this step's logits. -/
def continueDecode (env : Env) (cfg : Cfg) (h : Host) (g : ActiveGen) (context : List Cell) :
    Host × ActiveGen :=
  if g.remaining = 0 then finishOrDefer env h g .length cfg.kvReuse
  else
    let (h, next) := sampleIth env h context
    takeSample env cfg h g next

/-- A token was decoded. -/
def ActiveGen.confirm (g : ActiveGen) (tok : Token) : ActiveGen :=
  { g with
    kvLen := g.kvLen + 1
    pending := none
    attemptTokens := g.attemptTokens ++ [tok]
    remaining := usizeSub g.remaining 1 }

/-- Step 9, one generation: confirm its pending token, emit the piece if it is
still unsent, and sample the next token. -/
def postDecode (env : Env) (cfg : Cfg) (h : Host) (g : ActiveGen) (context : List Cell) :
    Host × ActiveGen :=
  match g.pending with
  | none => (h, g)
  | some (.sent tok false) => finishSeq env h (g.confirm tok) .stop cfg.kvReuse
  | some (.sent tok true) => continueDecode env cfg h (g.confirm tok) context
  | some (.unsent tok piece) =>
    let (scan, admitted) := g.scan.admitPiece piece
    let g := { g.confirm tok with scan := scan }
    if admitted then
      match trySend env h g.job.id (.token piece) with
      | (h', .ok) => continueDecode env cfg h' g.noteSent context
      | (h', .full) =>
        continueDecode env cfg h' { g.noteStall env h' with held := g.held ++ [piece] } context
      | (h', .closed) => cancelSeq h' g
    else finishSeq env h g .stop cfg.kvReuse

/-- Step 9: the stepped generations in order, by their index in `active`. -/
def postDecodes (env : Env) (cfg : Cfg) (logits : ℕ → List Cell) :
    List (ℕ × ℕ) → Host → List ActiveGen → Host × List ActiveGen
  | [], h, active => (h, active)
  | (i, index) :: rest, h, active =>
    match active[i]? with
    | none => postDecodes env cfg logits rest h active
    | some g =>
      let r := postDecode env cfg h g (logits index)
      postDecodes env cfg logits rest r.1 (active.set i r.2)

/-- The first token after a completed prefill: end of generation straight after the
prompt is a stop with nothing generated. -/
def firstSample (env : Env) (cfg : Cfg) (h : Host) (g : ActiveGen) (first : Token) : Host × ActiveGen :=
  if env.isEog first then finishSeq env h g .stop cfg.kvReuse
  else
    match env.tokenToPiece first with
    | .ok piece => stagePending env cfg.distributed h g first piece
    | .error e => failSeq env h g e

/-- The bookkeeping of a decoded prefill chunk. -/
def ActiveGen.notePrefill (g : ActiveGen) (chunk : ℕ) : ActiveGen :=
  { g with kvLen := g.kvLen + chunk, prefillDone := g.prefillDone + chunk }

/-- Step 10: account the prefill chunk; a completed prefill samples its first
token from the prefix tail's logits. -/
def postPrefill (env : Env) (cfg : Cfg) (h : Host) (g : ActiveGen) (chunk : ℕ) (context : List Cell) :
    Host × ActiveGen :=
  if g.done then (h, g)
  else
    let g := g.notePrefill chunk
    if g.prefillDone = g.prefixToks.length then
      let (h, first) := sampleIth env h context
      firstSample env cfg h g first
    else (h, g)

end OneBrain.Engine
