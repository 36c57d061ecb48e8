import Mathlib.Data.List.Infix
import Mathlib.Data.Rat.Defs
import Mathlib.Algebra.Order.Ring.Rat
import OneBrain.Lib.Cells

/-!
# The engine host: data

The engine host is one thread that owns the inference engine and serves
generation jobs. Its loop keeps the running generations in `active`, the
accepted ones that still wait in `queue`, terminal events a slow client has no
room for in `outbox`, and the token histories whose key/value cache survived a
finished generation in `retained`.

## The model

* Tokens are integers, text is a list of characters (byte lengths are UTF-8
  lengths), a job is identified with its client channel and a sequence slot of
  the session is a natural number.
* Everything the thread does not control is an `Env`: what the model samples,
  when a decode or a partial cache removal fails, what a failed decode leaves in
  the cache, how fast each client reads and when it goes away. These are
  functions of a *clock* the loop advances at every question it asks, so that a
  run is a function of the environment and all environments together are all
  behaviours.
* A channel is its whole history of accepted events. Whether it has room is
  asked of the environment; the only law is that a channel nothing was ever sent
  on has room.

## Honest scope

Wall-clock statistics (`prefill_ms`, `decode_ms`, `ttft_ms`), log lines and the
test-only decode delay are left out: no decision of the loop reads them. A
sampler chain is its temperature (the loop reads nothing else of it); what it
draws is the environment's `sample`.
-/

namespace OneBrain.Engine

open OneBrain.Lib

/-- A vocabulary entry. -/
abbrev Token := ℤ

/-- A text. -/
abbrev Text := List Char

/-- A client's event channel, which is also the identity of its job. -/
abbrev JobId := ℕ

/-- A sequence slot of the session. -/
abbrev SeqId := ℕ

/-- One cache cell: a token and the position it was decoded at. -/
abbrev Cell := Token × ℕ

/-- `SPEC_K`: draft tokens proposed per speculative round. -/
def SPEC_K : ℕ := 8

/-- `REUSE_FLOOR`: the shortest common prefix worth reusing. -/
def REUSE_FLOOR : ℕ := 64

/-- How long a client may hold up a swap, in milliseconds. -/
def SWAP_STALL_GRACE : ℕ := 10000

/-- `usize` subtraction with the wrap-around an unchecked build has. -/
def usizeSub (a b : ℕ) : ℕ := if b ≤ a then a - b else a + 2 ^ 64 - b

theorem usizeSub_of_le {a b : ℕ} (h : b ≤ a) : usizeSub a b = a - b := if_pos h

/-! ### Requests and events -/

/-- Why a generation ended. -/
inductive FinishKind
  /-- End of generation sampled, or a stop string completed. -/
  | stop
  | length
  | abort
  deriving DecidableEq, Repr

/-- The statistics a `Done` event carries. -/
structure DoneStats where
  promptTokens : ℕ
  completionTokens : ℕ
  finish : FinishKind
  drafted : ℕ
  accepted : ℕ
  deriving DecidableEq, Repr

/-- What a client receives. -/
inductive TokenEvent
  | token (piece : Text)
  | done (stats : DoneStats)
  | error (message : String)
  deriving DecidableEq, Repr

/-- A terminal event ends the stream. -/
def TokenEvent.isTerminal : TokenEvent → Bool
  | .token _ => false
  | .done _ => true
  | .error _ => true

/-- A prompt. -/
inductive PromptInput
  | raw (text : Text)
  /-- Chat turns, each a role and its content. -/
  | chat (messages : List (Text × Text))
  deriving DecidableEq, Repr

/-- One generation request; `id` stands for its channel `tx`. -/
structure GenerateJob where
  id : JobId
  model : String
  prompt : PromptInput
  maxTokens : ℕ
  temperature : ℚ
  stop : List Text
  deriving DecidableEq, Repr

/-! ### The stop scanner -/

/-- The length of a text in bytes. -/
def byteLen (t : Text) : ℕ := (t.map Char.utf8Size).sum

/-- Stop-string holdback: pieces are admitted until one completes a stop-string
match across the accumulated output. -/
structure StopScan where
  stops : List Text
  /-- Accumulated tail, trimmed to the longest useful suffix. -/
  tail : Text
  /-- Bytes of tail a future cross-piece match could still need. -/
  keep : ℕ
  deriving DecidableEq, Repr

/-- A scan at its start. -/
def StopScan.new (stops : List Text) : StopScan :=
  let stops := stops.filter fun s => !s.isEmpty
  { stops := stops, tail := [], keep := (stops.map byteLen).foldr max 0 - 1 }

/-- Drop the bytes no future match can straddle, at a character boundary. -/
def trimTail (keep : ℕ) : Text → Text
  | [] => []
  | c :: t => if keep < byteLen (c :: t) then trimTail keep t else c :: t

/-- `StopScan::admit`: the scanner after `piece`, and whether it is safe to emit. -/
def StopScan.admitPiece (s : StopScan) (piece : Text) : StopScan × Bool :=
  if s.stops.isEmpty then (s, true)
  else
    let tail := s.tail ++ piece
    if s.stops.any fun stop => decide (stop <:+: tail) then ({ s with tail := tail }, false)
    else ({ s with tail := trimTail s.keep tail }, true)

/-! ### Generations -/

/-- A sampled token whose own decode has not happened yet. -/
inductive PendingTok
  /-- Distributed: the piece waits for the token's decode. -/
  | unsent (tok : Token) (piece : Text)
  /-- Solo: the piece went through the stop scan at sample time. -/
  | sent (tok : Token) (admitted : Bool)
  deriving DecidableEq, Repr

/-- Its token. -/
def PendingTok.tok : PendingTok → Token
  | .unsent tok _ => tok
  | .sent tok _ => tok

/-- A terminal decided while pieces are still held. -/
inductive DeferredTerminal
  | finish (kind : FinishKind)
  | error (message : String)
  deriving DecidableEq, Repr

/-- What an interrupted attempt hands to its successor. -/
structure ResumeState where
  promptTokens : List Token
  generatedTokens : List Token
  piecesSent : ℕ
  /-- The stop scanner, as the interrupted attempt left it. -/
  scan : StopScan
  finish : Option FinishKind
  deriving DecidableEq, Repr

/-- A job as the supervisor sends it. -/
structure SupervisedGenerate where
  job : GenerateJob
  resume : Option ResumeState
  deriving DecidableEq, Repr

/-- A generation a distributed decode failure interrupted. -/
structure InterruptedGen where
  job : GenerateJob
  state : ResumeState
  error : String
  deriving DecidableEq, Repr

/-- An accepted job waiting for a sequence slot. -/
structure PreparedGen where
  job : GenerateJob
  promptTokens : List Token
  priorGenerated : List Token
  priorPieces : ℕ
  scan : StopScan
  remaining : ℕ
  /-- Cache budget: prompt plus `max_tokens`. -/
  budget : ℕ
  resumed : Bool
  /-- Pieces of confirmed tokens the client has not received. -/
  unsent : List Text
  /-- A finish carried from the interrupted attempt. -/
  finish : Option FinishKind
  deriving DecidableEq, Repr

/-- A generation that owns a sequence slot. -/
structure ActiveGen where
  seq : SeqId
  uid : ℕ
  job : GenerateJob
  /-- Whether the outcome is still to be reported. -/
  outcome : Bool
  promptTokens : List Token
  priorGenerated : List Token
  scan : StopScan
  /-- Prompt and earlier tokens: what this attempt prefills. -/
  prefixToks : List Token
  prefillDone : ℕ
  /-- Prefix tokens taken over from a retained cache. -/
  reused : ℕ
  kvLen : ℕ
  attemptTokens : List Token
  pending : Option PendingTok
  /-- Pieces parked on a full channel, oldest first. -/
  held : List Text
  /-- A terminal waiting behind `held`. -/
  terminalAfterDrain : Option DeferredTerminal
  remaining : ℕ
  budget : ℕ
  piecesSent : ℕ
  drafted : ℕ
  accepted : ℕ
  /-- The cache lived through a failed solo decode. -/
  kvSuspect : Bool
  /-- When the channel was first found full since the last delivery. -/
  stalledSince : Option ℕ
  done : Bool
  deriving DecidableEq, Repr

/-- The token stream of a generation: its prefix and what this attempt confirmed. -/
def ActiveGen.stream (g : ActiveGen) : List Token := g.prefixToks ++ g.attemptTokens

/-- Every confirmed token of the job so far. -/
def ActiveGen.confirmed (g : ActiveGen) : List Token := g.priorGenerated ++ g.attemptTokens

/-! ### The record of a job that is over -/

/-- What a job had come to when it ended. The thread keeps nothing of such a job; the
model records it, so that the block that ends a job can be spoken about. -/
structure JobRecord where
  job : GenerateJob
  promptTokens : List Token
  /-- The tokens confirmed for it over all attempts. -/
  confirmed : List Token
  /-- Whether it ended as a member of the active set. -/
  served : Bool
  deriving DecidableEq, Repr

/-- The record of a generation that leaves the active set. -/
def ActiveGen.ending (g : ActiveGen) : JobRecord := ⟨g.job, g.promptTokens, g.confirmed, true⟩

/-- The record of a job that ends in the queue. -/
def PreparedGen.ending (p : PreparedGen) : JobRecord := ⟨p.job, p.promptTokens, p.priorGenerated, false⟩

/-- The record of a job that ends in the mail, with what it carries from earlier attempts. -/
def SupervisedGenerate.ending (sup : SupervisedGenerate) : JobRecord :=
  ⟨sup.job, (sup.resume.map ResumeState.promptTokens).getD [], (sup.resume.map ResumeState.generatedTokens).getD [],
    false⟩

/-- The record of a job the supervisor gives up on. -/
def InterruptedGen.ending (gen : InterruptedGen) : JobRecord :=
  ⟨gen.job, gen.state.promptTokens, gen.state.generatedTokens, false⟩

/-- A finished slot whose cache is kept for prefix reuse. -/
structure RetainedSlot where
  seq : SeqId
  history : List Token
  deriving DecidableEq, Repr

/-- A terminal event whose client channel was full. -/
structure PendingTerminal where
  tx : JobId
  event : TokenEvent
  deriving DecidableEq, Repr

end OneBrain.Engine
