import Mathlib.Algebra.BigOperators.Group.List.Basic
import OneBrain.Engine.Prepare

/-!
# Sweeps and admission

The lists of the serve loop and the steps between the message pump and the batch:
the disconnect sweep, the stall grace while a model swap is pending, and
admission of queued jobs onto sequence slots with prefix reuse and eviction.
-/

namespace OneBrain.Engine

/-- A message that replaces the loaded model. -/
inductive Ctrl
  /-- Load a model; `none` when the load fails. -/
  | load (next : Option Cfg)
  | unload
  /-- Serve a shard of another node's plan. -/
  | serveShard (epoch : ℕ)

/-- The local variables of `serve_model`, with the host they act on. -/
structure Loop where
  host : Host
  active : List ActiveGen
  queue : List PreparedGen
  nextUid : ℕ
  specDisabled : Bool
  ctrl : Option Ctrl

/-- Generations that are done leave. -/
def retainActive (active : List ActiveGen) : List ActiveGen := active.filter fun g => !g.done

/-- `for g in active.iter_mut()`: thread the host through the generations in order. -/
def sweepActive (f : Host → ActiveGen → Host × ActiveGen) :
    Host → List ActiveGen → Host × List ActiveGen
  | h, [] => (h, [])
  | h, g :: rest =>
    let r := f h g
    let q := sweepActive f r.1 rest
    (q.1, r.2 :: q.2)

/-! ### Steps 4 and 4b -/

/-- Step 4, one generation: a gone client frees its sequence. -/
def dropClosed (env : Env) (h : Host) (g : ActiveGen) : Host × ActiveGen :=
  if g.done then (h, g)
  else if env.closed g.job.id h.clock then cancelSeq h.tick g
  else (h.tick, g)

/-- Step 4, the queue: jobs whose client is gone are reported `Finished` and dropped. -/
def dropClosedQueue (env : Env) : Host → List PreparedGen → Host × List PreparedGen
  | h, [] => (h, [])
  | h, p :: rest =>
    if env.closed p.job.id h.clock then
      dropClosedQueue env (h.tick.finish p.ending) rest
    else
      let r := dropClosedQueue env h.tick rest
      (r.1, p :: r.2)

/-- Step 4b, one generation: a client stalled through the grace is reaped like a
disconnect, and its parked terminals are dropped. -/
def reapStalled (env : Env) (h : Host) (g : ActiveGen) : Host × ActiveGen :=
  match g.stalledSince with
  | some t =>
    if g.done = false ∧ SWAP_STALL_GRACE ≤ env.now h.clock - t then
      let (h', g') := cancelSeq h.tick g
      ({ h' with
          outbox := h'.outbox.filter fun p => p.tx ≠ g.job.id
          reaped := h'.reaped ++ [g.job.id] }, g')
    else (h.tick, g)
  | none => (h, g)

/-! ### Step 5: admission -/

/-- How far two lists agree. -/
def commonPrefixLen : List Token → List Token → ℕ
  | a :: as, b :: bs => if a = b then commonPrefixLen as bs + 1 else 0
  | _, _ => 0

/-- The retained slot with the longest common prefix at or above the floor: its
index and the length to reuse, one token short of the whole prompt at most. -/
def bestReuse (prompt : List Token) : List RetainedSlot → ℕ → Option (ℕ × ℕ) → Option (ℕ × ℕ)
  | [], _, best => best
  | slot :: rest, idx, best =>
    let lcp := min (commonPrefixLen slot.history prompt) (prompt.length - 1)
    bestReuse prompt rest (idx + 1)
      (if REUSE_FLOOR ≤ lcp ∧ ∀ b ∈ best, b.2 < lcp then some (idx, lcp) else best)

/-- The slot a reuse match points at. -/
def reuseSeq (retained : List RetainedSlot) (reuse : Option (ℕ × ℕ)) : Option SeqId :=
  reuse.bind fun r => retained[r.1]?.map RetainedSlot.seq

/-- Cache tokens held by the retained slots other than the reuse match. -/
def cachedOthers (retained : List RetainedSlot) (keep : Option SeqId) : ℕ :=
  ((retained.filter fun r => some r.seq ≠ keep).map fun r => r.history.length).sum

/-- Evict retained slots oldest first until the new budget fits or none is left to
evict. Each round removes a slot, so as many rounds as there are slots suffice. -/
def makeRoom (used budget nCtx : ℕ) : ℕ → Host → Option (ℕ × ℕ) → Host × Option (ℕ × ℕ)
  | 0, h, reuse => (h, reuse)
  | n + 1, h, reuse =>
    let keep := reuseSeq h.retained reuse
    if used + budget + cachedOthers h.retained keep ≤ nCtx then (h, reuse)
    else
      match h.retained.findIdx? fun r => some r.seq ≠ keep with
      | none => (h, reuse)
      | some pos =>
        match h.retained[pos]? with
        | none => (h, reuse)
        | some victim =>
          makeRoom used budget nCtx n
            ({ h with retained := h.retained.eraseIdx pos }.clearSeq victim.seq)
            (reuse.map fun r => (if pos < r.1 then r.1 - 1 else r.1, r.2))

/-- Remove an item; the last one takes its place. -/
def swapRemove {α : Type*} (l : List α) (pos : ℕ) : List α :=
  match l.getLast? with
  | some x => l.dropLast.set pos x
  | none => l

/-- `rposition`: the last index whose element satisfies `p`. -/
def rposition {α : Type*} (p : α → Bool) (l : List α) : Option ℕ :=
  (l.reverse.findIdx? p).map fun i => l.length - 1 - i

/-- Where a job without a reuse match goes: the last free slot without a cache, or
else the oldest cache's slot. Returns the position in `free` and the caches left. -/
def coldSlot (free : List SeqId) (retained : List RetainedSlot) : Option (ℕ × List RetainedSlot) :=
  match rposition (fun s => !retained.any fun r => r.seq == s) free with
  | some pos => some (pos, retained)
  | none =>
    match retained with
    | [] => none
    | oldest :: rest => (free.findIdx? fun s => s == oldest.seq).map fun pos => (pos, rest)

/-- Slot choice: the reuse match wins its own slot, trimmed to the common prefix (or
cleared when the memory cannot drop a partial range); any other slot starts empty.
`none` stands for a panic of the source. -/
def takeSlot (env : Env) (h : Host) : Option (ℕ × ℕ) → Option (Host × SeqId × ℕ)
  | some (idx, lcp) =>
    match h.retained[idx]? with
    | none => none
    | some slot =>
      let h := { h with
        retained := h.retained.eraseIdx idx
        free := h.free.filter fun s => s ≠ slot.seq }
      match seqRm env h slot.seq lcp with
      | (h', none) => some (h', slot.seq, lcp)
      | (h', some _) => some (h'.clearSeq slot.seq, slot.seq, 0)
  | none =>
    match coldSlot h.free h.retained with
    | none => none
    | some (pos, retained) =>
      match h.free[pos]? with
      | none => none
      | some seq =>
        some ({ h with
                free := swapRemove h.free pos
                retained := retained.filter fun r => r.seq ≠ seq }.clearSeq seq, seq, 0)

/-- `admit`: a queue entry becomes an active generation on `seq`. -/
def admitGen (p : PreparedGen) (seq : SeqId) (reused uid : ℕ) : ActiveGen :=
  { seq := seq
    uid := uid
    job := p.job
    outcome := true
    promptTokens := p.promptTokens
    priorGenerated := p.priorGenerated
    scan := p.scan
    prefixToks := p.promptTokens ++ p.priorGenerated
    prefillDone := reused
    reused := reused
    kvLen := reused
    attemptTokens := []
    pending := none
    held := p.unsent
    terminalAfterDrain :=
      match p.finish with
      | some kind => some (.finish kind)
      | none => if p.remaining = 0 then some (.finish .length) else none
    remaining := p.remaining
    budget := p.budget
    piecesSent := p.priorPieces
    drafted := 0
    accepted := 0
    kvSuspect := false
    stalledSince := none
    done := false }

/-- What became of the queue's head. -/
inductive Admit
  /-- It waits for headroom; nothing overtakes it. -/
  | waits (h : Host)
  /-- Its sampler could not be built: ended. -/
  | failed (h : Host)
  | admitted (h : Host) (g : ActiveGen)

/-- Tokens reserved by the active generations. -/
def usedBudget (active : List ActiveGen) : ℕ := (active.map ActiveGen.budget).sum

/-- Admit the first one waiting, if there is room. -/
def admitFront (env : Env) (cfg : Cfg) (s : Loop) (p : PreparedGen) : Admit :=
  let used := usedBudget s.active
  let reuse :=
    if cfg.kvReuse && !p.resumed then bestReuse p.promptTokens s.host.retained 0 none else none
  let (h, reuse) := makeRoom used p.budget cfg.nCtx s.host.retained.length s.host reuse
  if used + p.budget + cachedOthers h.retained (reuseSeq h.retained reuse) ≤ cfg.nCtx then
    match env.samplerFails h.clock with
    | some e =>
      .failed ((deliverTerminal env h.tick p.job.id (.error e)).finish p.ending)
    | none =>
      match takeSlot env h.tick reuse with
      | none => .waits h
      | some (h, seq, reused) => .admitted h (admitGen p seq reused s.nextUid)
  else .waits h

/-- Step 5: admit from the head of the queue while slots and headroom last. -/
def admission (env : Env) (cfg : Cfg) : List PreparedGen → Loop → Loop
  | [], s => { s with queue := [] }
  | p :: rest, s =>
    if s.active.length < cfg.nSeqMax then
      match admitFront env cfg s p with
      | .waits h => { s with host := h, queue := p :: rest }
      | .failed h => admission env cfg rest { s with host := h }
      | .admitted h g =>
        admission env cfg rest
          { s with host := h, active := s.active ++ [g], nextUid := s.nextUid + 1 }
    else { s with queue := p :: rest }

end OneBrain.Engine
