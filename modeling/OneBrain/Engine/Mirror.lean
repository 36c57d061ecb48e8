import OneBrain.Engine.JobSys

/-!
# The bookkeeping mirrors the caches

What the serve loop believes about the caches is what they hold, in every reachable
state: an active generation's cache is the beginning of its stream, a retained slot's
cache is its recorded history, a draft cache marked as synced is the beginning of the
stream it is marked for, and every token of a batch is placed right behind the cache
of its sequence.

There is one exception, and the run at the end of the module reaches it. A round may
accept drafts past a stop match; when the memory cannot drop them and the client is
behind, the generation waits for its client with those tokens in the cache and counted
in its length. It is never stepped again and its error is already decided.
-/

namespace OneBrain.Engine

open OneBrain.Lib

variable {env : Env} {cfg : Cfg}

/-- A generation that failed to drop the tokens past a stop match and waits for its
client: the cache holds its stream and those tokens, and its length counts them. -/
def TrimFailed (h : Host) (g : ActiveGen) : Prop :=
  (∃ e, g.terminalAfterDrain = some (.error (trimError e))) ∧ g.steppable = false ∧
    ∃ extra, h.kv g.seq = layout (g.stream ++ extra) ∧ g.kvLen = (g.stream ++ extra).length

/-- What the loop records about the caches is true. -/
structure KvMirror (env : Env) (cfg : Cfg) (s : Loop) : Prop where
  /-- An active generation's cache is the first `kvLen` tokens of its stream. -/
  active : ∀ g ∈ s.active, (g.kvLen ≤ g.stream.length ∧ s.host.kv g.seq = layout (g.stream.take g.kvLen)) ∨
    TrimFailed s.host g
  /-- A retained slot's cache is its history. -/
  retained : ∀ r ∈ s.host.retained, s.host.kv r.seq = layout r.history
  /-- A draft cache synced to a generation up to `n` is the first `n` tokens of its stream. -/
  draft : ∀ g ∈ s.active, ∀ n, s.host.synced = some (g.uid, n) →
    n ≤ g.stream.length ∧ s.host.draftKv = layout (g.stream.take n)
  /-- Every token of a plain batch is placed behind its sequence's cache. -/
  plain : ∀ b decodes batch prefill, buildDecodes cfg s.active 0 [] [] = .ok (b, decodes) →
    buildPrefill cfg s.active 0 b = .ok (batch, prefill) → Placed s.host.kv batch
  /-- So is every token of a speculative batch. -/
  spec : ∀ g pending h step, specTarget cfg s = some (g, pending) →
    buildSpecStep env cfg s.host g pending.tok = (h, .ok step) → Placed s.host.kv step.batch

theorem Cache.mirror_or_failed {h : Host} {g : ActiveGen} (hg : GenOk cfg h g []) :
    (g.kvLen ≤ g.stream.length ∧ h.kv g.seq = layout (g.stream.take g.kvLen)) ∨ TrimFailed h g := by
  cases hg.cache with
  | mirror len kv =>
    refine .inl ⟨?_, by rwa [List.append_nil] at kv⟩
    have := hg.prefill_le
    rw [len, length_stream]
    omega
  | untrimmed e extra term kv len =>
    exact .inr ⟨⟨e, term⟩, by simp [ActiveGen.steppable, term], extra, kv, len⟩

theorem LoopOk.kvMirror {s : Loop} (hs : LoopOk cfg s) : KvMirror env cfg s where
  active g hg := Cache.mirror_or_failed (hs.mid.gens g hg (hs.live g hg))
  retained := hs.mid.slots.retained_kv
  draft g hg := hs.draft g hg (hs.live g hg)
  plain _ _ _ _ hd hp := (plainBatch_of_build hd hp).placed hs.mid hs.live
  spec g pending h step ht hb := by
    obtain ⟨hactive, hel, -⟩ := specTarget_eq ht
    have hmem : g ∈ s.active := by simp [hactive]
    have hstep := (specEligible_steps hel).1
    obtain ⟨hbatch, -⟩ := buildSpecStep_ok hb
    rw [hbatch]
    exact spec_placed ((hs.mid.gens g hmem (hs.live g hmem)).length_kv hstep)

/-- **KV mirror.** In every reachable state of the serve loop the caches are what the
loop records, apart from a generation whose trim past a stop match failed. -/
theorem kv_mirror {s : Sys} {pc : Pc} (hs : Reachable env s) (hp : s.phase = .serving cfg pc) :
    KvMirror env cfg s.loop :=
  (hs.sysOk.loop cfg pc hp).kvMirror

/-! ### A run that reaches the exception -/

/-- Target and draft agree on `a`, `a`, `b`, then `a` for ever; a partial removal is
not supported, and the client reads nothing after the first piece. -/
def trimEnv : Env :=
  { calmEnv with
    tokenToPiece := fun t => .ok (if t = 2 then ['b'] else ['a'])
    sample := fun _ cells => if cells.length = 3 then 2 else 1
    draftSample := fun _ cells => if cells.length = 3 then 2 else 1
    seqRmFails := fun _ => some "unsupported"
    room := fun _ n _ => n == 0
    room_fresh := fun _ _ => rfl }

/-- A local model with a draft. -/
def trimCfg : Cfg :=
  { name := "m", reference := "m", nSeqMax := 1, nBatch := 4, nCtx := 64, distributed := false
    kvReuse := true, hasDraft := true, batchError := none
    nSeqMax_pos := Nat.succ_pos _, nBatch_pos := Nat.succ_pos _ }

/-- A request with a stop string. -/
def trimRequest : Request :=
  { model := "m", prompt := .raw ['p'], maxTokens := 20, temperature := 0, stop := [['b']] }

/-- Load, submit, prefill, and one speculative round. -/
def trimLabels : List Label :=
  .control (.load (some trimCfg)) :: .tick :: .submit trimRequest :: List.replicate 9 .tick

/-- The round accepted `a`, `b`, `a`: the stop match keeps `a` and `b`, and the trim of the
last token fails while `a` is held. The cache is not the stream's first `kvLen` tokens. -/
theorem trim_failure_run : (run trimEnv Sys.init trimLabels).phase = .serving trimCfg .deliver ∧
      ∃ g ∈ (run trimEnv Sys.init trimLabels).loop.active,
        (run trimEnv Sys.init trimLabels).loop.host.kv g.seq ≠ layout (g.stream.take g.kvLen) := by
  have hrun : (run trimEnv Sys.init trimLabels).loop.active.map (fun g =>
      (g.kvLen, g.stream, (run trimEnv Sys.init trimLabels).loop.host.kv g.seq)) =
        [(5, [0, 1, 1, 2], [(0, 0), (1, 1), (1, 2), (2, 3), (1, 4)])] := by decide +kernel
  refine ⟨rfl, ?_⟩
  cases hactive : (run trimEnv Sys.init trimLabels).loop.active with
  | nil => simp [hactive] at hrun
  | cons g =>
    simp only [hactive, List.map_cons, List.cons.injEq, Prod.mk.injEq] at hrun
    obtain ⟨⟨hlen, hstream, hkv⟩, -⟩ := hrun
    refine ⟨g, by simp, ?_⟩
    rw [hkv, hstream, hlen]
    decide

theorem kv_mirror_trim_run : KvMirror trimEnv trimCfg (run trimEnv Sys.init trimLabels).loop :=
  kv_mirror ⟨trimLabels, rfl⟩ (show _ = Phase.serving trimCfg .deliver from rfl)

end OneBrain.Engine
