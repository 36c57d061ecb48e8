import Mathlib.Data.List.Nodup
import OneBrain.Engine.Batch

/-!
# The blocks as turns

Each block of the loop, apart from what it does to the message queue and the job
queue, is a chain of turns of the active generations; an engine step is a decode of
a placed batch followed by such a chain. These are the statements the invariants of
the loop are proved from.
-/

namespace OneBrain.Engine

open List OneBrain.Lib

variable {env : Env} {cfg : Cfg} {drafting : Bool}

/-! ### The plain step -/

/-- What the builders of the plain step produced. -/
structure PlainBatch (cfg : Cfg) (active : List ActiveGen) (batch : List BatchTok)
    (decodes : List (ℕ × ℕ)) (prefill : Option (ℕ × ℕ × Option ℕ)) : Prop where
  decodes_eq : decodes = decodeIndexes active 0 0
  /-- Their tokens, and the chunk of at most one generation that still prefills. -/
  batch_eq : (prefill = none ∧ batch = active.filterMap decodeTok) ∨
    ∃ k g n tail, prefill = some (k, (prefillChunk g n).length, tail) ∧ active[k]? = some g ∧
      g.steppable = true ∧ g.prefilled = false ∧ 0 < n ∧
      batch = active.filterMap decodeTok ++ chunkToks g (prefillChunk g n) 0 ∧
      (g.prefillDone + (prefillChunk g n).length = g.prefixToks.length →
        tail = some ((active.filterMap decodeTok).length + (prefillChunk g n).length - 1))

theorem prefillChunk_ne {g : ActiveGen} {n : ℕ} (hp : g.prefilled = false) (hn : 0 < n) :
    prefillChunk g n ≠ [] := by
  have hlt : g.prefillDone < g.prefixToks.length := by
    by_contra hge
    have : g.prefilled = true := by simpa [ActiveGen.prefilled] using hge
    rw [this] at hp
    cases hp
  intro hnil
  have := congrArg List.length hnil
  simp only [prefillChunk, length_take, length_drop, length_nil] at this
  omega

theorem plainBatch_of_build {active : List ActiveGen} {b batch : List BatchTok}
    {decodes : List (ℕ × ℕ)} {prefill : Option (ℕ × ℕ × Option ℕ)}
    (hd : buildDecodes cfg active 0 [] [] = .ok (b, decodes))
    (hp : buildPrefill cfg active 0 b = .ok (batch, prefill)) :
    PlainBatch cfg active batch decodes prefill := by
  obtain ⟨hb, hds⟩ := buildDecodes_ok active 0 [] [] hd
  simp only [nil_append, length_nil] at hb hds
  subst hb
  refine ⟨hds, ?_⟩
  rcases buildPrefill_ok active 0 _ hp with h | ⟨k, g, n, tail, h1, h2, h3, h4, h5, h6, h7⟩
  · exact .inl h
  · exact .inr ⟨k, g, n, tail, by simpa using h1, h2, h3, h4, h5, h6, h7 (prefillChunk_ne h4 h5)⟩

variable {h h' : Host} {g : ActiveGen}

/-- A prefilled generation that is not over caches its whole stream. -/
theorem GenOk.kvLen_stream {ahead : List Token} (hg : GenOk cfg h g ahead)
    (hterm : g.terminalAfterDrain = none) (hpre : g.prefilled = true) : g.kvLen = g.stream.length := by
  rw [(hg.mirror (by simp [hterm])).1, length_stream, hg.prefillDone_eq hpre]

theorem GenOk.length_kv (hg : GenOk cfg h g []) (hstep : g.steppable = true) : (h.kv g.seq).length = g.kvLen := by
  obtain ⟨-, hterm⟩ := ActiveGen.steppable_iff.mp hstep
  obtain ⟨hlen, hkv⟩ := hg.mirror (by simp [hterm])
  have := hg.prefill_le
  have h2 := length_stream g
  rw [hkv, length_layout, append_nil, length_take]
  omega

section plain

variable {h : Host} {active : List ActiveGen} {batch : List BatchTok} {decodes : List (ℕ × ℕ)}
  {prefill : Option (ℕ × ℕ × Option ℕ)}

theorem nodup_seqs (hm : MidOk cfg ⟨h, active, noAhead⟩) (hlive : ∀ g ∈ active, g.done = false) :
    (active.map ActiveGen.seq).Nodup := by
  have := (nodup_append.mp hm.slots.nodup).1
  rwa [retainActive_live hlive] at this

theorem placed_decodes (hm : MidOk cfg ⟨h, active, noAhead⟩) (hlive : ∀ g ∈ active, g.done = false) :
    Placed h.kv (active.filterMap decodeTok) := by
  have hnodup := nodup_seqs hm hlive
  have hgen : ∀ g ∈ active, GenOk cfg h g [] := fun g hg => hm.gens g hg (hlive g hg)
  clear hm hlive
  induction active using List.reverseRecOn with
  | nil => exact placed_nil _
  | append_singleton l g ih =>
    rw [map_append, nodup_append] at hnodup
    have hrest := ih hnodup.1 fun g' hg' => hgen g' (by simp [hg'])
    rw [filterMap_append]
    cases hd : decodeTok g with
    | none => simpa [hd] using hrest
    | some =>
      obtain ⟨hstep, -, p, -, rfl⟩ := decodeTok_eq_some hd
      simp only [filterMap_cons, hd, filterMap_nil]
      refine hrest.snoc ?_
      have hnone : (l.filterMap decodeTok).filter (fun c => c.seq = g.seq) = [] := by
        rw [filter_eq_nil_iff]
        intro c hc
        obtain ⟨g', hg', -, hseq⟩ := mem_filterMap_decodeTok hc
        simp only [decide_eq_true_eq, hseq]
        exact hnodup.2.2 _ (mem_map_of_mem hg') _ (by simp)
      rw [hnone, (hgen g (by simp)).length_kv hstep]
      rfl

/-- **Every token of a plain step is placed at its sequence's cache length plus the
tokens already pushed for it.** -/
theorem PlainBatch.placed (hb : PlainBatch cfg active batch decodes prefill)
    (hm : MidOk cfg ⟨h, active, noAhead⟩) (hlive : ∀ g ∈ active, g.done = false) : Placed h.kv batch := by
  rcases hb.batch_eq with ⟨-, rfl⟩ | ⟨k, g, n, tail, -, hk, hstep, hpre, -, rfl, -⟩
  · exact placed_decodes hm hlive
  · have hg : g ∈ active := mem_of_getElem? hk
    refine (placed_decodes hm hlive).append_run (s := g.seq) ?_ ?_
    · intro b hb heq
      obtain ⟨g', hg', hd, hseq⟩ := mem_filterMap_decodeTok hb
      have hgg : g' = g := inj_on_of_nodup_map (nodup_seqs hm hlive) hg' hg (hseq ▸ heq)
      obtain ⟨-, hpre', -⟩ := decodeTok_eq_some hd
      rw [hgg, hpre] at hpre'
      cases hpre'
    · have hrun := (chunkToks_runAt g (prefillChunk g n) 0).1
      rwa [Nat.add_zero, ← (hm.gens g hg (hlive g hg)).length_kv hstep] at hrun

theorem PlainBatch.owner (hb : PlainBatch cfg active batch decodes prefill) :
    ∀ b ∈ batch, ∃ g ∈ active, g.seq = b.seq ∧ g.steppable = true := by
  have hdec : ∀ b ∈ active.filterMap decodeTok, ∃ g ∈ active, g.seq = b.seq ∧ g.steppable = true := by
    intro b hb
    obtain ⟨g, hg, hd, hseq⟩ := mem_filterMap_decodeTok hb
    exact ⟨g, hg, hseq.symm, (decodeTok_eq_some hd).1⟩
  intro b hmem
  rcases hb.batch_eq with ⟨-, rfl⟩ | ⟨k, g, n, tail, -, hk, hstep, -, -, rfl, -⟩
  · exact hdec b hmem
  · rcases mem_append.mp hmem with hmem | hmem
    · exact hdec b hmem
    · have hrun := (chunkToks_runAt g (prefillChunk g n) 0).1
      exact ⟨g, mem_of_getElem? hk, (hrun.seq b hmem).symm, hstep⟩

variable {g : ActiveGen}

theorem batchToks_decodes_none {l : List ActiveGen} (hnodup : (l.map ActiveGen.seq).Nodup)
    (hg : g ∈ l) (hd : decodeTok g = none) : batchToks (l.filterMap decodeTok) g.seq = [] := by
  refine batchToks_eq_nil fun b hb heq => ?_
  obtain ⟨g', hg', hd', hseq⟩ := mem_filterMap_decodeTok hb
  have hgg : g' = g := inj_on_of_nodup_map hnodup hg' hg (hseq ▸ heq)
  rw [hgg, hd] at hd'
  cases hd'

theorem PlainBatch.toks (hb : PlainBatch cfg active batch decodes prefill)
    (hnodup : (active.map ActiveGen.seq).Nodup) (hg : g ∈ active) :
    (∀ b, decodeTok g = some b → batchToks batch g.seq = [b.tok]) ∧ (decodeTok g = none →
      (∀ k n t, prefill = some (k, n, t) → active[k]? ≠ some g) → batchToks batch g.seq = []) ∧
    (∀ k n t, prefill = some (k, n, t) → active[k]? = some g →
      ∃ m, n = (prefillChunk g m).length ∧ g.steppable = true ∧ g.prefilled = false ∧
        batchToks batch g.seq = prefillChunk g m) := by
  have hchunk : ∀ g' n, (∀ e ∈ chunkToks g' (prefillChunk g' n) 0, e.seq = g'.seq) := fun g' n =>
    (chunkToks_runAt g' (prefillChunk g' n) 0).1.seq
  rcases hb.batch_eq with ⟨hp, rfl⟩ | ⟨k, g', n, tail, hp, hk, hstep, hpre, hn, rfl, -⟩
  · refine ⟨fun b hd => batchToks_decodes hnodup hg hd, fun hd _ => batchToks_decodes_none hnodup hg hd, ?_⟩
    intro k n t hp'
    rw [hp] at hp'
    cases hp'
  · have hg' : g' ∈ active := mem_of_getElem? hk
    have hnone : decodeTok g' = none := by simp [decodeTok, hpre]
    refine ⟨?_, ?_, ?_⟩
    · intro b hd
      have hne : g ≠ g' := by
        rintro rfl
        rw [hnone] at hd
        cases hd
      rw [batchToks_append, batchToks_decodes hnodup hg hd, batchToks_eq_nil (s := g.seq), append_nil]
      intro e he heq
      exact hne (inj_on_of_nodup_map hnodup hg hg' (heq.symm.trans (hchunk g' n e he)))
    · intro hd hnot
      have hne : g ≠ g' := by
        rintro rfl
        exact hnot _ _ _ hp hk
      rw [batchToks_append, batchToks_decodes_none hnodup hg hd, batchToks_eq_nil (s := g.seq), append_nil]
      intro e he heq
      exact hne (inj_on_of_nodup_map hnodup hg hg' (heq.symm.trans (hchunk g' n e he)))
    · intro k' n' t' hp' hk'
      rw [hp] at hp'
      simp only [Option.some.injEq, Prod.mk.injEq] at hp'
      obtain ⟨rfl, rfl, rfl⟩ := hp'
      rw [hk] at hk'
      simp only [Option.some.injEq] at hk'
      subst hk'
      refine ⟨n, rfl, hstep, hpre, ?_⟩
      rw [batchToks_append, batchToks_decodes_none hnodup hg hnone, nil_append,
        batchToks_run (hchunk g' n), (chunkToks_runAt g' (prefillChunk g' n) 0).2]

theorem PlainBatch.prefill_tail (hb : PlainBatch cfg active batch decodes prefill) {k n : ℕ} {t : Option ℕ}
    (hp : prefill = some (k, n, t)) (hk : active[k]? = some g) (hfull : g.prefillDone + n = g.prefixToks.length) :
    ∃ i b, t = some i ∧ batch[i]? = some b ∧ b.seq = g.seq ∧ b.pos + 1 = g.kvLen + n := by
  rcases hb.batch_eq with ⟨h0, -⟩ | ⟨k', g', m, tail, h1, hk', -, hpre, hm, rfl, htail⟩
  · simp [h0] at hp
  · rw [hp] at h1
    simp only [Option.some.injEq, Prod.mk.injEq] at h1
    obtain ⟨rfl, rfl, rfl⟩ := h1
    rw [hk'] at hk
    simp only [Option.some.injEq] at hk
    subst hk
    have hpos := length_pos_iff.mpr (prefillChunk_ne hpre hm)
    obtain ⟨hrun, htoks⟩ := chunkToks_runAt g' (prefillChunk g' m) 0
    have hlen : (chunkToks g' (prefillChunk g' m) 0).length = (prefillChunk g' m).length := by
      rw [← length_map BatchTok.tok, htoks]
    have hlast : (prefillChunk g' m).length - 1 < (chunkToks g' (prefillChunk g' m) 0).length := by omega
    refine ⟨_, _, htail hfull, ?_, hrun.seq _ (getElem_mem hlast), ?_⟩
    · rw [List.getElem?_append_right (by omega), List.getElem?_eq_some_iff]
      exact ⟨by omega, by congr 1; omega⟩
    · have := congrArg (·[(prefillChunk g' m).length - 1]?) hrun.pos
      simp only [List.getElem?_map, List.getElem?_eq_getElem hlast, Option.map_some] at this
      rw [List.getElem?_eq_getElem (by simpa using hlast)] at this
      simp only [getElem_range', Option.some.injEq] at this
      omega

end plain

/-! ### Decoding -/

theorem midOk_decode {active : List ActiveGen} {batch : List BatchTok}
    (hm : MidOk cfg ⟨h, active, noAhead⟩) (hlive : ∀ g ∈ active, g.done = false)
    (hplaced : Placed h.kv batch) (howner : ∀ b ∈ batch, ∃ g ∈ active, g.seq = b.seq ∧ g.steppable = true)
    (hlen : ∀ g ∈ active, g.prefilled = true → (batchToks batch g.seq).length ≤ g.remaining) :
    MidOk cfg ⟨decodeOk h active batch, active, batchToks batch⟩ := by
  have hnodup := nodup_seqs hm hlive
  refine ⟨⟨hm.slots.perm, hm.slots.retained_free, hm.slots.retained_nodup, ?_, hm.slots.pool⟩, ?_⟩
  · intro r hr
    have hnil : batchCells batch r.seq = [] := by
      have : batch.filter (fun b => b.seq = r.seq) = [] := by
        rw [filter_eq_nil_iff]
        intro b hb
        obtain ⟨g, hg, hseq, -⟩ := howner b hb
        simp only [decide_eq_true_eq, ← hseq]
        exact Ne.symm (hm.slots.seq_ne_retained hg (hlive g hg) hr)
      simp [batchCells, this]
    simp only [decodeOk, hnil, append_nil]
    exact hm.slots.retained_kv r hr
  · intro g hg hgl
    have hgen : GenOk cfg h g [] := hm.gens g hg hgl
    refine ⟨hgen.prefix_eq, hgen.prompt_ne, hgen.prefill_le, hgen.unprefilled, hgen.budget_eq,
      hgen.remaining_eq, hgen.pending_pos, hlen g hg, hgen.unprefilled_pos, hgen.seq_lt, ?_⟩
    cases hgen.cache with
    | mirror len kv =>
      refine .mirror len ?_
      rw [append_nil] at kv
      exact decoded_layout hplaced kv
    | untrimmed e extra term kv len budget prefilled =>
      have hnil : batchToks batch g.seq = [] := by
        refine batchToks_eq_nil fun b hb heq => ?_
        obtain ⟨g', hg', hseq, hstep⟩ := howner b hb
        have hgg : g' = g := inj_on_of_nodup_map hnodup hg' hg (hseq.trans heq)
        rw [hgg] at hstep
        simp [ActiveGen.steppable, term] at hstep
      refine .untrimmed e extra term ?_ len budget prefilled hnil
      have := decoded_layout hplaced kv
      rwa [hnil, append_nil] at this

section contexts

variable {active : List ActiveGen} {batch : List BatchTok} {decodes : List (ℕ × ℕ)}
  {prefill : Option (ℕ × ℕ × Option ℕ)} {h : Host}

theorem PlainBatch.decode_context (hb : PlainBatch cfg active batch decodes prefill)
    (hm : MidOk cfg ⟨h, active, batchToks batch⟩) (hlive : ∀ g ∈ active, g.done = false)
    (hnodup : (active.map ActiveGen.seq).Nodup) {k : ℕ} {b : BatchTok}
    (hk : (active.filterMap decodeTok)[k]? = some b) {g : ActiveGen} (hg : g ∈ active)
    (hd : decodeTok g = some b) : logitsAt h batch k = layout (g.stream ++ [b.tok]) := by
  have hget : batch[k]? = some b := by
    obtain ⟨hlt, -⟩ := List.getElem?_eq_some_iff.mp hk
    rcases hb.batch_eq with ⟨-, rfl⟩ | ⟨_, _, _, _, -, -, -, -, -, rfl, -⟩
    · exact hk
    · rwa [List.getElem?_append_left hlt]
  have htoks := (hb.toks hnodup hg).1 b hd
  obtain ⟨hstep, hpre, p, -, rfl⟩ := decodeTok_eq_some hd
  obtain ⟨-, hterm⟩ := ActiveGen.steppable_iff.mp hstep
  have hgen : GenOk cfg h g (batchToks batch g.seq) := hm.gens g hg (hlive g hg)
  have hlen := hgen.kvLen_stream hterm hpre
  have hkv := (hgen.mirror (by simp [hterm])).2
  rw [htoks] at hkv
  rw [logitsAt_layout hget hkv, hlen, take_length, take_of_length_le (by simp)]

theorem PlainBatch.prefill_context (hb : PlainBatch cfg active batch decodes prefill)
    (hm : MidOk cfg ⟨h, active, batchToks batch⟩) (hlive : ∀ g ∈ active, g.done = false)
    (hnodup : (active.map ActiveGen.seq).Nodup) {k n : ℕ} {t : Option ℕ} {g : ActiveGen}
    (hp : prefill = some (k, n, t)) (hk : active[k]? = some g) (hfull : (g.notePrefill n).prefilled = true) :
    (t.map (logitsAt h batch)).getD [] = layout (g.notePrefill n).stream := by
  have hg : g ∈ active := mem_of_getElem? hk
  obtain ⟨m, rfl, hstep, hpre, htoks⟩ := (hb.toks hnodup hg).2.2 k n t hp hk
  obtain ⟨-, hterm⟩ := ActiveGen.steppable_iff.mp hstep
  have hgen : GenOk cfg h g (batchToks batch g.seq) := hm.gens g hg (hlive g hg)
  obtain ⟨hlen, hkv⟩ := hgen.mirror (by simp [hterm])
  have hnil := (hgen.unprefilled hpre).1
  rw [hnil, length_nil, Nat.add_zero] at hlen
  -- the chunk is the rest of the prefix, and its last entry carries the logits
  have hrest : g.prefillDone + (prefillChunk g m).length = g.prefixToks.length := by
    have h1 : g.prefixToks.length ≤ g.prefillDone + (prefillChunk g m).length := by
      exact (prefilled_iff _).mp hfull
    have h2 : (prefillChunk g m).length ≤ g.prefixToks.length - g.prefillDone := by
      simp [prefillChunk]
    have h3 := hgen.prefill_le
    omega
  have hall : g.stream.take g.kvLen ++ prefillChunk g m = g.prefixToks := by
    have hdrop : prefillChunk g m = g.prefixToks.drop g.prefillDone := by
      have hlen' : (prefillChunk g m).length = (g.prefixToks.drop g.prefillDone).length := by
        rw [length_drop]
        omega
      exact ( take_prefix m _).eq_of_length hlen'
    rw [ActiveGen.stream, hnil, append_nil, hlen, hdrop, take_append_drop]
  rw [htoks, hall] at hkv
  obtain ⟨i, b, rfl, hget, hseq, hpos⟩ := hb.prefill_tail hp hk hrest
  rw [← hseq] at hkv
  simp only [Option.map_some, Option.getD_some]
  rw [logitsAt_layout hget hkv, hpos, hlen, hrest, take_length]
  simp [ActiveGen.stream, ActiveGen.notePrefill, hnil]

end contexts

theorem plainDecoded_turns {s : Loop} {batch : List BatchTok} {decodes : List (ℕ × ℕ)}
    {prefill : Option (ℕ × ℕ × Option ℕ)} (hb : PlainBatch cfg s.active batch decodes prefill)
    (hlive : ∀ g ∈ s.active, g.done = false) (hnodup : (s.active.map ActiveGen.seq).Nodup)
    (hready : ∀ g ∈ s.active, g.steppable = true → g.prefilled = false → g.pending = none ∧ 0 < g.remaining)
    (hm : MidOk cfg ⟨decodeOk s.host s.active batch, s.active, batchToks batch⟩) :
    ∃ h' active', Turns env cfg drafting ⟨decodeOk s.host s.active batch, s.active, batchToks batch⟩
        ⟨h', active', noAhead⟩ ∧ plainDecoded env cfg s batch decodes prefill =
        { s with host := h', active := retainActive active' } := by
  obtain ⟨ahead', hturns, hclear, hkeep⟩ :=
    @postDecodes_turns env cfg drafting (logitsAt (decodeOk s.host s.active batch) batch) s.active [] 0
      (decodeOk s.host s.active batch) (batchToks batch) hlive hnodup
      (fun g hg => (hb.toks hnodup hg).1)
      fun k b hk g hg hd => by
        rw [Nat.zero_add]
        exact hb.decode_context hm hlive hnodup hk hg hd
  simp only [nil_append, length_nil] at hturns
  rw [← hb.decodes_eq] at hturns
  -- a sequence keeps tokens ahead only if it is the one that prefills
  have hother : ∀ q, (∀ k n t g, prefill = some (k, n, t) → s.active[k]? = some g → g.seq ≠ q) →
      ahead' q = [] := by
    intro q hq
    by_cases hex : ∃ g ∈ s.active, (decodeTok g).isSome ∧ g.seq = q
    · obtain ⟨g, hg, hsome, rfl⟩ := hex
      exact hclear g hg hsome
    · have hnd : ∀ g ∈ s.active, (decodeTok g).isSome → g.seq ≠ q :=
        fun g hg hsome heq => hex ⟨g, hg, hsome, heq⟩
      rw [hkeep q hnd]
      by_cases hown : ∃ g ∈ s.active, g.seq = q
      · obtain ⟨g, hg, rfl⟩ := hown
        refine (hb.toks hnodup hg).2.1 ?_ ?_
        · cases hd : decodeTok g with
          | none => rfl
          | some => exact absurd rfl (hnd g hg (by simp [hd]))
        · exact fun k n t hp hk => hq k n t g hp hk rfl
      · refine batchToks_eq_nil fun b hmem heq => hown ?_
        obtain ⟨g, hg, hseq, -⟩ := hb.owner b hmem
        exact ⟨g, hg, hseq.trans heq⟩
  unfold plainDecoded
  match hp : prefill with
  | none =>
    have hnil : ahead' = noAhead := funext fun q => hother q fun k n t g h => by simp at h
    rw [hnil] at hturns
    exact ⟨_, _, hturns, rfl⟩
  | some (k, n, t) =>
    have hk : ∃ g, s.active[k]? = some g := by
      rcases hb.batch_eq with ⟨h, -⟩ | ⟨k', g, n', t', h, hk', -⟩
      · cases h
      · simp only [Option.some.injEq, Prod.mk.injEq] at h
        exact ⟨g, h.1 ▸ hk'⟩
    obtain ⟨g, hk⟩ := hk
    have hg : g ∈ s.active := mem_of_getElem? hk
    obtain ⟨m, rfl, hstep, hpre, htoks⟩ := (hb.toks hnodup hg).2.2 k n t rfl hk
    have hnotin : ∀ d ∈ decodes, d.1 ≠ k := by
      intro d hd heq
      rw [hb.decodes_eq] at hd
      obtain ⟨k', g', hk', hget, hsome⟩ := decodeIndexes_mem s.active 0 0 d hd
      rw [← heq, hk', Nat.zero_add, hget] at hk
      simp only [Option.some.injEq] at hk
      subst hk
      simp [decodeTok, hpre] at hsome
    have hget : (postDecodes env cfg (logitsAt (decodeOk s.host s.active batch) batch) decodes
        (decodeOk s.host s.active batch) s.active).2[k]? = some g := by
      rw [postDecodes_getElem? _ _ _ _ _ hnotin, hk]
    obtain ⟨hpend, hpos⟩ := hready g hg hstep hpre
    have hahead : ahead' g.seq = prefillChunk g m := by
      rw [hkeep, htoks]
      intro g' hg' hsome heq
      have hgg : g' = g := inj_on_of_nodup_map hnodup hg' hg heq
      subst hgg
      simp [decodeTok, hpre] at hsome
    simp only [hget]
    generalize postDecodes env cfg (logitsAt (decodeOk s.host s.active batch) batch) decodes
      (decodeOk s.host s.active batch) s.active = r at hturns hget ⊢
    have hctx := hb.prefill_context hm hlive hnodup rfl hk
    generalize (Option.map (logitsAt (decodeOk s.host s.active batch) batch) t).getD [] = context at hctx ⊢
    have hsteps : GenSteps env cfg drafting ⟨r.1, g, ahead' g.seq, false⟩
        (.of (postPrefill env cfg r.1 g (prefillChunk g m).length context) [] false) := by
      rw [hahead]
      exact postPrefill_steps r.1 g m context (hlive g hg) hstep hpre hpend hpos hctx
    have hturn := turn_set hget r.1 ahead' _ (hlive g hg) hsteps rfl
    have hnil : Function.update ahead' g.seq [] = noAhead := by
      funext q
      by_cases hq : q = g.seq
      · subst hq
        simp [noAhead]
      · rw [Function.update_of_ne hq]
        refine hother q fun k' n' t' g' h hk' => ?_
        simp only [Option.some.injEq, Prod.mk.injEq] at h
        rw [← h.1, hk] at hk'
        simp only [Option.some.injEq] at hk'
        subst hk'
        exact Ne.symm hq
    simp only [Focus.of, hnil] at hturn
    exact ⟨_, _, hturns.tail hturn, rfl⟩

/-! ### The speculative round -/

/-- Nothing changed but the draft cache and the clock. -/
structure DraftOnly (h h' : Host) : Prop where
  clock : h.clock ≤ h'.clock
  chans : h'.chans = h.chans
  kv : h'.kv = h.kv
  lists : h'.free = h.free ∧ h'.retained = h.retained ∧ h'.outbox = h.outbox ∧
    h'.finished = h.finished ∧ h'.interrupted = h.interrupted ∧ h'.reaped = h.reaped ∧
    h'.decoded = h.decoded ∧ h'.ends = h.ends

theorem DraftOnly.refl (h : Host) : DraftOnly h h := ⟨le_rfl, rfl, rfl, rfl, rfl, rfl, rfl, rfl, rfl, rfl, rfl⟩

theorem DraftOnly.trans {h'' : Host} (a : DraftOnly h h') (b : DraftOnly h' h'') : DraftOnly h h'' := by
  obtain ⟨a1, a2, a3, a4, a5, a6, a7, a8, a9, a10, a11⟩ := a
  obtain ⟨b1, b2, b3, b4, b5, b6, b7, b8, b9, b10, b11⟩ := b
  exact ⟨a1.trans b1, b2.trans a2, b3.trans a3, b4.trans a4, b5.trans a5, b6.trans a6, b7.trans a7,
    b8.trans a8, b9.trans a9, b10.trans a10, b11.trans a11⟩

theorem DraftOnly.mk' (h : Host) (n : ℕ) (draftKv : List Cell) (synced : Option (ℕ × ℕ)) :
    DraftOnly h { h with clock := h.clock + n, draftKv := draftKv, synced := synced } :=
  ⟨Nat.le_add_right _ _, rfl, rfl, rfl, rfl, rfl, rfl, rfl, rfl, rfl, rfl⟩

theorem draftDecode_only (h : Host) (toks : List Token) : DraftOnly h (draftDecode env h toks).1 := by
  unfold draftDecode
  split
  · exact .mk' h 1 _ h.synced
  · exact .mk' h 1 _ h.synced

theorem draftDecode_ok {toks base : List Token} (hd : draftDecode env h toks = (h', none))
    (hb : h.draftKv = layout base) : h'.draftKv = layout (base ++ toks) := by
  unfold draftDecode at hd
  split at hd
  · cases hd
  · simp only [Prod.mk.injEq, and_true] at hd
    rw [← hd, ← extend_layout, ← hb]

theorem propose_only (n : ℕ) (h : Host) (ds : List Token) (k : ℕ) :
    DraftOnly h (propose env n h ds k).1 := by
  induction n generalizing h ds k with
  | zero => exact .refl h
  | succ n ih =>
    have htick : DraftOnly h h.tick := .mk' h 1 h.draftKv h.synced
    simp only [propose]
    split
    · exact htick
    · split
      · exact htick
      · have hdec := @draftDecode_only env h.tick [env.draftSample h.clock h.draftKv]
        split
        · rename_i heq
          rw [heq] at hdec
          exact htick.trans hdec
        · rename_i heq
          rw [heq] at hdec
          exact (htick.trans hdec).trans (ih _ _ _)

/-- What drafting proposes, and what of it the draft cache holds. -/
theorem propose_ok (n : ℕ) (h : Host) (ds : List Token) (k : ℕ) {ds' : List Token} {k' : ℕ}
    (hp : propose env n h ds k = (h', .ok (ds', k'))) :
    ∃ new m, ds' = ds ++ new ∧ new.length ≤ n ∧ m ≤ new.length ∧ k' = k + m ∧
      (∀ base, h.draftKv = layout base → h'.draftKv = layout (base ++ new.take m)) ∧
      ∀ t ∈ new, env.draftIsEog t = false := by
  induction n generalizing h ds k with
  | zero =>
    simp only [propose, Prod.mk.injEq, Except.ok.injEq] at hp
    obtain ⟨rfl, rfl, rfl⟩ := hp
    exact ⟨[], 0, by simp, by simp, by simp, by simp, by simp, by simp⟩
  | succ n ih =>
    simp only [propose] at hp
    split at hp
    · simp only [Prod.mk.injEq, Except.ok.injEq] at hp
      obtain ⟨rfl, rfl, rfl⟩ := hp
      exact ⟨[], 0, by simp, by simp, by simp, by simp, by simp [Host.tick], by simp⟩
    · rename_i heog
      simp only [Bool.not_eq_true] at heog
      split at hp
      · simp only [Prod.mk.injEq, Except.ok.injEq] at hp
        obtain ⟨rfl, rfl, rfl⟩ := hp
        refine ⟨[_], 0, rfl, by simp, by simp, by simp, by simp [Host.tick], ?_⟩
        simpa using heog
      · split at hp
        · cases hp
        · rename_i h₁ heq
          obtain ⟨new, m, h1, h2, h3, h4, h5, h6⟩ := ih h₁ _ _ hp
          refine ⟨env.draftSample h.clock h.draftKv :: new, m + 1, by simp [h1], by simpa using h2,
            by simpa using h3, by omega, ?_, ?_⟩
          · intro base hb
            simpa using h5 _ (draftDecode_ok heq hb)
          · intro t ht
            rcases mem_cons.mp ht with rfl | ht
            · exact heog
            · exact h6 t ht

theorem draftSynced_only (h : Host) (g : ActiveGen) : DraftOnly h (draftSynced h g).1 := by
  unfold draftSynced
  split
  · split
    · exact .refl h
    · exact .mk' h 0 [] h.synced
  · exact .mk' h 0 [] h.synced

theorem buildSpecStep_only (h : Host) (g : ActiveGen) (tok : Token) :
    DraftOnly h (buildSpecStep env cfg h g tok).1 := by
  have h1 := draftSynced_only h g
  unfold buildSpecStep
  generalize draftSynced h g = r at h1 ⊢
  obtain ⟨h₁, n⟩ := r
  have h2 : DraftOnly h { h₁ with synced := none } := h1.trans (.mk' h₁ 0 h₁.draftKv none)
  have h3 := h2.trans (@draftDecode_only env { h₁ with synced := none }
    ((g.stream.drop n).take (g.kvLen - n) ++ [tok]))
  simp only
  generalize draftDecode env { h₁ with synced := none } ((g.stream.drop n).take (g.kvLen - n) ++ [tok]) = r
    at h3 ⊢
  obtain ⟨h₂, none | e⟩ := r
  · simp only at h3 ⊢
    have h4 := h3.trans (@propose_only env (min (min SPEC_K (g.remaining - 1)) (cfg.nBatch - 1)) h₂ []
      (g.kvLen + 1))
    generalize propose env (min (min SPEC_K (g.remaining - 1)) (cfg.nBatch - 1)) h₂ [] (g.kvLen + 1) = r
      at h4 ⊢
    obtain ⟨h₃, e | ⟨drafts, k⟩⟩ := r
    · exact h4
    · have h5 : DraftOnly h { h₃ with synced := some (g.uid, k) } :=
        h4.trans (.mk' h₃ 0 h₃.draftKv (some (g.uid, k)))
      simp only
      split
      · exact h5
      · exact h5
  · exact h3

/-- The draft cache follows a generation's stream. -/
def DraftSync (h : Host) (g : ActiveGen) : Prop :=
  ∀ n, h.synced = some (g.uid, n) → n ≤ g.stream.length ∧ h.draftKv = layout (g.stream.take n)

/-- A built round: the pending token and at most as many drafts as the budget allows,
at consecutive positions, and a draft cache that holds the stream, the pending token
and a prefix of the drafts. -/
theorem buildSpecStep_ok {tok : Token} {step : SpecStep} (hb : buildSpecStep env cfg h g tok = (h', .ok step)) :
    step.batch = ((tok :: step.drafts).zipIdx g.kvLen).map (fun c => ⟨c.1, c.2, g.seq, true⟩) ∧
      step.indexes = List.range' 0 (step.drafts.length + 1) ∧
      step.drafts.length ≤ g.remaining - 1 ∧ step.drafts.length ≤ cfg.nBatch - 1 ∧
      (DraftSync h g → g.kvLen = g.stream.length → ∃ m ≤ step.drafts.length,
        step.draftKv = g.kvLen + 1 + m ∧ h'.draftKv = layout (g.stream ++ tok :: step.drafts.take m)) ∧
      ∀ t ∈ step.drafts, env.draftIsEog t = false := by
  unfold buildSpecStep at hb
  have hsync : DraftSync h g → (draftSynced h g).2 ≤ g.stream.length ∧
      (draftSynced h g).1.draftKv = layout (g.stream.take (draftSynced h g).2) := by
    intro hd
    unfold draftSynced
    split
    · rename_i uid n hs
      split
      · rename_i hcond
        exact hd n (hcond.1 ▸ hs)
      · simp
    · simp
  generalize draftSynced h g = r at hsync hb
  obtain ⟨h₁, n⟩ := r
  simp only at hsync hb
  split at hb
  · cases hb
  · rename_i h₂ hdec
    split at hb
    · cases hb
    · rename_i h₃ drafts k hprop
      split at hb
      · cases hb
      · rename_i batch indexes hpush
        simp only [Prod.mk.injEq, Except.ok.injEq] at hb
        obtain ⟨rfl, rfl⟩ := hb
        obtain ⟨new, m, hnew, hlen, hm, hk, hkv, heog⟩ := propose_ok _ _ _ _ hprop
        obtain ⟨hbatch, hidx⟩ := pushSpec_ok g.seq (tok :: drafts) g.kvLen [] [] hpush
        simp only [nil_append] at hnew
        subst hnew
        refine ⟨by simpa using hbatch, by simpa using hidx, by simp only; omega, by simp only; omega, ?_, heog⟩
        intro hd hfull
        obtain ⟨hn, hkv₁⟩ := hsync hd
        refine ⟨m, hm, hk, ?_⟩
        have hcatch : g.stream.take n ++ ((g.stream.drop n).take (g.kvLen - n) ++ [tok]) = g.stream ++ [tok] := by
          have htake : (g.stream.drop n).take (g.kvLen - n) = g.stream.drop n :=
            take_of_length_le (by rw [length_drop]; omega)
          rw [htake, ← append_assoc, take_append_drop]
        have hbase := draftDecode_ok hdec hkv₁
        rw [hcatch] at hbase
        simpa using hkv _ hbase

theorem spec_seq (g : ActiveGen) (toks : List Token) (n : ℕ) :
    ∀ e ∈ (toks.zipIdx n).map (fun c => (⟨c.1, c.2, g.seq, true⟩ : BatchTok)), e.seq = g.seq := by
  intro e he
  obtain ⟨c, -, rfl⟩ := mem_map.mp he
  rfl

theorem spec_placed {kv : SeqId → List Cell} {toks : List Token} (hlen : (kv g.seq).length = g.kvLen) :
    Placed kv ((toks.zipIdx g.kvLen).map fun c => ⟨c.1, c.2, g.seq, true⟩) := by
  have hrun : RunAt g.seq (kv g.seq).length
      ((toks.zipIdx g.kvLen).map fun c => (⟨c.1, c.2, g.seq, true⟩ : BatchTok)) := by
    refine ⟨spec_seq g toks g.kvLen, ?_⟩
    rw [hlen, map_map, length_map, length_zipIdx]
    exact zipIdx_map_snd g.kvLen toks
  exact (placed_nil kv).append_run (by simp) hrun

theorem spec_toks (g : ActiveGen) (toks : List Token) (n : ℕ) (s : SeqId) :
    batchToks ((toks.zipIdx n).map fun c => ⟨c.1, c.2, g.seq, true⟩) s =
      if g.seq = s then toks else [] := by
  by_cases hs : g.seq = s
  · subst hs
    rw [if_pos rfl, batchToks_run (spec_seq g toks n), map_map]
    exact zipIdx_map_fst n toks
  · rw [if_neg hs]
    exact batchToks_eq_nil fun e he => (spec_seq g toks n e he).symm ▸ hs

theorem exposed_of_take {logits : ℕ → List Cell} (drafts base : List Token) (idx : List ℕ)
    (hlen : drafts.length ≤ idx.length)
    (h : ∀ i < drafts.length, logits (idx.getD i 0) = layout (base ++ drafts.take i)) :
    Exposed logits base (drafts.zip idx) := by
  induction drafts generalizing base idx with
  | nil => trivial
  | cons d drafts ih =>
    cases idx with
    | nil => simp at hlen
    | cons n idx =>
      refine ⟨by simpa using h 0 (by simp), ih (base ++ [d]) idx (by simpa using hlen) ?_⟩
      intro i hi
      simpa using h (i + 1) (by simpa using hi)

theorem spec_verified {h : Host} {g : ActiveGen} {tok : Token} {step : SpecStep}
    (hbatch : step.batch = ((tok :: step.drafts).zipIdx g.kvLen).map (fun c => ⟨c.1, c.2, g.seq, true⟩))
    (hidx : step.indexes = List.range' 0 (step.drafts.length + 1))
    (heog : ∀ t ∈ step.drafts, env.draftIsEog t = false) (hgen : GenOk cfg h g (tok :: step.drafts))
    (hterm : g.terminalAfterDrain = none) (hpre : g.prefilled = true) (hdraft : cfg.hasDraft = true) :
    Verified env cfg (logitsAt h step.batch) step (g.stream ++ [tok]) := by
  have hlen := hgen.kvLen_stream hterm hpre
  have hkv := (hgen.mirror (by simp [hterm])).2
  rw [hlen, take_length] at hkv
  have hlog : ∀ i ≤ step.drafts.length,
      logitsAt h step.batch (step.indexes.getD i 0) = layout (g.stream ++ [tok] ++ step.drafts.take i) := by
    intro i hi
    have hi' : i < (tok :: step.drafts).length := by simpa using Nat.lt_succ_of_le hi
    have hget : step.batch[i]? = some ⟨(tok :: step.drafts)[i], g.kvLen + i, g.seq, true⟩ := by
      rw [hbatch, List.getElem?_map, List.getElem?_zipIdx, List.getElem?_eq_getElem hi']
      rfl
    have hindex : step.indexes.getD i 0 = i := by
      rw [hidx, getD_eq_getElem?_getD, List.getElem?_eq_getElem (by simpa using hi')]
      simp
    rw [hindex, logitsAt_layout hget hkv, hlen]
    congr 1
    rw [Nat.add_assoc, take_length_add_append, take_succ_cons, append_assoc]
    rfl
  refine ⟨by simp [hidx], exposed_of_take _ _ _ (by simp [hidx]) fun i hi => hlog i hi.le, ?_, heog, hdraft⟩
  rw [hlog _ le_rfl, take_length]

end OneBrain.Engine
