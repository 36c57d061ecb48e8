import OneBrain.Engine.Active

/-!
# Slots, caches and budgets

The invariants of the sequence slots: which slot is whose, what every cache holds,
and how much of the context every generation may still use.

* `GenOk` — one generation: its cache is the laid-out beginning of its token stream,
  its budget covers prompt and `max_tokens`, and the tokens confirmed so far plus
  those still allowed are exactly `max_tokens`.
* `SlotsOk` — the lists: live generations and free slots share out the session's
  slots, every retained slot is free and holds exactly its recorded history, and
  reserved budgets plus retained histories fit the context.
* `midOk_turns` — both survive every turn.

One generation may hold more than its stream: when removing the tokens past a stop
match fails while pieces are still held, the generation waits with that error behind
its backlog and its cache still has the discarded tokens (`Cache.untrimmed`).
-/

namespace OneBrain.Engine

open List OneBrain.Lib

/-! ### One generation -/

/-- What the cache of a generation's sequence holds. -/
inductive Cache (h : Host) (g : ActiveGen) (ahead : List Token) : Prop
  /-- The beginning of its stream, and what the last decode added. -/
  | mirror (len : g.kvLen = g.prefillDone + g.attemptTokens.length)
      (kv : h.kv g.seq = layout (g.stream.take g.kvLen ++ ahead))
  /-- Its stream and the tokens past a stop match that could not be removed. -/
  | untrimmed (e : String) (extra : List Token)
      (term : g.terminalAfterDrain = some (.error (trimError e)))
      (kv : h.kv g.seq = layout (g.stream ++ extra)) (len : g.kvLen = (g.stream ++ extra).length)
      (budget : g.kvLen ≤ g.budget) (prefilled : g.prefilled = true) (ahead : ahead = [])

/-- The bookkeeping of one live generation. -/
structure GenOk (cfg : Cfg) (h : Host) (g : ActiveGen) (ahead : List Token) : Prop where
  /-- The prefix is the prompt and what earlier attempts confirmed. -/
  prefix_eq : g.prefixToks = g.promptTokens ++ g.priorGenerated
  prompt_ne : g.promptTokens ≠ []
  prefill_le : g.prefillDone ≤ g.prefixToks.length
  /-- Nothing is generated before the prefill is complete. -/
  unprefilled : g.prefilled = false → g.attemptTokens = [] ∧ g.pending = none
  budget_eq : g.budget = g.promptTokens.length + g.job.maxTokens
  remaining_eq : g.priorGenerated.length + g.attemptTokens.length + g.remaining = g.job.maxTokens
  /-- A sampled token is covered by the token budget. -/
  pending_pos : g.pending ≠ none → 0 < g.remaining
  /-- So is everything a decode ran ahead. -/
  ahead_le : g.prefilled = true → ahead.length ≤ g.remaining
  /-- A generation that prefills has something to generate. -/
  unprefilled_pos : g.terminalAfterDrain = none → g.prefilled = false → 0 < g.remaining
  seq_lt : g.seq < cfg.nSeqMax
  cache : Cache h g ahead

variable {env : Env} {cfg : Cfg} {drafting : Bool}

theorem prefilled_iff (g : ActiveGen) : g.prefilled = true ↔ g.prefixToks.length ≤ g.prefillDone := by
  simp [ActiveGen.prefilled]

theorem length_stream (g : ActiveGen) : g.stream.length = g.prefixToks.length + g.attemptTokens.length := by
  simp [ActiveGen.stream]

namespace GenOk

variable {h : Host} {g : ActiveGen} {ahead : List Token}

variable (hg : GenOk cfg h g ahead)
include hg

theorem prefillDone_eq (hp : g.prefilled = true) :
    g.prefillDone = g.prefixToks.length :=
  le_antisymm hg.prefill_le ((prefilled_iff g).mp hp)

/-- A prefilled generation's stream is what its budget has been spent on. -/
theorem stream_budget : g.stream.length + g.remaining = g.budget := by
  have h1 := hg.remaining_eq
  have h2 := hg.budget_eq
  have h3 := congrArg List.length hg.prefix_eq
  simp only [length_append] at h3
  rw [length_stream]
  omega

theorem mirror (hterm : ∀ e, g.terminalAfterDrain ≠ some (.error (trimError e))) :
    g.kvLen = g.prefillDone + g.attemptTokens.length ∧
      h.kv g.seq = layout (g.stream.take g.kvLen ++ ahead) := by
  cases hg.cache with
  | mirror len kv => exact ⟨len, kv⟩
  | untrimmed e _ term => exact absurd term (hterm e)

theorem kvLen_prefilled (hterm : g.terminalAfterDrain = none)
    (hp : g.prefilled = true) : g.kvLen = g.stream.length ∧ h.kv g.seq = layout (g.stream ++ ahead) := by
  obtain ⟨hlen, hkv⟩ := hg.mirror (by simp [hterm])
  have hlen' : g.kvLen = g.stream.length := by
    rw [hlen, length_stream, hg.prefillDone_eq hp]
  rw [hkv, hlen', take_length]
  exact ⟨rfl, rfl⟩

theorem kvLen_le_budget : g.kvLen ≤ g.budget := by
  have h1 := hg.stream_budget
  rw [length_stream] at h1
  cases hg.cache with
  | mirror =>
    have := hg.prefill_le
    omega
  | untrimmed e extra term kv len budget => exact budget

variable {h' : Host}

theorem congr {g' : ActiveGen} (hkv : h'.kv g.seq = h.kv g.seq) (hseq : g'.seq = g.seq) (hjob : g'.job = g.job)
    (hprompt : g'.promptTokens = g.promptTokens) (hprior : g'.priorGenerated = g.priorGenerated)
    (hpref : g'.prefixToks = g.prefixToks) (hdone : g'.prefillDone = g.prefillDone)
    (hlen : g'.kvLen = g.kvLen) (hattempt : g'.attemptTokens = g.attemptTokens)
    (hremaining : g'.remaining = g.remaining) (hbudget : g'.budget = g.budget)
    (hpending : g'.pending ≠ none → g.pending ≠ none ∨ g.prefilled = true ∧ 0 < g.remaining)
    (hterm : g'.terminalAfterDrain = g.terminalAfterDrain ∨ g.terminalAfterDrain = none) :
    GenOk cfg h' g' ahead := by
  have hpre : g'.prefilled = g.prefilled := by simp [ActiveGen.prefilled, hpref, hdone]
  have hstream : g'.stream = g.stream := by simp [ActiveGen.stream, hpref, hattempt]
  refine ⟨?_, ?_, ?_, ?_, ?_, ?_, ?_, ?_, ?_, ?_, ?_⟩
  · rw [hpref, hprompt, hprior, hg.prefix_eq]
  · rw [hprompt]
    exact hg.prompt_ne
  · rw [hdone, hpref]
    exact hg.prefill_le
  · intro hp
    rw [hpre] at hp
    obtain ⟨ha, hn⟩ := hg.unprefilled hp
    refine ⟨hattempt.trans ha, ?_⟩
    by_contra hne
    rcases hpending hne with h1 | ⟨h1, -⟩
    · exact h1 hn
    · rw [h1] at hp
      cases hp
  · rw [hbudget, hprompt, hjob, hg.budget_eq]
  · rw [hprior, hattempt, hremaining, hjob, hg.remaining_eq]
  · intro hne
    rw [hremaining]
    exact (hpending hne).elim hg.pending_pos fun hp => hp.2
  · rw [hpre, hremaining]
    exact hg.ahead_le
  · rw [hpre, hremaining]
    exact fun ht => hg.unprefilled_pos (hterm.elim (fun heq => heq ▸ ht) id)
  · rw [hseq]
    exact hg.seq_lt
  · cases hg.cache with
    | mirror len kv =>
      refine .mirror ?_ ?_
      · rw [hlen, hdone, hattempt, len]
      · rw [hseq, hkv, hstream, hlen, kv]
    | untrimmed e extra term kv len budget prefilled ahead =>
      have hterm' : g'.terminalAfterDrain = g.terminalAfterDrain := by
        rcases hterm with hterm | hterm
        · exact hterm
        · rw [term] at hterm
          cases hterm
      refine .untrimmed e extra ?_ ?_ ?_ ?_ ?_ ahead
      · rw [hterm', term]
      · rw [hseq, hkv, hstream, kv]
      · rw [hlen, hstream, len]
      · rw [hlen, hbudget]
        exact budget
      · rw [hpre]
        exact prefilled

theorem of_kv (hkv : h'.kv g.seq = h.kv g.seq) : GenOk cfg h' g ahead :=
  hg.congr hkv rfl rfl rfl rfl rfl rfl rfl rfl rfl rfl .inl (.inl rfl)

omit hg

theorem confirm {tok : Token} {rest : List Token} (hg : GenOk cfg h g (tok :: rest))
    (hterm : g.terminalAfterDrain = none) (hp : g.prefilled = true) : GenOk cfg h (g.confirm tok) rest := by
  have hpos : 0 < g.remaining := by
    have := hg.ahead_le hp
    simp only [length_cons] at this
    omega
  have hrem : (g.confirm tok).remaining = g.remaining - 1 := usizeSub_of_le hpos
  obtain ⟨hlen, hkv⟩ := hg.kvLen_prefilled hterm hp
  have hstream : (g.confirm tok).stream = g.stream ++ [tok] := by
    simp [ActiveGen.stream, ActiveGen.confirm]
  have hlen' : (g.confirm tok).kvLen = (g.confirm tok).stream.length := by
    rw [hstream, length_append, ← hlen]
    rfl
  refine ⟨hg.prefix_eq, hg.prompt_ne, hg.prefill_le, ?_, hg.budget_eq, ?_, ?_, ?_, ?_, hg.seq_lt, ?_⟩
  · intro hnp
    have : g.prefilled = false := hnp
    rw [this] at hp
    cases hp
  · have := hg.remaining_eq
    rw [hrem]
    simp only [ActiveGen.confirm, length_append, length_singleton]
    omega
  · exact fun hne => absurd rfl hne
  · intro _
    have := hg.ahead_le hp
    simp only [length_cons] at this
    rw [hrem]
    omega
  · intro _ hnp
    have : g.prefilled = false := hnp
    rw [this] at hp
    cases hp
  · refine .mirror ?_ ?_
    · have := hg.prefillDone_eq hp
      rw [hlen', length_stream]
      simp only [ActiveGen.confirm] at this ⊢
      omega
    · rw [hlen', take_length, hstream]
      simpa [ActiveGen.confirm] using hkv

theorem notePrefill {n : ℕ} (hg : GenOk cfg h g ahead)
    (hahead : ahead = (g.prefixToks.drop g.prefillDone).take n) (hp : g.prefilled = false)
    (hterm : g.terminalAfterDrain = none) : GenOk cfg h (g.notePrefill ahead.length) [] := by
  obtain ⟨hattempt, hpending⟩ := hg.unprefilled hp
  obtain ⟨hlen, hkv⟩ := hg.mirror (by simp [hterm])
  have hstream : g.stream = g.prefixToks := by simp [ActiveGen.stream, hattempt]
  have hlen0 : g.kvLen = g.prefillDone := by simp [hlen, hattempt]
  have hle : g.prefillDone + ahead.length ≤ g.prefixToks.length := by
    have := hg.prefill_le
    rw [hahead, length_take, length_drop]
    omega
  have htake : g.prefixToks.take g.prefillDone ++ ahead =
      g.prefixToks.take (g.prefillDone + ahead.length) := by
    rw [take_add]
    congr 1
    conv_lhs => rw [hahead]
    rw [hahead, length_take]
    exact (take_eq_take_min).symm ▸ by simp
  refine ⟨hg.prefix_eq, hg.prompt_ne, hle, fun _ => ⟨hattempt, hpending⟩, hg.budget_eq,
    hg.remaining_eq, hg.pending_pos, by simp, fun ht _ => hg.unprefilled_pos ht hp, hg.seq_lt, ?_⟩
  refine .mirror ?_ ?_
  · simp [ActiveGen.notePrefill, hlen0, hattempt]
  · have hs : (g.notePrefill ahead.length).stream = g.prefixToks := hstream
    have hk : (g.notePrefill ahead.length).kvLen = g.prefillDone + ahead.length := by
      simp [ActiveGen.notePrefill, hlen0]
    rw [hs, hk, append_nil, ← htake]
    rw [hstream, hlen0] at hkv
    exact hkv

theorem rollback (hg : GenOk cfg h g ahead) (n : ℕ)
    (hkv : h'.kv g.seq = trim (h.kv g.seq) (g.kvLen + n)) : GenOk cfg h' g (ahead.take n) := by
  refine ⟨hg.prefix_eq, hg.prompt_ne, hg.prefill_le, hg.unprefilled, hg.budget_eq, hg.remaining_eq,
    hg.pending_pos, ?_, hg.unprefilled_pos, hg.seq_lt, ?_⟩
  · intro hp
    have := hg.ahead_le hp
    rw [length_take]
    omega
  · cases hg.cache with
    | mirror len kv =>
      refine .mirror len ?_
      have hle : g.kvLen ≤ g.stream.length := by
        have := hg.prefill_le
        rw [len, length_stream]
        omega
      rw [hkv, kv, trim_layout, take_append]
      congr 2
      · rw [take_take, Nat.min_eq_right (by omega)]
      · rw [length_take, Nat.min_eq_left hle, Nat.add_sub_cancel_left]
    | untrimmed e extra term kv len budget prefilled ahead =>
      refine .untrimmed e extra term ?_ len budget prefilled (by simp [ahead])
      rw [hkv, kv, trim_layout, take_of_length_le (by omega)]

theorem trimFailed (hg : GenOk cfg h g ahead) (e : String) (hp : g.prefilled = true)
    (hterm : g.terminalAfterDrain = none) :
    GenOk cfg h { g with
      kvLen := g.kvLen + ahead.length
      terminalAfterDrain := some (.error (trimError e)) } [] := by
  obtain ⟨hlen, hkv⟩ := hg.kvLen_prefilled hterm hp
  refine ⟨hg.prefix_eq, hg.prompt_ne, hg.prefill_le, hg.unprefilled, hg.budget_eq, hg.remaining_eq,
    hg.pending_pos, by simp, by simp, hg.seq_lt, .untrimmed e ahead rfl hkv ?_ ?_ hp rfl⟩
  · simp only [ActiveGen.stream, length_append] at hlen ⊢
    omega
  · have h1 := hg.stream_budget
    have h2 := hg.ahead_le hp
    simp only
    omega

/-- **One move keeps the bookkeeping of its generation.** -/
theorem step {f f' : Focus} (hs : GenStep env cfg drafting f f') (hg : GenOk cfg f.h f.g f.ahead)
    (hlive : f'.g.done = false) : GenOk cfg f'.h f'.g f'.ahead := by
  cases hs with
  | finish | fail | cancel | reap => simp [Focus.of, cancelSeq_eq, *] at hlive
  | deferError _ _ _ hterm | deferFinish _ _ _ hterm =>
    exact hg.congr rfl rfl rfl rfl rfl rfl rfl rfl rfl rfl rfl .inl (.inr hterm)
  | trimFailed e hheld hp hterm => exact hg.trimFailed e hp hterm
  | confirm tok admitted rest hahead hpending hterm =>
    rw [hahead] at hg
    refine hg.confirm hterm ?_
    by_contra hp
    have := (hg.unprefilled (by simpa using hp)).2
    rw [hpending] at this
    cases this
  | feed tok piece rest scan hdone hahead hsource hp hscan hterm =>
    rw [hahead] at hg
    have hc := hg.confirm hterm hp
    have hkv := (@deliverPiece_sends env f.h { f.g.confirm tok with scan := scan } piece).lists.2.2.2
    simp only [Focus.of]
    rw [deliverPiece_eq]
    exact hc.congr (congrFun hkv _) rfl rfl rfl rfl rfl rfl rfl rfl rfl rfl .inl (.inl rfl)
  | reject tok piece rest scan hahead hsource hp hscan hterm =>
    rw [hahead] at hg
    exact (hg.confirm hterm hp).congr rfl rfl rfl rfl rfl rfl rfl rfl rfl rfl rfl .inl (.inl rfl)
  | stage tok piece hdone hahead hpending hterm hhit heog hpiece hpos hp =>
    rw [hahead] at hg
    have hkv := (@stagePending_sends env cfg.distributed f.h f.g tok piece).lists.2.2.2
    obtain ⟨_, _, _, _, _, heq⟩ := @stagePending_eq env cfg.distributed f.h f.g tok piece
    simp only [Focus.of]
    rw [heq]
    exact hg.congr (congrFun hkv _) rfl rfl rfl rfl rfl rfl rfl rfl rfl rfl (fun _ => .inr ⟨hp, hpos⟩)
      (.inl rfl)
  | prefill n hahead hp hterm => exact hg.notePrefill hahead hp hterm
  | rollback n => exact hg.rollback n (Function.update_self _ _ _)
  | _ => exact hg.congr rfl rfl rfl rfl rfl rfl rfl rfl rfl rfl rfl .inl (.inl rfl)

end GenOk

/-! ### The slot lists -/

/-- The slots, caches and budgets of a session. -/
structure SlotsOk (cfg : Cfg) (h : Host) (active : List ActiveGen) : Prop where
  /-- Live generations and free slots share out the session's slots. -/
  perm : ((retainActive active).map ActiveGen.seq ++ h.free).Perm (List.range cfg.nSeqMax)
  retained_free : ∀ r ∈ h.retained, r.seq ∈ h.free
  retained_nodup : (h.retained.map RetainedSlot.seq).Nodup
  /-- A retained cache is exactly its recorded history. -/
  retained_kv : ∀ r ∈ h.retained, h.kv r.seq = layout r.history
  /-- Budgets and retained histories fit the context. -/
  pool : usedBudget (retainActive active) + (h.retained.map fun r => r.history.length).sum ≤ cfg.nCtx

theorem retainActive_append (l m : List ActiveGen) :
    retainActive (l ++ m) = retainActive l ++ retainActive m := by
  simp [retainActive]

variable {g : ActiveGen}

theorem retainActive_cons_live (hg : g.done = false) (l : List ActiveGen) :
    retainActive (g :: l) = g :: retainActive l := by
  simp [retainActive, hg]

theorem retainActive_cons_done (hg : g.done = true) (l : List ActiveGen) :
    retainActive (g :: l) = retainActive l := by
  simp [retainActive, hg]

theorem mem_retainActive {l : List ActiveGen} : g ∈ retainActive l ↔ g ∈ l ∧ g.done = false := by
  simp [retainActive]

theorem retainActive_live {l : List ActiveGen} (hl : ∀ g ∈ l, g.done = false) : retainActive l = l := by
  simpa [retainActive] using hl

namespace SlotsOk

variable {h : Host} {active : List ActiveGen}

theorem nodup (hs : SlotsOk cfg h active) : ((retainActive active).map ActiveGen.seq ++ h.free).Nodup :=
  (hs.perm.nodup_iff).mpr nodup_range

variable {g : ActiveGen} {pre post : List ActiveGen}

theorem seq_not_free (hs : SlotsOk cfg h active) (hg : g ∈ active) (hlive : g.done = false) : g.seq ∉ h.free := by
  have hmem : g.seq ∈ (retainActive active).map ActiveGen.seq :=
    mem_map_of_mem (mem_retainActive.mpr ⟨hg, hlive⟩)
  exact fun hf => (nodup_append.mp hs.nodup).2.2 _ hmem _ hf rfl

theorem seq_ne_retained (hs : SlotsOk cfg h active) (hg : g ∈ active)
    (hlive : g.done = false) {r : RetainedSlot} (hr : r ∈ h.retained) : r.seq ≠ g.seq := by
  intro heq
  exact hs.seq_not_free hg hlive (heq ▸ hs.retained_free r hr)

theorem seq_ne (hs : SlotsOk cfg h (pre ++ g :: post)) (hlive : g.done = false) {o : ActiveGen}
    (ho : o ∈ pre ++ post) (holive : o.done = false) : o.seq ≠ g.seq := by
  have hnodup := (nodup_append.mp hs.nodup).1
  rw [retainActive_append, retainActive_cons_live hlive, map_append, map_cons] at hnodup
  have hmid := perm_middle.nodup_iff.mp hnodup
  rw [nodup_cons] at hmid
  intro heq
  apply hmid.1
  rw [← heq, ← map_append, ← retainActive_append]
  exact mem_map_of_mem (mem_retainActive.mpr ⟨ho, holive⟩)

/-- A generation leaves: its slot becomes free and its budget is given back. -/
theorem leave_perm {g' : ActiveGen} {free : List SeqId}
    (hperm : ((retainActive (pre ++ g :: post)).map ActiveGen.seq ++ free).Perm (List.range cfg.nSeqMax))
    (hlive : g.done = false) (hdone : g'.done = true) :
    ((retainActive (pre ++ g' :: post)).map ActiveGen.seq ++ (free ++ [g.seq])).Perm (List.range cfg.nSeqMax) := by
  refine List.Perm.trans ?_ hperm
  rw [retainActive_append, retainActive_append, retainActive_cons_live hlive, retainActive_cons_done hdone]
  simp only [map_append, map_cons, append_assoc, cons_append]
  refine List.Perm.append_left _ ?_
  rw [← append_assoc]
  exact perm_append_singleton _ _

theorem leave_budget (pre post : List ActiveGen) {g' : ActiveGen} (hlive : g.done = false)
    (hdone : g'.done = true) : usedBudget (retainActive (pre ++ g' :: post)) + g.budget =
      usedBudget (retainActive (pre ++ g :: post)) := by
  rw [retainActive_append, retainActive_append, retainActive_cons_live hlive, retainActive_cons_done hdone]
  simp only [usedBudget, map_append, map_cons, sum_append, sum_cons]
  omega

/-- **One move keeps the slot lists.** -/
theorem step {f f' : Focus} (hs : SlotsOk cfg f.h (pre ++ f.g :: post))
    (hf : Framed f f') (hg : f.g.done = false → GenOk cfg f.h f.g f.ahead) :
    SlotsOk cfg f'.h (pre ++ f'.g :: post) := by
  have hmem : f.g ∈ pre ++ f.g :: post := by simp
  have hkv : ∀ r ∈ f.h.retained, f'.h.kv r.seq = layout r.history := by
    intro r hr
    rw [← hs.retained_kv r hr]
    cases hdone : f.g.done with
    | true => exact congrFun (hf.kv_done hdone) _
    | false => exact hf.host.kv _ (hs.seq_ne_retained hmem hdone hr)
  cases hf.exit with
  | stays done outcome prompt prior prefixToks budget free retained =>
    have hseqs : (retainActive (pre ++ f'.g :: post)).map ActiveGen.seq =
        (retainActive (pre ++ f.g :: post)).map ActiveGen.seq := by
      simp [retainActive, filter_cons, done]
      split <;> simp [hf.seq]
    have hused : usedBudget (retainActive (pre ++ f'.g :: post)) =
        usedBudget (retainActive (pre ++ f.g :: post)) := by
      simp [usedBudget, retainActive, filter_cons, done]
      split <;> simp [budget]
    refine ⟨?_, ?_, ?_, ?_, ?_⟩
    · rw [hseqs, free]
      exact hs.perm
    · rw [retained, free]
      exact hs.retained_free
    · rw [retained]
      exact hs.retained_nodup
    · rw [retained]
      exact hkv
    · rw [hused, retained]
      exact hs.pool
  | released live done free retained =>
    have hused := leave_budget pre post live done
    refine ⟨?_, ?_, ?_, ?_, ?_⟩
    · rw [free]
      exact leave_perm hs.perm live done
    · rw [retained, free]
      exact fun r hr => mem_append_left _ (hs.retained_free r hr)
    · rw [retained]
      exact hs.retained_nodup
    · rw [retained]
      exact hkv
    · have := hs.pool
      rw [retained]
      omega
  | kept live done ahead prefilled term free retained kv =>
    have hused := leave_budget pre post live done
    have hgok := hg live
    have hterm : ∀ e, f.g.terminalAfterDrain ≠ some (.error (trimError e)) := by
      intro e he
      rcases term with ht | ⟨k, ht⟩ <;> simp [he] at ht
    obtain ⟨hlen, hcache⟩ := hgok.mirror hterm
    have hlen' : f.g.kvLen = f.g.stream.length := by
      rw [hlen, length_stream, hgok.prefillDone_eq prefilled]
    refine ⟨?_, ?_, ?_, ?_, ?_⟩
    · rw [free]
      exact leave_perm hs.perm live done
    · rw [retained, free]
      intro r hr
      rcases mem_append.mp hr with hr | hr
      · exact mem_append_left _ (hs.retained_free r hr)
      · simp only [mem_singleton] at hr
        simp [hr]
    · rw [retained, map_append, nodup_append]
      refine ⟨hs.retained_nodup, by simp, ?_⟩
      intro q hq q' hq' heq
      obtain ⟨r, hr, rfl⟩ := mem_map.mp hq
      simp only [map_cons, map_nil, mem_singleton] at hq'
      exact hs.seq_ne_retained hmem live hr (heq.trans hq')
    · rw [retained]
      intro r hr
      rcases mem_append.mp hr with hr | hr
      · exact hkv r hr
      · simp only [mem_singleton] at hr
        rw [hr, kv, hcache, ahead, hlen', take_length, append_nil]
    · have h1 := hs.pool
      have h2 := hgok.stream_budget
      rw [retained, map_append, sum_append]
      simp only [map_cons, map_nil, sum_cons, sum_nil]
      omega

end SlotsOk

/-! ### Turns -/

/-- Slots, caches and budgets between two turns. -/
structure MidOk (cfg : Cfg) (m : Mid) : Prop where
  slots : SlotsOk cfg m.h m.active
  gens : ∀ g ∈ m.active, g.done = false → GenOk cfg m.h g (m.ahead g.seq)

/-- The same while one generation makes its moves. -/
structure FocusOk (cfg : Cfg) (pre post : List ActiveGen) (ahead : SeqId → List Token) (f : Focus) :
    Prop where
  slots : SlotsOk cfg f.h (pre ++ f.g :: post)
  gen : f.g.done = false → GenOk cfg f.h f.g f.ahead
  others : ∀ o ∈ pre ++ post, o.done = false → o.seq ≠ f.g.seq ∧ GenOk cfg f.h o (ahead o.seq)

/-- **Turns keep slots, caches and budgets.** -/
theorem midOk_turns {m m' : Mid} (hs : Turns env cfg drafting m m') (hm : MidOk cfg m) : MidOk cfg m' := by
  refine Turns.induct (J := FocusOk cfg) ?_ ?_ ?_ hs hm
  · intro pre g post h ahead hdone hm
    refine ⟨hm.slots, fun _ => hm.gens g (by simp) hdone, fun o ho holive => ⟨?_, ?_⟩⟩
    · exact hm.slots.seq_ne hdone ho holive
    · refine hm.gens o ?_ holive
      rcases mem_append.mp ho with ho | ho <;> simp [ho]
  · intro pre post ahead f f' hf hstep
    have hframe := hstep.frame
    refine ⟨hf.slots.step hframe hf.gen, ?_, ?_⟩
    · intro hlive
      refine GenOk.step hstep (hf.gen ?_) hlive
      cases hframe.exit with
      | stays done => rw [← done, hlive]
      | released live | kept live => exact live
    · intro o ho holive
      obtain ⟨hne, hok⟩ := hf.others o ho holive
      exact ⟨hframe.seq ▸ hne, hok.of_kv (hframe.host.kv _ hne)⟩
  · intro pre post ahead f hf _
    refine ⟨hf.slots, ?_⟩
    intro o ho holive
    simp only [mem_append, mem_cons] at ho
    by_cases hfg : o = f.g
    · subst hfg
      simpa using hf.gen holive
    · have ho' : o ∈ pre ++ post := by
        rcases ho with ho | ho | ho
        · simp [ho]
        · exact absurd ho hfg
        · simp [ho]
      obtain ⟨hne, hok⟩ := hf.others o ho' holive
      simpa [Function.update_of_ne hne] using hok

end OneBrain.Engine
