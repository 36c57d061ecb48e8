import OneBrain.Engine.Slots

/-!
# What goes into a batch

The batch of a step, read off the builders: the pending token of every decodable
generation at its cache length, then one prefill chunk at consecutive positions; or,
in a speculative round, the pending token followed by the drafts. `Placed` says that
every token stands at the position its sequence's cache ends at, counted with the
tokens already pushed for that sequence, and `decoded_layout` that a successful
decode of such a batch extends laid-out caches to laid-out caches.
-/

namespace OneBrain.Engine

open List OneBrain.Lib

variable {env : Env} {cfg : Cfg} {drafting : Bool}

/-! ### Placement -/

/-- Every token is placed at the end of its sequence's cache, after the tokens already
pushed for it. -/
def Placed (kv : SeqId → List Cell) (batch : List BatchTok) : Prop :=
  ∀ pre b post, batch = pre ++ b :: post →
    b.pos = (kv b.seq).length + (pre.filter fun c => c.seq = b.seq).length

/-- The tokens a batch holds for a sequence. -/
def batchToks (batch : List BatchTok) (s : SeqId) : List Token :=
  (batch.filter fun b => b.seq = s).map BatchTok.tok

theorem placed_nil (kv : SeqId → List Cell) : Placed kv [] := by
  intro pre b post h
  simp at h

variable {kv : SeqId → List Cell} {batch b' : List BatchTok} {b : BatchTok} {s : SeqId}

theorem Placed.snoc (hp : Placed kv batch)
    (hb : b.pos = (kv b.seq).length + (batch.filter fun c => c.seq = b.seq).length) :
    Placed kv (batch ++ [b]) := by
  intro pre c post heq
  rcases eq_nil_or_concat post with rfl | ⟨post', d, rfl⟩
  · obtain ⟨rfl, hc⟩ := append_inj' heq rfl
    simp only [List.cons.injEq, and_true] at hc
    rw [← hc]
    exact hb
  · rw [concat_eq_append, ← cons_append, ← append_assoc] at heq
    obtain ⟨h1, -⟩ := append_inj' heq rfl
    exact hp pre c post' h1

theorem Placed.init (hp : Placed kv (batch ++ [b])) : Placed kv batch := by
  intro pre c post heq
  exact hp pre c (post ++ [b]) (by simp [heq])

/-- Tokens of one sequence at consecutive positions. -/
structure RunAt (s : SeqId) (n : ℕ) (entries : List BatchTok) : Prop where
  seq : ∀ e ∈ entries, e.seq = s
  pos : entries.map BatchTok.pos = List.range' n entries.length

/-- A run for a sequence the batch does not mention yet, starting at its cache length. -/
theorem Placed.append_run {entries : List BatchTok}
    (hp : Placed kv batch) (hs : ∀ b ∈ batch, b.seq ≠ s) (hr : RunAt s (kv s).length entries) :
    Placed kv (batch ++ entries) := by
  induction entries using List.reverseRecOn with
  | nil => simpa using hp
  | append_singleton entries e ih =>
    have hpos := hr.pos
    rw [map_append, length_append, length_singleton, List.range'_concat,
      Nat.one_mul] at hpos
    obtain ⟨hpos', hlast⟩ := append_inj' hpos rfl
    have hrun : RunAt s (kv s).length entries := ⟨fun e he => hr.seq e (by simp [he]), hpos'⟩
    have hseq : e.seq = s := hr.seq e (by simp)
    rw [← append_assoc]
    refine (ih hrun).snoc ?_
    have h1 : (batch.filter fun c => c.seq = s) = [] := by
      simpa [filter_eq_nil_iff] using hs
    have h2 : (entries.filter fun c => c.seq = s) = entries := by
      simpa [filter_eq_self] using hrun.seq
    simp only [map_cons, map_nil, List.cons.injEq, and_true] at hlast
    rw [hseq, filter_append, h1, h2, nil_append]
    exact hlast

theorem batchCells_snoc (batch : List BatchTok) (b : BatchTok) (s : SeqId) :
    batchCells (batch ++ [b]) s = batchCells batch s ++ if b.seq = s then [b.cell] else [] := by
  by_cases hb : b.seq = s <;> simp [batchCells, filter_append, hb]

theorem batchToks_snoc (batch : List BatchTok) (b : BatchTok) (s : SeqId) :
    batchToks (batch ++ [b]) s = batchToks batch s ++ if b.seq = s then [b.tok] else [] := by
  by_cases hb : b.seq = s <;> simp [batchToks, filter_append, hb]

/-- **A placed batch extends laid-out caches.** -/
theorem decoded_layout (hp : Placed kv batch) {ts : List Token} (hkv : kv s = layout ts) :
    kv s ++ batchCells batch s = layout (ts ++ batchToks batch s) := by
  induction batch using List.reverseRecOn with
  | nil => simpa [batchCells, batchToks] using hkv
  | append_singleton batch b ih =>
    rw [batchCells_snoc, batchToks_snoc, ← append_assoc, ih hp.init]
    by_cases hb : b.seq = s
    · have hpos : b.pos = (ts ++ batchToks batch s).length := by
        rw [hp batch b [] rfl, hb, hkv]
        simp [batchToks]
      rw [if_pos hb, if_pos hb, ← append_assoc, layout_concat, ← hpos]
      rfl
    · simp [hb]

theorem logitsAt_layout {h : Host} {i : ℕ} {ts : List Token} (hb : batch[i]? = some b) (hkv : h.kv b.seq = layout ts) :
    logitsAt h batch i = layout (ts.take (b.pos + 1)) := by
  simp [logitsAt, hb, hkv, upTo_layout]

/-! ### The builders -/

theorem batchPush_ok {b : List BatchTok} {tok : Token} {pos : ℕ} {seq : SeqId} {logits : Bool}
    {index : ℕ} (h : batchPush cfg b tok pos seq logits = .ok (b', index)) :
    b' = b ++ [⟨tok, pos, seq, logits⟩] ∧ index = b.length := by
  unfold batchPush at h
  split at h
  · cases h
  · split at h
    · cases h
    · simp only [Except.ok.injEq, Prod.mk.injEq] at h
      exact ⟨h.1.symm, h.2.symm⟩

theorem batchPush_error {b : List BatchTok} {tok : Token} {pos : ℕ} {seq : SeqId} {logits : Bool}
    {e : String} (hseq : seq < cfg.nSeqMax) (h : batchPush cfg b tok pos seq logits = .error e) :
    cfg.nBatch ≤ b.length := by
  unfold batchPush at h
  split at h
  · assumption
  · rw [if_neg (Nat.not_le.mpr hseq)] at h
    cases h

/-- The entry a decodable generation contributes. -/
def decodeTok (g : ActiveGen) : Option BatchTok :=
  if g.steppable && g.prefilled then
    g.pending.map fun p => { tok := p.tok, pos := g.kvLen, seq := g.seq, logits := true }
  else none

/-- The index pairs of the decodable generations, counted from `i` in the active set
and from `n` in the batch. -/
def decodeIndexes : List ActiveGen → ℕ → ℕ → List (ℕ × ℕ)
  | [], _, _ => []
  | g :: rest, i, n =>
    match decodeTok g with
    | some _ => (i, n) :: decodeIndexes rest (i + 1) (n + 1)
    | none => decodeIndexes rest (i + 1) n

theorem decodeTok_eq_some {g : ActiveGen} (h : decodeTok g = some b) :
    g.steppable = true ∧ g.prefilled = true ∧
      ∃ p, g.pending = some p ∧ b = ⟨p.tok, g.kvLen, g.seq, true⟩ := by
  unfold decodeTok at h
  split at h
  · rename_i hg
    simp only [Bool.and_eq_true] at hg
    cases hp : g.pending with
    | none => simp [hp] at h
    | some p =>
      simp only [hp, Option.map_some, Option.some.injEq] at h
      exact ⟨hg.1, hg.2, p, rfl, h.symm⟩
  · cases h

variable (l : List ActiveGen)

theorem buildDecodes_ok (i : ℕ) (b : List BatchTok) (ds : List (ℕ × ℕ))
    {ds' : List (ℕ × ℕ)} (h : buildDecodes cfg l i b ds = .ok (b', ds')) :
    b' = b ++ l.filterMap decodeTok ∧ ds' = ds ++ decodeIndexes l i b.length := by
  induction l generalizing i b ds with
  | nil =>
    simp only [buildDecodes, Except.ok.injEq, Prod.mk.injEq] at h
    simp [decodeIndexes, h.1, h.2]
  | cons g rest ih =>
    simp only [buildDecodes] at h
    by_cases hg : (g.steppable && g.prefilled) = true
    · rw [if_pos hg] at h
      cases hp : g.pending with
      | none =>
        have hnone : decodeTok g = none := by simp [decodeTok, hp]
        simp only [hp] at h
        simpa [decodeIndexes, hnone] using ih (i + 1) b ds h
      | some p =>
        have hsome : decodeTok g = some ⟨p.tok, g.kvLen, g.seq, true⟩ := by simp [decodeTok, hp, hg]
        simp only [hp] at h
        cases hpush : batchPush cfg b p.tok g.kvLen g.seq true with
        | error =>
          rw [hpush] at h
          cases h
        | ok r =>
          obtain ⟨b₁, index⟩ := r
          rw [hpush] at h
          obtain ⟨rfl, rfl⟩ := batchPush_ok hpush
          obtain ⟨h1, h2⟩ := ih (i + 1) _ _ h
          simp [decodeIndexes, hsome, h1, h2]
    · rw [if_neg hg] at h
      have hnone : decodeTok g = none := by simp [decodeTok, hg]
      simpa [decodeIndexes, hnone] using ih (i + 1) b ds h

/-- A failed push of pending tokens: there are more generations than batch entries. -/
theorem buildDecodes_error (i : ℕ) (b : List BatchTok) (ds : List (ℕ × ℕ))
    (hseq : ∀ g ∈ l, g.seq < cfg.nSeqMax) {r : ℕ × String} (h : buildDecodes cfg l i b ds = .error r) :
    cfg.nBatch < b.length + l.length := by
  induction l generalizing i b ds with
  | nil => cases h
  | cons g rest ih =>
    have hrest : ∀ g' ∈ rest, g'.seq < cfg.nSeqMax := fun g' hg' => hseq g' (by simp [hg'])
    simp only [buildDecodes] at h
    rw [length_cons]
    split at h
    · split at h
      · have := ih (i + 1) b ds hrest h
        omega
      · split at h
        · rename_i e hpush
          have := batchPush_error (hseq g (by simp)) hpush
          omega
        · rename_i b' index hpush
          have := ih (i + 1) b' _ hrest h
          rw [(batchPush_ok hpush).1, length_append, length_singleton] at this
          omega
    · have := ih (i + 1) b ds hrest h
      omega

/-- The entries of a prefill chunk whose first token is the `j`-th of the step. -/
def chunkToks (g : ActiveGen) : List Token → ℕ → List BatchTok
  | [], _ => []
  | tok :: rest, j =>
    { tok := tok, pos := g.kvLen + j, seq := g.seq
      logits := decide (g.prefillDone + j + 1 = g.prefixToks.length) } :: chunkToks g rest (j + 1)

theorem chunkToks_runAt (g : ActiveGen) (toks : List Token) (j : ℕ) :
    RunAt g.seq (g.kvLen + j) (chunkToks g toks j) ∧ (chunkToks g toks j).map BatchTok.tok = toks := by
  induction toks generalizing j with
  | nil => exact ⟨⟨by simp [chunkToks], by simp [chunkToks]⟩, rfl⟩
  | cons tok rest ih =>
    obtain ⟨⟨hseq, hpos⟩, htok⟩ := ih (j + 1)
    refine ⟨⟨?_, ?_⟩, by simp [chunkToks, htok]⟩
    · intro e he
      simp only [chunkToks, mem_cons] at he
      rcases he with rfl | he
      · rfl
      · exact hseq e he
    · simp only [chunkToks, map_cons, length_cons, List.range'_succ, hpos]
      rfl

theorem pushPrefill_ok (g : ActiveGen) (toks : List Token) (j : ℕ) (b : List BatchTok) (tail : Option ℕ)
    {tail' : Option ℕ} (h : pushPrefill cfg g toks j b tail = .ok (b', tail')) :
    b' = b ++ chunkToks g toks j ∧ (toks ≠ [] → g.prefillDone + j + toks.length = g.prefixToks.length →
        tail' = some (b.length + toks.length - 1)) := by
  induction toks generalizing j b tail with
  | nil =>
    simp only [pushPrefill, Except.ok.injEq, Prod.mk.injEq] at h
    exact ⟨by simp [chunkToks, h.1], by simp⟩
  | cons tok rest ih =>
    simp only [pushPrefill] at h
    split at h
    · cases h
    · rename_i b₁ index hpush
      obtain ⟨rfl, rfl⟩ := batchPush_ok hpush
      obtain ⟨h1, h2⟩ := ih (j + 1) _ _ h
      refine ⟨by simp [chunkToks, h1], ?_⟩
      intro _ hlen
      simp only [length_cons] at hlen
      by_cases hrest : rest = []
      · subst hrest
        simp only [pushPrefill, Except.ok.injEq, Prod.mk.injEq] at h
        rw [← h.2, if_pos (by simpa using hlen)]
        simp
      · rw [h2 hrest (by omega)]
        simp only [length_append, length_cons, length_nil, Option.some.injEq]
        have := length_pos_iff.mpr hrest
        omega

theorem pushPrefill_total (g : ActiveGen) (toks : List Token) (j : ℕ) (b : List BatchTok) (tail : Option ℕ)
    (hseq : g.seq < cfg.nSeqMax) (hfit : b.length + toks.length ≤ cfg.nBatch) (e : String) :
    pushPrefill cfg g toks j b tail ≠ .error e := by
  induction toks generalizing j b tail with
  | nil => simp [pushPrefill]
  | cons tok rest ih =>
    rw [length_cons] at hfit
    simp only [pushPrefill]
    split
    · rename_i e' hpush
      have := batchPush_error hseq hpush
      omega
    · rename_i b' index hpush
      refine ih (j + 1) b' _ ?_
      rw [(batchPush_ok hpush).1, length_append, length_singleton]
      omega

/-- The prefill chunk is cut to the space left, so pushing it cannot fail. -/
theorem buildPrefill_total (i : ℕ) (b : List BatchTok)
    (hseq : ∀ g ∈ l, g.seq < cfg.nSeqMax) (r : ℕ × String) : buildPrefill cfg l i b ≠ .error r := by
  induction l generalizing i with
  | nil => simp [buildPrefill]
  | cons g rest ih =>
    simp only [buildPrefill]
    split
    · split
      · simp
      · split
        · rename_i hspace e hpush
          refine absurd hpush (pushPrefill_total g _ 0 b none (hseq g (by simp)) ?_ e)
          have : (prefillChunk g (cfg.nBatch - b.length)).length ≤ cfg.nBatch - b.length := by
            simp [prefillChunk]
          omega
        · simp
    · exact ih (i + 1) fun g' hg' => hseq g' (by simp [hg'])

theorem buildPrefill_ok (i : ℕ) (b : List BatchTok)
    {p : Option (ℕ × ℕ × Option ℕ)} (h : buildPrefill cfg l i b = .ok (b', p)) :
    (p = none ∧ b' = b) ∨ ∃ k g n tail, p = some (i + k, (prefillChunk g n).length, tail) ∧
      l[k]? = some g ∧ g.steppable = true ∧ g.prefilled = false ∧ 0 < n ∧
      b' = b ++ chunkToks g (prefillChunk g n) 0 ∧
      (prefillChunk g n ≠ [] → g.prefillDone + (prefillChunk g n).length = g.prefixToks.length →
        tail = some (b.length + (prefillChunk g n).length - 1)) := by
  induction l generalizing i with
  | nil =>
    simp only [buildPrefill, Except.ok.injEq, Prod.mk.injEq] at h
    exact .inl ⟨h.2.symm, h.1.symm⟩
  | cons g rest ih =>
    simp only [buildPrefill] at h
    split at h
    · rename_i hg
      simp only [Bool.and_eq_true, Bool.not_eq_true'] at hg
      split at h
      · simp only [Except.ok.injEq, Prod.mk.injEq] at h
        exact .inl ⟨h.2.symm, h.1.symm⟩
      · rename_i hspace
        split at h
        · cases h
        · rename_i b₁ tail hpush
          simp only [Except.ok.injEq, Prod.mk.injEq] at h
          obtain ⟨h1, h2⟩ := pushPrefill_ok g _ 0 b none hpush
          refine .inr ⟨0, g, cfg.nBatch - b.length, tail, by simp [← h.2], rfl, hg.1, hg.2, by omega,
            by rw [← h.1, h1], ?_⟩
          intro hne hlen
          exact h2 hne (by omega)
    · rcases ih (i + 1) h with hnone | ⟨k, g', n, tail, hp, hk, hrest⟩
      · exact .inl hnone
      · exact .inr ⟨k + 1, g', n, tail, by rw [hp]; congr 2; omega, by simpa using hk, hrest⟩

theorem pushSpec_ok (seq : SeqId) (toks : List Token) (pos : ℕ) (b : List BatchTok) (idx : List ℕ)
    {idx' : List ℕ} (h : pushSpec cfg seq toks pos b idx = .ok (b', idx')) :
    b' = b ++ (toks.zipIdx pos).map (fun c => ⟨c.1, c.2, seq, true⟩) ∧
      idx' = idx ++ List.range' b.length toks.length := by
  induction toks generalizing pos b idx with
  | nil =>
    simp only [pushSpec, Except.ok.injEq, Prod.mk.injEq] at h
    simp [h.1, h.2]
  | cons tok rest ih =>
    simp only [pushSpec] at h
    split at h
    · cases h
    · rename_i b₁ index hpush
      obtain ⟨rfl, rfl⟩ := batchPush_ok hpush
      obtain ⟨h1, h2⟩ := ih (pos + 1) _ _ h
      refine ⟨by simp [h1], ?_⟩
      rw [h2]
      simp [List.range'_succ]

/-! ### Turns after a decode -/

theorem decodeIndexes_mem (i n : ℕ) :
    ∀ d ∈ decodeIndexes l i n, ∃ k g, d.1 = i + k ∧ l[k]? = some g ∧ (decodeTok g).isSome := by
  induction l generalizing i n with
  | nil => simp [decodeIndexes]
  | cons g rest ih =>
    have hrest : ∀ m, ∀ d ∈ decodeIndexes rest (i + 1) m,
        ∃ k g', d.1 = i + k ∧ (g :: rest)[k]? = some g' ∧ (decodeTok g').isSome := by
      intro m d hd
      obtain ⟨k, g', hk, hget, hsome⟩ := ih (i + 1) m d hd
      exact ⟨k + 1, g', by omega, by simpa using hget, hsome⟩
    intro d hd
    cases hg : decodeTok g with
    | none =>
      simp only [decodeIndexes, hg] at hd
      exact hrest n d hd
    | some =>
      simp only [decodeIndexes, hg, mem_cons] at hd
      rcases hd with rfl | hd
      · exact ⟨0, g, rfl, rfl, by simp [hg]⟩
      · exact hrest (n + 1) d hd

theorem postDecodes_getElem? (logits : ℕ → List Cell) (ds : List (ℕ × ℕ)) (h : Host)
    (active : List ActiveGen) (k : ℕ) (hk : ∀ d ∈ ds, d.1 ≠ k) :
    (postDecodes env cfg logits ds h active).2[k]? = active[k]? := by
  induction ds generalizing h active with
  | nil => rfl
  | cons d rest ih =>
    obtain ⟨i, index⟩ := d
    have hrest : ∀ d ∈ rest, d.1 ≠ k := fun d hd => hk d (by simp [hd])
    have hik : i ≠ k := hk (i, index) (by simp)
    simp only [postDecodes]
    split
    · exact ih h active hrest
    · rw [ih _ _ hrest, List.getElem?_set_ne hik]

theorem postDecodes_turns (logits : ℕ → List Cell) (l pre : List ActiveGen) (n : ℕ) (h : Host)
    (ahead : SeqId → List Token) (hlive : ∀ g ∈ l, g.done = false) (hnodup : (l.map ActiveGen.seq).Nodup)
    (hahead : ∀ g ∈ l, ∀ b, decodeTok g = some b → ahead g.seq = [b.tok])
    (hctx : ∀ k b, (l.filterMap decodeTok)[k]? = some b →
      ∀ g ∈ l, decodeTok g = some b → logits (n + k) = layout (g.stream ++ [b.tok])) :
    ∃ ahead', Turns env cfg drafting ⟨h, pre ++ l, ahead⟩
        ⟨(postDecodes env cfg logits (decodeIndexes l pre.length n) h (pre ++ l)).1,
          (postDecodes env cfg logits (decodeIndexes l pre.length n) h (pre ++ l)).2, ahead'⟩ ∧
      (∀ g ∈ l, (decodeTok g).isSome → ahead' g.seq = []) ∧
      ∀ s, (∀ g ∈ l, (decodeTok g).isSome → g.seq ≠ s) → ahead' s = ahead s := by
  induction l generalizing pre n h ahead with
  | nil => exact ⟨ahead, .refl, by simp, fun _ _ => rfl⟩
  | cons g rest ih =>
    have hlive' : ∀ g' ∈ rest, g'.done = false := fun g' hg' => hlive g' (by simp [hg'])
    rw [map_cons, nodup_cons] at hnodup
    have hne : ∀ g' ∈ rest, g'.seq ≠ g.seq := by
      intro g' hg' heq
      exact hnodup.1 (heq ▸ mem_map_of_mem hg')
    cases hd : decodeTok g with
    | none =>
      obtain ⟨ahead', hturns, hclear, hkeep⟩ := ih (pre ++ [g]) n h ahead hlive' hnodup.2
        (fun g' hg' => hahead g' (by simp [hg']))
        fun k b hb g' hg' => hctx k b (by simpa [hd] using hb) g' (by simp [hg'])
      simp only [length_append, length_singleton, append_assoc, cons_append,
        nil_append] at hturns
      refine ⟨ahead', by simpa only [decodeIndexes, hd] using hturns, ?_, ?_⟩
      · intro g' hg' hsome
        rcases mem_cons.mp hg' with rfl | hg'
        · simp [hd] at hsome
        · exact hclear g' hg' hsome
      · exact fun s hs => hkeep s fun g' hg' => hs g' (by simp [hg'])
    | some b =>
      obtain ⟨hstep, hpre, p, hp, rfl⟩ := decodeTok_eq_some hd
      have hsteps : GenSteps env cfg drafting ⟨h, g, ahead g.seq, false⟩
          (.of (postDecode env cfg h g (logits n)) [] false) := by
        rw [hahead g (by simp) _ hd]
        exact postDecode_steps h g (logits n) p (hlive g (by simp)) hstep hpre hp
          (hctx 0 _ (by simp [hd]) g (by simp) hd)
      have hturn := Turn.mk pre g rest h ahead _ (hlive g (by simp)) hsteps rfl
      have hahead' : ∀ g' ∈ rest, ∀ b, decodeTok g' = some b →
          Function.update ahead g.seq [] g'.seq = [b.tok] := by
        intro g' hg' b hb
        rw [Function.update_of_ne (hne g' hg')]
        exact hahead g' (by simp [hg']) b hb
      obtain ⟨ahead', hturns, hclear, hkeep⟩ := ih (pre ++ [(postDecode env cfg h g (logits n)).2]) (n + 1)
        (postDecode env cfg h g (logits n)).1 (Function.update ahead g.seq []) hlive' hnodup.2 hahead'
        fun k b hb g' hg' hg => by
          rw [Nat.add_right_comm]
          exact hctx (k + 1) b (by simpa [hd] using hb) g' (by simp [hg']) hg
      simp only [length_append, length_singleton, append_assoc, cons_append,
        nil_append] at hturns
      have hget : (pre ++ g :: rest)[pre.length]? = some g := by simp
      have hset : (pre ++ g :: rest).set pre.length (postDecode env cfg h g (logits n)).2 =
          pre ++ (postDecode env cfg h g (logits n)).2 :: rest := by simp
      refine ⟨ahead', ?_, ?_, ?_⟩
      · simp only [decodeIndexes, hd, postDecodes, hget, hset]
        exact .head hturn hturns
      · intro g' hg' hsome
        rcases mem_cons.mp hg' with rfl | hg'
        · rw [hkeep _ fun g'' hg'' _ => hne g'' hg'', Function.update_self]
        · exact hclear g' hg' hsome
      · intro s hs
        rw [hkeep s fun g' hg' => hs g' (by simp [hg']),
          Function.update_of_ne (Ne.symm (hs g (by simp) (by simp [hd])))]

theorem mem_filterMap_decodeTok {l : List ActiveGen} (hb : b ∈ l.filterMap decodeTok) :
    ∃ g ∈ l, decodeTok g = some b ∧ b.seq = g.seq := by
  obtain ⟨g, hg, hd⟩ := mem_filterMap.mp hb
  obtain ⟨-, -, p, -, rfl⟩ := decodeTok_eq_some hd
  exact ⟨g, hg, hd, rfl⟩

theorem batchToks_decodes {l : List ActiveGen} (hnodup : (l.map ActiveGen.seq).Nodup) {g : ActiveGen}
    (hg : g ∈ l) (hb : decodeTok g = some b) : batchToks (l.filterMap decodeTok) g.seq = [b.tok] := by
  induction l with
  | nil => simp at hg
  | cons a rest ih =>
    rw [map_cons, nodup_cons] at hnodup
    rcases mem_cons.mp hg with rfl | hg
    · have hrest : (rest.filterMap decodeTok).filter (fun c => c.seq = g.seq) = [] := by
        rw [filter_eq_nil_iff]
        intro c hc
        obtain ⟨g', hg', -, hseq⟩ := mem_filterMap_decodeTok hc
        simp only [decide_eq_true_eq, hseq]
        exact fun heq => hnodup.1 (heq ▸ mem_map_of_mem hg')
      obtain ⟨-, -, p, -, rfl⟩ := decodeTok_eq_some hb
      simp [batchToks, hb, hrest]
    · have hne : a.seq ≠ g.seq := fun heq => hnodup.1 (heq ▸ mem_map_of_mem hg)
      have ih' := ih hnodup.2 hg
      cases ha : decodeTok a with
      | none => simpa [batchToks, filterMap_cons, ha] using ih'
      | some =>
        obtain ⟨-, -, p, -, rfl⟩ := decodeTok_eq_some ha
        simpa [batchToks, filterMap_cons, ha, hne] using ih'

theorem batchToks_append (b c : List BatchTok) (s : SeqId) :
    batchToks (b ++ c) s = batchToks b s ++ batchToks c s := by
  simp [batchToks]

theorem batchToks_eq_nil {b : List BatchTok} (h : ∀ e ∈ b, e.seq ≠ s) : batchToks b s = [] := by
  have : b.filter (fun e => e.seq = s) = [] := by simpa [filter_eq_nil_iff] using h
  simp [batchToks, this]

theorem batchToks_run {b : List BatchTok} (h : ∀ e ∈ b, e.seq = s) :
    batchToks b s = b.map BatchTok.tok := by
  have : b.filter (fun e => e.seq = s) = b := by simpa [filter_eq_self] using h
  simp [batchToks, this]

end OneBrain.Engine
