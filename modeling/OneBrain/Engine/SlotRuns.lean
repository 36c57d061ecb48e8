import OneBrain.Engine.Reuse

/-!
# Slots, caches and budgets through the loop

`LoopOk` is what holds of the serve loop between two blocks: live generations and free
slots share out the session, every cache is the beginning of its stream, budgets and
retained histories fit the context, the draft cache follows the stream it is marked
for, and what waits in the queue respects its token budget. Each block keeps it,
whatever fails on the way, and so does every run.
-/

namespace OneBrain.Engine

open List OneBrain.Lib

variable {env : Env} {cfg : Cfg} {drafting : Bool}

/-! ### What is carried between attempts -/

/-- What an attempt carries over fits its job. -/
def CarriedOk (job : GenerateJob) (state : ResumeState) : Prop :=
  state.promptTokens ≠ [] ∧ state.generatedTokens.length ≤ job.maxTokens

/-- The bookkeeping of a queue entry. -/
structure PreparedOk (p : PreparedGen) : Prop where
  prompt_ne : p.promptTokens ≠ []
  budget_eq : p.budget = p.promptTokens.length + p.job.maxTokens
  remaining_eq : p.priorGenerated.length + p.remaining = p.job.maxTokens

/-- What the slot bookkeeping reads of a host is unchanged. -/
structure SameSlots (h h' : Host) : Prop where
  kv : h'.kv = h.kv
  free : h'.free = h.free
  retained : h'.retained = h.retained
  draft : h'.draftKv = h.draftKv ∧ h'.synced = h.synced
  interrupted : h'.interrupted = h.interrupted

theorem SameSlots.refl (h : Host) : SameSlots h h := ⟨rfl, rfl, rfl, ⟨rfl, rfl⟩, rfl⟩

variable {h h' : Host} {active : List ActiveGen} {ahead : SeqId → List Token} {s : Loop}
  {g : ActiveGen} {pending : PendingTok}

theorem SameSlots.trans {h'' : Host} (a : SameSlots h h') (b : SameSlots h' h'') : SameSlots h h'' :=
  ⟨b.kv.trans a.kv, b.free.trans a.free, b.retained.trans a.retained,
    ⟨b.draft.1.trans a.draft.1, b.draft.2.trans a.draft.2⟩, b.interrupted.trans a.interrupted⟩

/-- **The serve loop between two blocks.** -/
structure LoopOk (cfg : Cfg) (s : Loop) : Prop where
  mid : MidOk cfg ⟨s.host, s.active, noAhead⟩
  /-- Generations that are over have been removed. -/
  live : ∀ g ∈ s.active, g.done = false
  draft : DraftOk s.host s.active
  uid_lt : ∀ g ∈ s.active, g.uid < s.nextUid
  /-- So was the one the draft cache is marked for. -/
  synced_lt : ∀ u n, s.host.synced = some (u, n) → u < s.nextUid
  queue : ∀ p ∈ s.queue, PreparedOk p
  carried : ∀ gen ∈ s.host.interrupted, CarriedOk gen.job gen.state

theorem MidOk.of_lists (hm : MidOk cfg ⟨h, active, ahead⟩) (hkv : h'.kv = h.kv) (hfree : h'.free = h.free)
    (hret : h'.retained = h.retained) : MidOk cfg ⟨h', active, ahead⟩ := by
  obtain ⟨⟨h1, h2, h3, h4, h5⟩, hgens⟩ := hm
  refine ⟨⟨by rwa [hfree], ?_, by rwa [hret], ?_, by rwa [hret]⟩, ?_⟩
  · rw [hret, hfree]
    exact h2
  · rw [hret, hkv]
    exact h4
  · exact fun g hg hlive => (hgens g hg hlive).of_kv (congrFun hkv _)

theorem MidOk.retain (hm : MidOk cfg ⟨h, active, ahead⟩) : MidOk cfg ⟨h, retainActive active, ahead⟩ := by
  have hidem : retainActive (retainActive active) = retainActive active :=
    retainActive_live fun g hg => (mem_retainActive.mp hg).2
  obtain ⟨⟨h1, h2, h3, h4, h5⟩, hgens⟩ := hm
  refine ⟨⟨?_, h2, h3, h4, ?_⟩, fun g hg hlive => hgens g (mem_retainActive.mp hg).1 hlive⟩
  · rw [hidem]
    exact h1
  · rw [hidem]
    exact h5

/-! ### Turns -/

/-- Turns keep the admission numbers and what waits for the supervisor. -/
theorem turns_keep {m m' : Mid} (hs : Turns env cfg drafting m m') :
    m'.active.map ActiveGen.uid = m.active.map ActiveGen.uid ∧ m'.h.interrupted = m.h.interrupted := by
  refine Turns.induct
    (I := fun m' => m'.active.map ActiveGen.uid = m.active.map ActiveGen.uid ∧
      m'.h.interrupted = m.h.interrupted)
    (J := fun pre post _ f => (pre ++ f.g :: post).map ActiveGen.uid = m.active.map ActiveGen.uid ∧
      f.h.interrupted = m.h.interrupted) ?_ ?_ ?_ hs ⟨rfl, rfl⟩
  · exact fun pre g post h ahead _ hm => hm
  · intro pre post ahead f f' hf hstep
    refine ⟨?_, hstep.frame.host.interrupted.trans hf.2⟩
    rw [← hf.1]
    simp [hstep.frame.uid]
  · exact fun pre post ahead f hf _ => hf

theorem turns_draft {m m' : Mid} (hs : Turns env cfg false m m') :
    m'.h.draftKv = m.h.draftKv ∧ m'.h.synced = m.h.synced := by
  refine Turns.induct (I := fun m' => m'.h.draftKv = m.h.draftKv ∧ m'.h.synced = m.h.synced)
    (J := fun _ _ _ f => f.h.draftKv = m.h.draftKv ∧ f.h.synced = m.h.synced) ?_ ?_ ?_ hs ⟨rfl, rfl⟩
  · exact fun pre g post h ahead _ hm => hm
  · intro pre post ahead f f' hf hstep
    exact ⟨hstep.draft_same.1.trans hf.1, hstep.draft_same.2.trans hf.2⟩
  · exact fun pre post ahead f hf _ => hf

namespace LoopOk

variable {s : Loop} {h' : Host}

variable (hs : LoopOk cfg s)
include hs

theorem of_turns {h₀ : Host} {ahead : SeqId → List Token} {active' : List ActiveGen}
    (hm : MidOk cfg ⟨h₀, s.active, ahead⟩) (hdraft : h₀.draftKv = s.host.draftKv ∧ h₀.synced = s.host.synced)
    (hint : h₀.interrupted = s.host.interrupted)
    (ht : Turns env cfg false ⟨h₀, s.active, ahead⟩ ⟨h', active', noAhead⟩) :
    LoopOk cfg { s with host := h', active := retainActive active' } := by
  have hkeep := turns_keep ht
  have hsame := turns_draft ht
  have hstart : DraftOk h₀ s.active := fun g hg hlive =>
    (hs.draft g hg hlive).extend hdraft rfl prefix_rfl
  refine ⟨(midOk_turns ht hm).retain, fun g hg => (mem_retainActive.mp hg).2, ?_, ?_, ?_, hs.queue, ?_⟩
  · exact fun g hg hlive => draftOk_turns ht hstart g (mem_retainActive.mp hg).1 hlive
  · intro g hg
    have hmem : g.uid ∈ s.active.map ActiveGen.uid := by
      rw [← hkeep.1]
      exact mem_map_of_mem (mem_retainActive.mp hg).1
    obtain ⟨g₀, hg₀, heq⟩ := mem_map.mp hmem
    exact heq ▸ hs.uid_lt g₀ hg₀
  · intro u n hn
    rw [hsame.2, hdraft.2] at hn
    exact hs.synced_lt u n hn
  · rw [hkeep.2, hint]
    exact hs.carried

theorem turns {active' : List ActiveGen} (ht : Turns env cfg false ⟨s.host, s.active, noAhead⟩ ⟨h', active', noAhead⟩) :
    LoopOk cfg { s with host := h', active := retainActive active' } :=
  hs.of_turns hs.mid ⟨rfl, rfl⟩ rfl ht

theorem of_mid {queue : List PreparedGen} (hm : MidOk cfg ⟨h', s.active, noAhead⟩)
    (hdraft : h'.draftKv = s.host.draftKv ∧ h'.synced = s.host.synced)
    (hint : h'.interrupted = s.host.interrupted) (hq : ∀ p ∈ queue, PreparedOk p) :
    LoopOk cfg { s with host := h', queue := queue } := by
  refine ⟨hm, hs.live, ?_, hs.uid_lt, ?_, hq, ?_⟩
  · exact fun g hg hlive => (hs.draft g hg hlive).extend hdraft rfl prefix_rfl
  · intro u n hn
    rw [hdraft.2] at hn
    exact hs.synced_lt u n hn
  · rw [hint]
    exact hs.carried

theorem same {queue : List PreparedGen} (hh : SameSlots s.host h')
    (hq : ∀ p ∈ queue, PreparedOk p) : LoopOk cfg { s with host := h', queue := queue } :=
  hs.of_mid (hs.mid.of_lists hh.kv hh.free hh.retained) hh.draft hh.interrupted hq

end LoopOk

/-! ### Delivery and the message pump -/

theorem Sends.same : Sends h h' → SameSlots h h' := by
  rintro ⟨_, _, _, rfl⟩
  exact ⟨rfl, rfl, rfl, ⟨rfl, rfl⟩, rfl⟩

theorem deliverBlock_ok (hs : LoopOk cfg s) : LoopOk cfg (deliverBlock env cfg s) := by
  have hretry := (@retryOutbox_sends env s.host s.host.outbox).same
  have hs' : LoopOk cfg { s with
      host := { (retryOutbox env s.host s.host.outbox).1 with
        outbox := (retryOutbox env s.host s.host.outbox).2 } } :=
    hs.same (hretry.trans ⟨rfl, rfl, rfl, ⟨rfl, rfl⟩, rfl⟩) hs.queue
  exact hs'.turns (sweepActive_turns retryHeld_steps s.active [] _ hs.live)

theorem SameSlots.finish (h : Host) (e : JobRecord) : SameSlots h (h.finish e) := ⟨rfl, rfl, rfl, ⟨rfl, rfl⟩, rfl⟩

theorem endPrepare_same (h : Host) (sup : SupervisedGenerate) (ev : TokenEvent) :
    SameSlots h (endPrepare env h sup ev) :=
  (@trySend_sends env h sup.job.id ev).same.trans (.finish _ _)

theorem prepareState_ok {job : GenerateJob} {resume : Option ResumeState} {p : PreparedGen}
    (hresume : ∀ state ∈ resume, CarriedOk job state) (hp : prepareState env cfg job resume = .ok p) :
    PreparedOk p ∧ p.job = job := by
  cases resume with
  | some state =>
    obtain ⟨hne, hle⟩ := hresume state rfl
    obtain ⟨unsent, -, rfl⟩ := prepareState_resumed hp
    exact ⟨⟨hne, rfl, by simp only; omega⟩, rfl⟩
  | none =>
    obtain ⟨text, toks, -, -, hne, -, rfl⟩ := prepareState_fresh hp
    exact ⟨⟨hne, rfl, by simp⟩, rfl⟩

theorem prepareGeneration_ok {h : Host} {sup : SupervisedGenerate}
    (hresume : ∀ state ∈ sup.resume, CarriedOk sup.job state) :
    SameSlots h (prepareGeneration env cfg h sup).1 ∧
      ∀ p ∈ (prepareGeneration env cfg h sup).2, PreparedOk p := by
  have htick : SameSlots h h.tick := ⟨rfl, rfl, rfl, ⟨rfl, rfl⟩, rfl⟩
  unfold prepareGeneration
  split
  · exact ⟨endPrepare_same h _ _, by simp⟩
  · split
    · exact ⟨⟨rfl, rfl, rfl, ⟨rfl, rfl⟩, rfl⟩, by simp⟩
    · split
      · exact ⟨htick.trans (endPrepare_same _ _ _), by simp⟩
      · split
        · exact ⟨htick.trans (endPrepare_same _ _ _), by simp⟩
        · rename_i p hp
          split
          · exact ⟨htick.trans (endPrepare_same _ _ _), by simp⟩
          · refine ⟨htick, ?_⟩
            simpa using (prepareState_ok hresume hp).1

theorem pumpMsg_ok {msg : HostMsg} (hs : LoopOk cfg s)
    (hmsg : ∀ sup, msg = .generate sup → ∀ state ∈ sup.resume, CarriedOk sup.job state) :
    LoopOk cfg (pumpMsg env cfg s msg) := by
  cases msg with
  | generate sup =>
    obtain ⟨hsame, hp⟩ := @prepareGeneration_ok env cfg s.host sup (hmsg sup rfl)
    refine hs.same hsame ?_
    intro p hmem
    rcases mem_append.mp hmem with hmem | hmem
    · exact hs.queue p hmem
    · exact hp p (by simpa using hmem)
  | ctrl => exact ⟨hs.mid, hs.live, hs.draft, hs.uid_lt, hs.synced_lt, hs.queue, hs.carried⟩
  | models | embed | shutdown => exact hs

/-! ### Sweeps and admission -/

theorem dropClosedQueue_ok (l : List PreparedGen) (h : Host) :
    SameSlots h (dropClosedQueue env h l).1 ∧ (dropClosedQueue env h l).2.Sublist l := by
  induction l generalizing h with
  | nil => exact ⟨.refl h, .refl _⟩
  | cons p rest ih =>
    have htick : SameSlots h h.tick := ⟨rfl, rfl, rfl, ⟨rfl, rfl⟩, rfl⟩
    simp only [dropClosedQueue]
    split
    · obtain ⟨h1, h2⟩ := ih (h.tick.finish p.ending)
      exact ⟨(htick.trans (.finish _ _)).trans h1, h2.trans (sublist_cons_self _ _)⟩
    · obtain ⟨h1, h2⟩ := ih h.tick
      exact ⟨htick.trans h1, h2.cons_cons p⟩

theorem LoopOk.evict (hs : LoopOk cfg s) (he : Evicted s.host h') : LoopOk cfg { s with host := h' } := by
  obtain ⟨⟨hperm, hfree, hnodup, hkv, hpool⟩, hgens⟩ := hs.mid
  simp only at hperm hfree hnodup hkv hpool hgens
  have hlists : h'.free = s.host.free ∧ h'.draftKv = s.host.draftKv ∧ h'.synced = s.host.synced ∧
      h'.interrupted = s.host.interrupted := by
    rw [he.same]
    exact ⟨rfl, rfl, rfl, rfl⟩
  obtain ⟨h1, h2, h3, h4⟩ := hlists
  refine hs.of_mid ⟨⟨by rwa [h1], ?_, hnodup.sublist (he.sublist.map _), ?_, ?_⟩, ?_⟩ ⟨h2, h3⟩ h4 hs.queue
  · exact fun r hr => h1 ▸ hfree r (he.sublist.subset hr)
  · intro r hr
    rw [he.kv r.seq fun _ => mem_map_of_mem hr]
    exact hkv r (he.sublist.subset hr)
  · have := sum_length_le he.sublist
    simp only
    omega
  · intro g hg hlive
    refine (hgens g hg hlive).of_kv (he.kv _ fun hmem => ?_)
    obtain ⟨r, hr, heq⟩ := mem_map.mp hmem
    exact absurd heq (hs.mid.slots.seq_ne_retained hg hlive hr)

theorem admitGen_ok {reuse : Option (ℕ × ℕ)} {p : PreparedGen} {seq : SeqId} {reused : ℕ}
    (uid : ℕ) (hp : PreparedOk p) (ht : Taken h reuse p.promptTokens h' seq reused)
    (hseq : seq < cfg.nSeqMax) : GenOk cfg h' (admitGen p seq reused uid) [] := by
  have hpos : 0 < p.promptTokens.length := length_pos_iff.mpr hp.prompt_ne
  have hle := ht.reused_le
  have hunpre : (admitGen p seq reused uid).prefilled = false := by
    simp [ActiveGen.prefilled, admitGen]
    omega
  refine ⟨rfl, hp.prompt_ne, ?_, fun _ => ⟨rfl, rfl⟩, hp.budget_eq, ?_, fun h => absurd rfl h, ?_, ?_, hseq,
    .mirror rfl ?_⟩
  · simp only [admitGen, length_append]
    omega
  · simpa [admitGen] using hp.remaining_eq
  · simp [hunpre]
  · intro hterm _
    by_contra hzero
    simp only [admitGen, Nat.pos_iff_ne_zero, not_not] at hterm hzero
    cases hf : p.finish <;> simp [hf, hzero] at hterm
  · rw [append_nil, show (admitGen p seq reused uid).kvLen = reused from rfl]
    simp only [admitGen, ActiveGen.stream, append_nil]
    rw [ht.cache, take_append_of_le_length (by omega)]

theorem LoopOk.admitted {s : Loop} (hs : LoopOk cfg s) {p : PreparedGen} (hp : PreparedOk p)
    {reuse : Option (ℕ × ℕ)} {h' : Host} {seq : SeqId} {reused : ℕ}
    (ht : Taken s.host reuse p.promptTokens h' seq reused) (hroom : usedBudget s.active + p.budget +
      cachedOthers s.host.retained (reuseSeq s.host.retained reuse) ≤ cfg.nCtx) :
    LoopOk cfg { s with
      host := h', active := s.active ++ [admitGen p seq reused s.nextUid], nextUid := s.nextUid + 1 } := by
  obtain ⟨⟨hperm, hfree, hnodup, hkv, hpool⟩, hgens⟩ := hs.mid
  have hlists : h'.draftKv = s.host.draftKv ∧ h'.synced = s.host.synced ∧
      h'.interrupted = s.host.interrupted := by
    rw [ht.same]
    exact ⟨rfl, rfl, rfl⟩
  obtain ⟨h2, h3, h4⟩ := hlists
  have hmemfree : seq ∈ s.host.free := ht.perm.mem_iff.mp (by simp)
  have hseq : seq < cfg.nSeqMax :=
    mem_range.mp (hperm.mem_iff.mp (mem_append_right _ hmemfree))
  have hnew : GenOk cfg h' (admitGen p seq reused s.nextUid) [] := admitGen_ok s.nextUid hp ht hseq
  have hlive : ∀ g ∈ s.active ++ [admitGen p seq reused s.nextUid], g.done = false := by
    intro g hg
    rcases mem_append.mp hg with hg | hg
    · exact hs.live g hg
    · rw [mem_singleton.mp hg]
      rfl
  refine ⟨⟨⟨?_, ?_, hnodup.sublist (ht.sublist.map _), ?_, ?_⟩, ?_⟩, hlive, ?_, ?_, ?_, hs.queue, ?_⟩
  · -- the taken slot moves from the free list to the new generation
    rw [retainActive_live hlive]
    rw [retainActive_live hs.live] at hperm
    refine List.Perm.trans ?_ hperm
    rw [map_append, append_assoc]
    exact ht.perm.append_left _
  · intro r hr
    have hmem := ht.perm.mem_iff.mpr (hfree r (ht.sublist.subset hr))
    exact (mem_cons.mp hmem).resolve_left (ht.ne r hr)
  · intro r hr
    rw [ht.kv r.seq (ht.ne r hr)]
    exact hkv r (ht.sublist.subset hr)
  · rw [retainActive_live hlive]
    have := ht.room
    simp only [usedBudget, map_append, sum_append, map_cons, map_nil, sum_cons,
      sum_nil, admitGen] at hroom ⊢
    omega
  · intro g hg hl
    rcases mem_append.mp hg with hg | hg
    · refine (hgens g hg hl).of_kv (ht.kv _ ?_)
      exact fun heq => hs.mid.slots.seq_not_free hg hl (heq ▸ hmemfree)
    · rw [mem_singleton.mp hg]
      exact hnew
  · intro g hg hl
    rcases mem_append.mp hg with hg | hg
    · exact (hs.draft g hg hl).extend ⟨h2, h3⟩ rfl prefix_rfl
    · -- the mark names an earlier admission
      intro n hn
      rw [mem_singleton.mp hg, h3] at hn
      exact absurd (hs.synced_lt _ _ hn) (lt_irrefl _)
  · intro g hg
    rcases mem_append.mp hg with hg | hg
    · exact Nat.lt_succ_of_lt (hs.uid_lt g hg)
    · rw [mem_singleton.mp hg]
      exact Nat.lt_succ_self _
  · intro u n hn
    rw [h3] at hn
    exact Nat.lt_succ_of_lt (hs.synced_lt u n hn)
  · rw [h4]
    exact hs.carried

theorem LoopOk.free_ne (hs : LoopOk cfg s) (hlen : s.active.length < cfg.nSeqMax) : s.host.free ≠ [] := by
  intro hnil
  have hperm := hs.mid.slots.perm.length_eq
  rw [retainActive_live hs.live, hnil] at hperm
  simp at hperm
  omega

/-- **A slot is found** while fewer generations are active than there are slots. -/
theorem LoopOk.takes {s : Loop} (hs : LoopOk cfg s) (hlen : s.active.length < cfg.nSeqMax) {h₁ : Host}
    (hev : Evicted s.host h₁) {reuse : Option (ℕ × ℕ)} {prompt : List Token} (hreuse : ReuseOk h₁.retained prompt reuse) :
    ∃ h' seq reused, takeSlot env h₁.tick reuse = some (h', seq, reused) ∧ Taken h₁.tick reuse prompt h' seq reused := by
  have hs₂ : LoopOk cfg { s with host := h₁.tick } := (hs.evict hev).same ⟨rfl, rfl, rfl, ⟨rfl, rfl⟩, rfl⟩ hs.queue
  have hslots := hs₂.mid.slots
  obtain ⟨h', seq, reused, htake, ht, -⟩ := @takeSlot_ok env h₁.tick reuse prompt
    (hs₂.free_ne hlen) (nodup_append.mp hslots.nodup).2.1 hslots.retained_free
    hslots.retained_nodup hslots.retained_kv hreuse
  exact ⟨h', seq, reused, htake, ht⟩

theorem reuse_ok (cfg : Cfg) (retained : List RetainedSlot) (p : PreparedGen) :
    ReuseOk retained p.promptTokens
      (if cfg.kvReuse && !p.resumed then bestReuse p.promptTokens retained 0 none else none) := by
  split
  · exact bestReuse_ok p.promptTokens retained [] none (by simp [ReuseOk])
  · simp [ReuseOk]

/-- **What one round of admission can do**: the job waits for headroom, its sampler fails,
or it takes a slot whose headroom was checked. -/
theorem admitFront_cases {s : Loop} (hs : LoopOk cfg s) (p : PreparedGen) (hlen : s.active.length < cfg.nSeqMax) :
    (∃ h₁ keep, Evicted s.host h₁ ∧ admitFront env cfg s p = .waits h₁ ∧
      cfg.nCtx < usedBudget s.active + p.budget + cachedOthers h₁.retained keep) ∨
    (∃ h₁ e, Evicted s.host h₁ ∧
      admitFront env cfg s p = .failed ((deliverTerminal env h₁.tick p.job.id (.error e)).finish p.ending)) ∨
    ∃ h₁ reuse h' seq reused, Evicted s.host h₁ ∧ Taken h₁.tick reuse p.promptTokens h' seq reused ∧
      usedBudget s.active + p.budget + cachedOthers h₁.retained (reuseSeq h₁.retained reuse) ≤ cfg.nCtx ∧
      admitFront env cfg s p = .admitted h' (admitGen p seq reused s.nextUid) := by
  have hreuse := reuse_ok cfg s.host.retained p
  unfold admitFront
  generalize (if cfg.kvReuse && !p.resumed then bestReuse p.promptTokens s.host.retained 0 none else none) =
    reuse at hreuse ⊢
  obtain ⟨hev, hreuse', -⟩ := makeRoom_ok (usedBudget s.active) p.budget cfg.nCtx s.host.retained.length
    p.promptTokens s.host reuse hs.mid.slots.retained_nodup hreuse
  simp only
  generalize makeRoom (usedBudget s.active) p.budget cfg.nCtx s.host.retained.length s.host reuse = r
    at hev hreuse' ⊢
  obtain ⟨h₁, reuse₁⟩ := r
  split
  case isTrue hroom =>
    split
    · rename_i e _
      exact .inr (.inl ⟨h₁, e, hev, rfl⟩)
    · obtain ⟨h', seq, reused, htake, ht⟩ := @LoopOk.takes env cfg s hs hlen h₁ hev reuse₁ p.promptTokens hreuse'
      exact .inr (.inr ⟨h₁, reuse₁, h', seq, reused, hev, ht, hroom, by rw [htake]⟩)
  case isFalse hroom => exact .inl ⟨h₁, _, hev, rfl, Nat.lt_of_not_le hroom⟩

theorem LoopOk.setQueue (hs : LoopOk cfg s) {queue : List PreparedGen}
    (hq : ∀ p ∈ queue, PreparedOk p) : LoopOk cfg { s with queue := queue } :=
  hs.same (.refl _) hq

/-- The loop after a round of admission. -/
def Admit.loop (s : Loop) : Admit → Loop
  | .waits h | .failed h => { s with host := h }
  | .admitted h g => { s with host := h, active := s.active ++ [g], nextUid := s.nextUid + 1 }

/-- **A round of admission** keeps the loop's invariant. -/
theorem LoopOk.round {s : Loop} (hs : LoopOk cfg s) {p : PreparedGen} (hp : PreparedOk p)
    (hlen : s.active.length < cfg.nSeqMax) : LoopOk cfg ((admitFront env cfg s p).loop s) := by
  have htick : ∀ h : Host, SameSlots h h.tick := fun h => ⟨rfl, rfl, rfl, ⟨rfl, rfl⟩, rfl⟩
  rcases @admitFront_cases env cfg s hs p hlen with ⟨h₁, keep, hev, heq, -⟩ | ⟨h₁, e, hev, heq⟩ |
    ⟨h₁, reuse, h', seq, reused, hev, ht, hroom, heq⟩ <;> rw [heq]
  · exact hs.evict hev
  · refine (hs.evict hev).same ?_ hs.queue
    exact ((htick h₁).trans (deliverTerminal_sends _ _ _).same).trans ⟨rfl, rfl, rfl, ⟨rfl, rfl⟩, rfl⟩
  · have hs₂ : LoopOk cfg { s with host := h₁.tick } := (hs.evict hev).same (htick h₁) hs.queue
    exact hs₂.admitted hp ht hroom

/-- **Admission** keeps the loop's invariant. -/
theorem admission_ok (l : List PreparedGen) (hs : LoopOk cfg s) (hl : ∀ p ∈ l, PreparedOk p) :
    LoopOk cfg (admission env cfg l s) := by
  induction l generalizing s with
  | nil => exact hs.setQueue (by simp)
  | cons p rest ih =>
    have hrest : ∀ q ∈ rest, PreparedOk q := fun q hq => hl q (by simp [hq])
    simp only [admission]
    split
    case isTrue hlen =>
      have hround := @LoopOk.round env cfg s hs p (hl p (by simp)) hlen
      cases hfront : admitFront env cfg s p with
      | waits =>
        rw [hfront] at hround
        exact hround.setQueue hl
      | failed | admitted =>
        rw [hfront] at hround
        exact ih hround hrest
    case isFalse => exact hs.setQueue hl

/-- Steps 4 and 4b: the loop as admission finds it. -/
def swept (env : Env) (s : Loop) : Loop :=
  let r := sweepActive (dropClosed env) s.host s.active
  let active := retainActive r.2
  let q := dropClosedQueue env r.1 s.queue
  let r := if s.ctrl.isSome then sweepActive (reapStalled env) q.1 active else (q.1, active)
  { s with host := r.1, active := retainActive r.2, queue := q.2 }

theorem admission_setQueue (l queue : List PreparedGen) (s : Loop) :
    admission env cfg l { s with queue := queue } = admission env cfg l s := by
  induction l generalizing s with
  | nil => rfl
  | cons p rest ih =>
    have hround : admitFront env cfg { s with queue := queue } p = admitFront env cfg s p := rfl
    simp only [admission, hround]
    split
    · cases admitFront env cfg s p with
      | waits => rfl
      | failed h => exact ih { s with host := h }
      | admitted h g => exact ih { s with host := h, active := s.active ++ [g], nextUid := s.nextUid + 1 }
    · rfl

theorem settleBlock_eq (s : Loop) :
    settleBlock env cfg s = admission env cfg (swept env s).queue (swept env s) :=
  (admission_setQueue _ _ _).symm

theorem swept_ok {s : Loop} (hs : LoopOk cfg s) : LoopOk cfg (swept env s) := by
  have h1 : LoopOk cfg { s with
      host := (sweepActive (dropClosed env) s.host s.active).1
      active := retainActive (sweepActive (dropClosed env) s.host s.active).2 } :=
    hs.turns (sweepActive_turns (fun h g _ => dropClosed_steps h g) s.active [] s.host hs.live)
  simp only [swept]
  generalize sweepActive (dropClosed env) s.host s.active = r at h1 ⊢
  obtain ⟨hsame, hsub⟩ := @dropClosedQueue_ok env s.queue r.1
  have hq : ∀ p ∈ (dropClosedQueue env r.1 s.queue).2, PreparedOk p :=
    fun p hp => hs.queue p (hsub.subset hp)
  have h2 := h1.same hsame hs.queue
  generalize dropClosedQueue env r.1 s.queue = q at hsame hq h2 ⊢
  split
  · have h3 := h2.turns (sweepActive_turns (fun h g _ => @reapStalled_steps env cfg false h g) (retainActive r.2) [] q.1 h2.live)
    exact h3.setQueue hq
  · have hidem : retainActive (retainActive r.2) = retainActive r.2 :=
      retainActive_live fun g hg => (mem_retainActive.mp hg).2
    rw [hidem]
    exact h2.setQueue hq

theorem settleBlock_ok (hs : LoopOk cfg s) : LoopOk cfg (settleBlock env cfg s) := by
  rw [settleBlock_eq]
  exact admission_ok _ (swept_ok hs) (swept_ok hs).queue

/-! ### A failed decode -/

/-- What a failed local decode makes of a generation whose client is behind. -/
def ActiveGen.suspect (message : String) (g : ActiveGen) : ActiveGen :=
  { g with kvSuspect := true, terminalAfterDrain := some (g.terminalAfterDrain.getD (.error message)) }

theorem failSeq_held (h : Host) (g : ActiveGen) (message : String) (hheld : g.held ≠ []) :
    failSeq env h { g with kvSuspect := true } message = (h, g.suspect message) := by
  cases hterm : g.terminalAfterDrain <;> simp [failSeq, ActiveGen.suspect, hheld, hterm]

/-- Failing every generation: the ones with held pieces stay, the others' caches are
released. -/
theorem failAll_ok (message : String) (l : List ActiveGen) (h : Host) (hl : ∀ g ∈ l, g.done = false) :
    let r := sweepActive (fun h g => failSeq env h { g with kvSuspect := true } message) h l
    retainActive r.2 = (l.filter fun g => g.held ≠ []).map (ActiveGen.suspect message) ∧
      (∀ s, (∀ g ∈ l, g.held = [] → g.seq ≠ s) → r.1.kv s = h.kv s) ∧
      r.1.synced = h.synced ∧ r.1.interrupted = h.interrupted ∧ r.1.retained = h.retained := by
  induction l generalizing h with
  | nil => exact ⟨rfl, fun _ _ => rfl, rfl, rfl, rfl⟩
  | cons g rest ih =>
    have hrest : ∀ g ∈ rest, g.done = false := fun g' hg' => hl g' (by simp [hg'])
    by_cases hheld : g.held = []
    · obtain ⟨h1, h2, h3, h4, h5⟩ := ih (failSeq env h { g with kvSuspect := true } message).1 hrest
      have hfail : failSeq env h { g with kvSuspect := true } message =
          cancelSeq (deliverTerminal env h g.job.id (.error message)) { g with kvSuspect := true } :=
        failSeq_eq _ _ _ hheld
      have hdone : (failSeq env h { g with kvSuspect := true } message).2.done = true := by
        rw [hfail, cancelSeq_eq]
      have hsame := (@deliverTerminal_sends env h g.job.id (.error message)).same
      simp only [sweepActive]
      refine ⟨?_, ?_, ?_, ?_, ?_⟩
      · rw [retainActive_cons_done hdone, h1]
        simp [hheld]
      · intro s hs
        rw [h2 s fun g' hg' => hs g' (by simp [hg']), hfail, cancelSeq_eq]
        simp only
        rw [Function.update_of_ne (Ne.symm (hs g (by simp) hheld)), hsame.kv]
      · rw [h3, hfail, cancelSeq_eq]
        exact hsame.draft.2
      · rw [h4, hfail, cancelSeq_eq]
        exact hsame.interrupted
      · rw [h5, hfail, cancelSeq_eq]
        exact hsame.retained
    · obtain ⟨h1, h2, h3, h4, h5⟩ := ih h hrest
      have hlive : (g.suspect message).done = false := hl g (by simp)
      simp only [sweepActive, failSeq_held h g message hheld]
      refine ⟨?_, ?_, h3, h4, h5⟩
      · rw [retainActive_cons_live hlive, h1]
        simp [hheld]
      · exact fun s hs => h2 s fun g' hg' => hs g' (by simp [hg'])

theorem clearRetained_kv (l : List RetainedSlot) (h : Host) (s : SeqId) (hs : ∀ r ∈ l, r.seq ≠ s) :
    (l.foldl (fun h r => h.clearSeq r.seq) h).kv s = h.kv s := by
  induction l generalizing h with
  | nil => rfl
  | cons r rest ih =>
    rw [foldl_cons, ih _ fun r' hr' => hs r' (by simp [hr'])]
    exact Function.update_of_ne (Ne.symm (hs r (by simp))) _ _

theorem clearRetained_eq (h : Host) : clearRetained h = { h with kv := (clearRetained h).kv } := by
  have hfold : ∀ (l : List RetainedSlot) (h : Host),
      l.foldl (fun h r => h.clearSeq r.seq) h =
        { h with kv := (l.foldl (fun h r => h.clearSeq r.seq) h).kv } := by
    intro l
    induction l with
    | nil => exact fun h => rfl
    | cons r rest ih =>
      intro h
      rw [foldl_cons, ih]
      rfl
  exact hfold h.retained h

theorem perm_freeSlots (hnodup : (active.map ActiveGen.seq).Nodup) (hlt : ∀ g ∈ active, g.seq < cfg.nSeqMax) :
    (active.map ActiveGen.seq ++ freeSlots cfg active).Perm (List.range cfg.nSeqMax) := by
  have hfree : (freeSlots cfg active).Nodup := (nodup_reverse.mpr nodup_range).filter _
  refine (perm_ext_iff_of_nodup ?_ nodup_range).mpr ?_
  · refine nodup_append.mpr ⟨hnodup, hfree, ?_⟩
    rintro q hq _ hq' rfl
    obtain ⟨g, hg, rfl⟩ := mem_map.mp hq
    simp only [freeSlots, mem_filter, Bool.not_eq_true', any_eq_false, beq_iff_eq] at hq'
    exact hq'.2 g hg rfl
  · intro q
    simp only [mem_append, mem_map, freeSlots, mem_filter, mem_reverse, mem_range,
      Bool.not_eq_true', any_eq_false, beq_iff_eq]
    constructor
    · rintro (⟨g, hg, rfl⟩ | ⟨hq, -⟩)
      · exact hlt g hg
      · exact hq
    · intro hq
      by_cases hex : ∃ g ∈ active, g.seq = q
      · exact .inl hex
      · exact .inr ⟨hq, fun g hg heq => hex ⟨g, hg, heq⟩⟩

theorem interruptGen_carried {ahead : List Token} (hg : GenOk cfg h g ahead)
    (message : String) : CarriedOk (interruptGen g message).job (interruptGen g message).state := by
  refine ⟨hg.prompt_ne, ?_⟩
  have := hg.remaining_eq
  simp only [interruptGen, length_append]
  omega

theorem loopOk_rebuilt {s : Loop} {h : Host} {active : List ActiveGen} (hs : LoopOk cfg s)
    (hlive : ∀ g ∈ active, g.done = false) (hnodup : (active.map ActiveGen.seq).Nodup)
    (hbudget : usedBudget active ≤ cfg.nCtx) (hgens : ∀ g ∈ active, GenOk cfg h g [])
    (huid : ∀ g ∈ active, g.uid < s.nextUid) (hret : h.retained = []) (hsync : h.synced = none)
    (hcarried : ∀ gen ∈ h.interrupted, CarriedOk gen.job gen.state) :
    LoopOk cfg { s with host := { h with free := freeSlots cfg active }, active := active } := by
  refine ⟨⟨⟨?_, ?_, ?_, ?_, ?_⟩, fun g hg _ => (hgens g hg).of_kv rfl⟩, hlive, ?_, huid, ?_, hs.queue, hcarried⟩
  · rw [retainActive_live hlive]
    exact perm_freeSlots hnodup fun g hg => (hgens g hg).seq_lt
  · simp [hret]
  · simp [hret]
  · simp [hret]
  · rw [retainActive_live hlive]
    simpa [hret] using hbudget
  · intro g _ _ n hn
    simp [hsync] at hn
  · intro u n hn
    simp [hsync] at hn

section

variable (hs : LoopOk cfg s)
include hs

/-- **A failed decode** keeps the loop's invariant: a distributed one interrupts every
generation, a local one keeps those whose client is behind, with their caches. -/
theorem decodeFailed_ok {h₁ : Host} {batch : List BatchTok} (message : String)
    (hm : MidOk cfg ⟨h₁, s.active, noAhead⟩) (hint : h₁.interrupted = s.host.interrupted)
    (howner : ∀ b ∈ batch, ∃ g ∈ s.active, g.seq = b.seq ∧ g.steppable = true) :
    LoopOk cfg (decodeFailed env cfg { s with host := h₁ } batch message) := by
  have hnodup := nodup_seqs hm hs.live
  have hgen : ∀ g ∈ s.active, GenOk cfg h₁ g [] := fun g hg => hm.gens g hg (hs.live g hg)
  have hpool : usedBudget s.active ≤ cfg.nCtx := by
    have := hm.slots.pool
    rw [retainActive_live hs.live] at this
    omega
  unfold decodeFailed
  cases hdist : cfg.distributed with
  | true =>
    refine @loopOk_rebuilt cfg s { tornHost env h₁ batch with
        retained := [], synced := none
        interrupted := (tornHost env h₁ batch).interrupted ++
          (s.active.filter ActiveGen.outcome).map fun g => interruptGen g message } [] hs
      (by simp) (by simp) (by simp [usedBudget]) (by simp) (by simp) rfl rfl ?_
    intro gen hgen'
    rcases mem_append.mp hgen' with hmem | hmem
    · refine hs.carried gen ?_
      rwa [← hint]
    · obtain ⟨g, hg, rfl⟩ := mem_map.mp hmem
      exact interruptGen_carried (hgen g (mem_filter.mp hg).1) message
  | false =>
    simp only [Bool.false_eq_true, if_false]
    -- a generation with held pieces was not stepped, so its cache is whole
    have hkv : ∀ g ∈ s.active, g.held ≠ [] → (clearRetained (tornHost env h₁ batch)).kv g.seq = h₁.kv g.seq := by
      intro g hg hheld
      have hclear := clearRetained_kv (tornHost env h₁ batch).retained (tornHost env h₁ batch) g.seq
        fun r hr => hm.slots.seq_ne_retained hg (hs.live g hg) hr
      have hnot : g.seq ∉ batch.map BatchTok.seq := by
        intro hmem
        obtain ⟨b, hb, heq⟩ := mem_map.mp hmem
        obtain ⟨g', hg', hseq, hstep⟩ := howner b hb
        have hgg : g' = g := inj_on_of_nodup_map hnodup hg' hg (hseq.trans heq)
        rw [hgg] at hstep
        simp [ActiveGen.steppable, hheld] at hstep
      have htorn : (tornHost env h₁ batch).kv g.seq = h₁.kv g.seq := by
        simp only [tornHost, if_neg hnot]
      exact hclear.trans htorn
    have hlists : (clearRetained (tornHost env h₁ batch)).interrupted = h₁.interrupted := by
      rw [clearRetained_eq]
      rfl
    generalize clearRetained (tornHost env h₁ batch) = h₂ at hkv hlists ⊢
    obtain ⟨h1, h2, h3, h4, h5⟩ :=
      @failAll_ok env message s.active { h₂ with retained := [], synced := none } hs.live
    generalize sweepActive (fun h g => failSeq env h { g with kvSuspect := true } message)
      { h₂ with retained := [], synced := none } s.active = r at h1 h2 h3 h4 h5 ⊢
    have hstay : ∀ g' ∈ retainActive r.2, ∃ g ∈ s.active, g.held ≠ [] ∧ g' = g.suspect message := by
      intro g' hg'
      rw [h1] at hg'
      obtain ⟨g, hg, rfl⟩ := mem_map.mp hg'
      exact ⟨g, (mem_filter.mp hg).1, by simpa using (mem_filter.mp hg).2, rfl⟩
    refine loopOk_rebuilt hs (fun g hg => (mem_retainActive.mp hg).2) ?_ ?_ ?_ ?_ h5 h3 ?_
    · rw [h1, map_map]
      exact hnodup.sublist (filter_sublist.map _)
    · rw [h1]
      have hle : ((s.active.filter fun g => g.held ≠ []).map ActiveGen.budget).sum ≤ usedBudget s.active :=
        (filter_sublist.map _).sum_le_sum fun _ _ => Nat.zero_le _
      simp only [usedBudget, map_map] at hle ⊢
      exact hle.trans hpool
    · intro g' hg'
      obtain ⟨g, hg, hheld, rfl⟩ := hstay g' hg'
      refine (hgen g hg).congr ?_ rfl rfl rfl rfl rfl rfl rfl rfl rfl rfl .inl ?_
      · rw [← hkv g hg hheld]
        refine h2 g.seq fun g' hg' hnil heq => ?_
        have hgg : g' = g := inj_on_of_nodup_map hnodup hg' hg heq
        exact hheld (hgg ▸ hnil)
      · cases hterm : g.terminalAfterDrain <;> simp [ActiveGen.suspect, hterm]
    · intro g' hg'
      obtain ⟨g, hg, -, rfl⟩ := hstay g' hg'
      exact hs.uid_lt g hg
    · rw [h4]
      exact fun gen hg => hs.carried gen (by rwa [hlists, hint] at hg)

/-! ### Steps -/

theorem LoopOk.push_error {r : ℕ × String}
    (h : buildDecodes cfg s.active 0 [] [] = .error r) : cfg.nBatch < cfg.nSeqMax := by
  have hlt := buildDecodes_error s.active 0 [] [] (fun g hg => (hs.mid.gens g hg (hs.live g hg)).seq_lt) h
  have hperm := hs.mid.slots.perm.length_eq
  rw [retainActive_live hs.live, length_append, length_map, length_range] at hperm
  rw [length_nil] at hlt
  omega

theorem LoopOk.push_fault {r : ℕ × String}
    (h : buildDecodes cfg s.active 0 [] [] = .error r) : Fault env cfg := .full (hs.push_error h)

theorem LoopOk.prefill_total (b : List BatchTok) (r : ℕ × String) :
    buildPrefill cfg s.active 0 b ≠ .error r :=
  buildPrefill_total s.active 0 b (fun g hg => (hs.mid.gens g hg (hs.live g hg)).seq_lt) r

theorem LoopOk.ready (hg : g ∈ s.active)
    (hstep : g.steppable = true) (hpre : g.prefilled = false) : g.pending = none ∧ 0 < g.remaining := by
  have hgen := hs.mid.gens g hg (hs.live g hg)
  obtain ⟨-, hterm⟩ := ActiveGen.steppable_iff.mp hstep
  exact ⟨(hgen.unprefilled hpre).2, hgen.unprefilled_pos hterm hpre⟩

theorem LoopOk.plain_mid {batch : List BatchTok} {decodes : List (ℕ × ℕ)}
    {prefill : Option (ℕ × ℕ × Option ℕ)} (hb : PlainBatch cfg s.active batch decodes prefill) :
    MidOk cfg ⟨decodeOk s.host s.active batch, s.active, batchToks batch⟩ := by
  have hnodup := nodup_seqs hs.mid hs.live
  refine midOk_decode hs.mid hs.live (hb.placed hs.mid hs.live) hb.owner ?_
  intro g hg hpre
  have hgen := hs.mid.gens g hg (hs.live g hg)
  obtain ⟨h1, h2, h3⟩ := hb.toks hnodup hg
  cases hd : decodeTok g with
  | some b =>
    rw [h1 b hd]
    obtain ⟨-, -, p, hp, -⟩ := decodeTok_eq_some hd
    exact hgen.pending_pos (by simp [hp])
  | none =>
    rw [h2 hd]
    · exact Nat.zero_le _
    · intro k n t hp hk
      obtain ⟨m, -, -, hpre', -⟩ := h3 k n t hp hk
      rw [hpre] at hpre'
      cases hpre'

end

theorem specTarget_eq (ht : specTarget cfg s = some (g, pending)) :
    s.active = [g] ∧ specEligible g = true ∧ g.pending = some pending ∧ s.specDisabled = false ∧
      cfg.hasDraft = true := by
  unfold specTarget at ht
  split at ht
  · rename_i g' hactive
    split at ht
    · rename_i hcond
      simp only [Bool.and_eq_true, Bool.not_eq_true'] at hcond
      simp only [Option.map_eq_some_iff, Prod.mk.injEq] at ht
      obtain ⟨p, hp, rfl, rfl⟩ := ht
      exact ⟨hactive, hcond.1.2, hp, hcond.1.1, hcond.2⟩
    · cases ht
  · cases ht

theorem MidOk.draftOnly (hm : MidOk cfg ⟨h, active, ahead⟩) (hd : DraftOnly h h') : MidOk cfg ⟨h', active, ahead⟩ := by
  obtain ⟨-, -, hkv, hfree, hret, -⟩ := hd
  exact hm.of_lists hkv hfree hret

theorem spec_mid {step : SpecStep}
    (hm : MidOk cfg ⟨h, [g], noAhead⟩) (hlive : g.done = false) (hstep : g.steppable = true)
    (hpos : 1 < g.remaining) (hbatch : step.batch =
      ((pending.tok :: step.drafts).zipIdx g.kvLen).map (fun c => ⟨c.1, c.2, g.seq, true⟩))
    (hlen : step.drafts.length ≤ g.remaining - 1) :
    Placed h.kv step.batch ∧ (∀ b ∈ step.batch, ∃ g' ∈ [g], g'.seq = b.seq ∧ g'.steppable = true) ∧
      MidOk cfg ⟨decodeOk h [g] step.batch, [g], batchToks step.batch⟩ ∧
      batchToks step.batch g.seq = pending.tok :: step.drafts := by
  have hgen := hm.gens g (by simp) hlive
  have htoks : batchToks step.batch g.seq = pending.tok :: step.drafts := by
    rw [hbatch, spec_toks, if_pos rfl]
  have hplaced : Placed h.kv step.batch := by
    rw [hbatch]
    exact spec_placed (hgen.length_kv hstep)
  have howner : ∀ b ∈ step.batch, ∃ g' ∈ [g], g'.seq = b.seq ∧ g'.steppable = true := by
    intro b hb
    rw [hbatch] at hb
    exact ⟨g, by simp, (spec_seq g _ _ b hb).symm, hstep⟩
  refine ⟨hplaced, howner, midOk_decode hm (by simpa using hlive) hplaced howner ?_, htoks⟩
  intro g' hg' _
  rw [mem_singleton.mp hg', htoks, length_cons]
  omega

/-- **What steps 7 to 11 can do.** A decode that worked is followed by the turns of its generations; only a
speculative round (`drafting`) has touched the draft session before it. -/
inductive StepMove (env : Env) (cfg : Cfg) (s : Loop) : Loop → Prop
  | rest : StepMove env cfg s s
  /-- A generation fails because its token could not be pushed. -/
  | pushFailed (h : Host) (active : List ActiveGen)
      (hturns : Turns env cfg false ⟨s.host, s.active, noAhead⟩ ⟨h, active, noAhead⟩) :
      StepMove env cfg s { s with host := h, active := retainActive active }
  /-- The draft model fails and is not used again. -/
  | draftFailed (h : Host) (honly : DraftOnly s.host h) :
      StepMove env cfg s { s with host := { h with synced := none }, specDisabled := true }
  | decodeFailed (h : Host) (batch : List BatchTok) (e : String) (honly : DraftOnly s.host h)
      (howner : ∀ b ∈ batch, ∃ g ∈ s.active, g.seq = b.seq ∧ g.steppable = true)
      (hfail : env.decodeFails h.clock = some e) : StepMove env cfg s (decodeFailed env cfg { s with host := h } batch e)
  | decoded (drafting disabled : Bool) (h h' : Host) (batch : List BatchTok) (active : List ActiveGen)
      (honly : DraftOnly s.host h) (hplaced : Placed h.kv batch)
      (howner : ∀ b ∈ batch, ∃ g ∈ s.active, g.seq = b.seq ∧ g.steppable = true)
      (hmid : MidOk cfg ⟨decodeOk h s.active batch, s.active, batchToks batch⟩)
      (hturns : Turns env cfg drafting ⟨decodeOk h s.active batch, s.active, batchToks batch⟩ ⟨h', active, noAhead⟩)
      (hok : LoopOk cfg { s with host := h', active := retainActive active, specDisabled := disabled }) :
      StepMove env cfg s { s with host := h', active := retainActive active, specDisabled := disabled }

theorem failPush_moves (hs : LoopOk cfg s) (i : ℕ) (e : String) (hcause : Fault env cfg) :
    StepMove env cfg s (failPush env s i e) := by
  unfold failPush
  split
  · exact .rest
  · rename_i g hg
    have hlive := hs.live g (mem_of_getElem? hg)
    have hturn := turn_set hg s.host noAhead _ hlive (@failSeq_steps env cfg false s.host g e hlive hcause) rfl
    simp only [Focus.of, update_noAhead] at hturn
    exact .pushFailed _ _ (.single hturn)

theorem plainStep_moves (hs : LoopOk cfg s) : StepMove env cfg s (plainStep env cfg s).1 := by
  unfold plainStep
  split
  · rename_i hd
    exact failPush_moves hs _ _ (hs.push_fault hd)
  · rename_i b decodes hd
    split
    · rename_i hp
      exact absurd hp (hs.prefill_total b _)
    · rename_i batch prefill hp
      have hb := plainBatch_of_build hd hp
      split
      · exact .rest
      · split
        · rename_i e he
          exact .decodeFailed s.host batch e (.refl _) hb.owner he
        · obtain ⟨h', active', hturns, heq⟩ := @plainDecoded_turns env cfg false s batch decodes prefill hb hs.live
            (nodup_seqs hs.mid hs.live) (fun g hg => hs.ready hg) (hs.plain_mid hb)
          simp only [heq]
          exact .decoded false s.specDisabled s.host h' batch active' (.refl _) (hb.placed hs.mid hs.live) hb.owner
            (hs.plain_mid hb) hturns (hs.of_turns (hs.plain_mid hb) ⟨rfl, rfl⟩ rfl hturns)

theorem specStep_moves (hs : LoopOk cfg s)
    (ht : specTarget cfg s = some (g, pending)) : StepMove env cfg s (specStep env cfg s g pending) := by
  obtain ⟨hactive, hel, hp, -, hdraftOn⟩ := specTarget_eq ht
  have hmem : g ∈ s.active := by simp [hactive]
  have hlive := hs.live g hmem
  obtain ⟨hstep, hpre, hpos⟩ := specEligible_steps hel
  obtain ⟨-, hterm⟩ := ActiveGen.steppable_iff.mp hstep
  have honly := @buildSpecStep_only env cfg s.host g pending.tok
  unfold specStep
  cases hb : buildSpecStep env cfg s.host g pending.tok with
  | mk h₁ res =>
    rw [hb] at honly
    cases res with
    | error => exact .draftFailed h₁ honly
    | ok step =>
      obtain ⟨hbatch, hidx, hlen, -, hdraft, heog⟩ := buildSpecStep_ok hb
      have hm₁ := hs.mid.draftOnly honly
      rw [hactive] at hm₁
      obtain ⟨hplaced, howner, hm₂, htoks⟩ := spec_mid hm₁ hlive hstep hpos hbatch hlen
      have howner' : ∀ b ∈ step.batch, ∃ g' ∈ s.active, g'.seq = b.seq ∧ g'.steppable = true := by
        rw [hactive]
        exact howner
      simp only
      split
      · rename_i e he
        exact .decodeFailed h₁ step.batch e honly howner' he
      · have hgen := hs.mid.gens g hmem hlive
        obtain ⟨m, hm, hdkv, hdraftKv⟩ := hdraft (hs.draft g hmem hlive) (hgen.kvLen_stream hterm hpre)
        have hgen₂ : GenOk cfg (decodeOk h₁ [g] step.batch) g (pending.tok :: step.drafts) := by
          rw [← htoks]
          exact hm₂.gens g (by simp) hlive
        have hbase : step.draftKv = (g.stream ++ pending.tok :: step.drafts.take m).length := by
          rw [hdkv, hgen.kvLen_stream hterm hpre, length_append, length_cons, length_take]
          omega
        have hv : Verified env cfg _ step (g.stream ++ [pending.tok]) :=
          spec_verified hbatch hidx heog hgen₂ hterm hpre hdraftOn
        rw [hactive]
        generalize logitsAt (decodeOk h₁ [g] step.batch) step.batch = logits at hv ⊢
        obtain ⟨hsteps, hmarks⟩ := @postSpec_steps env cfg logits step (decodeOk h₁ [g] step.batch) g pending hp hlive
          hstep hpre hv (by omega) hpos
        have hturns := @postSpec_turns env cfg logits (decodeOk h₁ [g] step.batch) g pending step hp hlive hel
          hbatch hv hlen
        generalize postSpec env cfg logits step (decodeOk h₁ [g] step.batch) g pending = r
          at hmarks hsteps hturns ⊢
        have hmark : DraftMark _ r.1 r.2.1 := hmarks _ hdraftKv hbase (hgen.kvLen_stream hterm hpre)
        have huid : r.2.1.uid = g.uid := hsteps.uid_eq
        have hnext : ∀ g' ∈ retainActive [r.2.1], g' = r.2.1 ∧ g'.done = false := fun g' hg' =>
          ⟨mem_singleton.mp (mem_retainActive.mp hg').1, (mem_retainActive.mp hg').2⟩
        rw [← hactive] at hm₂
        refine .decoded true _ h₁ r.1 step.batch [r.2.1] honly hplaced howner' hm₂ (by rwa [hactive])
          ⟨(midOk_turns hturns (by rwa [← hactive])).retain, fun g' hg' => (hnext g' hg').2, ?_, ?_, ?_, hs.queue, ?_⟩
        · intro g' hg' hlive'
          rw [(hnext g' hg').1] at hlive' ⊢
          refine hmark.sync hsteps hlive' ?_
          refine (prefix_append_right_inj _).mpr ?_
          exact (cons_prefix_cons).mpr ⟨rfl, take_prefix _ _⟩
        · intro g' hg'
          rw [(hnext g' hg').1, huid]
          exact hs.uid_lt g hmem
        · intro u n hn
          rcases hmark with hmark | ⟨k, -, hmark, -⟩
          · simp [hmark] at hn
          · rw [hmark, huid] at hn
            simp only [Option.some.injEq, Prod.mk.injEq] at hn
            exact hn.1 ▸ hs.uid_lt g hmem
        · have hint := (turns_keep hturns).2
          rw [hint]
          exact fun gen hg => hs.carried gen (honly.lists.2.2.2.2.1 ▸ hg)

theorem stepBlock_moves {s : Loop} (hs : LoopOk cfg s) : StepMove env cfg s (stepBlock env cfg s).1 := by
  unfold stepBlock
  split
  · exact .rest
  · split
    · rename_i g pending ht
      exact specStep_moves hs ht
    · exact plainStep_moves hs

/-- **Steps 7 to 11** keep the loop's invariant. -/
theorem StepMove.ok {s' : Loop} (hs : LoopOk cfg s) (hmove : StepMove env cfg s s') : LoopOk cfg s' := by
  have hint : ∀ {h}, DraftOnly s.host h → h.interrupted = s.host.interrupted := fun h => h.lists.2.2.2.2.1
  cases hmove with
  | rest => exact hs
  | pushFailed _ _ hturns => exact hs.turns hturns
  | draftFailed h honly =>
    refine ⟨(hs.mid.draftOnly honly).draftOnly (.mk' h 0 h.draftKv none), hs.live, ?_, hs.uid_lt, ?_, hs.queue, ?_⟩
    · intro g _ _ n hn
      cases hn
    · intro u n hn
      cases hn
    · exact fun gen hg => hs.carried gen (hint honly ▸ hg)
  | decodeFailed _ _ e honly howner => exact decodeFailed_ok hs e (hs.mid.draftOnly honly) (hint honly) howner
  | decoded _ _ _ _ _ _ _ _ _ _ _ hok => exact hok

theorem stepBlock_ok {s : Loop} (hs : LoopOk cfg s) : LoopOk cfg (stepBlock env cfg s).1 := (stepBlock_moves hs).ok hs

/-! ### Runs -/

/-- **The system between two steps.** -/
structure SysOk (s : Sys) : Prop where
  loop : ∀ cfg pc, s.phase = .serving cfg pc → LoopOk cfg s.loop
  /-- Carried states on their way to the loop. -/
  mail : ∀ sup, .generate sup ∈ s.rx → ∀ state ∈ sup.resume, CarriedOk sup.job state
  carried : ∀ gen ∈ s.loop.host.interrupted, CarriedOk gen.job gen.state

namespace SysOk

variable {s : Sys}

theorem init : SysOk Sys.init := by
  refine ⟨fun cfg pc h => ?_, fun sup h => ?_, fun gen h => ?_⟩
  · cases h
  · simp [Sys.init] at h
  · simp [Sys.init, Host.init] at h

theorem startPhase (hcarried : ∀ gen ∈ s.loop.host.interrupted, CarriedOk gen.job gen.state) :
    LoopOk cfg (startPhase cfg s.loop.host) := by
  refine ⟨⟨⟨?_, ?_, ?_, ?_, ?_⟩, ?_⟩, ?_, ?_, ?_, ?_, ?_, hcarried⟩ <;>
    simp [Engine.startPhase, retainActive, usedBudget, DraftOk, reverse_perm]

variable (hs : SysOk s)
include hs

theorem applyCtrl (c : Ctrl) : SysOk (applyCtrl s c) := by
  match c with
  | .load (some cfg) =>
    refine ⟨fun cfg' pc h => ?_, hs.mail, hs.carried⟩
    simp only [Engine.applyCtrl, Phase.serving.injEq] at h
    exact h.1 ▸ startPhase hs.carried
  | .load none => exact ⟨fun cfg pc h => by simp [Engine.applyCtrl] at h, hs.mail, hs.carried⟩
  | .unload => exact ⟨fun cfg pc h => by simp [Engine.applyCtrl] at h, hs.mail, hs.carried⟩
  | .serveShard epoch => exact ⟨fun cfg pc h => by simp [Engine.applyCtrl] at h, hs.mail, hs.carried⟩

variable {rx : List HostMsg}

theorem serving {loop : Loop} {cfg : Cfg} (pc : Pc) (hloop : LoopOk cfg loop) (hrx : ∀ m ∈ rx, m ∈ s.rx) :
    SysOk { s with loop := loop, rx := rx, phase := .serving cfg pc } := by
  refine ⟨fun cfg' pc' h => ?_, fun sup hm => hs.mail sup (hrx _ hm), hloop.carried⟩
  simp only [Phase.serving.injEq] at h
  exact h.1 ▸ hloop

theorem sameHost {h : Host} (hh : SameSlots s.loop.host h) : SysOk (s.setHost h) := by
  refine ⟨fun cfg pc hp => (hs.loop cfg pc hp).same hh (hs.loop cfg pc hp).queue, hs.mail, ?_⟩
  intro gen hg
  exact hs.carried gen (hh.interrupted ▸ hg)

theorem dropMail (hrx : ∀ m ∈ rx, m ∈ s.rx) : SysOk { s with rx := rx } :=
  ⟨hs.loop, fun sup hm => hs.mail sup (hrx _ hm), hs.carried⟩

theorem stop (hrx : ∀ m ∈ rx, m ∈ s.rx) : SysOk { s with rx := rx, phase := .stopped } :=
  ⟨fun _ _ h => (by cases h), fun sup hm => hs.mail sup (hrx _ hm), hs.carried⟩

theorem setInterrupted {l : List InterruptedGen} (hl : ∀ gen ∈ l, CarriedOk gen.job gen.state) :
    SysOk (s.setHost { s.loop.host with interrupted := l }) := by
  refine ⟨fun cfg pc hp => ?_, hs.mail, hl⟩
  obtain ⟨hm, h2, h3, h4, h5, h6, -⟩ := hs.loop cfg pc hp
  exact ⟨hm.of_lists rfl rfl rfl, h2, h3, h4, h5, h6, hl⟩

omit hs

theorem endBlocking_same (h : Host) (e : JobRecord) (message : String) :
    SameSlots h (endBlocking env h e message).1 := by
  unfold endBlocking blockingSend
  rcases trySend_cases env h e.job.id (.error message) with ⟨-, hs⟩ | ⟨-, -, hs⟩ | ⟨-, -, hs⟩ <;> rw [hs] <;>
    exact ⟨rfl, rfl, rfl, ⟨rfl, rfl⟩, rfl⟩

include hs

theorem idleStep : SysOk (idleStep env s) := by
  unfold Engine.idleStep
  split
  · exact hs
  · rename_i msg rest hrx
    have hsub : ∀ m ∈ rest, m ∈ s.rx := fun m hm => by simp [hrx, hm]
    split
    · rename_i sup
      have hsame := hs.sameHost (@endBlocking_same env s.loop.host sup.ending (idleError s.shard))
      simp only
      split
      · exact hsame.dropMail hsub
      · exact hsame
    · exact hs.stop hsub
    · exact (hs.dropMail hsub).applyCtrl _
    · exact hs.dropMail hsub

theorem receive {pc₀ : Pc} (pc : Pc) (hp : s.phase = .serving cfg pc₀) :
    SysOk (receive env cfg s pc) := by
  have hloop := hs.loop cfg pc₀ hp
  unfold Engine.receive
  split
  · exact hs.serving pc hloop fun m hm => hm
  · rename_i rest hrx
    exact hs.stop fun m hm => by simp [hrx, hm]
  · rename_i msg rest _ hrx
    refine hs.serving pc (pumpMsg_ok hloop ?_) fun m hm => by simp [hrx, hm]
    rintro sup rfl
    exact hs.mail sup (by simp [hrx])

theorem barrier {pc₀ : Pc} (hp : s.phase = .serving cfg pc₀) : SysOk (barrier s cfg) := by
  have hloop := hs.loop cfg pc₀ hp
  have hgo : SysOk { s with phase := .serving cfg .step } := hs.serving .step hloop fun m hm => hm
  unfold Engine.barrier
  split
  · split
    · have hdrop : SysOk (s.setHost { s.loop.host with outbox := [] }) :=
        hs.sameHost ⟨rfl, rfl, rfl, ⟨rfl, rfl⟩, rfl⟩
      have hctrl : SysOk { s with
          loop := { s.loop with host := { s.loop.host with outbox := [] }, ctrl := none } } := by
        refine ⟨fun cfg' pc h => ?_, hs.mail, hs.carried⟩
        obtain ⟨h1, h2, h3, h4, h5, h6, h7⟩ := hdrop.loop cfg' pc h
        exact ⟨h1, h2, h3, h4, h5, h6, h7⟩
      exact hctrl.applyCtrl _
    · exact hgo
  · exact hgo

theorem tick : SysOk (tickStep env s) := by
  unfold tickStep
  split
  · exact hs.idleStep
  · exact hs
  · rename_i cfg hp
    exact hs.serving .pump (deliverBlock_ok (hs.loop cfg _ hp)) fun m hm => hm
  · rename_i cfg hp
    have hloop := hs.loop cfg _ hp
    unfold pumpStep
    split
    · exact hs.serving .settle hloop fun m hm => hm
    · split
      · split
        · exact hs
        · exact hs.serving .settle hloop fun m hm => hm
      · exact hs.receive .pump hp
  · rename_i cfg hp
    have hsettled : SysOk { s with loop := settleBlock env cfg s.loop, phase := .serving cfg .settle } :=
      hs.serving .settle (settleBlock_ok (hs.loop cfg _ hp)) fun m hm => hm
    rw [← hp] at hsettled
    exact hsettled.barrier hp
  · rename_i cfg hp
    exact hs.serving _ (stepBlock_ok (hs.loop cfg _ hp)) fun m hm => hm
  · rename_i cfg hp
    split
    · exact hs.serving .deliver (hs.loop cfg _ hp) fun m hm => hm
    · exact hs.receive .deliver hp

theorem supervise (i : ℕ) (d : Decision) : SysOk (superviseStep env s i d) := by
  unfold superviseStep
  split
  · exact hs
  · rename_i gen hgen
    have hcarried := hs.carried gen (mem_of_getElem? hgen)
    have herase : SysOk (s.setHost { s.loop.host with interrupted := s.loop.host.interrupted.eraseIdx i }) :=
      hs.setInterrupted fun g hg => hs.carried g (mem_of_mem_eraseIdx hg)
    simp only
    split
    · refine ⟨herase.loop, ?_, herase.carried⟩
      intro sup hm
      rcases mem_append.mp hm with hm | hm
      · exact hs.mail sup hm
      · simp only [mem_singleton, HostMsg.generate.injEq] at hm
        subst hm
        simpa using hcarried
    · rename_i message
      have hsame := herase.sameHost (@endBlocking_same env _ gen.ending message)
      split
      · exact hsame
      · exact hsame.setInterrupted hs.carried

/-- **Every step keeps the invariant.** -/
theorem step (l : Label) : SysOk (sysStep env s l) := by
  have hmail : ∀ m : HostMsg, (∀ sup, m = .generate sup → sup.resume = none) →
      SysOk { s with rx := s.rx ++ [m] } := by
    intro m hm
    refine ⟨hs.loop, fun sup hsup => ?_, hs.carried⟩
    rcases mem_append.mp hsup with hsup | hsup
    · exact hs.mail sup hsup
    · simp [hm sup (mem_singleton.mp hsup).symm]
  cases l with
  | submit r =>
    have := hmail (.generate { job := r.toJob s.nextJob, resume := none }) (by rintro sup ⟨⟩; rfl)
    exact ⟨this.loop, this.mail, this.carried⟩
  | query | embed | control | shutdown => exact hmail _ (by simp)
  | supervise i d => exact hs.supervise i d
  | tick => exact hs.tick

end SysOk

/-- **Slots, caches and budgets in every run.** -/
theorem Reachable.sysOk {s : Sys} (hs : Reachable env s) : SysOk s :=
  hs.induct SysOk.init fun _ l h => h.step l

end OneBrain.Engine
