import OneBrain.Engine.Books
import OneBrain.Engine.Greedy

/-!
# Rounds of admission

Admission takes jobs off the queue one round after the other. Each round looks for a retained
slot to reuse, evicts others until the job fits, and takes a slot; positions in the list of
retained slots are held across the evictions. `rounds` are the states in which the rounds of
one pass begin.

* **`slots_bookkept`** — slots and batch entries are there when they are needed, in all of them.
* **`admission_never_wedges`** — with nothing active, a pass takes at least the front job off
  the queue. A job that comes back after an interruption is not checked against the context
  again, so all models are loaded with one context length, as the daemon loads them.
-/

namespace OneBrain.Engine

open List OneBrain.Lib

variable {env : Env} {cfg : Cfg}

/-! ### The states of a pass -/

/-- The states at the head of the admission loop, first one first. -/
def rounds (env : Env) (cfg : Cfg) : List PreparedGen → Loop → List Loop
  | [], s => [{ s with queue := [] }]
  | p :: rest, s =>
    { s with queue := p :: rest } ::
      if s.active.length < cfg.nSeqMax then
        match admitFront env cfg s p with
        | .waits _ => []
        | .failed h => rounds env cfg rest { s with host := h }
        | .admitted h g =>
          rounds env cfg rest { s with host := h, active := s.active ++ [g], nextUid := s.nextUid + 1 }
      else []

variable {s : Loop} {p : PreparedGen}

/-- What holds at the head of a pass and is kept by a round holds in all its states. -/
theorem rounds_induct {P : Loop → Prop}
    (hround : ∀ (s : Loop) (p : PreparedGen) (rest : List PreparedGen), s.queue = p :: rest → P s →
      s.active.length < cfg.nSeqMax → P { (admitFront env cfg s p).loop s with queue := rest })
    (l : List PreparedGen) (hs : P { s with queue := l }) : ∀ s' ∈ rounds env cfg l s, P s' := by
  induction l generalizing s with
  | nil =>
    intro s' hs'
    rw [mem_singleton.mp hs']
    exact hs
  | cons p rest ih =>
    intro s' hs'
    rcases mem_cons.mp hs' with rfl | hs'
    · exact hs
    · split at hs'
      · rename_i hlen
        have hnext := hround { s with queue := p :: rest } p rest rfl hs hlen
        have hsame : admitFront env cfg { s with queue := p :: rest } p = admitFront env cfg s p := rfl
        rw [hsame] at hnext
        cases hfront : admitFront env cfg s p with
        | waits =>
          rw [hfront] at hs'
          cases hs'
        | failed h =>
          rw [hfront] at hs' hnext
          exact ih (s := { s with host := h }) hnext s' hs'
        | admitted h g =>
          rw [hfront] at hs' hnext
          exact ih (s := { s with host := h, active := s.active ++ [g], nextUid := s.nextUid + 1 }) hnext s' hs'
      · cases hs'

theorem rounds_ok (hs : LoopOk cfg s) : ∀ s' ∈ rounds env cfg s.queue s, LoopOk cfg s' := by
  apply rounds_induct _ s.queue hs
  intro s p rest hqueue hs hlen
  have hp : PreparedOk p := hs.queue p (hqueue ▸ mem_cons_self)
  have hround := @LoopOk.round env cfg s hs p hp hlen
  exact hround.setQueue fun q hq => hs.queue q (hqueue ▸ mem_cons_of_mem p hq)

/-- The states of the serve loop around a moment of a run: the state itself, and those of the
admission pass that starts from it. -/
def loopStates (env : Env) (cfg : Cfg) (s : Loop) : List Loop :=
  s :: rounds env cfg (swept env s).queue (swept env s)

theorem loopStates_ok (hs : LoopOk cfg s) : ∀ s' ∈ loopStates env cfg s, LoopOk cfg s' := by
  intro s' hs'
  rcases mem_cons.mp hs' with rfl | hs'
  · exact hs
  · exact rounds_ok (swept_ok hs) s' hs'

/-! ### Room for a job -/

/-- **Evictions make room**: as many rounds as there are slots leave no slot but the match, or
stop because the job fits. -/
theorem makeRoom_fits {used budget nCtx n : ℕ} {h : Host} {reuse : Option (ℕ × ℕ)} (hfits : used + budget ≤ nCtx)
    (hn : h.retained.length ≤ n) :
    used + budget + cachedOthers (makeRoom used budget nCtx n h reuse).1.retained
      (reuseSeq (makeRoom used budget nCtx n h reuse).1.retained (makeRoom used budget nCtx n h reuse).2) ≤ nCtx := by
  induction n generalizing h reuse with
  | zero =>
    have hnil : h.retained = [] := length_eq_zero_iff.mp (Nat.le_zero.mp hn)
    change used + budget + cachedOthers h.retained _ ≤ nCtx
    rw [hnil]
    exact hfits
  | succ n ih =>
    simp only [makeRoom]
    split
    · assumption
    · cases hpos : h.retained.findIdx? fun r => some r.seq ≠ reuseSeq h.retained reuse with
      | none =>
        -- Only the match is left, and it is not counted.
        have hnone : (h.retained.filter fun r => some r.seq ≠ reuseSeq h.retained reuse) = [] := by
          apply filter_eq_nil_iff.mpr
          intro r hr
          have := List.findIdx?_eq_none_iff.mp hpos r hr
          simp only [this, Bool.false_eq_true, not_false_eq_true]
        rw [cachedOthers, hnone]
        exact hfits
      | some pos =>
        obtain ⟨hlt, -, -⟩ := List.findIdx?_eq_some_iff_getElem.mp hpos
        simp only [List.getElem?_eq_getElem hlt]
        apply ih
        change (h.retained.eraseIdx pos).length ≤ n
        rw [length_eraseIdx_of_lt hlt]
        omega

/-- The match for the front job. -/
def reuseMatch (cfg : Cfg) (s : Loop) (p : PreparedGen) : Option (ℕ × ℕ) :=
  if cfg.kvReuse && !p.resumed then bestReuse p.promptTokens s.host.retained 0 none else none

/-- Host and match after the evictions for the front job. -/
def roomFor (cfg : Cfg) (s : Loop) (p : PreparedGen) : Host × Option (ℕ × ℕ) :=
  makeRoom (usedBudget s.active) p.budget cfg.nCtx s.host.retained.length s.host (reuseMatch cfg s p)

theorem roomFor_fits (hfits : usedBudget s.active + p.budget ≤ cfg.nCtx) :
    usedBudget s.active + p.budget + cachedOthers (roomFor cfg s p).1.retained
      (reuseSeq (roomFor cfg s p).1.retained (roomFor cfg s p).2) ≤ cfg.nCtx :=
  makeRoom_fits hfits le_rfl

theorem admitFront_eq (s : Loop) (p : PreparedGen) :
    admitFront env cfg s p =
      if usedBudget s.active + p.budget + cachedOthers (roomFor cfg s p).1.retained
          (reuseSeq (roomFor cfg s p).1.retained (roomFor cfg s p).2) ≤ cfg.nCtx then
        match env.samplerFails (roomFor cfg s p).1.clock with
        | some e =>
          .failed ((deliverTerminal env (roomFor cfg s p).1.tick p.job.id (.error e)).finish p.ending)
        | none =>
          match takeSlot env (roomFor cfg s p).1.tick (roomFor cfg s p).2 with
          | none => .waits (roomFor cfg s p).1
          | some (h, seq, reused) => .admitted h (admitGen p seq reused s.nextUid)
      else .waits (roomFor cfg s p).1 := rfl

/-! ### Pushes -/

theorem batchPush_of_room {b : List BatchTok} {seq : SeqId} (tok : Token) (pos : ℕ) (logits : Bool)
    (hseq : seq < cfg.nSeqMax) (hroom : b.length < cfg.nBatch) :
    batchPush cfg b tok pos seq logits = .ok (b ++ [⟨tok, pos, seq, logits⟩], b.length) := by
  rw [batchPush, if_neg (Nat.not_le.mpr hroom), if_neg (Nat.not_le.mpr hseq)]

theorem pushSpec_total {seq : SeqId} (hseq : seq < cfg.nSeqMax) (toks : List Token) (pos : ℕ) (b : List BatchTok)
    (indexes : List ℕ) (hroom : b.length + toks.length ≤ cfg.nBatch) :
    ∃ r, pushSpec cfg seq toks pos b indexes = .ok r := by
  induction toks generalizing pos b indexes with
  | nil => exact ⟨_, rfl⟩
  | cons tok rest ih =>
    rw [length_cons] at hroom
    simp only [pushSpec, batchPush_of_room tok pos true hseq (by omega : b.length < cfg.nBatch)]
    apply ih
    rw [length_append, length_singleton]
    omega

/-! ### Slot bookkeeping -/

/-- How many tokens a speculative round of a generation drafts at most. -/
def draftBound (cfg : Cfg) (g : ActiveGen) : ℕ := min (min SPEC_K (g.remaining - 1)) (cfg.nBatch - 1)

/-- **The books of the slots.** -/
structure Bookkept (env : Env) (cfg : Cfg) (s : Loop) : Prop where
  /-- Active generations and free slots share out the slots. -/
  partition : (s.active.map ActiveGen.seq ++ s.host.free).Perm (List.range cfg.nSeqMax)
  retained_free : ∀ r ∈ s.host.retained, r.seq ∈ s.host.free
  retained_nodup : (s.host.retained.map RetainedSlot.seq).Nodup
  /-- The match is still its slot when it is used. -/
  same_slot : ∀ p ∈ s.queue.head?,
    reuseSlot (roomFor cfg s p).1.retained (roomFor cfg s p).2 = reuseSlot s.host.retained (reuseMatch cfg s p)
  slot_found : s.active.length < cfg.nSeqMax → ∀ p ∈ s.queue.head?,
    ∃ r, takeSlot env (roomFor cfg s p).1.tick (roomFor cfg s p).2 = some r
  /-- Pending tokens find room in the batch. -/
  decodes : cfg.nSeqMax ≤ cfg.nBatch → ∃ r, buildDecodes cfg s.active 0 [] [] = .ok r
  /-- So does the prefill chunk after them. -/
  chunk : ∀ b, ∃ r, buildPrefill cfg s.active 0 b = .ok r
  /-- And so do the drafts of a speculative round. -/
  drafts : ∀ g ∈ s.active, ∀ (tok : Token) (h h' : Host) (drafts : List Token) (draftKv : ℕ),
    propose env (draftBound cfg g) h [] (g.kvLen + 1) = (h', .ok (drafts, draftKv)) →
    ∃ r, pushSpec cfg g.seq (tok :: drafts) g.kvLen [] [] = .ok r

theorem LoopOk.slot_found {s : Loop} (hs : LoopOk cfg s) (hlen : s.active.length < cfg.nSeqMax) (p : PreparedGen) :
    ∃ r, takeSlot env (roomFor cfg s p).1.tick (roomFor cfg s p).2 = some r := by
  obtain ⟨hev, hreuse, -⟩ := makeRoom_ok (usedBudget s.active) p.budget cfg.nCtx s.host.retained.length
    p.promptTokens s.host (reuseMatch cfg s p) hs.mid.slots.retained_nodup (reuse_ok cfg s.host.retained p)
  obtain ⟨h', seq, reused, htake, -⟩ := @LoopOk.takes env cfg s hs hlen _ hev _ p.promptTokens hreuse
  exact ⟨_, htake⟩

theorem LoopOk.bookkept (hs : LoopOk cfg s) : Bookkept env cfg s where
  partition := by
    have hperm := hs.mid.slots.perm
    rwa [retainActive_live hs.live] at hperm
  retained_free := hs.mid.slots.retained_free
  retained_nodup := hs.mid.slots.retained_nodup
  same_slot p _ := (makeRoom_ok _ _ _ _ p.promptTokens s.host _ hs.mid.slots.retained_nodup
    (reuse_ok cfg s.host.retained p)).2.2
  slot_found hlen p _ := hs.slot_found hlen p
  decodes hbatch := by
    cases h : buildDecodes cfg s.active 0 [] [] with
    | ok r => exact ⟨r, rfl⟩
    | error => exact absurd (hs.push_error h) (Nat.not_lt.mpr hbatch)
  chunk b := by
    cases h : buildPrefill cfg s.active 0 b with
    | ok r => exact ⟨r, rfl⟩
    | error r => exact absurd h (hs.prefill_total b r)
  drafts g hg tok h h' drafts draftKv hp := by
    obtain ⟨new, m, hnew, hlen, -⟩ := propose_ok _ _ _ _ hp
    rw [nil_append] at hnew
    have hpos := cfg.nBatch_pos
    have hbound : draftBound cfg g ≤ cfg.nBatch - 1 := min_le_right _ _
    apply pushSpec_total (hs.mid.gens g hg (hs.live g hg)).seq_lt
    rw [length_nil, length_cons, hnew]
    omega

/-- **Slot bookkeeping**: in every state of every run the books of the slots are in order. -/
theorem slots_bookkept (env : Env) (labels : List Label) (cfg : Cfg) (pc : Pc)
    (hphase : (run env Sys.init labels).phase = .serving cfg pc) :
    ∀ s ∈ loopStates env cfg (run env Sys.init labels).loop, Bookkept env cfg s := by
  intro s hs
  have hloop := (Reachable.sysOk ⟨labels, rfl⟩ : SysOk (run env Sys.init labels)).loop cfg pc hphase
  exact (loopStates_ok hloop s hs).bookkept

/-- Every letter is a token. -/
def crowdedEnv : Env := { calmEnv with tokenize := fun t => .ok (t.map fun c => (c.toNat : ℤ)) }

/-- Two slots that share a small context. -/
def crowdedCfg : Cfg := { slowCfg with nSeqMax := 2, nCtx := 16, nSeqMax_pos := Nat.zero_lt_two }

/-- A request. -/
def asks (prompt : Char) (maxTokens : ℕ) : Label := .submit { slowRequest with prompt := .raw [prompt], maxTokens }

/-- Two requests are served, one of two and one of six tokens; after a while a third one is put into the queue. -/
def crowdedLabels (later maxTokens : ℕ) : List Label :=
  [.control (.load (some crowdedCfg)), .tick, asks 'p' 2, asks 'q' 6] ++ replicate later .tick ++
    [asks 'r' maxTokens, .tick, .tick]

/-- The first request is over and its slot retained, the second one is active, and for the third the retained slot is
to be evicted. -/
theorem slots_bookkept_crowded : ∃ s p, (run crowdedEnv Sys.init (crowdedLabels 14 7)).loop = s ∧ s.queue = [p] ∧
    s.active.length = 1 ∧ s.host.retained.length = 1 ∧ (roomFor crowdedCfg s p).1.retained.length = 0 ∧
    Bookkept crowdedEnv crowdedCfg s := by
  refine ⟨_, _, rfl, rfl, ?_, ?_, ?_, slots_bookkept crowdedEnv (crowdedLabels 14 7) crowdedCfg .pump rfl _ mem_cons_self⟩
  all_goals decide +kernel

/-! ### Budgets of queued jobs -/

/-- The job fits the context. -/
def Place.Fits (n : ℕ) : Place → Prop
  | .mailed sup => ∀ state ∈ sup.resume, state.promptTokens.length + sup.job.maxTokens ≤ n
  | .queued p => p.promptTokens.length + p.job.maxTokens ≤ n
  | .active _ g _ _ => g.promptTokens.length + g.job.maxTokens ≤ n
  | .interrupted gen => gen.state.promptTokens.length + gen.job.maxTokens ≤ n
  | .ended => True

/-- Models are served with a context of `n` tokens. -/
def oneContext (n : ℕ) : JobId → Allow := fun _ => ⟨True, fun _ => True, fun cfg => cfg.nCtx = n⟩

variable {n : ℕ} {j : JobId}

theorem prepareState_fits {job : GenerateJob} {resume : Option ResumeState} (hn : cfg.nCtx = n)
    (hresume : ∀ state ∈ resume, state.promptTokens.length + job.maxTokens ≤ n)
    (hp : prepareState env cfg job resume = .ok p) : p.promptTokens.length + p.job.maxTokens ≤ n := by
  cases resume with
  | some state =>
    obtain ⟨unsent, -, rfl⟩ := prepareState_resumed hp
    exact hresume state rfl
  | none =>
    obtain ⟨text, toks, -, -, -, hfits, rfl⟩ := prepareState_fresh hp
    exact hn ▸ hfits

theorem GenStep.prompt_eq {drafting : Bool} {f f' : Focus} (hs : GenStep env cfg drafting f f')
    (hlive : ¬ f'.g.done = true) : f'.g.promptTokens = f.g.promptTokens := by
  cases hs.frame.exit with
  | stays _ _ hprompt => exact hprompt
  | kept _ hdone | released _ hdone => exact absurd hdone hlive

/-- Every step of a job keeps that it fits: it is checked when the job is first prepared. -/
theorem fits_step {v v' : JobView} (hv : v.place.Fits n) (hs : JobStep env j (oneContext n j) v v') :
    v'.place.Fits n := by
  cases hs with
  | prepared _ sup cfg p hplace hp hopen hmodel =>
    rw [hplace] at hv
    exact prepareState_fits hmodel hv hp
  | endSent | endParked | endLost | gone => trivial
  | admitted _ _ _ _ _ _ hplace | decoded _ _ _ _ hplace | interrupted _ _ _ _ hplace =>
    rw [hplace] at hv
    exact hv
  | gen cfg drafting f f' hid hlive hok hstep =>
    simp only [Host.view, Focus.place]
    split
    · trivial
    · rename_i hstays
      change f'.g.promptTokens.length + f'.g.job.maxTokens ≤ n
      rw [hstep.frame.job, GenStep.prompt_eq hstep hstays]
      exact hv
  | reissued _ gen hplace =>
    rw [hplace] at hv
    intro state hstate
    cases hstate
    exact hv
  | wait | retrySent | retryGone | dropped => exact hv

theorem run_queue_fits {labels : List Label} (hl : ∀ cfg, .control (.load (some cfg)) ∈ labels → cfg.nCtx = n) :
    ∀ p ∈ (run env Sys.init labels).loop.queue, p.promptTokens.length + p.job.maxTokens ≤ n := by
  intro p hp
  obtain ⟨r, -, hsteps⟩ := @run_chain env (oneContext n) labels (runAllowed_of_loads hl) p.job.id (.queued p)
    fun _ => mem_held.mpr (.inr (.inr (.inl ⟨p, hp, rfl⟩)))
  have hfresh : (freshJob p.job.id r).place.Fits n := fun state hstate => by cases hstate
  exact JobSteps.induct (P := fun v => v.place.Fits n) (fun _ _ hv hs => fits_step hv hs) hsteps hfresh

/-! ### A pass with nothing active -/

theorem LoopOk.front_leaves {s : Loop} (hs : LoopOk cfg s) {p : PreparedGen} (hlen : s.active.length < cfg.nSeqMax)
    (hfits : usedBudget s.active + p.budget ≤ cfg.nCtx) :
    (∃ h, admitFront env cfg s p = .failed h ∧ h.finished = s.host.finished ++ [p.job.id]) ∨
      ∃ h seq reused, admitFront env cfg s p = .admitted h (admitGen p seq reused s.nextUid) ∧
        h.finished = s.host.finished := by
  rcases @admitFront_books env cfg s p with ⟨h, hwaits, -⟩ | ⟨h, hfailed, -, hfin⟩ | ⟨h, seq, reused, hfront, hbooks⟩
  · -- It cannot wait: evictions make room, and a slot is found.
    rw [admitFront_eq, if_pos (roomFor_fits hfits)] at hwaits
    obtain ⟨⟨h', seq, reused⟩, htake⟩ := @LoopOk.slot_found env cfg s hs hlen p
    cases hsampler : env.samplerFails (roomFor cfg s p).1.clock with
    | some =>
      rw [hsampler] at hwaits
      cases hwaits
    | none =>
      rw [hsampler, htake] at hwaits
      cases hwaits
  · exact .inl ⟨h, hfailed, hfin⟩
  · exact .inr ⟨h, seq, reused, hfront, hbooks.finished⟩

theorem admission_grows (l : List PreparedGen) (s : Loop) :
    ∃ news ended, (admission env cfg l s).active = s.active ++ news ∧
      (admission env cfg l s).host.finished = s.host.finished ++ ended ∧ (admission env cfg l s).queue <:+ l := by
  induction l generalizing s with
  | nil => exact ⟨[], [], (append_nil _).symm, (append_nil _).symm, suffix_rfl⟩
  | cons p rest ih =>
    simp only [admission]
    split
    · rcases @admitFront_books env cfg s p with ⟨h, heq, hbooks⟩ | ⟨h, heq, -, hfin⟩ | ⟨h, seq, reused, heq, hbooks⟩ <;>
        rw [heq]
      · exact ⟨[], [], (append_nil _).symm, hbooks.finished.trans (append_nil _).symm, suffix_rfl⟩
      · obtain ⟨news, ended, hactive, hended, hqueue⟩ := ih { s with host := h }
        refine ⟨news, p.job.id :: ended, hactive, ?_, hqueue.trans (suffix_cons p rest)⟩
        rw [hended, hfin, append_assoc, singleton_append]
      · obtain ⟨news, ended, hactive, hended, hqueue⟩ := ih { s with
          host := h, active := s.active ++ [admitGen p seq reused s.nextUid], nextUid := s.nextUid + 1 }
        refine ⟨admitGen p seq reused s.nextUid :: news, ended, ?_, ?_, hqueue.trans (suffix_cons p rest)⟩
        · rw [hactive, append_assoc, singleton_append]
        · rw [hended, hbooks.finished]
    · exact ⟨[], [], (append_nil _).symm, (append_nil _).symm, suffix_rfl⟩

/-- The first one waiting leaves the queue. -/
structure FrontLeaves (s s' : Loop) (p : PreparedGen) (rest : List PreparedGen) : Prop where
  queue : s'.queue <:+ rest
  outcome : (∃ g ∈ s'.active, g.job = p.job) ∨
    ∃ ended, s'.host.finished = s.host.finished ++ ended ∧ p.job.id ∈ ended

theorem LoopOk.pass (hs : LoopOk cfg s) (rest : List PreparedGen)
    (hlen : s.active.length < cfg.nSeqMax) (hfits : usedBudget s.active + p.budget ≤ cfg.nCtx) :
    FrontLeaves s (admission env cfg (p :: rest) s) p rest := by
  rw [admission, if_pos hlen]
  rcases @LoopOk.front_leaves env cfg s hs p hlen hfits with ⟨h, heq, hfin⟩ | ⟨h, seq, reused, heq, hfin⟩ <;> rw [heq]
  · obtain ⟨news, ended, -, hended, hqueue⟩ := @admission_grows env cfg rest { s with host := h }
    refine ⟨hqueue, .inr ⟨p.job.id :: ended, ?_, mem_cons_self⟩⟩
    rw [hended, hfin, append_assoc, singleton_append]
  · obtain ⟨news, ended, hactive, -, hqueue⟩ := @admission_grows env cfg rest { s with
      host := h, active := s.active ++ [admitGen p seq reused s.nextUid], nextUid := s.nextUid + 1 }
    refine ⟨hqueue, .inl ⟨admitGen p seq reused s.nextUid, ?_, rfl⟩⟩
    rw [hactive]
    exact mem_append_left _ (mem_append_right _ mem_cons_self)

/-- Jobs in the states of a pass were in the queue before it. -/
theorem loopStates_queue {P : PreparedGen → Prop} (hs : ∀ p ∈ s.queue, P p) :
    ∀ s' ∈ loopStates env cfg s, ∀ p ∈ s'.queue, P p := by
  intro s' hs'
  rcases mem_cons.mp hs' with rfl | hs'
  · exact hs
  · refine rounds_induct (P := fun s => ∀ p ∈ s.queue, P p) ?_ _ ?_ s' hs'
    · intro s p rest hqueue hs _ q hq
      exact hs q (hqueue ▸ mem_cons_of_mem p hq)
    · intro p hp
      exact hs p ((dropClosedQueue_ok s.queue _).2.subset hp)

/-- **Admission never wedges**: with nothing active and a job waiting, a pass takes the front job
off the queue, in every state of every run that loads its models with one context length. -/
theorem admission_never_wedges (env : Env) (n : ℕ) (labels : List Label)
    (hctx : ∀ cfg, .control (.load (some cfg)) ∈ labels → cfg.nCtx = n) (cfg : Cfg) (pc : Pc)
    (hphase : (run env Sys.init labels).phase = .serving cfg pc) :
    ∀ s ∈ loopStates env cfg (run env Sys.init labels).loop, ∀ p rest, s.active = [] → s.queue = p :: rest →
      FrontLeaves s (admission env cfg s.queue s) p rest := by
  intro s hs p rest hactive hqueue
  have hloop := (Reachable.sysOk ⟨labels, rfl⟩ : SysOk (run env Sys.init labels)).loop cfg pc hphase
  have hok := loopStates_ok hloop s hs
  have hp : p ∈ s.queue := hqueue ▸ mem_cons_self
  have hn : cfg.nCtx = n := (run_loads hctx : Loads (fun cfg => cfg.nCtx = n) (run env Sys.init labels)).phase cfg pc hphase
  have hfits := loopStates_queue (run_queue_fits hctx) s hs p hp
  rw [hqueue]
  apply hok.pass rest
  · rw [hactive]
    exact cfg.nSeqMax_pos
  · rw [hactive, (hok.queue p hp).budget_eq, hn]
    exact (Nat.zero_add _).trans_le hfits

/-- Both slots are retained, and the third request needs the room of both. -/
theorem admission_never_wedges_crowded : ∃ s p, (run crowdedEnv Sys.init (crowdedLabels 34 13)).loop = s ∧
    s.queue = [p] ∧ s.host.retained.length = 2 ∧ (roomFor crowdedCfg s p).1.retained.length = 0 ∧
    FrontLeaves s (admission crowdedEnv crowdedCfg s.queue s) p [] := by
  refine ⟨_, _, rfl, rfl, ?_, ?_, admission_never_wedges crowdedEnv 16 (crowdedLabels 34 13) ?_ crowdedCfg .pump rfl _
    mem_cons_self _ _ rfl rfl⟩
  rotate_left 2
  · intro cfg hcfg
    simp only [crowdedLabels, asks, mem_append, mem_cons, mem_replicate, Label.control.injEq, Ctrl.load.injEq,
      Option.some.injEq, reduceCtorEq, and_false, not_mem_nil, or_false] at hcfg
    rw [hcfg]
    rfl
  all_goals decide +kernel

end OneBrain.Engine
