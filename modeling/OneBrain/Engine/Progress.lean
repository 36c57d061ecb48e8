import OneBrain.Engine.Greedy

/-!
# A request served alone

When a client reads its channel and nothing fails, a request that is accepted is finished:
every step of the loop lowers the weight of its generation, the tokens still to prefill
and still to generate, until the finish is sent.

A speculative round is a step like any other here. It confirms at least the pending token,
and a draft model that fails stands down once for the whole phase.
-/

namespace OneBrain.Engine

open List OneBrain.Lib

variable {env : Env} {cfg : Cfg} {drafting : Bool} {j : JobId}

/-- Nothing is in the way of a job: its client stays and reads, and no call fails. -/
structure Smooth (env : Env) (cfg : Cfg) (j : JobId) : Prop where
  opened : ∀ t, env.closed j t = false
  drained : ∀ n t, env.room j n t = true
  calm : ¬ Fault env cfg

/-- A generation with nothing held back and no terminal that waits. -/
structure Flowing (g : ActiveGen) : Prop where
  held : g.held = []
  term : g.terminalAfterDrain = none
  stalled : g.stalledSince = none

/-- What is left to do: tokens to prefill and tokens to generate. -/
def ActiveGen.weight (g : ActiveGen) : ℕ := g.prefixToks.length - g.prefillDone + g.remaining

namespace Smooth

variable (hs : Smooth env cfg j)
include hs

theorem trySend (h : Host) (ev : TokenEvent) : trySend env h j ev = (h.accept j ev, .ok) := by
  rcases trySend_cases env h j ev with ⟨hc, -⟩ | ⟨-, hfull, -⟩ | ⟨-, -, hsent⟩
  · rw [hs.opened] at hc
    cases hc
  · rw [hs.drained] at hfull
    cases hfull
  · exact hsent

theorem deliverPiece {h : Host} {g : ActiveGen} (piece : Text) (hid : g.job.id = j)
    (hg : Flowing g) : deliverPiece env h g piece = (h.accept j (.token piece), g.noteSent) := by
  unfold Engine.deliverPiece
  rw [if_neg (by simp [hg.held]), hid, hs.trySend]

theorem stagePending (distributed : Bool) {h : Host} {g : ActiveGen} (tok : Token)
    (piece : Text) (hid : g.job.id = j) (hg : Flowing g) :
    Flowing (stagePending env distributed h g tok piece).2 := by
  unfold Engine.stagePending
  split
  · exact ⟨hg.held, hg.term, hg.stalled⟩
  · cases hscan : g.scan.admitPiece piece with
    | mk scan admitted =>
      cases admitted with
      | false => exact ⟨hg.held, hg.term, hg.stalled⟩
      | true =>
        have hdeliver := @Smooth.deliverPiece env cfg j hs h { g with scan := scan } piece hid ⟨hg.held, hg.term, hg.stalled⟩
        simp only [if_true, hdeliver]
        exact ⟨hg.held, hg.term, rfl⟩

end Smooth

/-! ### A step -/

/-- A generation a decode ran ahead for: it is over and its finish was sent, or it goes on, and once nothing
is ahead any more it weighs less. -/
inductive Advances (cfg : Cfg) (j : JobId) (w : ℕ) (f : Focus) : Prop
  | ended (hdone : f.g.done = true) (hsent : ∃ stats, .done stats ∈ f.h.chans j)
  | goes (hlive : f.g.done = false) (hflow : Flowing f.g) (hok : GenOk cfg f.h f.g f.ahead)
      (hweight : f.g.weight < w ∨ f.g.weight ≤ w ∧ f.ahead ≠ [] ∧ f.hit = false)

namespace Advances

variable {w : ℕ} {f f' : Focus}

/-- A move that ends a flowing generation sends its finish. -/
theorem finishes (hs : Smooth env cfg f.g.job.id) (hstep : GenStep env cfg drafting f f') (hlive : f.g.done = false)
    (hdone : f'.g.done = true) (hflow : Flowing f.g) : ∃ stats, .done stats ∈ f'.h.chans f.g.job.id := by
  have hdone_of : ∀ ev, GenEnd env cfg f ev → ∃ stats, ev = .done stats := fun ev hev => by
    cases hev with
    | done kind => exact ⟨_, rfl⟩
    | error message hcause =>
      rcases hcause with hfault | ⟨m, hm⟩
      · exact absurd hfault hs.calm
      · rw [hflow.term] at hm
        cases hm
  cases hstep.effect rfl hlive with
  | quiet hlive' | held _ hlive' | sent _ hlive' =>
    rw [hdone] at hlive'
    cases hlive'
  | gone hclosed =>
    rw [hs.opened] at hclosed
    cases hclosed
  | endSent ev hev _ _ hview =>
    obtain ⟨stats, rfl⟩ := hdone_of ev hev
    have hchan : f'.h.chans f.g.job.id = f.h.chans f.g.job.id ++ [.done stats] := congrArg JobView.chan (hview .ended)
    exact ⟨stats, by simp [hchan]⟩
  | endParked _ _ _ _ hfull =>
    rw [hs.drained] at hfull
    cases hfull
  | reaped _ hstalled => exact absurd hflow.stalled hstalled

theorem lives (hs : Smooth env cfg f.g.job.id) (hstep : GenStep env cfg drafting f f') (hlive' : f'.g.done = false)
    (hflow : Flowing f.g) (hok : GenOk cfg f.h f.g f.ahead) : Flowing f'.g ∧ (f'.g.weight < f.g.weight ∨
      f'.g.weight ≤ f.g.weight ∧ (f.ahead ≠ [] → f.hit = false → f'.ahead ≠ [] ∧ f'.hit = false)) := by
  have hheld : ∀ {p : Text} {rest : List Text}, f.g.held = p :: rest → False := fun h => by
    rw [hflow.held] at h
    cases h
  -- what a decode ran ahead is within the budget, so confirming a token lowers the count of those left
  have hconfirm : ∀ tok rest, f.ahead = tok :: rest → f.g.prefilled = true →
      (f.g.confirm tok).weight < f.g.weight := by
    intro tok rest hahead hpre
    have hle := hok.ahead_le hpre
    rw [hahead, length_cons] at hle
    have hsub : usizeSub f.g.remaining 1 = f.g.remaining - 1 := usizeSub_of_le (by omega)
    show f.g.prefixToks.length - f.g.prefillDone + usizeSub f.g.remaining 1 < _
    unfold ActiveGen.weight
    omega
  cases hstep with
  | tick | draft => exact ⟨hflow, .inr ⟨le_rfl, fun h1 h2 => ⟨h1, h2⟩⟩⟩
  | note stalled drafted accepted suspect hfull =>
    refine ⟨⟨hflow.held, hflow.term, ?_⟩, .inr ⟨le_rfl, fun h1 h2 => ⟨h1, h2⟩⟩⟩
    rcases hfull with hsame | ⟨n, t, hfull⟩
    · exact hsame.trans hflow.stalled
    · rw [hs.drained] at hfull
      cases hfull
  | heldSent _ _ _ hheld' | heldDropped _ _ hheld' => exact (hheld hheld').elim
  | finish | fail | cancel | reap => simp [Focus.of, cancelSeq_eq, *] at hlive'
  | deferError _ hheld' | trimFailed _ hheld' | deferFinish _ hheld' => exact absurd hflow.held hheld'
  | confirm tok admitted rest hahead hpending =>
    have hpre : f.g.prefilled = true := by
      by_contra hne
      rw [(hok.unprefilled (by simpa using hne)).2] at hpending
      cases hpending
    exact ⟨⟨hflow.held, hflow.term, hflow.stalled⟩, .inl (hconfirm tok rest hahead hpre)⟩
  | feed tok piece rest scan hdone hahead hsource hprefilled =>
    have hdeliver := @Smooth.deliverPiece env cfg f.g.job.id hs f.h { f.g.confirm tok with scan := scan } piece rfl
      ⟨hflow.held, hflow.term, hflow.stalled⟩
    simp only [Focus.of, hdeliver]
    exact ⟨⟨hflow.held, hflow.term, rfl⟩, .inl (hconfirm tok rest hahead hprefilled)⟩
  | reject tok piece rest scan hahead hsource hprefilled =>
    exact ⟨⟨hflow.held, hflow.term, hflow.stalled⟩, .inl (hconfirm tok rest hahead hprefilled)⟩
  | stage tok piece hdone hahead =>
    refine ⟨hs.stagePending cfg.distributed tok piece rfl hflow, .inr ⟨?_, fun h => absurd hahead h⟩⟩
    obtain ⟨_, _, _, _, _, heq⟩ := @stagePending_eq env cfg.distributed f.h f.g tok piece
    simp only [Focus.of, heq]
    exact le_rfl
  | prefill n hahead hprefilled =>
    refine ⟨⟨hflow.held, hflow.term, hflow.stalled⟩, ?_⟩
    have hlt : f.g.prefillDone < f.g.prefixToks.length := by
      simpa [ActiveGen.prefilled] using hprefilled
    have hle : f.ahead.length ≤ f.g.prefixToks.length - f.g.prefillDone := by
      rw [hahead, length_take, length_drop]
      exact Nat.min_le_right _ _
    simp only [ActiveGen.weight, ActiveGen.notePrefill]
    cases hlen : f.ahead.length with
    | zero => exact .inr ⟨by omega, fun hne => absurd (length_eq_zero_iff.mp hlen) hne⟩
    | succ => exact .inl (by omega)
  | rollback n hdone hkeep =>
    refine ⟨⟨hflow.held, hflow.term, hflow.stalled⟩, .inr ⟨le_rfl, fun hne hhit => ⟨?_, hhit⟩⟩⟩
    rcases hkeep with hpos | hhit'
    · intro hnil
      rcases take_eq_nil_iff.mp hnil with h | h
      · omega
      · exact hne h
    · rw [hhit] at hhit'
      cases hhit'

/-- **Every move advances.** -/
theorem step (hs : Smooth env cfg j) (hstep : GenStep env cfg drafting f f') (hid : f.g.job.id = j)
    (ha : Advances cfg j w f) : Advances cfg j w f' := by
  subst hid
  cases ha with
  | ended hdone hsent =>
    obtain ⟨hdone', hchans⟩ : f'.g.done = true ∧ f'.h.chans = f.h.chans := by
      cases hstep <;>
        first
          | exact ⟨hdone, rfl⟩
          | simp_all
    exact .ended hdone' (hchans ▸ hsent)
  | goes hlive hflow hok hweight =>
    cases hdone' : f'.g.done with
    | true => exact .ended hdone' (finishes hs hstep hlive hdone' hflow)
    | false =>
      obtain ⟨hflow', hw⟩ := lives hs hstep hdone' hflow hok
      refine .goes hdone' hflow' (GenOk.step hstep hok hdone') ?_
      rcases hw with hlt | ⟨hle, hkeep⟩
      · rcases hweight with h | ⟨h, -⟩ <;> exact .inl (by omega)
      · rcases hweight with h | ⟨h, hahead, hhit⟩
        · exact .inl (by omega)
        · exact .inr ⟨by omega, hkeep hahead hhit⟩

theorem turns (hs : Smooth env cfg j) {m m' : Mid} (ht : Turns env cfg drafting m m') {g : ActiveGen}
    (hactive : m.active = [g]) (hid : g.job.id = j) (ha : Advances cfg j w ⟨m.h, g, m.ahead g.seq, false⟩) :
    ∃ g', m'.active = [g'] ∧ g'.job.id = j ∧ Advances cfg j w ⟨m'.h, g', m'.ahead g'.seq, false⟩ := by
  refine Turns.induct (I := fun m => ∃ g, m.active = [g] ∧ g.job.id = j ∧ Advances cfg j w ⟨m.h, g, m.ahead g.seq, false⟩)
    (J := fun pre post _ f => pre = [] ∧ post = [] ∧ f.g.job.id = j ∧ Advances cfg j w f) ?_ ?_ ?_ ht
    ⟨g, hactive, hid, ha⟩
  · rintro pre g post h ahead hdone ⟨g', hactive, hid, ha⟩
    obtain ⟨rfl, rfl, rfl⟩ : pre = [] ∧ g = g' ∧ post = [] := by
      cases pre with
      | nil => simpa using hactive
      | cons => simp at hactive
    exact ⟨rfl, rfl, hid, ha⟩
  · rintro pre post ahead f f' ⟨hpre, hpost, hid, ha⟩ hstep
    exact ⟨hpre, hpost, by rw [hstep.frame.job, hid], ha.step hs hstep hid⟩
  · rintro pre post ahead ⟨h, g, a, hit⟩ ⟨rfl, rfl, hid, ha⟩ hhit
    cases hhit
    exact ⟨g, rfl, hid, by simpa using ha⟩

end Advances

/-! ### Sampling -/

/-- A generation that goes on has something to decode: tokens to prefill, or a sampled one. -/
def Ready (g : ActiveGen) : Prop :=
  g.done = false → g.terminalAfterDrain = none → g.prefilled = true → g.pending ≠ none

variable {g : ActiveGen}

theorem Ready.of_done (h : g.done = true) : Ready g := fun hlive => by
  rw [h] at hlive
  cases hlive

theorem Ready.of_term (h : g.terminalAfterDrain ≠ none) : Ready g := fun _ hterm => absurd hterm h

variable (h : Host)

theorem failSeq_ready (g : ActiveGen) (message : String) : Ready (failSeq env h g message).2 := by
  unfold failSeq
  split
  · apply Ready.of_term
    split
    · simp
    · rename_i hterm
      simpa using hterm
  · exact .of_done rfl

theorem finishOrDefer_ready (g : ActiveGen) (kind : FinishKind) (retain : Bool) :
    Ready (finishOrDefer env h g kind retain).2 := by
  unfold finishOrDefer
  split
  · exact .of_done (finishSeq_done _ _ _ _)
  · exact .of_term (by simp)

theorem stagePending_ready (distributed : Bool) (h : Host) (g : ActiveGen) (tok : Token) (piece : Text) :
    Ready (stagePending env distributed h g tok piece).2 := by
  obtain ⟨p, hp, -⟩ := @GenFollows.stagePending_fields env distributed h g tok piece
  intro _ _ _
  simp [hp]

theorem takeSample_ready (g : ActiveGen) (next : Token) : Ready (takeSample env cfg h g next).2 := by
  unfold takeSample
  split
  · exact finishOrDefer_ready _ _ _ _
  · split
    · exact stagePending_ready _ _ _ _ _
    · exact failSeq_ready _ _ _

theorem continueDecode_ready (g : ActiveGen) (context : List Cell) :
    Ready (continueDecode env cfg h g context).2 := by
  unfold continueDecode
  split
  · exact finishOrDefer_ready _ _ _ _
  · exact takeSample_ready _ _ _

theorem postDecode_ready (context : List Cell) (hp : g.pending ≠ none) :
    Ready (postDecode env cfg h g context).2 := by
  unfold postDecode
  split
  · rename_i hnone
    exact absurd hnone hp
  · exact .of_done (finishSeq_done _ _ _ _)
  · exact continueDecode_ready _ _ _
  · dsimp only
    split
    · split
      · exact continueDecode_ready _ _ _
      · exact continueDecode_ready _ _ _
      · exact .of_done rfl
    · exact .of_done (finishSeq_done _ _ _ _)

theorem postPrefill_ready {chunk : ℕ} (context : List Cell)
    (hle : g.prefillDone + chunk ≤ g.prefixToks.length) : Ready (postPrefill env cfg h g chunk context).2 := by
  unfold postPrefill
  split
  · rename_i hdone
    exact .of_done hdone
  · dsimp only
    split
    · unfold firstSample
      split
      · exact .of_done (finishSeq_done _ _ _ _)
      · split
        · exact stagePending_ready _ _ _ _ _
        · exact failSeq_ready _ _ _
    · rename_i hne
      intro _ _ hpre
      rw [prefilled_iff] at hpre
      simp only [ActiveGen.notePrefill] at hpre hne
      omega

theorem finishRound_ready {step : SpecStep} {h : Host} {pending : PendingTok}
    {confirmed : List (Token × Text)} {next : Token}
    (hok : (finishRound env cfg step h g pending confirmed next).2 = none) :
    Ready (finishRound env cfg step h g pending confirmed next).1.2 := by
  unfold finishRound at hok ⊢
  dsimp only at hok ⊢
  split
  · rename_i heq
    rw [heq] at hok
    cases hok
  · unfold settleRound
    split
    · exact finishOrDefer_ready _ _ _ _
    · exact takeSample_ready _ _ _

theorem processWalk_ready {logits : ℕ → List Cell} {step : SpecStep} {h : Host} {g : ActiveGen} {pending : PendingTok}
    {w : Walk} (hok : (processWalk env cfg logits step h g pending w).2 = none) :
    Ready (processWalk env cfg logits step h g pending w).1.2 := by
  unfold processWalk at hok ⊢
  split
  · exact failSeq_ready _ _ _
  · rename_i hrender
    simp only [hrender] at hok
    generalize walkNext env logits step h w = r at hok ⊢
    obtain ⟨h', next⟩ := r
    dsimp only at hok ⊢
    split
    · rename_i hlt
      rw [if_pos hlt] at hok
      split
      · rename_i heq
        rw [heq] at hok
        cases hok
      · rename_i heq
        rw [heq] at hok
        exact finishRound_ready hok
    · rename_i hlt
      rw [if_neg hlt] at hok
      exact finishRound_ready hok

theorem postSpec_ready (logits : ℕ → List Cell) (step : SpecStep) (h : Host) (g : ActiveGen) (pending : PendingTok) :
    Ready (postSpec env cfg logits step h g pending).2.1 := by
  unfold postSpec
  split
  · rename_i h' g' heq
    have hok : (processSpecStep env cfg logits step h g pending).2 = none := by rw [heq]
    have hready := @processWalk_ready env cfg logits step _ _ pending _ hok
    have hgen : (processSpecStep env cfg logits step h g pending).1.2 = g' := by rw [heq]
    exact hgen ▸ hready
  · split
    · rename_i hdone
      exact .of_done hdone
    · exact failSeq_ready _ _ _

/-! ### The step block -/

/-- What a step makes of a generation that is alone. -/
inductive Stepped (j : JobId) (w : ℕ) (s : Loop) : Prop
  | ended (hactive : s.active = []) (hsent : ∃ stats, .done stats ∈ s.host.chans j)
  | goes (g : ActiveGen) (hactive : s.active = [g]) (hid : g.job.id = j) (hflow : Flowing g) (hready : Ready g)
      (hweight : g.weight < w)

/-- The turns of a step, once nothing is ahead any more. -/
theorem Stepped.of_turns (hs : Smooth env cfg j) {h₀ h' : Host} {r : ActiveGen} {ahead : SeqId → List Token}
    {active' : List ActiveGen} (ht : Turns env cfg drafting ⟨h₀, [g], ahead⟩ ⟨h', active', noAhead⟩)
    (hm : MidOk cfg ⟨h₀, [g], ahead⟩) (hid : g.job.id = j) (hlive : g.done = false) (hflow : Flowing g)
    (hahead : ahead g.seq ≠ []) {s : Loop} (hhost : s.host = h') (hactive : s.active = retainActive active')
    (hr : s.active = retainActive [r]) (hready : Ready r) : Stepped j g.weight s := by
  have hstart : Advances cfg j g.weight ⟨h₀, g, ahead g.seq, false⟩ :=
    .goes hlive hflow (hm.gens g (by simp) hlive) (.inr ⟨le_rfl, hahead, rfl⟩)
  obtain ⟨g', rfl, hid', ha⟩ := Advances.turns hs ht rfl hid hstart
  cases ha with
  | ended hdone hsent =>
    refine .ended ?_ (hhost ▸ hsent)
    rw [hactive, retainActive_cons_done hdone]
    rfl
  | goes hlive' hflow' hok' hweight =>
    have hactive' : s.active = [g'] := by
      rw [hactive, retainActive_cons_live hlive']
      rfl
    have hmem : g' ∈ retainActive [r] := by
      rw [← hr, hactive']
      exact mem_singleton_self g'
    obtain rfl : g' = r := mem_singleton.mp (mem_retainActive.mp hmem).1
    refine .goes g' hactive' hid' hflow' hready ?_
    rcases hweight with h | ⟨-, h, -⟩
    · exact h
    · exact absurd rfl h

theorem plainStep_alone {s : Loop} (hs : LoopOk cfg s) (hactive : s.active = [g])
    (hlive : g.done = false) (hflow : Flowing g) (hready : Ready g) (hdecodes : ∀ t, env.decodeFails t = none) :
    ∃ batch decodes prefill, PlainBatch cfg [g] batch decodes prefill ∧ batchToks batch g.seq ≠ [] ∧
      plainStep env cfg s = (plainDecoded env cfg s batch decodes prefill, false) ∧
      ∃ r, (plainDecoded env cfg s batch decodes prefill).active = retainActive [r] ∧ Ready r := by
  have hgen := hs.mid.gens g (by simp [hactive]) hlive
  have hseq := hgen.seq_lt
  have hbatch := cfg.nBatch_pos
  have hstep : g.steppable = true := by simp [ActiveGen.steppable, hflow.held, hflow.term]
  have hnodup : ([g].map ActiveGen.seq).Nodup := by simp
  unfold plainStep
  simp only [hactive, hdecodes]
  cases hpre : g.prefilled with
  | true =>
    have hpending := hready hlive hflow.term hpre
    obtain ⟨p, hp⟩ := Option.ne_none_iff_exists'.mp hpending
    have hpush : batchPush cfg [] p.tok g.kvLen g.seq true = .ok ([⟨p.tok, g.kvLen, g.seq, true⟩], 0) := by
      unfold batchPush
      rw [length_nil, if_neg (Nat.not_le.mpr hbatch), if_neg (Nat.not_le.mpr hseq)]
      rfl
    have hd : buildDecodes cfg [g] 0 [] [] = .ok ([⟨p.tok, g.kvLen, g.seq, true⟩], [(0, 0)]) := by
      simp [buildDecodes, hstep, hpre, hp, hpush]
    have hpf : buildPrefill cfg [g] 0 [⟨p.tok, g.kvLen, g.seq, true⟩] = .ok ([⟨p.tok, g.kvLen, g.seq, true⟩], none) := by
      simp [buildPrefill, hpre]
    have hb := plainBatch_of_build hd hpf
    refine ⟨_, _, _, hb, ?_, ?_, (postDecode env cfg (decodeOk s.host [g] [⟨p.tok, g.kvLen, g.seq, true⟩]) g
      (logitsAt (decodeOk s.host [g] [⟨p.tok, g.kvLen, g.seq, true⟩]) [⟨p.tok, g.kvLen, g.seq, true⟩] 0)).2, ?_, ?_⟩
    · exact fun h => by simp [batchToks] at h
    · simp [hd, hpf]
    · simp [plainDecoded, hactive, postDecodes]
    · exact postDecode_ready _ _ hpending
  | false =>
    have hd : buildDecodes cfg [g] 0 [] [] = .ok ([], []) := by simp [buildDecodes, hpre]
    have hchunk := @prefillChunk_ne g cfg.nBatch hpre hbatch
    have hcond : (g.steppable && !g.prefilled) = true := by simp [hstep, hpre]
    cases hpush : pushPrefill cfg g (prefillChunk g cfg.nBatch) 0 [] none with
    | error e =>
      have hunfold : buildPrefill cfg [g] 0 [] = .error (0, e) := by
        unfold buildPrefill
        rw [if_pos hcond]
        simp only [length_nil, Nat.sub_zero, Nat.ne_of_gt hbatch, if_false, hpush]
      have htotal := hs.prefill_total [] (0, e)
      rw [hactive] at htotal
      exact absurd hunfold htotal
    | ok r =>
      obtain ⟨batch, tail⟩ := r
      have hunfold : buildPrefill cfg [g] 0 [] = .ok (batch, some (0, (prefillChunk g cfg.nBatch).length, tail)) := by
        unfold buildPrefill
        rw [if_pos hcond]
        simp only [length_nil, Nat.sub_zero, Nat.ne_of_gt hbatch, if_false, hpush]
      have hb := plainBatch_of_build hd hunfold
      obtain ⟨m, hm, -, -, htoks⟩ := (hb.toks hnodup (mem_singleton_self g)).2.2 0 _ tail rfl rfl
      refine ⟨_, _, _, hb, ?_, ?_, (postPrefill env cfg (decodeOk s.host [g] batch) g (prefillChunk g cfg.nBatch).length
        ((tail.map (logitsAt (decodeOk s.host [g] batch) batch)).getD [])).2, ?_, ?_⟩
      · intro hnil
        rw [hnil] at htoks
        rw [← htoks] at hm
        exact hchunk (length_eq_zero_iff.mp hm)
      · simp [hd, hunfold]
      · simp [plainDecoded, hactive, postDecodes]
      · refine postPrefill_ready _ _ ?_
        simp only [prefillChunk, length_take, length_drop]
        have hle := hgen.prefill_le
        omega

/-! The moves of a step do not ask whether the batch covers every slot, and those of a plain one never remove
cached positions, so neither can fail there. -/

/-- The configuration with a batch for every slot. -/
def Cfg.roomy (cfg : Cfg) : Cfg :=
  { cfg with nBatch := cfg.nBatch + cfg.nSeqMax, nBatch_pos := Nat.add_pos_left cfg.nBatch_pos _ }

/-- The environment in which removals succeed. -/
def Env.sure (env : Env) : Env := { env with seqRmFails := fun _ => none }

theorem postDecodes_sure (logits : ℕ → List Cell) (l : List (ℕ × ℕ)) (h : Host) (active : List ActiveGen) :
    postDecodes env.sure cfg.roomy logits l h active = postDecodes env cfg logits l h active := by
  induction l generalizing h active with
  | nil => rfl
  | cons d l ih =>
    obtain ⟨i, index⟩ := d
    unfold postDecodes
    split
    · exact ih _ _
    · exact ih _ _

theorem plainDecoded_sure (s : Loop) (batch : List BatchTok) (decodes : List (ℕ × ℕ))
    (prefill : Option (ℕ × ℕ × Option ℕ)) :
    plainDecoded env.sure cfg.roomy s batch decodes prefill = plainDecoded env cfg s batch decodes prefill := by
  unfold plainDecoded
  simp only [postDecodes_sure]
  rfl

theorem MidOk.roomy {m : Mid} (hm : MidOk cfg m) : MidOk cfg.roomy m :=
  ⟨{ hm.slots with }, fun g hg hlive => { hm.gens g hg hlive with }⟩

/-- The client stays and reads, and no call fails. -/
structure Unhindered (env : Env) (cfg : Cfg) (j : JobId) : Prop where
  opened : ∀ t, env.closed j t = false
  drained : ∀ n t, env.room j n t = true
  renders : ∀ tok, ∃ piece, env.tokenToPiece tok = .ok piece
  decodes : ∀ t, env.decodeFails t = none
  /-- Only a speculative round removes cached positions of a running generation. -/
  removes : cfg.hasDraft = true → ∀ t, env.seqRmFails t = none
  sampler : ∀ t, env.samplerFails t = none

namespace Unhindered

theorem smooth (hu : Unhindered env cfg j) {env' : Env} (hclosed : env'.closed = env.closed) (hroom : env'.room = env.room)
    (hpiece : env'.tokenToPiece = env.tokenToPiece) (hdecode : env'.decodeFails = env.decodeFails)
    (hremove : ∀ t, env'.seqRmFails t = none) : Smooth env' cfg.roomy j := by
  refine ⟨fun t => by rw [hclosed]; exact hu.opened t, fun n t => by rw [hroom]; exact hu.drained n t, ?_⟩
  rintro (⟨tok, e, h⟩ | ⟨t, e, h⟩ | ⟨t, e, h⟩ | h)
  · obtain ⟨piece, hp⟩ := hu.renders tok
    rw [hpiece, hp] at h
    cases h
  · rw [hremove] at h
    cases h
  · rw [hdecode, hu.decodes] at h
    cases h
  · simp only [Cfg.roomy] at h
    omega

variable {s : Loop} {g : ActiveGen}

theorem plain (hu : Unhindered env cfg j) (hs : LoopOk cfg s) (hactive : s.active = [g])
    (hid : g.job.id = j) (hflow : Flowing g) (hready : Ready g) :
    (plainStep env cfg s).2 = false ∧ (plainStep env cfg s).1.specDisabled = s.specDisabled ∧
      Stepped j g.weight (plainStep env cfg s).1 := by
  have hlive := hs.live g (by simp [hactive])
  obtain ⟨batch, decodes, prefill, hb, hahead, heq, r, hr, hrready⟩ :=
    plainStep_alone hs hactive hlive hflow hready hu.decodes
  have hmid := (hs.plain_mid (hactive ▸ hb)).roomy
  have hb' : PlainBatch cfg.roomy s.active batch decodes prefill := by
    rw [hactive]
    exact ⟨hb.decodes_eq, hb.batch_eq⟩
  obtain ⟨h', active', hturns, hdecoded⟩ := @plainDecoded_turns env.sure cfg.roomy false s batch decodes prefill hb'
    hs.live (nodup_seqs hs.mid hs.live) (fun g hg => hs.ready hg) hmid
  rw [plainDecoded_sure] at hdecoded
  rw [hactive] at hturns hmid
  have hsmooth : Smooth env.sure cfg.roomy j := hu.smooth rfl rfl rfl rfl fun _ => rfl
  rw [heq]
  refine ⟨rfl, by rw [hdecoded], ?_⟩
  exact .of_turns hsmooth hturns hmid hid hlive hflow hahead (by rw [hdecoded]) (by rw [hdecoded]) hr hrready

/-- A speculative round: it goes on like any step, or the draft stands down. -/
theorem spec (hu : Unhindered env cfg j) (hs : LoopOk cfg s) {pending : PendingTok}
    (ht : specTarget cfg s = some (g, pending)) (hid : g.job.id = j) (hflow : Flowing g) :
    Stepped j g.weight (specStep env cfg s g pending) ∨
      (specStep env cfg s g pending).active = s.active ∧ (specStep env cfg s g pending).specDisabled = true := by
  obtain ⟨hactive, hel, hp, -, hdraftOn⟩ := specTarget_eq ht
  have hmem : g ∈ s.active := by simp [hactive]
  have hlive := hs.live g hmem
  obtain ⟨hstep, hpre, hpos⟩ := specEligible_steps hel
  have honly := @buildSpecStep_only env cfg s.host g pending.tok
  unfold specStep
  cases hb : buildSpecStep env cfg s.host g pending.tok with
  | mk h₁ res =>
    rw [hb] at honly
    cases res with
    | error => exact .inr ⟨rfl, rfl⟩
    | ok step =>
      obtain ⟨hbatch, hidx, hlen, -, -, heog⟩ := buildSpecStep_ok hb
      have hm₁ : MidOk cfg ⟨h₁, [g], noAhead⟩ := hactive ▸ hs.mid.draftOnly honly
      obtain ⟨-, -, hm₂, htoks⟩ := spec_mid hm₁ hlive hstep hpos hbatch hlen
      have hgen₂ : GenOk cfg (decodeOk h₁ [g] step.batch) g (pending.tok :: step.drafts) := by
        rw [← htoks]
        exact hm₂.gens g (by simp) hlive
      have hv : Verified env cfg.roomy (logitsAt (decodeOk h₁ [g] step.batch) step.batch) step
          (g.stream ++ [pending.tok]) :=
        { @spec_verified env cfg _ _ _ step hbatch hidx heog hgen₂ hflow.term hpre hdraftOn with }
      have hturns := @postSpec_turns env cfg.roomy _ (decodeOk h₁ [g] step.batch) g pending step hp hlive hel hbatch hv hlen
      simp only [hu.decodes, hactive]
      refine .inl (.of_turns (hu.smooth rfl rfl rfl rfl (hu.removes hdraftOn)) hturns hm₂.roomy hid hlive hflow ?_ rfl rfl
        rfl (postSpec_ready _ _ _ _ _))
      rw [htoks]
      exact cons_ne_nil _ _

/-- What is left of the loop's work on a generation: its weight, and a draft that may still stand down. -/
def work (s : Loop) (g : ActiveGen) : ℕ := g.weight + if s.specDisabled then 0 else 1

/-- **A step of a generation that is alone** finishes it or leaves less to do. -/
theorem stepBlock (hu : Unhindered env cfg j) (hbatch : cfg.batchError = none) (hs : LoopOk cfg s)
    (hactive : s.active = [g]) (hid : g.job.id = j) (hflow : Flowing g) (hready : Ready g) :
    (stepBlock env cfg s).2 = false ∧
      ((stepBlock env cfg s).1.active = [] ∧ (∃ stats, .done stats ∈ (stepBlock env cfg s).1.host.chans j) ∨
        ∃ g', (stepBlock env cfg s).1.active = [g'] ∧ g'.job.id = j ∧ Flowing g' ∧ Ready g' ∧
          work (stepBlock env cfg s).1 g' < work s g) := by
  have hstepped : ∀ {s' : Loop}, Stepped j g.weight s' → (s.specDisabled = true → s'.specDisabled = true) →
      s'.active = [] ∧ (∃ stats, .done stats ∈ s'.host.chans j) ∨
        ∃ g', s'.active = [g'] ∧ g'.job.id = j ∧ Flowing g' ∧ Ready g' ∧ work s' g' < work s g := by
    intro s' hst hoff
    cases hst with
    | ended hnil hsent => exact .inl ⟨hnil, hsent⟩
    | goes g' hactive' hid' hflow' hready' hweight =>
      refine .inr ⟨g', hactive', hid', hflow', hready', ?_⟩
      unfold work
      cases hdis : s.specDisabled with
      | true => simpa [hoff hdis] using hweight
      | false => split <;> simp <;> omega
  unfold Engine.stepBlock
  rw [hbatch]
  dsimp only
  split
  · rename_i g' pending ht
    obtain ⟨hactive', -, -, hon, -⟩ := specTarget_eq ht
    obtain rfl : g = g' := by simpa [hactive] using hactive'
    refine ⟨rfl, ?_⟩
    rcases hu.spec hs ht hid hflow with hst | ⟨hsame, hoff⟩
    · exact hstepped hst (fun h => by rw [hon] at h; cases h)
    · refine .inr ⟨g, hsame.trans hactive, hid, hflow, hready, ?_⟩
      simp [work, hoff, hon]
  · obtain ⟨hfalse, hsame, hst⟩ := hu.plain hs hactive hid hflow hready
    exact ⟨hfalse, hstepped hst fun h => hsame.trans h⟩

theorem deliverBlock_active {s : Loop} {g : ActiveGen} (hactive : s.active = [g]) (hlive : g.done = false)
    (hflow : Flowing g) : (deliverBlock env cfg s).active = [g] := by
  have hheld : ∀ h, retryHeld env cfg h g = (h, g) := by
    intro h
    have hsame : { g with held := [] } = g := by
      rw [← hflow.held]
    have hdrain : drainHeld env g.held h g = (h, g) := by
      rw [hflow.held]
      exact Prod.ext rfl hsame
    unfold retryHeld
    rw [hdrain]
    simp [hflow.term]
  simp [deliverBlock, hactive, sweepActive, hheld, retainActive, hlive]

theorem settleBlock_eq (hu : Unhindered env cfg j) (hactive : s.active = [g])
    (hid : g.job.id = j) (hlive : g.done = false) (hqueue : s.queue = []) (hctrl : s.ctrl = none) :
    settleBlock env cfg s = { s with host := s.host.tick } := by
  have hopen : env.closed g.job.id s.host.clock = false := by rw [hid]; exact hu.opened _
  have hdrop : dropClosed env s.host g = (s.host.tick, g) := by simp [dropClosed, hlive, hopen]
  simp [settleBlock, hactive, hqueue, hctrl, sweepActive, hdrop, dropClosedQueue, admission, retainActive, hlive]

/-- The loop before step 7, with one generation and nothing else to do. -/
structure Serves (cfg : Cfg) (j : JobId) (s : Sys) (g : ActiveGen) : Prop where
  phase : s.phase = .serving cfg .step
  rx : s.rx = []
  waiting : s.loop.waiting = (none, [])
  active : s.loop.active = [g]
  hid : g.job.id = j
  flow : Flowing g
  ready : Ready g

theorem Reachable.run {s : Sys} (hs : Reachable env s) (l : List Label) : Reachable env (run env s l) := by
  obtain ⟨labels, rfl⟩ := hs
  exact ⟨labels ++ l, (run_append _ _ _).symm⟩

/-- **A pass of the loop** finishes the generation or leaves less to do. -/
theorem pass (hu : Unhindered env cfg j) (hbatch : cfg.batchError = none) {s : Sys} (hreach : Reachable env s)
    (hs : Serves cfg j s g) : (∃ stats, .done stats ∈ (tickStep env s).loop.host.chans j) ∨
      ∃ g', Serves cfg j (run env s (List.replicate 4 .tick)) g' ∧
        work (run env s (List.replicate 4 .tick)).loop g' < work s.loop g := by
  have hok := hreach.sysOk.loop cfg .step hs.phase
  obtain ⟨hfalse, hres⟩ := hu.stepBlock hbatch hok hs.active hs.hid hs.flow hs.ready
  have hwaiting := @stepBlock_waiting env cfg s.loop
  have hok' := @stepBlock_ok env cfg s.loop hok
  have h1 : tickStep env s = { s with loop := (Engine.stepBlock env cfg s.loop).1, phase := .serving cfg .deliver } := by
    unfold tickStep
    rw [hs.phase]
    simp [hfalse]
  rw [hs.waiting] at hwaiting
  generalize (Engine.stepBlock env cfg s.loop).1 = l at *
  rcases hres with ⟨-, hsent⟩ | ⟨g', hactive, hid, hflow, hready, hwork⟩
  · exact .inl (by rw [h1]; exact hsent)
  · refine .inr ⟨g', ?_⟩
    have hlive := hok'.live g' (by simp [hactive])
    have hctrl : l.ctrl = none := congrArg Prod.fst hwaiting
    have hqueue : l.queue = [] := congrArg Prod.snd hwaiting
    have hdeliver := @deliverBlock_active env cfg l g' hactive hlive hflow
    have h2 : tickStep env (tickStep env s) = { s with loop := deliverBlock env cfg l, phase := .serving cfg .pump } := by
      rw [h1]
      rfl
    have h3 : tickStep env (tickStep env (tickStep env s)) =
        { s with loop := deliverBlock env cfg l, phase := .serving cfg .settle } := by
      rw [h2]
      have hquiet : (deliverBlock env cfg l).quiet = false := by simp [Loop.quiet, hdeliver]
      have hctrl' : (deliverBlock env cfg l).ctrl = none := hctrl
      simp [tickStep, pumpStep, hctrl', hs.rx, hquiet]
    have h4 : tickStep env (tickStep env (tickStep env (tickStep env s))) =
        { s with loop := { deliverBlock env cfg l with host := (deliverBlock env cfg l).host.tick }
                 phase := .serving cfg .step } := by
      rw [h3]
      have hsettle := hu.settleBlock_eq (s := deliverBlock env cfg l) hdeliver hid hlive hqueue hctrl
      have hctrl' : (deliverBlock env cfg l).ctrl = none := hctrl
      simp [tickStep, barrier, hsettle, hctrl']
    have hrun : run env s (List.replicate 4 .tick) = tickStep env (tickStep env (tickStep env (tickStep env s))) := rfl
    rw [hrun, h4]
    exact ⟨⟨rfl, hs.rx, hwaiting, hdeliver, hid, hflow, hready⟩, hwork⟩

/-- **A generation that is alone is finished.** -/
theorem ends (hu : Unhindered env cfg j) (hbatch : cfg.batchError = none) {s : Sys} (hreach : Reachable env s)
    (hs : Serves cfg j s g) :
    ∃ n stats, .done stats ∈ (run env s (List.replicate n .tick)).loop.host.chans j := by
  induction hw : work s.loop g using Nat.strong_induction_on generalizing s g with
  | _ w ih =>
    subst hw
    rcases hu.pass hbatch hreach hs with ⟨stats, hsent⟩ | ⟨g', hs', hlt⟩
    · exact ⟨1, stats, hsent⟩
    · obtain ⟨n, stats, hsent⟩ := ih _ hlt (Reachable.run hreach _) hs' rfl
      refine ⟨4 + n, stats, ?_⟩
      rw [replicate_add, run_append]
      exact hsent

end Unhindered

/-! ### From the request to its finish -/

/-- A model is loaded and a request submitted; then the engine thread runs. -/
def serveAlone (cfg : Cfg) (r : Request) (n : ℕ) : List Label :=
  .control (.load (some cfg)) :: .submit r :: List.replicate n .tick

/-- A model that takes a request on. -/
structure Accepts (lm : LanguageModel) (cfg : Cfg) (r : Request) (toks : List Token) : Prop where
  batch : cfg.batchError = none
  named : r.model = cfg.name ∨ r.model = cfg.reference
  prompt : lm.promptTokens r.prompt = .ok toks
  nonempty : toks ≠ []
  fits : toks.length + r.maxTokens ≤ cfg.nCtx

/-- The queue entry of a fresh job. -/
def freshPrepared (job : GenerateJob) (toks : List Token) : PreparedGen where
  job := job
  promptTokens := toks
  priorGenerated := []
  priorPieces := 0
  scan := StopScan.new job.stop
  remaining := job.maxTokens
  budget := toks.length + job.maxTokens
  resumed := false
  unsent := []
  finish := none

namespace Accepts

variable {lm : LanguageModel} {r : Request} {toks : List Token}

variable (ha : Accepts lm cfg r toks)
include ha

theorem prepareState (hm : lm.Runs env) (j : JobId) :
    prepareState env cfg (r.toJob j) none = .ok (freshPrepared (r.toJob j) toks) := by
  have hrender : ∃ text, renderPrompt env r.prompt = .ok text ∧ env.tokenize text = .ok toks := by
    have hprompt := ha.prompt
    rw [hm.tokenize]
    cases hp : r.prompt with
    | raw text =>
      rw [hp] at hprompt
      exact ⟨text, rfl, hprompt⟩
    | chat turns =>
      rw [hp] at hprompt
      cases h : lm.applyChatTemplate turns with
      | error =>
        simp only [LanguageModel.promptTokens, h] at hprompt
        cases hprompt
      | ok rendered =>
        cases rendered with
        | none =>
          simp only [LanguageModel.promptTokens, h] at hprompt
          exact ⟨turns.flatMap fallbackTurn ++ "<|assistant|>\n".toList, by simp only [renderPrompt, hm.template, h], hprompt⟩
        | some text =>
          simp only [LanguageModel.promptTokens, h] at hprompt
          exact ⟨text, by simp only [renderPrompt, hm.template, h], hprompt⟩
  obtain ⟨text, htext, htoks⟩ := hrender
  have hfits : ¬ cfg.nCtx < toks.length + r.maxTokens := Nat.not_lt.mpr ha.fits
  simp [Engine.prepareState, Request.toJob, htext, htoks, ha.nonempty, hfits, freshPrepared]

theorem prepareGeneration (hm : lm.Runs env) (hopen : ∀ t, env.closed j t = false) (h : Host) :
    prepareGeneration env cfg h { job := r.toJob j, resume := none } =
      if r.maxTokens = 0 then
        (endPrepare env h.tick { job := r.toJob j, resume := none }
          (.done (preparedStats (freshPrepared (r.toJob j) toks) .length)), none)
      else (h.tick, some (freshPrepared (r.toJob j) toks)) := by
  have hclosed : env.closed (r.toJob j).id h.clock = false := hopen _
  have hnamed : ¬ ((r.toJob j).model ≠ cfg.name ∧ (r.toJob j).model ≠ cfg.reference) := by
    rcases ha.named with h | h <;> simp [Request.toJob, h]
  have hsettled : settledFinish (freshPrepared (r.toJob j) toks) = if r.maxTokens = 0 then some .length else none := by
    unfold settledFinish
    exact if_pos rfl
  unfold Engine.prepareGeneration
  simp only [ha.batch, hclosed, hnamed, ha.prepareState hm j, hsettled, Bool.false_eq_true, if_false]
  split <;> rename_i h
  · split at h
    · cases h
      rw [if_pos (by assumption)]
    · cases h
  · split at h
    · cases h
    · rw [if_neg (by assumption)]

theorem admission {s : Loop} (hactive : s.active = []) (hretained : s.host.retained = [])
    (hfree : s.host.free ≠ []) (hsampler : ∀ t, env.samplerFails t = none) :
    ∃ h seq, Engine.admission env cfg [freshPrepared (r.toJob j) toks] s =
      { s with host := h, active := [admitGen (freshPrepared (r.toJob j) toks) seq 0 s.nextUid]
               queue := [], nextUid := s.nextUid + 1 } := by
  obtain ⟨pos, seq, kept, hcold, hpos, -⟩ := @coldSlot_ok s.host.free [] hfree (by simp)
  have hfront : ∃ h, admitFront env cfg s (freshPrepared (r.toJob j) toks) =
      .admitted h (admitGen (freshPrepared (r.toJob j) toks) seq 0 s.nextUid) := by
    have hfits : toks.length + (r.toJob j).maxTokens ≤ cfg.nCtx := ha.fits
    unfold admitFront
    simp [hactive, hretained, usedBudget, bestReuse, makeRoom, cachedOthers, freshPrepared, hsampler, takeSlot, hcold,
      Host.tick, hpos, hfits]
  obtain ⟨h, hfront⟩ := hfront
  refine ⟨h, seq, ?_⟩
  have hroom : ([] : List ActiveGen).length < cfg.nSeqMax := cfg.nSeqMax_pos
  unfold Engine.admission
  rw [hactive, if_pos hroom, hfront]
  rfl

theorem admitted (hpos : 0 < r.maxTokens) (seq : SeqId) (uid : ℕ) :
    Flowing (admitGen (freshPrepared (r.toJob j) toks) seq 0 uid) ∧
      Ready (admitGen (freshPrepared (r.toJob j) toks) seq 0 uid) := by
  refine ⟨⟨rfl, ?_, rfl⟩, fun _ _ hpre => ?_⟩
  · exact if_neg (Nat.ne_of_gt hpos)
  · rw [prefilled_iff] at hpre
    exact absurd (length_eq_zero_iff.mp (Nat.le_zero.mp hpre)) (by simp [admitGen, freshPrepared, ha.nonempty])

end Accepts

section alone

variable {lm : LanguageModel} {r : Request} {toks : List Token}

/-- The phase has started and the request has not been taken yet. -/
theorem serveAlone_loaded (r : Request) :
    run env Sys.init (serveAlone cfg r 2) =
      { loop := startPhase cfg Host.init, rx := [.generate { job := r.toJob 0, resume := none }]
        phase := .serving cfg .pump, shard := none, nextJob := 1 } := rfl

theorem serveAlone_taken (r : Request) : run env Sys.init (serveAlone cfg r 3) =
      { loop := pumpMsg env cfg (startPhase cfg Host.init) (.generate { job := r.toJob 0, resume := none }), rx := []
        phase := .serving cfg .pump, shard := none, nextJob := 1 } := by
  have hlast : run env Sys.init (serveAlone cfg r 3) = tickStep env (run env Sys.init (serveAlone cfg r 2)) := rfl
  rw [hlast, serveAlone_loaded]
  rfl

/-- The request waits, and nothing else. -/
def queuedAlone (cfg : Cfg) (r : Request) (toks : List Token) : Loop :=
  { startPhase cfg Host.init with
    host := (startPhase cfg Host.init).host.tick
    queue := [freshPrepared (r.toJob 0) toks] }

theorem queuedAlone_settle (hu : Unhindered env cfg 0) (ha : Accepts lm cfg r toks) :
    ∃ h seq, settleBlock env cfg (queuedAlone cfg r toks) = { queuedAlone cfg r toks with
        host := h, active := [admitGen (freshPrepared (r.toJob 0) toks) seq 0 0], queue := [], nextUid := 1 } := by
  have hclosed : ∀ t, env.closed (freshPrepared (r.toJob 0) toks).job.id t = false := hu.opened
  have hfree : (List.range cfg.nSeqMax).reverse ≠ [] := by
    simp [Nat.ne_of_gt cfg.nSeqMax_pos]
  obtain ⟨h, seq, hfront⟩ := @Accepts.admission env cfg 0 lm r toks ha
    { queuedAlone cfg r toks with host := (queuedAlone cfg r toks).host.tick } rfl rfl hfree hu.sampler
  refine ⟨h, seq, ?_⟩
  have hdrop : dropClosedQueue env (queuedAlone cfg r toks).host (queuedAlone cfg r toks).queue =
      ((queuedAlone cfg r toks).host.tick, [freshPrepared (r.toJob 0) toks]) := by
    simp [queuedAlone, dropClosedQueue, hclosed]
  have hsettle : settleBlock env cfg (queuedAlone cfg r toks) =
      admission env cfg (dropClosedQueue env (queuedAlone cfg r toks).host (queuedAlone cfg r toks).queue).2
        { queuedAlone cfg r toks with
          host := (dropClosedQueue env (queuedAlone cfg r toks).host (queuedAlone cfg r toks).queue).1 } := rfl
  rw [hsettle, hdrop]
  exact hfront

theorem serveAlone_serves (hm : lm.Runs env) (hu : Unhindered env cfg 0) (ha : Accepts lm cfg r toks)
    (hpos : 0 < r.maxTokens) : ∃ g, Unhindered.Serves cfg 0 (run env Sys.init (serveAlone cfg r 5)) g := by
  have hprep := ha.prepareGeneration hm hu.opened (startPhase cfg Host.init).host
  rw [if_neg (Nat.ne_of_gt hpos)] at hprep
  have hqueued : run env Sys.init (serveAlone cfg r 3) =
      { loop := queuedAlone cfg r toks, rx := [], phase := .serving cfg .pump, shard := none, nextJob := 1 } := by
    rw [serveAlone_taken]
    simp only [pumpMsg, hprep]
    rfl
  obtain ⟨h, seq, hsettle⟩ := queuedAlone_settle hu ha
  have hlast : run env Sys.init (serveAlone cfg r 5) =
      tickStep env (tickStep env (run env Sys.init (serveAlone cfg r 3))) := rfl
  have hpump : tickStep env
        { loop := queuedAlone cfg r toks, rx := [], phase := .serving cfg .pump, shard := none, nextJob := 1 } =
      { loop := queuedAlone cfg r toks, rx := [], phase := .serving cfg .settle, shard := none, nextJob := 1 } := rfl
  obtain ⟨hflow, hready⟩ := @Accepts.admitted cfg 0 lm r toks ha hpos seq 0
  refine ⟨admitGen (freshPrepared (r.toJob 0) toks) seq 0 0, ?_⟩
  rw [hlast, hqueued, hpump]
  simp only [tickStep, hsettle]
  exact ⟨rfl, rfl, rfl, rfl, rfl, hflow, hready⟩

/-- **A request served alone is finished**, when its client reads and nothing fails. -/
theorem serveAlone_done (hm : lm.Runs env) (hu : Unhindered env cfg 0) (ha : Accepts lm cfg r toks) :
    ∃ n stats, .done stats ∈ (run env Sys.init (serveAlone cfg r n)).loop.host.chans 0 := by
  by_cases hmax : r.maxTokens = 0
  · -- with no budget it is finished while it is prepared
    have hprep := ha.prepareGeneration hm hu.opened (startPhase cfg Host.init).host
    rw [if_pos hmax] at hprep
    have hsmooth : Smooth env.sure cfg.roomy 0 := hu.smooth rfl rfl rfl rfl fun _ => rfl
    have hsend : ∀ h ev, trySend env h (r.toJob 0).id ev = (h.accept 0 ev, .ok) := fun h ev => hsmooth.trySend h ev
    refine ⟨3, preparedStats (freshPrepared (r.toJob 0) toks) .length, ?_⟩
    rw [serveAlone_taken]
    simp only [pumpMsg, hprep, endPrepare, hsend]
    simp [Host.accept, Host.finish, Host.record]
  · obtain ⟨g, hserves⟩ := serveAlone_serves hm hu ha (Nat.pos_of_ne_zero hmax)
    obtain ⟨n, stats, hsent⟩ := hu.ends ha.batch ⟨_, rfl⟩ hserves
    refine ⟨5 + n, stats, ?_⟩
    have hlabels : serveAlone cfg r (5 + n) = serveAlone cfg r 5 ++ List.replicate n .tick := by
      simp [serveAlone, replicate_add]
    rw [hlabels, run_append]
    exact hsent

end alone

end OneBrain.Engine
