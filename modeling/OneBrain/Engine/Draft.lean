import OneBrain.Engine.Blocks

/-!
# The draft cache follows the stream

The draft session's cache is reused across rounds only while it is marked as synced
to a generation. `DraftSync` says what the mark promises: the cache is the laid-out
beginning of that generation's stream. Plain turns leave the draft session alone and
only extend streams; a verified round leaves a mark that is again true, because the
draft cache and the confirmed stream are both beginnings of the stream with the
pending token and all proposals.
-/

namespace OneBrain.Engine

open List OneBrain.Lib

variable {env : Env} {cfg : Cfg} {drafting : Bool}

/-! ### Plain turns -/

theorem Sends.draft {h h' : Host} : Sends h h' → h'.draftKv = h.draftKv ∧ h'.synced = h.synced := by
  rintro ⟨_, _, _, rfl⟩
  exact ⟨rfl, rfl⟩

variable {f f' : Focus} {h : Host} {g : ActiveGen} {base : List Token} {step : SpecStep}

theorem GenStep.draft_same (hs : GenStep env cfg false f f') :
    f'.h.draftKv = f.h.draftKv ∧ f'.h.synced = f.h.synced := by
  cases hs with
  | draft _ _ hd => cases hd
  | finish kind retain =>
    cases retain
    · simpa [Focus.of, finishSeq_release, cancelSeq_eq] using (deliverTerminal_sends _ _ _).draft
    · simpa [Focus.of, finishSeq_retain _ _ _ _ rfl] using (deliverTerminal_sends _ _ _).draft
  | fail g message _ _ _ _ hheld' =>
    simpa [Focus.of, failSeq_eq _ _ _ hheld', cancelSeq_eq] using (deliverTerminal_sends _ _ _).draft
  | cancel | reap => simp [Focus.of, cancelSeq_eq]
  | feed => exact (deliverPiece_sends _ _ _).draft
  | stage => exact (stagePending_sends _ _ _ _ _).draft
  | _ => exact ⟨rfl, rfl⟩

theorem GenSteps.draft_same (hs : GenSteps env cfg false f f') :
    f'.h.draftKv = f.h.draftKv ∧ f'.h.synced = f.h.synced := by
  induction hs with
  | refl => exact ⟨rfl, rfl⟩
  | tail _ hstep ih => exact ⟨hstep.draft_same.1.trans ih.1, hstep.draft_same.2.trans ih.2⟩

theorem GenStep.stream (hs : GenStep env cfg drafting f f') (hlive : f'.g.done = false) :
    f.g.stream <+: f'.g.stream ∧ f'.g.stream ++ f'.ahead <+: f.g.stream ++ f.ahead := by
  have hconfirm : ∀ (g : ActiveGen) (tok : Token), (g.confirm tok).stream = g.stream ++ [tok] := by
    intro g tok
    simp [ActiveGen.stream, ActiveGen.confirm]
  cases hs with
  | finish | fail | cancel | reap => simp [Focus.of, cancelSeq_eq, *] at hlive
  | confirm tok admitted rest hahead =>
    simp only [hconfirm, hahead]
    exact ⟨prefix_append _ _, by simp⟩
  | reject tok piece rest scan hahead =>
    have : ({ f.g.confirm tok with scan := scan } : ActiveGen).stream = f.g.stream ++ [tok] :=
      hconfirm f.g tok
    simp only [this, hahead]
    exact ⟨prefix_append _ _, by simp⟩
  | feed tok piece rest scan _ hahead =>
    have : (deliverPiece env f.h { f.g.confirm tok with scan := scan } piece).2.stream = f.g.stream ++ [tok] := by
      rw [deliverPiece_eq]
      exact hconfirm f.g tok
    simp only [Focus.of, this, hahead]
    exact ⟨prefix_append _ _, by simp⟩
  | stage tok piece _ hahead =>
    obtain ⟨_, _, _, _, _, heq⟩ := @stagePending_eq env cfg.distributed f.h f.g tok piece
    have : (stagePending env cfg.distributed f.h f.g tok piece).2.stream = f.g.stream := by
      rw [heq]
      rfl
    simp [Focus.of, this, hahead]
  | trimFailed | prefill =>
    simp only [append_nil]
    exact ⟨prefix_rfl, prefix_append _ _⟩
  | rollback => exact ⟨prefix_rfl, prefix_append_right_inj _ |>.mpr ( take_prefix _ _)⟩
  | _ => exact ⟨prefix_rfl, prefix_rfl⟩

theorem GenStep.live_of (hs : GenStep env cfg drafting f f') (hlive : f'.g.done = false) :
    f.g.done = false := by
  cases hs.frame.exit with
  | stays done => rw [← done, hlive]
  | released live | kept live => exact live

theorem GenSteps.stream (hs : GenSteps env cfg drafting f f') (hlive : f'.g.done = false) :
    f.g.stream <+: f'.g.stream ∧ f'.g.stream ++ f'.ahead <+: f.g.stream ++ f.ahead := by
  induction hs with
  | refl => exact ⟨prefix_rfl, prefix_rfl⟩
  | tail _ hstep ih =>
    obtain ⟨h1, h2⟩ := hstep.stream hlive
    obtain ⟨h3, h4⟩ := ih (hstep.live_of hlive)
    exact ⟨h3.trans h1, h2.trans h4⟩

theorem DraftSync.extend {h' : Host} {g' : ActiveGen} (hd : DraftSync h g)
    (hdraft : h'.draftKv = h.draftKv ∧ h'.synced = h.synced) (huid : g'.uid = g.uid)
    (hstream : g.stream <+: g'.stream) : DraftSync h' g' := by
  intro n hn
  rw [hdraft.2, huid] at hn
  obtain ⟨hle, hkv⟩ := hd n hn
  obtain ⟨t, ht⟩ := hstream
  refine ⟨by rw [← ht, length_append]; omega, ?_⟩
  rw [hdraft.1, hkv, ← ht, take_append_of_le_length hle]

/-- Every live generation's draft mark is true. -/
def DraftOk (h : Host) (active : List ActiveGen) : Prop :=
  ∀ g ∈ active, g.done = false → DraftSync h g

/-- **Plain turns keep the draft marks.** -/
theorem draftOk_turns {m m' : Mid} (hs : Turns env cfg false m m') (hm : DraftOk m.h m.active) :
    DraftOk m'.h m'.active := by
  refine Turns.induct (I := fun m => DraftOk m.h m.active)
    (J := fun pre post _ f => DraftOk f.h (pre ++ f.g :: post)) ?_ ?_ ?_ hs hm
  · exact fun pre g post h ahead _ hm => hm
  · intro pre post ahead f f' hf hstep g hg hlive
    have hdraft := hstep.draft_same
    simp only [mem_append, mem_cons] at hg
    by_cases hgf : g = f'.g
    · subst hgf
      exact (hf f.g (by simp) (hstep.live_of hlive)).extend hdraft hstep.frame.uid (hstep.stream hlive).1
    · refine (hf g ?_ hlive).extend hdraft rfl prefix_rfl
      rcases hg with hg | hg | hg
      · simp [hg]
      · exact absurd hg hgf
      · simp [hg]
  · exact fun pre post ahead f hf _ => hf

/-! ### A verified round -/

/-- What a round leaves of the draft session: nothing marked, or a mark for the
generation whose cache is the laid-out beginning of `base`, within the stream. -/
def DraftMark (base : List Token) (h : Host) (g : ActiveGen) : Prop :=
  h.synced = none ∨ ∃ k ≤ base.length, h.synced = some (g.uid, k) ∧
    h.draftKv = layout (base.take k) ∧ (g.done = false → k ≤ g.stream.length)

theorem failSeq_draft (h : Host) (g : ActiveGen) (message : String) :
    (failSeq env h g message).1.draftKv = h.draftKv ∧ (failSeq env h g message).1.synced = h.synced := by
  by_cases hheld : g.held = []
  · simpa [failSeq_eq _ _ _ hheld, cancelSeq_eq] using (deliverTerminal_sends _ _ _).draft
  · by_cases hterm : g.terminalAfterDrain = none <;> simp [failSeq, hheld, hterm]

/-- The draft cache is cut back to what the confirmed stream shares with it. -/
theorem resyncDraft_mark (hkv : h.draftKv = layout base)
    (hlen : g.kvLen = g.stream.length) : DraftMark base (resyncDraft env h g base.length) g := by
  simp only [resyncDraft]
  split
  · cases env.draftTrimFails h.clock with
    | some => exact .inl rfl
    | none =>
      refine .inr ⟨min base.length g.kvLen, by omega, rfl, ?_, fun _ => by omega⟩
      simp only [hkv, trim_layout]
  · have hmin : min base.length g.kvLen = base.length := by omega
    exact .inr ⟨min base.length g.kvLen, by omega, rfl, by simp [hmin, hkv], fun _ => by omega⟩

theorem GenSteps.uid_eq (hs : GenSteps env cfg drafting f f') : f'.g.uid = f.g.uid := by
  induction hs with
  | refl => rfl
  | tail _ hstep ih => exact hstep.frame.uid.trans ih

theorem DraftMark.steps (hd : DraftMark base f.h f.g)
    (hs : GenSteps env cfg false f f') (hf : f.g.done = false) : DraftMark base f'.h f'.g := by
  obtain ⟨hkv, hsync⟩ := hs.draft_same
  rcases hd with hd | ⟨k, hk, hs', hkv', hlen⟩
  · exact .inl (hsync.trans hd)
  · refine .inr ⟨k, hk, by rw [hsync, hs', hs.uid_eq], hkv.trans hkv', fun hlive => ?_⟩
    exact (hlen hf).trans (hs.stream hlive).1.length_le

theorem GenSteps.genOk (hs : GenSteps env cfg drafting f f') (hlive : f'.g.done = false)
    (hg : GenOk cfg f.h f.g f.ahead) : GenOk cfg f'.h f'.g f'.ahead := by
  induction hs with
  | refl => exact hg
  | tail _ hstep ih => exact GenOk.step hstep (ih (hstep.live_of hlive)) hlive

/-- The draft session held the laid-out `base` before a round, and its mark is true of `base` after it. -/
def Remarks (step : SpecStep) (h : Host) (g : ActiveGen) (r : Host × ActiveGen) : Prop :=
  ∀ base, h.draftKv = layout base → step.draftKv = base.length → g.kvLen = g.stream.length → DraftMark base r.1 r.2

/-- What a verified round leaves behind: its turn is over, or a trim past a stop
match failed with the generation still counting the tokens that could not be removed. -/
def RoundResult (env : Env) (cfg : Cfg) (step : SpecStep) (f : Focus) : (Host × ActiveGen) × Option String → Prop
  | (r, none) => GenSteps env cfg true f (.of r [] false) ∧ Remarks step f.h f.g r
  | (r, some message) =>
    r.2.done = false ∧ r.2.terminalAfterDrain = none ∧ r.2.prefilled = true ∧ r.1.synced = none ∧ Fault env cfg ∧
      ∃ e k ahead, message = trimError e ∧
      r.2.kvLen = k + ahead.length ∧ GenSteps env cfg true f ⟨r.1, { r.2 with kvLen := k }, ahead, true⟩

theorem finishRound_steps (step : SpecStep) (pending : PendingTok) (confirmed : List (Token × Text)) (next : Token)
    (hg : g.Ready) (hacc : Accepted env cfg (g.stream ++ [pending.tok]) confirmed)
    (hnext : Chosen env (g.stream ++ [pending.tok] ++ confirmed.map Prod.fst) next)
    (hlen : confirmed.length < g.remaining) (hpos : 1 < g.remaining) :
    RoundResult env cfg step
      ⟨h, { g with pending := some pending }, pending.tok :: confirmed.map Prod.fst, false⟩
      (finishRound env cfg step h g pending confirmed next) := by
  obtain ⟨kept, left, htoks, hem⟩ := @emitRound_steps env cfg true h g (g.kvLen + (1 + confirmed.length)) pending
    confirmed hg hacc hlen hpos
  obtain ⟨_, _, -, hplain⟩ := @emitRound_steps env cfg false h g (g.kvLen + (1 + confirmed.length)) pending
    confirmed hg hacc hlen hpos
  have hdkv := hplain.steps.draft_same.1
  simp only [finishRound]
  generalize emitRound env h { g with kvLen := g.kvLen + (1 + confirmed.length) } pending confirmed = e
    at hem hdkv ⊢
  have htotal : 1 + confirmed.length = e.kept + left.length := by
    have := congrArg length htoks
    simp only [length_cons, length_map, length_append] at this
    rw [hem.count]
    omega
  have hchosen : e.finish = none → Chosen env e.gen.stream next := by
    intro hnone
    rw [hem.all (by simp [hnone]), append_nil] at htoks
    rwa [hem.stream, ← htoks, append_cons]
  have hready : e.gen.Ready := (hg.counted _).emitted hem.emitted
  have hkv : e.gen.kvLen = g.kvLen + (1 + confirmed.length) := by
    obtain ⟨_, _, _, _, _, _, hgen⟩ := hem.emitted
    rw [hgen]
  -- the kept tokens account for the whole cache once the rest is trimmed
  have hfull : g.kvLen = g.stream.length → g.kvLen + e.kept = e.gen.stream.length := by
    intro hcounted
    rw [hem.stream, length_append, hem.count, hcounted]
    rfl
  unfold trimPastStop
  by_cases hcut : e.kept < 1 + confirmed.length
  · -- confirmed tokens are left over: a stop match
    have hstop : e.finish = some .stop := by
      by_contra hne
      rw [hem.all hne, length_nil] at htotal
      omega
    rw [if_pos hcut]
    cases hrm : env.seqRmFails e.host.clock with
    | some err =>
      simp only [seqRm, hrm]
      refine ⟨hready.live, hready.term, hready.prefilled, rfl, .removal _ err hrm, err, g.kvLen + e.kept, left, rfl,
        by simp only; omega, .tail (.tail hem.steps (.tick _)) ?_⟩
      have := @GenStep.draft env cfg true ⟨e.host.tick, { e.gen with kvLen := g.kvLen + e.kept }, left, true⟩ [] none rfl
      simpa [Emit.focus, hstop, Host.resetDraft] using this
    | none =>
      simp only [seqRm, hrm]
      have hroll : GenStep env cfg true (e.focus g.kvLen left) _ :=
        .rollback _ 0 hready.live (.inr (by simp [Emit.focus, hstop]))
      simp only [Emit.focus, take_zero, Nat.add_zero] at hroll
      have hsettle : ∀ {drafting} h, GenSteps env cfg drafting ⟨h, _, [], _⟩ _ := fun h =>
        settleRound_steps next e.finish (hready.counted (g.kvLen + e.kept)) hem.remaining hem.kind hchosen
      refine ⟨(Relation.ReflTransGen.tail hem.steps hroll).trans ((resyncDraft_steps _ _ step.draftKv _ _ _).trans
        (hsettle _)), fun base hbase hstep hcounted => ?_⟩
      rw [hstep]
      refine DraftMark.steps ?_ (hsettle _) hready.live
      exact resyncDraft_mark (h := { e.host.tick with kv := _ }) (hdkv.trans hbase) (hfull hcounted)
  · rw [if_neg hcut]
    obtain rfl : left = [] := length_eq_zero_iff.mp (by omega)
    have hk : g.kvLen + e.kept = e.gen.kvLen := by omega
    have hsteps := hem.steps
    simp only [Emit.focus, hk] at hsteps
    have hsettle : ∀ {drafting} h, GenSteps env cfg drafting ⟨h, _, [], _⟩ _ := fun h =>
      settleRound_steps next e.finish hready hem.remaining hem.kind hchosen
    refine ⟨hsteps.trans ((resyncDraft_steps _ e.gen step.draftKv _ _ _).trans (hsettle _)),
      fun base hbase hstep hcounted => ?_⟩
    rw [hstep]
    exact (resyncDraft_mark (hdkv.trans hbase) (hk.symm.trans (hfull hcounted))).steps (hsettle _) hready.live

theorem roundResult_fail {r : Host × ActiveGen} {message : String} (hr : RoundResult env cfg step f (r, some message)) :
    GenSteps env cfg true f (.of (failSeq env r.1 r.2 message) [] false) := by
  obtain ⟨hdone, hterm, hprefilled, -, hcause, e, k, ahead, rfl, hk, hsteps⟩ := hr
  refine .tail hsteps ?_
  by_cases hheld : r.2.held = []
  · exact .fail ⟨r.1, { r.2 with kvLen := k }, ahead, true⟩ r.2 _ hdone ⟨rfl, rfl, rfl, rfl⟩ rfl hheld hheld
      (fun _ => ⟨e, rfl⟩) (.inl hcause)
  · have hfail : failSeq env r.1 r.2 (trimError e) =
        (r.1, { r.2 with terminalAfterDrain := some (.error (trimError e)) }) := by
      simp [failSeq, hheld, hterm]
    rw [hfail]
    have hstep : GenStep env cfg true ⟨r.1, { r.2 with kvLen := k }, ahead, true⟩ _ :=
      .trimFailed _ e hheld hprefilled hterm rfl hcause
    simpa [Focus.of, ← hk] using hstep

theorem resetDraft_step (r : Host × ActiveGen) (a : List Token) (hit : Bool) :
    GenStep env cfg true (.of r a hit) (.of (r.1.resetDraft, r.2) a hit) :=
  .draft (.of r a hit) [] none rfl

/-- What `process_spec_step` leaves behind: the turn is over, or failing the generation
ends it. -/
def SpecResult (env : Env) (cfg : Cfg) (step : SpecStep) (f : Focus) : (Host × ActiveGen) × Option String → Prop
  | (r, none) => GenSteps env cfg true f (.of r [] false) ∧ Remarks step f.h f.g r
  | (r, some message) => r.2.done = false ∧ r.1.synced = none ∧
    GenSteps env cfg true f (.of (failSeq env r.1 r.2 message) [] false)

theorem specResult_of_round {x : (Host × ActiveGen) × Option String}
    (hx : RoundResult env cfg step f x) : SpecResult env cfg step f x := by
  obtain ⟨r, none | message⟩ := x
  · exact hx
  · exact ⟨hx.1, hx.2.2.2.1, roundResult_fail hx⟩

theorem specResult_head {x : (Host × ActiveGen) × Option String}
    (hf : GenSteps env cfg true f f') (hdraft : f'.h.draftKv = f.h.draftKv)
    (hgen : f'.g.kvLen = f.g.kvLen ∧ f'.g.stream = f.g.stream) (hx : SpecResult env cfg step f' x) :
    SpecResult env cfg step f x := by
  obtain ⟨r, none | message⟩ := x
  · refine ⟨hf.trans hx.1, fun base hbase hstep hcounted => hx.2 base (hdraft.trans hbase) hstep ?_⟩
    rw [hgen.1, hgen.2, hcounted]
  · exact ⟨hx.1, hx.2.1, hf.trans hx.2.2⟩

variable (logits : ℕ → List Cell)

/-- The rest of a round once the acceptance walk has been made and counted. -/
theorem processWalk_steps (step : SpecStep) (w : Walk) (pending : PendingTok) (hg : g.Ready) (hheld : g.held = [])
    (hw : WalkEnd env cfg (g.stream ++ [pending.tok]) step.drafts w.confirmed w)
    (hlast : logits (step.indexes.getD step.drafts.length 0) =
      layout (g.stream ++ [pending.tok] ++ step.drafts))
    (hlen : step.drafts.length < g.remaining) (hpos : 1 < g.remaining) :
    SpecResult env cfg step ⟨h, { g with pending := some pending }, pending.tok :: step.drafts, false⟩
      (processWalk env cfg logits step h g pending w) := by
  have hmap := hw.map
  have hmlen : w.confirmed.length ≤ step.drafts.length := by
    have := congrArg List.length hmap
    simp at this
    omega
  unfold processWalk
  split
  case h_1 message hrender =>
    obtain ⟨tok, htok⟩ := hw.render message hrender
    refine ⟨.tail (.single ?_) (resetDraft_step _ [] false), fun _ _ _ _ => .inl rfl⟩
    exact .fail _ g message hg.live ⟨rfl, rfl, rfl, rfl⟩ rfl hheld hheld (by simp) (.inl (.render tok message htok))
  case h_2 hrender =>
    have hwalk : ∀ {drafting} g, GenSteps env cfg drafting ⟨h, g, pending.tok :: step.drafts, false⟩ _ := fun g =>
      walkNext_steps logits step h w g (pending.tok :: step.drafts) false
    refine specResult_head (hwalk _) (GenSteps.draft_same (hwalk g)).1 ⟨rfl, rfl⟩ ?_
    have hnext := @walkNext_chosen env cfg logits step h w _ hw hrender hlast
    generalize walkNext env logits step h w = r at hnext
    obtain ⟨h', next⟩ := r
    simp only at hnext ⊢
    split
    case isTrue hlt =>
      cases hrm : env.seqRmFails h'.clock with
      | some e =>
        simp only [seqRm, hrm]
        refine ⟨hg.live, rfl, .head (.tick _) (.head (.draft _ [] none rfl) (.single ?_))⟩
        exact .fail _ g _ hg.live ⟨rfl, rfl, rfl, rfl⟩ rfl hheld hheld (by simp) (.inl (.removal _ e hrm))
      | none =>
        simp only [seqRm, hrm]
        have hroll : GenStep env cfg true
            ⟨h', { g with pending := some pending }, pending.tok :: step.drafts, false⟩ _ :=
          .rollback _ (1 + w.confirmed.length) hg.live (.inl (by omega))
        rw [Nat.add_comm 1, take_succ_cons, ← hmap, ← Nat.add_assoc, Nat.add_right_comm] at hroll
        refine specResult_head (.single hroll) rfl ⟨rfl, rfl⟩ (specResult_of_round ?_)
        exact finishRound_steps step pending w.confirmed next hg hw.accepted hnext (by omega) hpos
    case isFalse hge =>
      have hall : step.drafts = w.confirmed.map Prod.fst := by
        rw [hmap, take_of_length_le (by omega)]
      rw [hall]
      exact specResult_of_round
        (finishRound_steps step pending w.confirmed next hg hw.accepted hnext (by omega) hpos)

/-- The turn of the generation after a successful verify decode, **which leaves a true mark**. -/
theorem postSpec_steps (step : SpecStep) (h : Host) (g : ActiveGen)
    (pending : PendingTok) (hpending : g.pending = some pending) (hdone : g.done = false)
    (hsteppable : g.steppable = true) (hprefilled : g.prefilled = true)
    (hv : Verified env cfg logits step (g.stream ++ [pending.tok]))
    (hlen : step.drafts.length < g.remaining) (hpos : 1 < g.remaining) :
    GenSteps env cfg true ⟨h, g, pending.tok :: step.drafts, false⟩
        (.of ((postSpec env cfg logits step h g pending).1, (postSpec env cfg logits step h g pending).2.1) [] false) ∧
      Remarks step h g ((postSpec env cfg logits step h g pending).1, (postSpec env cfg logits step h g pending).2.1) := by
  obtain ⟨hheld, hterm⟩ := ActiveGen.steppable_iff.mp hsteppable
  have hwalk : ∀ {drafting}, GenSteps env cfg drafting ⟨h, g, pending.tok :: step.drafts, false⟩ _ :=
    acceptWalk_steps logits (step.drafts.zip step.indexes) h [] g _ false
  have hdkv := (@hwalk false).draft_same.1
  have hw := hv.walk h
  simp only [postSpec, processSpecStep]
  generalize acceptWalk env logits (step.drafts.zip step.indexes) h [] = r at hwalk hdkv hw ⊢
  obtain ⟨h₁, w⟩ := r
  simp only at hw hwalk hdkv ⊢
  have hnote : GenStep env cfg true ⟨h₁, g, pending.tok :: step.drafts, false⟩ _ :=
    .note _ g.stalledSince (g.drafted + step.drafts.length) (g.accepted + w.confirmed.length) false (.inl rfl)
  have hview : ∀ d a, ({ g with drafted := d, accepted := a, kvSuspect := g.kvSuspect || false } : ActiveGen) =
      { ({ g with pending := none, drafted := d, accepted := a } : ActiveGen) with
        pending := some pending } := by
    intro d a
    simp [hpending]
  simp only [hview] at hnote
  have hres := specResult_head (hwalk.tail hnote) hdkv ⟨rfl, rfl⟩
    (processWalk_steps (h := h₁) (g := { g with
        pending := none, drafted := g.drafted + step.drafts.length, accepted := g.accepted + w.confirmed.length })
      logits step w pending ⟨hdone, hterm, rfl, hprefilled⟩ hheld hw hv.last hlen hpos)
  generalize processWalk env cfg logits step h₁ _ pending w = x at hres ⊢
  obtain ⟨⟨h₂, g₂⟩, none | message⟩ := x
  · exact hres
  · obtain ⟨hlive, hnone, hsteps⟩ := hres
    replace hlive : g₂.done = false := hlive
    simp only [hlive, Bool.false_eq_true, if_false]
    -- a failed rollback resets the draft session before it fails the generation
    exact ⟨hsteps, fun _ _ _ _ => .inl ((failSeq_draft h₂ g₂ message).2.trans hnone)⟩

theorem postSpec_turns {h : Host} {g : ActiveGen} {p : PendingTok} {step : SpecStep}
    (hp : g.pending = some p) (hlive : g.done = false) (hel : specEligible g = true)
    (hbatch : step.batch = ((p.tok :: step.drafts).zipIdx g.kvLen).map (fun c => ⟨c.1, c.2, g.seq, true⟩))
    (hv : Verified env cfg logits step (g.stream ++ [p.tok]))
    (hlen : step.drafts.length ≤ g.remaining - 1) : Turns env cfg true ⟨h, [g], batchToks step.batch⟩
      ⟨(postSpec env cfg logits step h g p).1, [(postSpec env cfg logits step h g p).2.1], noAhead⟩ := by
  obtain ⟨hstep, hpre, hpos⟩ := specEligible_steps hel
  have hahead : batchToks step.batch g.seq = p.tok :: step.drafts := by
    rw [hbatch, spec_toks, if_pos rfl]
  have hsteps : GenSteps env cfg true ⟨h, g, batchToks step.batch g.seq, false⟩
      (.of ((postSpec env cfg logits step h g p).1, (postSpec env cfg logits step h g p).2.1) [] false) := by
    rw [hahead]
    exact (postSpec_steps logits step h g p hp hlive hstep hpre hv (by omega) hpos).1
  have hturn := Turn.mk [] g [] h (batchToks step.batch) _ hlive hsteps rfl
  have hnil : Function.update (batchToks step.batch) g.seq [] = noAhead := by
    funext q
    by_cases hq : q = g.seq
    · subst hq
      simp [noAhead]
    · rw [Function.update_of_ne hq, hbatch, spec_toks, if_neg (Ne.symm hq)]
      rfl
  simp only [Focus.of, hnil, nil_append] at hturn
  exact .single hturn

theorem DraftMark.sync {h' : Host} {ahead : List Token}
    (hd : DraftMark base h' f.g) (hs : GenSteps env cfg drafting ⟨h, g, ahead, false⟩ f)
    (hlive : f.g.done = false) (hbase : base <+: g.stream ++ ahead) : DraftSync h' f.g := by
  intro n hn
  rcases hd with hd | ⟨k, hk, hs', hkv, hlen⟩
  · simp [hd] at hn
  · rw [hs'] at hn
    simp only [Option.some.injEq, Prod.mk.injEq, true_and] at hn
    subst hn
    have hle := hlen hlive
    refine ⟨hle, ?_⟩
    have hstream : f.g.stream <+: g.stream ++ ahead :=
      (prefix_append _ _).trans (hs.stream hlive).2
    rw [hkv]
    congr 1
    rw [prefix_iff_eq_take.mp hbase, prefix_iff_eq_take.mp hstream, take_take, take_take]
    congr 1
    omega

end OneBrain.Engine
