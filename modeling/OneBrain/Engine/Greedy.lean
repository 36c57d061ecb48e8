import OneBrain.Engine.Stops
import OneBrain.Lib.Greedy

/-!
# Greedy runs

On a language model that always takes the same next token after the same history, what a
job is to receive is fixed by its request: `LanguageModel.answer` decodes it with the
decoder of `OneBrain.Lib.Greedy`. This module shows that every run gives every job that
answer, as far as it gives it anything: what a client was sent is the beginning of what the
answer shows, and a reported finish has the answer's counts and kind.

This holds for solo and distributed models, under any back-pressure, next to any other jobs
and in any mixture of plain steps and speculative rounds, with one condition on the draft: a
round confirms a draft the target chose too without asking whether it ends the target's
generation, so a token that ends the target's generation must end the draft's as well
(`DraftEnds`).

An active generation stands at a point of the decoding (`GenFollows`), and so does a job wherever it is
(`JobGreedy`); every run keeps every job to its answer (`run_greedy`).
-/

namespace OneBrain.Engine

open List OneBrain.Lib

/-- A deterministic language model. -/
structure LanguageModel where
  tokenize : Text → Except String (List Token)
  applyChatTemplate : List (Text × Text) → Except String (Option Text)
  next : List Token → Token
  isEog : Token → Bool
  piece : Token → Text

namespace LanguageModel

/-- An environment that serves the model, and in which no decode fails. -/
structure Runs (lm : LanguageModel) (env : Env) : Prop where
  tokenize : env.tokenize = lm.tokenize
  template : env.applyChatTemplate = lm.applyChatTemplate
  sample : ∀ t toks, env.sample t (layout toks) = lm.next toks
  isEog : env.isEog = lm.isEog
  piece : ∀ tok, env.tokenToPiece tok = .ok (lm.piece tok)
  decodes : ∀ t, env.decodeFails t = none

/-- The decoder of a model, with a stop list. -/
def decoder (lm : LanguageModel) (stop : List Text) : Decoder Token Text where
  next := lm.next
  isEog := lm.isEog
  piece := lm.piece
  stops pieces := decide (Contains stop pieces.flatten)

/-- The tokens of a prompt. -/
def promptTokens (lm : LanguageModel) : PromptInput → Except String (List Token)
  | .raw text => lm.tokenize text
  | .chat turns =>
    match lm.applyChatTemplate turns with
    | .ok (some rendered) => lm.tokenize rendered
    | .ok none => lm.tokenize (turns.flatMap fallbackTurn ++ "<|assistant|>\n".toList)
    | .error e => .error e

/-- What a prompt and a request are to give. -/
def answer (lm : LanguageModel) (prompt : List Token) (stop : List Text) (maxTokens : ℕ) : Outcome Token Text :=
  (lm.decoder stop).decode prompt maxTokens []

end LanguageModel

/-- The finish kind of an ending. -/
def endingKind : Ending → FinishKind
  | .length => .length
  | .stop => .stop

/-- A token that ends the target's generation ends the draft's. -/
def DraftEnds (env : Env) (cfg : Cfg) : Prop :=
  cfg.hasDraft = true → ∀ tok, env.isEog tok = true → env.draftIsEog tok = true

variable {env : Env} {cfg : Cfg} {drafting : Bool} {j : JobId} {lm : LanguageModel}

theorem LanguageModel.Runs.chosen (hm : lm.Runs env) {stream : List Token} {tok : Token}
    (h : Chosen env stream tok) : tok = lm.next stream := by
  obtain ⟨t, rfl⟩ := h
  exact hm.sample t stream

theorem LanguageModel.Runs.render (hm : lm.Runs env) (toks : List Token) :
    renderTokens env toks = .ok (toks.map lm.piece) := by
  induction toks with
  | nil => rfl
  | cons t ts ih => simp [renderTokens, hm.piece, ih]

/-! ### A generation -/

/-- The answer to the request of a generation. -/
def ActiveGen.answer (lm : LanguageModel) (g : ActiveGen) : Outcome Token Text :=
  lm.answer g.promptTokens g.job.stop g.job.maxTokens

/-- Where a generation stands in the decoding of its answer. -/
structure GenFollows (lm : LanguageModel) (g : ActiveGen) (hit : Bool) : Prop where
  /-- What it has generated is the beginning of the answer. -/
  begins : g.confirmed ++ g.sampled <+: (g.answer lm).tokens
  /-- While it goes on, decoding from here gives the answer. -/
  goes : hit = false → g.terminalAfterDrain = none →
    (lm.decoder g.job.stop).decode g.promptTokens g.remaining g.confirmed = g.answer lm
  /-- A sampled token is the next one, and ends nothing. -/
  pending : g.terminalAfterDrain = none → ∀ p, g.pending = some p →
    p.tok = lm.next (g.promptTokens ++ g.confirmed) ∧ lm.isEog p.tok = false
  /-- After a stop match the answer is complete. -/
  stopped : hit = true → (g.answer lm).tokens = g.confirmed ∧ (g.answer lm).ending = .stop
  /-- A finish that waits is that of the answer. -/
  waits : ∀ kind, g.terminalAfterDrain = some (.finish kind) →
    (g.answer lm).tokens = g.confirmed ∧ endingKind (g.answer lm).ending = kind

namespace GenFollows

variable {g g' : ActiveGen} {hit : Bool}

theorem same (hf : GenFollows lm g hit) (hjob : g'.job = g.job) (hprompt : g'.promptTokens = g.promptTokens)
    (hconf : g'.confirmed = g.confirmed) (hpending : g'.pending = g.pending)
    (hremaining : g'.remaining = g.remaining) (hterm : g'.terminalAfterDrain = g.terminalAfterDrain) :
    GenFollows lm g' hit := by
  have hanswer : g'.answer lm = g.answer lm := by simp only [ActiveGen.answer, hjob, hprompt]
  have hsampled : g'.sampled = g.sampled := by simp [ActiveGen.sampled, hpending]
  refine ⟨?_, ?_, ?_, ?_, ?_⟩
  · rw [hconf, hsampled, hanswer]
    exact hf.begins
  · rw [hterm, hjob, hprompt, hremaining, hconf, hanswer]
    exact hf.goes
  · rw [hterm, hpending, hprompt, hconf]
    exact hf.pending
  · rw [hanswer, hconf]
    exact hf.stopped
  · rw [hterm, hanswer, hconf]
    exact hf.waits

/-- The generation after one more token was confirmed. -/
structure Confirmed (g g' : ActiveGen) (tok : Token) : Prop where
  job : g'.job = g.job
  prompt : g'.promptTokens = g.promptTokens
  tokens : g'.confirmed = g.confirmed ++ [tok]
  remaining : g'.remaining = g.remaining - 1
  pending : g'.pending = none
  term : g'.terminalAfterDrain = none

/-- The next token is confirmed: a step of the decoder, or its end when the token completes a stop match. -/
theorem confirmed (hf : GenFollows lm g false) {tok : Token} (hg : Confirmed g g' tok)
    (hterm : g.terminalAfterDrain = none) (hpos : 0 < g.remaining)
    (hnext : tok = lm.next (g.promptTokens ++ g.confirmed) ∧ lm.isEog tok = false)
    (hstop : hit = true ↔ Contains g.job.stop ((g.confirmed ++ [tok]).map lm.piece).flatten) :
    GenFollows lm g' hit := by
  obtain ⟨htok, heog⟩ := hnext
  have hanswer : g'.answer lm = g.answer lm := by simp only [ActiveGen.answer, hg.job, hg.prompt]
  have hsampled : g'.sampled = [] := by simp [ActiveGen.sampled, hg.pending]
  have hgoes := hf.goes rfl hterm
  refine ⟨?_, ?_, ?_, ?_, ?_⟩
  · rw [hsampled, append_nil, hg.tokens, hanswer, ← hgoes]
    exact Decoder.snoc_prefix_decode hpos htok heog
  · rintro rfl _
    rw [hg.job, hg.prompt, hg.remaining, hg.tokens, hanswer, ← hgoes]
    exact (Decoder.decode_more hpos htok heog (decide_eq_false (hstop.not.mp (by decide)))).symm
  · intro _ p hp
    rw [hg.pending] at hp
    cases hp
  · rintro rfl
    rw [hanswer, hg.tokens, ← hgoes, Decoder.decode_stop hpos htok heog (decide_eq_true (hstop.mp rfl))]
    exact ⟨rfl, rfl⟩
  · intro kind hkind
    rw [hg.term] at hkind
    cases hkind

theorem decided {f : Focus} (hm : lm.Runs env) (hf : GenFollows lm f.g f.hit) (hok : ∃ h, GenOk cfg h f.g f.ahead)
    {kind : FinishKind} (hterm : f.g.terminalAfterDrain = none) (hhit : f.hit = true → kind = .stop)
    (hdecided : Decided env f kind) :
    (f.g.answer lm).tokens = f.g.confirmed ∧ endingKind (f.g.answer lm).ending = kind := by
  cases hflag : f.hit with
  | true =>
    obtain ⟨htokens, hending⟩ := hf.stopped hflag
    rw [hhit hflag, hending]
    exact ⟨htokens, rfl⟩
  | false =>
    have hgoes := hf.goes hflag hterm
    rcases hdecided with h | ⟨rfl, hzero⟩ | ⟨rfl, hpos, tok, hchosen, heog⟩
    · rw [hflag] at h
      cases h
    · rw [← hgoes, hzero]
      exact ⟨rfl, rfl⟩
    · obtain ⟨h, hok⟩ := hok
      have htok : tok = lm.next (f.g.promptTokens ++ f.g.confirmed) := by
        have hstream : f.g.stream = f.g.promptTokens ++ f.g.confirmed := by
          simp [ActiveGen.stream, ActiveGen.confirmed, hok.prefix_eq]
        rw [← hstream]
        exact hm.chosen hchosen
      rw [hm.isEog] at heog
      rw [← hgoes, Decoder.decode_eog hpos htok heog]
      exact ⟨rfl, rfl⟩

theorem source (hf : GenFollows lm g hit) (hm : lm.Runs env) (hdraft : DraftEnds env cfg)
    (hok : ∃ h a, GenOk cfg h g a) (hterm : g.terminalAfterDrain = none) {tok : Token} {piece : Text}
    (hsource : FeedSource env cfg g tok piece) :
    tok = lm.next (g.promptTokens ++ g.confirmed) ∧ lm.isEog tok = false := by
  rcases hsource with hpend | ⟨-, hacc⟩
  · exact hf.pending hterm _ hpend
  · obtain ⟨h, a, hok⟩ := hok
    have hstream : g.stream = g.promptTokens ++ g.confirmed := by
      simp [ActiveGen.stream, ActiveGen.confirmed, hok.prefix_eq]
    refine ⟨hstream ▸ hm.chosen hacc.chosen, ?_⟩
    rw [← hm.isEog]
    cases heog : env.isEog tok with
    | false => rfl
    | true =>
      have hends := hdraft hacc.hasDraft tok heog
      rw [hacc.eog] at hends
      cases hends

theorem stage (hf : GenFollows lm g false) {p : PendingTok} (hjob : g'.job = g.job)
    (hprompt : g'.promptTokens = g.promptTokens) (hconf : g'.confirmed = g.confirmed)
    (hremaining : g'.remaining = g.remaining) (hpending : g'.pending = some p)
    (hterm : g.terminalAfterDrain = none) (hterm' : g'.terminalAfterDrain = none) (hpos : 0 < g.remaining)
    (htok : p.tok = lm.next (g.promptTokens ++ g.confirmed)) (heog : lm.isEog p.tok = false) :
    GenFollows lm g' false := by
  have hanswer : g'.answer lm = g.answer lm := by simp only [ActiveGen.answer, hjob, hprompt]
  have hgoes := hf.goes rfl hterm
  refine ⟨?_, ?_, ?_, fun h => (by cases h), ?_⟩
  · have hnext : g.confirmed ++ [p.tok] <+: (g.answer lm).tokens := by
      rw [← hgoes]
      exact Decoder.snoc_prefix_decode hpos htok heog
    rw [hconf, hanswer]
    cases p with
    | sent tok =>
      have hsampled : g'.sampled = [tok] := by simp [ActiveGen.sampled, hpending]
      rw [hsampled]
      exact hnext
    | unsent =>
      have hsampled : g'.sampled = [] := by simp [ActiveGen.sampled, hpending]
      rw [hsampled, append_nil]
      exact (prefix_append _ _).trans hnext
  · intro _ _
    rw [hjob, hprompt, hremaining, hconf, hanswer]
    exact hgoes
  · intro _ q hq
    rw [hpending] at hq
    cases hq
    rw [hprompt, hconf]
    exact ⟨htok, heog⟩
  · intro kind hkind
    rw [hterm'] at hkind
    cases hkind

theorem stagePending_fields (distributed : Bool) (h : Host) (g : ActiveGen) (tok : Token) (piece : Text) :
    ∃ p, (stagePending env distributed h g tok piece).2.pending = some p ∧ p.tok = tok := by
  unfold stagePending
  split
  · exact ⟨_, rfl, rfl⟩
  · exact ⟨_, rfl, rfl⟩

/-- **Every move is a step of the decoder**, or none. -/
theorem step {f f' : Focus} (hs : GenStep env cfg drafting f f') (hm : lm.Runs env) (hdraft : DraftEnds env cfg)
    (hopen : env.closed f.g.job.id f.h.clock = false) (hlive' : f'.g.done = false)
    (hok : ∃ h, GenOk cfg h f.g f.ahead) {texts : List Text}
    (hp : GenPieces env cfg (f.h.chans f.g.job.id) (f.h.decoded f.g.job.id) f.g f.ahead f.hit texts)
    (hclean : ¬ Contains f.g.job.stop (sentPieces (f.h.chans f.g.job.id) ++ f.g.held).flatten)
    (hf : GenFollows lm f.g f.hit) : GenFollows lm f'.g f'.hit := by
  obtain ⟨h₀, hok₀⟩ := hok
  have htexts : texts = (f.g.confirmed ++ f.g.sampled).map lm.piece :=
    Except.ok.inj (hp.render.symm.trans (hm.render _))
  -- the budget covers what the last decode ran ahead
  have hpos : ∀ {tok rest}, f.ahead = tok :: rest → f.g.prefilled = true → 0 < f.g.remaining := by
    intro tok rest hahead hpre
    have hle := hok₀.ahead_le hpre
    rw [hahead, length_cons] at hle
    omega
  -- the piece of a token that is fed goes through the scanner
  have hfed {tok : Token} {piece : Text} {rest : List Token} {g' : ActiveGen} {hit : Bool}
      (hahead : f.ahead = tok :: rest) (hsource : FeedSource env cfg f.g tok piece) (hpre : f.g.prefilled = true)
      (hterm : f.g.terminalAfterDrain = none) (hhit : f.hit = false)
      (hg : 0 < f.g.remaining → Confirmed f.g g' tok)
      (hstop : ¬ Contains f.g.job.stop texts.flatten → (hit = true ↔ Contains f.g.job.stop (texts.flatten ++ piece))) :
      GenFollows lm g' hit := by
    obtain ⟨hpiece, hsampled, hpending⟩ := hp.source hsource
    have hpiece : lm.piece tok = piece := Except.ok.inj ((hm.piece tok).symm.trans hpiece)
    have hnext := hf.source hm hdraft ⟨h₀, _, hok₀⟩ hterm hsource
    rw [hp.all hhit hterm hpending] at hclean
    rw [hsampled, append_nil] at htexts
    rw [hhit] at hf
    refine hf.confirmed (hg (hpos hahead hpre)) hterm (hpos hahead hpre) hnext ?_
    rw [map_append, ← htexts, flatten_append]
    simpa [hpiece] using hstop hclean
  cases hs with
  | tick | draft => exact hf
  | note | heldSent | prefill | rollback => exact hf.same rfl rfl rfl rfl rfl rfl
  | heldDropped _ _ _ hclosed | cancel _ _ _ hclosed =>
    rw [hopen] at hclosed
    cases hclosed
  | finish | fail | reap => simp [Focus.of, cancelSeq_eq, *] at hlive'
  | deferError =>
    exact ⟨hf.begins, fun _ h => (by cases h), fun h => (by cases h), hf.stopped, fun _ h => (by cases h)⟩
  | trimFailed =>
    exact ⟨hf.begins, fun _ h => (by cases h), fun h => (by cases h), fun h => (by cases h), fun _ h => (by cases h)⟩
  | deferFinish kind hheld hahead hterm hpending hhit hdecided =>
    have hend := hf.decided hm ⟨h₀, hok₀⟩ hterm hhit hdecided
    refine ⟨hf.begins, fun _ h => (by cases h), fun h => (by cases h), fun h => (by cases h), ?_⟩
    intro kind' hkind
    cases hkind
    exact hend
  | confirm tok admitted rest hahead hpending hterm hhit =>
    have hpre : f.g.prefilled = true := by
      by_contra hne
      rw [(hok₀.unprefilled (by simpa using hne)).2] at hpending
      cases hpending
    have hpos := hpos hahead hpre
    rw [hhit] at hf hp
    have hsampled : f.g.sampled = [tok] := by simp [ActiveGen.sampled, hpending]
    rw [hsampled] at htexts
    have hg : Confirmed f.g (f.g.confirm tok) tok :=
      ⟨rfl, rfl, GenPieces.confirm_confirmed f.g tok, usizeSub_of_le hpos, rfl, hterm⟩
    refine hf.confirmed hg hterm hpos (hf.pending hterm _ hpending) ?_
    rw [← htexts]
    cases admitted with
    | true =>
      rw [← hp.all rfl hterm (by simp [hpending])]
      simpa using hclean
    | false =>
      cases hp.order with
      | all heq hhit hpend => exact absurd hpending (hpend tok)
      | withheld last heq hstop => simpa using hstop
  | feed tok piece rest scan hdone hahead hsource hprefilled hscan hterm hhit =>
    refine hfed hahead hsource hprefilled hterm hhit (fun hpos => ?_) fun hclean => ?_
    · simp only [Focus.of]
      rw [deliverPiece_eq]
      exact ⟨rfl, rfl, GenPieces.confirm_confirmed f.g tok, usizeSub_of_le hpos, rfl, hterm⟩
    · simpa [Focus.of] using (hp.scan.admits hscan).2 hclean
  | reject tok piece rest scan hahead hsource hprefilled hscan hterm hhit =>
    refine hfed hahead hsource hprefilled hterm hhit (fun hpos => ?_) fun _ => ?_
    · exact ⟨rfl, rfl, GenPieces.confirm_confirmed f.g tok, usizeSub_of_le hpos, rfl, hterm⟩
    · simpa using (hp.scan.reject hscan).2
  | stage tok piece hdone hahead hpending hterm hhit heog hpiece hremaining hprefilled hchosen =>
    rw [hhit] at hf
    have hstream : f.g.stream = f.g.promptTokens ++ f.g.confirmed := by
      simp [ActiveGen.stream, ActiveGen.confirmed, hok₀.prefix_eq]
    have htok : tok = lm.next (f.g.promptTokens ++ f.g.confirmed) := hstream ▸ hm.chosen hchosen
    rw [hm.isEog] at heog
    obtain ⟨p, hp', rfl⟩ := @stagePending_fields env cfg.distributed f.h f.g tok piece
    obtain ⟨_, _, _, _, _, heq⟩ := @stagePending_eq env cfg.distributed f.h f.g p.tok piece
    simp only [Focus.of]
    refine hf.stage ?_ ?_ ?_ ?_ hp' hterm ?_ hremaining htok heog
    all_goals rw [heq]
    · rfl
    · exact hterm

end GenFollows

/-! ### A job -/

theorem LanguageModel.Runs.promptTokens (hm : lm.Runs env) {prompt : PromptInput} {text : Text} {toks : List Token}
    (hrender : renderPrompt env prompt = .ok text) (htoks : env.tokenize text = .ok toks) :
    lm.promptTokens prompt = .ok toks := by
  rw [hm.tokenize] at htoks
  cases prompt with
  | raw =>
    cases hrender
    exact htoks
  | chat turns =>
    simp only [renderPrompt, hm.template] at hrender
    cases h : lm.applyChatTemplate turns with
    | error =>
      rw [h] at hrender
      cases hrender
    | ok rendered =>
      rw [h] at hrender
      cases rendered with
      | none | some =>
        cases hrender
        simp only [LanguageModel.promptTokens, h]
        exact htoks

/-- Where a job stands in the decoding of its answer. -/
def Place.Greedy (env : Env) (lm : LanguageModel) (job : GenerateJob) : Place → Prop
  | .mailed sup => sup.resume = none
  | .queued p =>
    lm.promptTokens job.prompt = .ok p.promptTokens ∧ p.priorGenerated = [] ∧ p.finish = none ∧
      p.remaining = job.maxTokens ∧ 0 < p.remaining
  | .active cfg g _ hit => lm.promptTokens job.prompt = .ok g.promptTokens ∧ GenFollows lm g hit ∧ DraftEnds env cfg
  | .interrupted _ => False
  | .ended => True

/-- A finish reports the answer, and the client was sent all it shows. -/
structure Answered (lm : LanguageModel) (job : GenerateJob) (sent : List Text) (stats : DoneStats)
    (toks : List Token) : Prop where
  prompt : lm.promptTokens job.prompt = .ok toks
  sent : sent = (lm.answer toks job.stop job.maxTokens).sent
  promptTokens : stats.promptTokens = toks.length
  completionTokens : stats.completionTokens = (lm.answer toks job.stop job.maxTokens).tokens.length
  finish : stats.finish = endingKind (lm.answer toks job.stop job.maxTokens).ending

/-- The pieces the decoder shows. -/
def LanguageModel.reply (lm : LanguageModel) (job : GenerateJob) : List Text :=
  match lm.promptTokens job.prompt with
  | .ok toks => (lm.answer toks job.stop job.maxTokens).sent
  | .error _ => []

/-- A job that is given its answer. -/
structure JobGreedy (env : Env) (lm : LanguageModel) (job : GenerateJob) (v : JobView) : Prop where
  place : v.place.Greedy env lm job
  /-- What its client was sent is the beginning of what the answer shows. -/
  sent : sentPieces v.chan <+: lm.reply job
  done : ∀ stats, .done stats ∈ v.chan ++ v.parked → ∃ toks, Answered lm job (sentPieces v.chan) stats toks

namespace LanguageModel

/-- What is shown of an answer is decided by its tokens. -/
theorem answer_sent (prompt : List Token) (stop : List Text) (maxTokens : ℕ) :
    (lm.answer prompt stop maxTokens).sent =
      (lm.decoder stop).shown ((lm.answer prompt stop maxTokens).tokens.map lm.piece) :=
  Decoder.decode_sent (decide_eq_false (not_contains_nil stop))

theorem prefix_answer {prompt toks : List Token} {stop sent : List Text} {maxTokens : ℕ}
    (hbegins : toks <+: (lm.answer prompt stop maxTokens).tokens) (hsent : sent <+: toks.map lm.piece)
    (hclean : ¬ Contains stop sent.flatten) : sent <+: (lm.answer prompt stop maxTokens).sent := by
  rw [answer_sent]
  exact Decoder.prefix_shown (hsent.trans (hbegins.map lm.piece)) (decide_eq_false hclean)

end LanguageModel

theorem GenFollows.sent {g : ActiveGen} {ahead : List Token} {hit : Bool} {chan : List TokenEvent}
    {decoded : List Cell} {texts : List Text} (hm : lm.Runs env) (hf : GenFollows lm g hit)
    (hp : GenPieces env cfg chan decoded g ahead hit texts) (hclean : ¬ Contains g.job.stop (sentPieces chan).flatten) :
    sentPieces chan <+: (g.answer lm).sent := by
  have htexts : texts = (g.confirmed ++ g.sampled).map lm.piece :=
    Except.ok.inj (hp.render.symm.trans (hm.render _))
  refine LanguageModel.prefix_answer hf.begins ?_ hclean
  rw [← htexts]
  cases hp.order with
  | all heq => exact ⟨g.held, heq⟩
  | withheld last heq => exact ⟨g.held ++ [last], by rw [← heq, append_assoc]⟩

theorem GenFollows.answered {f : Focus} {chan : List TokenEvent} {decoded : List Cell} {texts : List Text}
    (hm : lm.Runs env) (hf : GenFollows lm f.g f.hit) (hok : ∃ h, GenOk cfg h f.g f.ahead)
    (hp : GenPieces env cfg chan decoded f.g f.ahead f.hit texts)
    (hclean : ¬ Contains f.g.job.stop (sentPieces chan ++ f.g.held).flatten) (hsettled : FinishSettled f.g)
    (hprompt : lm.promptTokens f.g.job.prompt = .ok f.g.promptTokens) {kind : FinishKind}
    (hfin : GenFinish env f kind) (hheld : f.g.held = []) :
    Answered lm f.g.job (sentPieces chan) (doneStats f.g kind) f.g.promptTokens := by
  have hsampled : f.g.sampled = [] := by simp [ActiveGen.sampled, hfin.pending hsettled]
  obtain ⟨htokens, hending⟩ : (f.g.answer lm).tokens = f.g.confirmed ∧ endingKind (f.g.answer lm).ending = kind := by
    rcases hfin.term with ⟨hnone, -⟩ | ⟨hlater, -⟩
    · exact hf.decided hm hok hnone hfin.hit (hfin.decided hnone)
    · exact hf.waits kind hlater
  have htexts : texts = f.g.confirmed.map lm.piece := by
    have hrender := hp.render
    rw [hsampled, append_nil] at hrender
    exact Except.ok.inj (hrender.symm.trans (hm.render _))
  refine ⟨hprompt, ?_, rfl, ?_, hending.symm⟩
  · have hshown : (f.g.answer lm).sent = (lm.decoder f.g.job.stop).shown texts := by
      rw [htexts, ← htokens]
      exact LanguageModel.answer_sent _ _ _
    refine Eq.trans ?_ hshown.symm
    unfold Decoder.shown
    cases hp.order with
    | all heq =>
      rw [heq] at hclean
      rw [hheld, append_nil] at heq
      rw [if_neg (by simpa [LanguageModel.decoder] using hclean), heq]
    | withheld last heq hstop =>
      rw [hheld, append_nil] at heq
      have hstops : (lm.decoder f.g.job.stop).stops texts = true := decide_eq_true hstop
      rw [if_pos hstops, ← heq, dropLast_concat]
  · have hlength : (f.g.answer lm).tokens.length = f.g.confirmed.length := congrArg List.length htokens
    simpa [doneStats, ActiveGen.confirmed, ActiveGen.answer] using hlength.symm

theorem GenStep.promptTokens {f f' : Focus} (hs : GenStep env cfg drafting f f') (hlive' : f'.g.done = false) :
    f'.g.promptTokens = f.g.promptTokens := by
  cases hs with
  | finish | fail | cancel | reap => simp [Focus.of, cancelSeq_eq, *] at hlive'
  | feed tok piece rest scan =>
    have hdeliver := @deliverPiece_eq env f.h { f.g.confirm tok with scan := scan } piece
    exact (congrArg ActiveGen.promptTokens hdeliver).trans rfl
  | stage tok piece =>
    obtain ⟨_, _, _, _, _, heq⟩ := @stagePending_eq env cfg.distributed f.h f.g tok piece
    exact (congrArg ActiveGen.promptTokens heq).trans rfl
  | _ => rfl

namespace JobGreedy

variable {allow : Allow} {job : GenerateJob} {v v' : JobView}

theorem prepared (hm : lm.Runs env) {sup : SupervisedGenerate} {p : PreparedGen} (hresume : sup.resume = none)
    (hjob : sup.job = job) (hprep : prepareState env cfg sup.job sup.resume = .ok p)
    (hopen : settledFinish p = none) : (Place.queued p).Greedy env lm job := by
  subst hjob
  rw [hresume] at hprep
  obtain ⟨text, toks, hrender, htoks, -, -, rfl⟩ := prepareState_fresh hprep
  refine ⟨hm.promptTokens hrender htoks, rfl, rfl, rfl, ?_⟩
  simp only [settledFinish, if_true] at hopen
  split at hopen
  · cases hopen
  · exact Nat.pos_of_ne_zero ‹_›

theorem endsWith (hm : lm.Runs env) (hplace : v.place.Greedy env lm job) (hwithin : v.place.Within job)
    (hpieces : v.place.Pieces env v.chan v.decoded) {stats : DoneStats}
    (hev : EndsWith env v.place (.done stats)) : ∃ toks, Answered lm job (sentPieces v.chan) stats toks := by
  generalize v.place = place at hplace hwithin hpieces hev
  cases hev with
  | settled sup cfg p kind hprep hkind =>
    obtain ⟨pjob, resume⟩ := sup
    obtain rfl : resume = none := hplace
    obtain rfl : pjob = job := hwithin.1
    obtain ⟨text, toks, hrender, htoks, -, -, rfl⟩ := prepareState_fresh hprep
    have hzero : pjob.maxTokens = 0 ∧ kind = .length := by
      simp only [settledFinish, if_true] at hkind
      split at hkind
      · exact ⟨‹_›, (Option.some.inj hkind).symm⟩
      · cases hkind
    obtain ⟨hmax, rfl⟩ := hzero
    have hsent : sentPieces v.chan = [] := hpieces
    refine ⟨toks, hm.promptTokens hrender htoks, ?_, rfl, ?_, ?_⟩
    · rw [hsent, hmax]
      rfl
    · rw [hmax]
      simp [preparedStats, LanguageModel.answer, Decoder.decode]
    · rw [hmax]
      rfl

theorem admitted {p : PreparedGen} {seq : SeqId} {reused uid : ℕ} (hq : (Place.queued p).Greedy env lm job)
    (hjob : p.job = job) (hdraft : DraftEnds env cfg) :
    (Place.active cfg (admitGen p seq reused uid) [] false).Greedy env lm job := by
  subst hjob
  obtain ⟨hprompt, hprior, hfinish, hremaining, hpos⟩ := hq
  have hconf : (admitGen p seq reused uid).confirmed = [] := by simp [ActiveGen.confirmed, admitGen, hprior]
  have hsampled : (admitGen p seq reused uid).sampled = [] := rfl
  have hterm : (admitGen p seq reused uid).terminalAfterDrain = none := by
    simp only [admitGen, hfinish]
    exact if_neg (by omega)
  refine ⟨hprompt, ⟨?_, fun _ _ => ?_, fun _ p hp => (by cases hp), fun h => (by cases h), fun kind h => ?_⟩, hdraft⟩
  · rw [hconf, hsampled]
    exact nil_prefix
  · rw [hconf]
    show (lm.decoder p.job.stop).decode p.promptTokens p.remaining [] = _
    rw [hremaining]
    rfl
  · rw [hterm] at h
    cases h

theorem place_step (hm : lm.Runs env) (hopen : env.closed j v.clock = false) (hs : JobStep env j allow v v')
    (hmodel : ∀ cfg, allow.model cfg → DraftEnds env cfg) (hwithin : v.place.Within job) (hp : JobPieces env v)
    (hclean : v.place.Clean env job.stop v.chan) (hplaced : v.place.Greedy env lm job) :
    v'.place.Greedy env lm job := by
  have hpieces := hp.pieces
  cases hs with
  | wait => exact hplaced
  | prepared _ sup cfg p hplace hprep hopen' =>
    rw [hplace] at hplaced hwithin
    exact prepared hm hplaced hwithin.1 hprep hopen'
  | endSent | endParked | endLost | gone => trivial
  | admitted _ cfg p seq reused uid hplace hallow =>
    rw [hplace] at hplaced hwithin
    exact admitted hplaced hwithin.1 (hmodel cfg hallow)
  | decoded _ cfg g toks hplace =>
    rw [hplace] at hplaced
    exact hplaced
  | gen cfg drafting f f' hid hlive hok hstep =>
    subst hid
    obtain rfl : f.g.job = job := hwithin
    obtain ⟨texts, hg⟩ := hpieces
    obtain ⟨hprompt, hfollows, hdraft⟩ := hplaced
    cases hdone : f'.g.done with
    | true => simp [Focus.place, hdone, Host.view, Place.Greedy]
    | false =>
      simp only [Focus.place, hdone, Host.view]
      refine ⟨?_, hfollows.step hstep hm hdraft hopen hdone hok hg hclean.1, hdraft⟩
      rw [hstep.promptTokens hdone]
      exact hprompt
  | interrupted _ cfg g message hplace hdist hok hallow hfail =>
    obtain ⟨t, hfail⟩ := hfail
    rw [hm.decodes t] at hfail
    cases hfail
  | reissued _ gen hplace =>
    rw [hplace] at hplaced
    exact hplaced.elim
  | retrySent _ pre post ev hparked | retryGone _ pre post ev hparked =>
    by_cases hplace : v.place = .ended
    · rw [hplace]
      trivial
    · simp [(hp.running hplace).2] at hparked
  | dropped => exact hplaced

/-- **Every step of a job** whose client stays gives it its answer. -/
theorem step (hm : lm.Runs env) (hopen : env.closed j v.clock = false) (hs : JobStep env j allow v v')
    (hmodel : ∀ cfg, allow.model cfg → DraftEnds env cfg) (hwithin : v.place.Within job)
    (hwithin' : v'.place.Within job) (hp : JobPieces env v) (hp' : JobPieces env v') (hstops : JobStops env job.stop v)
    (hstops' : JobStops env job.stop v') (hv : JobGreedy env lm job v) : JobGreedy env lm job v' := by
  have hplaced := hv.place
  have hclean := hstops.place
  have hpieces := hp.pieces
  have hplaced' := place_step hm hopen hs hmodel hwithin hp hclean hplaced
  have hreports : Reported (fun _ sent _ ev => ∀ stats, ev = .done stats → ∃ toks, Answered lm job sent stats toks) v :=
    ⟨hstops.ended.parked, fun ev hmem hev => (hstops.ended.ends ev hmem hev).imp fun _ he =>
      ⟨he.1, fun stats heq => hv.done stats (heq ▸ hmem)⟩⟩
  obtain ⟨hreports', hsent⟩ := hreports.step hopen hs hp.running
    (fun ev _ hev _ stats heq => endsWith hm hplaced hwithin hpieces (heq ▸ hev))
    (fun cfg f ev hview hok hheld hev stats heq => by
      subst hview heq
      obtain rfl : f.g.job = job := hwithin
      obtain ⟨texts, hg⟩ := hpieces
      cases hev with
      | done kind hfin =>
        exact ⟨_, hplaced.2.1.answered hm hok hg hclean.1 hclean.2 hplaced.1 hfin hheld⟩)
  refine ⟨hplaced', ?_, fun stats hmem => ?_⟩
  rotate_left
  · obtain ⟨-, -, hdone⟩ := hreports'.ends _ hmem rfl
    exact hdone stats rfl
  rcases hsent with heq | ⟨cfg, g, ahead, hit, hplace⟩
  · rw [heq]
    exact hv.sent
  · have hpieces' := hp'.pieces
    rw [hplace] at hplaced' hpieces' hwithin'
    obtain rfl : g.job = job := hwithin'
    obtain ⟨texts, hg⟩ := hpieces'
    simp only [LanguageModel.reply, hplaced'.1]
    exact hplaced'.2.1.sent hm hg hstops'.sent

theorem fresh (r : Request) : JobGreedy env lm (r.toJob j) (freshJob j r) :=
  ⟨rfl, nil_prefix, by simp [freshJob]⟩

end JobGreedy

/-! ### Runs -/

/-- A job and what holds of it along its steps. -/
structure JobFollows (env : Env) (lm : LanguageModel) (job : GenerateJob) (v : JobView) : Prop where
  within : JobWithin job v
  pieces : JobPieces env v
  stops : JobStops env job.stop v
  greedy : JobGreedy env lm job v

theorem jobFollows_steps {allow : Allow} {r : Request} {v : JobView} (hm : lm.Runs env)
    (hopen : env.closed j v.clock = false) (hmodel : ∀ cfg, allow.model cfg → DraftEnds env cfg)
    (hs : JobSteps env j allow (freshJob j r) v) : JobFollows env lm (r.toJob j) v := by
  refine hs.induct_open (P := JobFollows env lm (r.toJob j)) (fun v v' hopen hv hstep => ?_) hopen ?_
  · have hwithin := hv.within.step hstep
    have hpieces := hv.pieces.step hopen hstep
    have hstops : JobStops env (r.toJob j).stop v' := by
      refine hv.stops.step hopen hstep (fun g _ hfail => ?_) hv.within.place hv.pieces
      obtain ⟨t, e, hfail⟩ := hfail
      rw [hm.decodes t] at hfail
      cases hfail
    exact ⟨hwithin, hpieces, hstops,
      hv.greedy.step hm hopen hstep hmodel hv.within.place hwithin.place hv.pieces hpieces hv.stops hstops⟩
  · exact ⟨⟨⟨rfl, by simp⟩, by simp [freshJob]⟩, .fresh j r, .fresh r, .fresh r⟩

/-- Every job is given its answer, whatever is served. -/
def answering (env : Env) : JobId → Allow := fun _ => ⟨True, fun _ => True, DraftEnds env⟩

/-- **Every run gives every job its answer**: what the client of an open channel was sent is the beginning
of what the answer shows, and a finish comes after all of it, with the answer's kind and counts. -/
theorem run_greedy {labels : List Label} {r : Request} (hm : lm.Runs env)
    (hl : ∀ cfg, .control (.load (some cfg)) ∈ labels → DraftEnds env cfg) (hr : (requests labels)[j]? = some r)
    (hopen : env.closed j (run env Sys.init labels).loop.host.clock = false) :
    ∃ p, JobFollows env lm (r.toJob j) ((run env Sys.init labels).view j p) := by
  obtain ⟨p, hsteps⟩ := run_job (show RunAllowed env (answering env) labels from runAllowed_of_loads hl) hr
  exact ⟨p, jobFollows_steps hm hopen (fun _ h => h) hsteps⟩

end OneBrain.Engine
