import OneBrain.Engine.Capacity
import OneBrain.Engine.Pieces

/-!
# Stop strings

No client is sent a text that contains one of its stop strings, and a job whose generated
text contains one finishes as stopped, in every run in which no distributed decode fails
between such a match and the end of its job.

The condition is needed. A generation that matched a stop string while its client was
behind waits with the match behind its backlog; when a decode of another generation
fails in that moment it is interrupted, and the next attempt renders every confirmed
token that was not sent, the withheld one included. The run at the end of the module does
this.
-/

namespace OneBrain.Engine

open List OneBrain.Lib

variable {env : Env} {cfg : Cfg} {drafting : Bool} {j : JobId} {allow : Allow} {job : GenerateJob}

/-! ### Moves -/

theorem GenStep.sentHeld {f f' : Focus} (hs : GenStep env cfg drafting f f')
    (hopen : env.closed f.g.job.id f.h.clock = false) (hlive' : f'.g.done = false) :
    sentPieces (f'.h.chans f.g.job.id) ++ f'.g.held = sentPieces (f.h.chans f.g.job.id) ++ f.g.held ∨
    ∃ piece scan, f.g.scan.admitPiece piece = (scan, true) ∧ f.hit = false ∧ f.g.terminalAfterDrain = none ∧
      (∀ tok, f.g.pending ≠ some (.sent tok false)) ∧ sentPieces (f'.h.chans f.g.job.id) ++ f'.g.held =
        sentPieces (f.h.chans f.g.job.id) ++ f.g.held ++ [piece] := by
  cases hs with
  | tick | draft | note | deferError | trimFailed | deferFinish | confirm | reject | prefill | rollback =>
    exact .inl rfl
  | heldSent piece rest hdone hheld =>
    refine .inl ?_
    simp [Host.accept, sentPieces_token, hheld]
  | heldDropped _ _ _ hclosed | cancel _ _ _ hclosed =>
    rw [hopen] at hclosed
    cases hclosed
  | finish | fail | reap => simp [Focus.of, cancelSeq_eq, *] at hlive'
  | feed tok piece rest scan hdone hahead hsource hprefilled hscan hterm hhit =>
    refine .inr ⟨piece, scan, hscan, hhit, hterm, ?_, ?_⟩
    · rcases hsource with h | ⟨h, -⟩ <;> simp [h]
    · exact (@deliverPiece_delivers env f.h { f.g.confirm tok with scan := scan } piece hopen).order
  | stage tok piece hdone hahead hpending hterm hhit =>
    simp only [Focus.of, stagePending]
    split
    · exact .inl rfl
    · cases hscan : f.g.scan.admitPiece piece with
      | mk scan admitted =>
        cases admitted with
        | false => exact .inl rfl
        | true =>
          refine .inr ⟨piece, scan, hscan, hhit, hterm, by simp [hpending], ?_⟩
          exact (@deliverPiece_delivers env f.h { f.g with scan := scan } piece hopen).order

/-- A finish only waits behind the backlog of a generation that has sampled nothing more. -/
def FinishSettled (g : ActiveGen) : Prop :=
  ∀ kind, g.terminalAfterDrain = some (.finish kind) → g.pending = none

theorem GenStep.finishSettled {f f' : Focus} (hs : GenStep env cfg drafting f f')
    (hopen : env.closed f.g.job.id f.h.clock = false) (hlive' : f'.g.done = false) (hv : FinishSettled f.g) :
    FinishSettled f'.g := by
  cases hs with
  | tick | draft | note | heldSent | prefill | rollback => exact hv
  | heldDropped _ _ _ hclosed | cancel _ _ _ hclosed =>
    rw [hopen] at hclosed
    cases hclosed
  | finish | fail | reap => simp [Focus.of, cancelSeq_eq, *] at hlive'
  | deferError | trimFailed => intro kind h; simp at h
  | deferFinish kind hheld hahead hterm hpending => exact fun _ _ => hpending
  | confirm | reject => exact fun _ _ => rfl
  | feed tok piece rest scan =>
    intro _ _
    exact (@deliverPiece_delivers env f.h { f.g.confirm tok with scan := scan } piece hopen).fields.2.2.2.2.2.1
  | stage tok piece hdone hahead hpending hterm =>
    have hnone : (stagePending env cfg.distributed f.h f.g tok piece).2.terminalAfterDrain = none := by
      unfold stagePending
      split
      · exact hterm
      · cases f.g.scan.admitPiece piece with
        | mk scan admitted =>
          cases admitted with
          | false => exact hterm
          | true =>
            have := (@deliverPiece_delivers env f.h { f.g with scan := scan } piece hopen).fields.2.2.2.2.2.2
            exact this.trans hterm
    intro kind h
    simp only [Focus.of, hnone] at h
    cases h

theorem GenFinish.pending {f : Focus} {kind : FinishKind} (h : GenFinish env f kind) (hsettled : FinishSettled f.g) :
    f.g.pending = none :=
  h.term.elim (fun h => h.2) fun h => hsettled kind h.1

/-! ### Stop strings of a job -/

/-- The text of some tokens contains no stop string. -/
def CleanTokens (env : Env) (stops : List Text) (toks : List Token) : Prop :=
  ∀ texts, renderTokens env toks = .ok texts → ¬ Contains stops texts.flatten

/-- No stop string was sent or is about to be: not in what a job carries, and of an active one not in what was sent
and is held. -/
def Place.Clean (env : Env) (stops : List Text) (chan : List TokenEvent) : Place → Prop
  | .mailed sup => ∀ state ∈ sup.resume, CleanTokens env stops state.generatedTokens
  | .queued p => CleanTokens env stops p.priorGenerated
  | .active _ g _ _ => ¬ Contains stops (sentPieces chan ++ g.held).flatten ∧ FinishSettled g
  | .interrupted gen => CleanTokens env stops gen.state.generatedTokens
  | .ended => True

/-- A finished job, whose confirmed tokens are on record: its client was sent the first pieces of them, and if
their text contains a stop string it finished as stopped. -/
structure StopHonoured (env : Env) (stops : List Text) (e : JobRecord) (sent : List Text) (stats : DoneStats)
    (texts : List Text) : Prop where
  render : renderTokens env e.confirmed = .ok texts
  count : e.confirmed.length = stats.completionTokens
  begins : sent <+: texts
  stopped : Contains stops texts.flatten → stats.finish = .stop

/-- What holds of the stop strings of a job along its steps. -/
structure JobStops (env : Env) (stops : List Text) (v : JobView) : Prop where
  place : v.place.Clean env stops v.chan
  sent : ¬ Contains stops (sentPieces v.chan).flatten
  ended : Reported (fun e sent _ ev => ∀ stats, ev = .done stats → ∃ texts, StopHonoured env stops e sent stats texts) v

theorem not_contains_of_append {stops : List Text} {sent held : List Text}
    (h : ¬ Contains stops (sent ++ held).flatten) : ¬ Contains stops sent.flatten := by
  intro hc
  rw [flatten_append] at h
  exact h (hc.append _)

theorem GenPieces.honoured {f : Focus} {chan : List TokenEvent} {decoded : List Cell} {texts : List Text}
    {kind : FinishKind} (hp : GenPieces env cfg chan decoded f.g f.ahead f.hit texts) (hfin : GenFinish env f kind)
    (hheld : f.g.held = []) (hclean : ¬ Contains f.g.job.stop (sentPieces chan ++ f.g.held).flatten)
    (hsettled : FinishSettled f.g) :
    StopHonoured env f.g.job.stop f.g.ending (sentPieces chan) (doneStats f.g kind) texts := by
  have hpending := hfin.pending hsettled
  have hrender := hp.render
  have hsampled : f.g.sampled = [] := by simp [ActiveGen.sampled, hpending]
  rw [hsampled, append_nil] at hrender
  have hcount : f.g.ending.confirmed.length = (doneStats f.g kind).completionTokens := by
    simp [ActiveGen.ending, ActiveGen.confirmed, doneStats]
  cases hp.order with
  | all heq =>
    rw [heq] at hclean
    rw [hheld, append_nil] at heq
    exact ⟨hrender, hcount, heq ▸ prefix_rfl, fun hc => absurd hc hclean⟩
  | withheld last heq hstop hdecided =>
    rw [hheld, append_nil] at heq
    refine ⟨hrender, hcount, ⟨[last], heq⟩, fun _ => ?_⟩
    rcases hdecided with h | ⟨tok, h⟩ | ⟨t, ht, hkind⟩
    · exact hfin.hit h
    · rw [hpending] at h
      cases h
    · rcases hfin.term with ⟨hnone, -⟩ | ⟨hlater, -⟩
      · rw [hnone] at ht
        cases ht
      · rw [hlater] at ht
        cases ht
        exact hkind kind rfl

namespace JobStops

variable {stops : List Text} {v v' : JobView}

theorem prepared_clean {sup : SupervisedGenerate} {p : PreparedGen} {chan : List TokenEvent}
    (hclean : (Place.mailed sup).Clean env stops chan)
    (hprep : prepareState env cfg sup.job sup.resume = .ok p) : CleanTokens env stops p.priorGenerated := by
  obtain ⟨pjob, resume⟩ := sup
  cases resume with
  | none =>
    obtain ⟨text, toks, -, -, -, -, rfl⟩ := prepareState_fresh hprep
    rintro texts htexts
    cases htexts
    exact not_contains_nil _
  | some state =>
    obtain ⟨unsent, -, rfl⟩ := prepareState_resumed hprep
    exact hclean state rfl

theorem endsWith (hpieces : v.place.Pieces env v.chan v.decoded) (hclean : v.place.Clean env stops v.chan)
    {stats : DoneStats} {e : JobRecord} (hev : EndsWith env v.place (.done stats)) (he : v.place.ending = some e) :
    ∃ texts, StopHonoured env stops e (sentPieces v.chan) stats texts := by
  generalize v.place = place at hpieces hclean hev he
  cases hev with
  | settled sup cfg p kind hprep hkind =>
    obtain ⟨texts, hq⟩ := hpieces.prepared hprep
    have hsent := hq.order
    rw [unsent_of_settled hkind, append_nil] at hsent
    obtain rfl := Option.some.inj he
    have hsame : p.priorGenerated = sup.ending.confirmed := prepared_confirmed hprep
    exact ⟨texts, hsame ▸ hq.render, hsame ▸ rfl, hsent ▸ prefix_rfl,
      fun hc => absurd hc (prepared_clean hclean hprep texts hq.render)⟩

/-- A step that leaves a job somewhere leaves it clean, as long as no match is interrupted. -/
theorem place_step (hopen : env.closed j v.clock = false) (hs : JobStep env j allow v v')
    (hallow : ∀ g, allow.interrupt g → (∃ t e, env.decodeFails t = some e) → CleanTokens env g.job.stop g.confirmed)
    (hwithin : v.place.Within job) (hp : JobPieces env v) (hclean : v.place.Clean env job.stop v.chan) :
    v'.place.Clean env job.stop v'.chan := by
  have hpieces := hp.pieces
  cases hs with
  | wait => exact hclean
  | prepared _ sup cfg p hplace hprep =>
    rw [hplace] at hclean
    exact prepared_clean hclean hprep
  | endSent | endParked | endLost | gone => trivial
  | admitted _ cfg p seq reused uid hplace =>
    rw [hplace] at hclean hpieces
    obtain ⟨texts, hq⟩ := hpieces
    refine ⟨?_, fun _ _ => rfl⟩
    have : sentPieces v.chan ++ (admitGen p seq reused uid).held = texts := hq.order
    rw [this]
    exact hclean texts hq.render
  | decoded _ cfg g toks hplace =>
    rw [hplace] at hclean
    exact hclean
  | gen cfg drafting f f' hid hlive hok hstep =>
    subst hid
    obtain rfl : f.g.job = job := hwithin
    obtain ⟨texts, hg⟩ := hpieces
    obtain ⟨hclean, hsettled⟩ := hclean
    cases hdone : f'.g.done with
    | true => simp [Focus.place, hdone, Host.view, Place.Clean]
    | false =>
      simp only [Focus.place, hdone, Host.view]
      refine ⟨?_, hstep.finishSettled hopen hdone hsettled⟩
      rcases hstep.sentHeld hopen hdone with heq | ⟨piece, scan, hscan, hhit, hterm, hpending, heq⟩
      · rw [heq]
        exact hclean
      · have hall : sentPieces (f.h.chans f.g.job.id) ++ f.g.held = texts := hg.all hhit hterm hpending
        rw [heq, hall, GenPieces.flatten_snoc]
        exact (hg.scan.admits hscan).2 (hall ▸ hclean)
  | interrupted _ cfg g message hplace hdist hok hallow' hfail =>
    obtain ⟨t, hfail⟩ := hfail
    have := hallow g hallow' ⟨t, message, hfail⟩
    rw [hplace] at hwithin
    have hjob : g.job = job := hwithin
    rw [hjob] at this
    exact this
  | reissued _ gen hplace =>
    rw [hplace] at hclean
    rintro state hstate
    cases hstate
    exact hclean
  | retrySent _ pre post ev hparked | retryGone _ pre post ev hparked =>
    by_cases hplace : v.place = .ended
    · rw [hplace]
      trivial
    · simp [(hp.running hplace).2] at hparked
  | dropped => exact hclean

/-- **Every step of a job** whose client stays honours its stop strings, as long as no match is
interrupted. -/
theorem step (hopen : env.closed j v.clock = false) (hs : JobStep env j allow v v')
    (hallow : ∀ g, allow.interrupt g → (∃ t e, env.decodeFails t = some e) → CleanTokens env g.job.stop g.confirmed)
    (hwithin : v.place.Within job) (hp : JobPieces env v) (hv : JobStops env job.stop v) :
    JobStops env job.stop v' := by
  have hclean := hv.place
  have hpieces := hp.pieces
  have hclean' := place_step hopen hs hallow hwithin hp hclean
  obtain ⟨hended, hsent⟩ := hv.ended.step hopen hs hp.running
    (fun ev e hev he stats heq => endsWith hpieces hclean (heq ▸ hev) he) (fun cfg f ev hview _ hheld hev stats heq => by
      subst hview heq
      obtain rfl : f.g.job = job := hwithin
      obtain ⟨texts, hg⟩ := hpieces
      cases hev with
      | done kind hfin => exact ⟨texts, hg.honoured hfin hheld hclean.1 hclean.2⟩)
  refine ⟨hclean', ?_, hended⟩
  rcases hsent with heq | ⟨cfg, g, ahead, hit, hplace⟩
  · rw [heq]
    exact hv.sent
  · rw [hplace] at hclean'
    exact not_contains_of_append hclean'.1

theorem fresh (r : Request) : JobStops env stops (freshJob j r) :=
  ⟨by simp [freshJob, Place.Clean], not_contains_nil _, .of_running ⟨by simp [freshJob], rfl⟩⟩

end JobStops

/-! ### Runs -/

/-- A request with a stop string of two pieces. -/
def leakRequest : Request :=
  { model := "m", prompt := .raw ['p'], maxTokens := 10, temperature := 0, stop := [['b']] }

end OneBrain.Engine
