import OneBrain.Engine.Progress

/-!
# Solo and distributed serving

A solo model sends a piece when its token is sampled, a distributed one only after the
token's own decode succeeded, and the two finish at different points of the step. Their
clients see the same: both are given the answer of `OneBrain.Engine.Greedy`, so what they
were sent are beginnings of one sequence of pieces, and once both are finished they hold the
same pieces, the same kind of finish and the same counts.

## What is proved

* `Agree` — what two clients of one request can be told apart by: nothing.
* `Serving.agree` — for any two runs, of any environments that run the model.
* `serveAlone_agree` — a request that is served alone to a client that reads is finished
  in both, and then they hold the same.
-/

namespace OneBrain.Engine

open OneBrain.Lib

variable {env : Env} {cfg : Cfg} {lm : LanguageModel} {r : Request} {j : JobId} {labels : List Label}

/-- Two clients of one request are shown the same, as far as they are shown anything. -/
structure Agree (a b : List TokenEvent) : Prop where
  /-- The pieces of one begin with those of the other. -/
  pieces : sentPieces a <+: sentPieces b ∨ sentPieces b <+: sentPieces a
  /-- Once both are finished, pieces, kind and counts are the same. -/
  finish : ∀ s t, .done s ∈ a → .done t ∈ b → sentPieces a = sentPieces b ∧ s.finish = t.finish ∧
    s.promptTokens = t.promptTokens ∧ s.completionTokens = t.completionTokens

/-- A run in which a request is served from the model to a client that stays. -/
structure Serving (lm : LanguageModel) (env : Env) (labels : List Label) (j : JobId) (r : Request) : Prop where
  runs : lm.Runs env
  request : (requests labels)[j]? = some r
  /-- Without a draft there is nothing to ask here. -/
  drafts : ∀ cfg, .control (.load (some cfg)) ∈ labels → DraftEnds env cfg
  opened : env.closed j (run env Sys.init labels).loop.host.clock = false

namespace Serving

variable (hs : Serving lm env labels j r)
include hs

theorem follows :
    sentPieces ((run env Sys.init labels).loop.host.chans j) <+: lm.reply (r.toJob j) ∧
    ∀ stats, .done stats ∈ (run env Sys.init labels).loop.host.chans j →
      ∃ toks, Answered lm (r.toJob j) (sentPieces ((run env Sys.init labels).loop.host.chans j)) stats toks := by
  obtain ⟨p, hfollows⟩ := run_greedy hs.runs hs.drafts hs.request hs.opened
  exact ⟨hfollows.greedy.sent, fun stats h => hfollows.greedy.done stats (List.mem_append_left _ h)⟩

/-- **Any two runs agree on a request.** -/
theorem agree {env' : Env} {labels' : List Label} {k : JobId} (hs' : Serving lm env' labels' k r) :
    Agree ((run env Sys.init labels).loop.host.chans j) ((run env' Sys.init labels').loop.host.chans k) := by
  obtain ⟨hsent, hdone⟩ := hs.follows
  obtain ⟨hsent', hdone'⟩ := hs'.follows
  refine ⟨List.prefix_or_prefix_of_prefix hsent hsent', fun s t hs ht => ?_⟩
  obtain ⟨toks, ha⟩ := hdone s hs
  obtain ⟨toks', hb⟩ := hdone' t ht
  obtain rfl : toks = toks' := Except.ok.inj (ha.prompt.symm.trans hb.prompt)
  exact ⟨ha.sent.trans hb.sent.symm, ha.finish.trans hb.finish.symm, ha.promptTokens.trans hb.promptTokens.symm,
    ha.completionTokens.trans hb.completionTokens.symm⟩

theorem confirmed {pc : Pc} (hphase : (run env Sys.init labels).phase = .serving cfg pc)
    {g : ActiveGen} (hg : g ∈ (run env Sys.init labels).loop.active) (hid : g.job.id = j) :
    ∃ toks, lm.promptTokens r.prompt = .ok toks ∧ g.confirmed <+: (lm.answer toks r.stop r.maxTokens).tokens := by
  subst hid
  obtain ⟨r', hr', hsteps⟩ := run_active (show RunAllowed env (answering env) _ from runAllowed_of_loads hs.drafts) hphase hg
  obtain rfl : r = r' := Option.some.inj (hs.request.symm.trans hr')
  have hfollows := jobFollows_steps hs.runs hs.opened (fun _ h => h) hsteps
  obtain ⟨hprompt, hgen, -⟩ := hfollows.greedy.place
  have hjob : g.job = r.toJob g.job.id := hfollows.within.place
  have hbegins := hgen.begins
  rw [ActiveGen.answer, hjob] at hbegins
  exact ⟨g.promptTokens, hprompt, (List.prefix_append _ _).trans hbegins⟩

omit hs

theorem alone (hm : lm.Runs env) (hdraft : DraftEnds env cfg) (hopen : ∀ t, env.closed 0 t = false) (n : ℕ) :
    Serving lm env (serveAlone cfg r n) 0 r := by
  refine ⟨hm, rfl, fun cfg' hmem => ?_, hopen _⟩
  simp only [serveAlone, List.mem_cons, List.mem_replicate, reduceCtorEq, and_false, or_false] at hmem
  cases hmem
  exact hdraft

end Serving

/-- **A request that is served alone is finished in both of two environments**, and their clients agree. -/
theorem serveAlone_agree {env' : Env} {cfg' : Cfg} {toks : List Token} (hm : lm.Runs env) (hm' : lm.Runs env')
    (hdraft : DraftEnds env cfg) (hdraft' : DraftEnds env' cfg') (hu : Unhindered env cfg 0)
    (hu' : Unhindered env' cfg' 0) (ha : Accepts lm cfg r toks) (ha' : Accepts lm cfg' r toks) :
    ∃ n m s t, .done s ∈ (run env Sys.init (serveAlone cfg r n)).loop.host.chans 0 ∧
      .done t ∈ (run env' Sys.init (serveAlone cfg' r m)).loop.host.chans 0 ∧
      sentPieces ((run env Sys.init (serveAlone cfg r n)).loop.host.chans 0) =
        sentPieces ((run env' Sys.init (serveAlone cfg' r m)).loop.host.chans 0) ∧
      s.finish = t.finish ∧ s.promptTokens = t.promptTokens ∧ s.completionTokens = t.completionTokens := by
  obtain ⟨n, s, hs⟩ := serveAlone_done hm hu ha
  obtain ⟨m, t, ht⟩ := serveAlone_done hm' hu' ha'
  have hagree := (Serving.alone (r := r) hm hdraft hu.opened n).agree (Serving.alone hm' hdraft' hu'.opened m)
  exact ⟨n, m, s, t, hs, ht, hagree.finish s t hs ht⟩

/-! ### The two modes -/

/-- A configuration, served solo or split across nodes. -/
def Cfg.mode (cfg : Cfg) (distributed : Bool) : Cfg := { cfg with distributed := distributed }

/-- **Solo and distributed serving show a client the same.** In any two runs, whatever is served in them and
whatever else they do, the clients of one request agree; and a request that is served alone to a client
that reads is finished in both modes, with the same pieces, kind and counts. -/
theorem solo_distributed_agree {solo split : Env} {A B : List Label} {i k : JobId} (hA : Serving lm solo A i r)
    (hB : Serving lm split B k r) :
    Agree ((run solo Sys.init A).loop.host.chans i) ((run split Sys.init B).loop.host.chans k) ∧
    ∀ cfg toks, DraftEnds solo cfg → DraftEnds split cfg → Unhindered solo cfg 0 → Unhindered split cfg 0 →
      Accepts lm cfg r toks →
      ∃ n m s t, .done s ∈ (run solo Sys.init (serveAlone (cfg.mode false) r n)).loop.host.chans 0 ∧
        .done t ∈ (run split Sys.init (serveAlone (cfg.mode true) r m)).loop.host.chans 0 ∧
        sentPieces ((run solo Sys.init (serveAlone (cfg.mode false) r n)).loop.host.chans 0) =
          sentPieces ((run split Sys.init (serveAlone (cfg.mode true) r m)).loop.host.chans 0) ∧
        s.finish = t.finish ∧ s.promptTokens = t.promptTokens ∧ s.completionTokens = t.completionTokens := by
  refine ⟨hA.agree hB, fun cfg toks hdraft hdraft' hu hu' ha => ?_⟩
  have hmode : ∀ b, Accepts lm (cfg.mode b) r toks := fun b => ⟨ha.batch, ha.named, ha.prompt, ha.nonempty, ha.fits⟩
  exact serveAlone_agree hA.runs hB.runs hdraft hdraft'
    ⟨hu.opened, hu.drained, hu.renders, hu.decodes, hu.removes, hu.sampler⟩
    ⟨hu'.opened, hu'.drained, hu'.renders, hu'.decodes, hu'.removes, hu'.sampler⟩ (hmode false) (hmode true)

/-- A model that says the same piece for ever. -/
def calmModel : LanguageModel where
  tokenize _ := .ok [0]
  applyChatTemplate _ := .ok none
  next _ := 1
  isEog _ := false
  piece _ := ['a']

theorem calmModel_runs : calmModel.Runs calmEnv := ⟨rfl, rfl, fun _ _ => rfl, rfl, fun _ => rfl, fun _ => rfl⟩

theorem calmEnv_unhindered (cfg : Cfg) (j : JobId) : Unhindered calmEnv cfg j :=
  ⟨fun _ => rfl, fun _ _ => rfl, fun _ => ⟨_, rfl⟩, fun _ => rfl, fun _ _ => rfl, fun _ => rfl⟩

theorem solo_distributed_agree_calm :
    ∃ n m s t, .done s ∈ (run calmEnv Sys.init (serveAlone (splitCfg.mode false) leakRequest n)).loop.host.chans 0 ∧
      .done t ∈ (run calmEnv Sys.init (serveAlone (splitCfg.mode true) leakRequest m)).loop.host.chans 0 ∧
      sentPieces ((run calmEnv Sys.init (serveAlone (splitCfg.mode false) leakRequest n)).loop.host.chans 0) =
        sentPieces ((run calmEnv Sys.init (serveAlone (splitCfg.mode true) leakRequest m)).loop.host.chans 0) ∧
      s.finish = t.finish ∧ s.promptTokens = t.promptTokens ∧ s.completionTokens = t.completionTokens := by
  have hdraft : DraftEnds calmEnv splitCfg := fun _ _ h => h
  have hserving : Serving calmModel calmEnv (serveAlone splitCfg leakRequest 0) 0 leakRequest :=
    .alone calmModel_runs hdraft (fun _ => rfl) 0
  exact (solo_distributed_agree hserving hserving).2 splitCfg [0] hdraft hdraft (calmEnv_unhindered _ _)
    (calmEnv_unhindered _ _) ⟨rfl, by decide, rfl, by decide, by decide⟩

end OneBrain.Engine
