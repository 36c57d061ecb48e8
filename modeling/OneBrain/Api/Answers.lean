import OneBrain.Api.Streams
import OneBrain.Engine.Modes

/-!
# The answer a client gets

The host sends the events of a generation on a channel, and an API handler makes an answer of them. For a
client that stays, that of a finished request is the greedy decoder's (`collected_answer`).
-/

namespace OneBrain.Api

open List OneBrain.Engine

theorem pieces_delivered {tokens : List TokenEvent} (htokens : ∀ e ∈ tokens, e.isTerminal = false) (stats : DoneStats) :
    pieces (tokens ++ [.done stats]) = sentPieces (tokens ++ [.done stats]) ∧
      ending (tokens ++ [.done stats]) = some (.ok stats) := by
  induction tokens with
  | nil => exact ⟨rfl, rfl⟩
  | cons e tokens ih =>
    obtain ⟨he, htokens⟩ := forall_mem_cons.mp htokens
    obtain ⟨hpieces, hending⟩ := ih htokens
    cases e with
    | token piece => exact ⟨congrArg (piece :: ·) hpieces, hending⟩
    | _ => cases he

/-- **A finished answer is the decoder's**: what either dialect collects from the channel of a request that was
finished is the text the greedy decoder shows for its prompt, with the kind and the counts of its answer. -/
theorem collected_answer {lm : LanguageModel} {env : Env} {labels : List Label} {j : JobId} {r : Request}
    (hs : Serving lm env labels j r) (hc : Attentive env j labels) {stats : DoneStats}
    (hdone : .done stats ∈ (run env Sys.init labels).loop.host.chans j) :
    ∃ toks shown, Answered lm (r.toJob j) shown stats toks ∧
      Openai.collect ((run env Sys.init labels).loop.host.chans j) = (shown.flatten, .ok stats) ∧
      Ollama.collect ((run env Sys.init labels).loop.host.chans j) = (shown.flatten, .ok stats) := by
  obtain ⟨toks, hanswered⟩ := hs.follows.2 stats hdone
  obtain ⟨cfg, hheld⟩ := run_jobsHeld labels (@runAllowed_all env labels)
  have hfin : j ∈ (run env Sys.init labels).loop.host.finished := by
    by_contra hfin
    have hj : j < (run env Sys.init labels).nextJob := hheld.next ▸ (List.getElem?_eq_some_iff.mp hs.request).1
    cases (hc.running hj hfin).1 _ hdone
  obtain ⟨tokens, ev, htokens, -, ⟨hchan, -⟩ | ⟨hchan, -⟩⟩ := hc.isOver hfin
  · rw [hchan] at hdone hanswered ⊢
    obtain rfl : .done stats = ev := by
      rcases mem_append.mp hdone with hmem | hmem
      · cases htokens _ hmem
      · exact mem_singleton.mp hmem
    obtain ⟨hpieces, hending⟩ := pieces_delivered htokens stats
    refine ⟨toks, _, hanswered, ?_, ?_⟩
    · rw [Openai.collect, collectWith_eq, hpieces, hending]
      rfl
    · rw [Ollama.collect, collectWith_eq, hpieces, hending]
      rfl
  · rw [hchan] at hdone
    cases htokens _ hdone

/-- A request for one token. -/
theorem collected_answer_calm : ∃ toks shown, Answered calmModel (slowRequest.toJob 0) shown ⟨1, 1, .length, 0, 0⟩ toks ∧
    Openai.collect ((run calmEnv Sys.init (serveAlone slowCfg slowRequest 20)).loop.host.chans 0) =
      (shown.flatten, .ok ⟨1, 1, .length, 0, 0⟩) := by
  have hserving : Serving calmModel calmEnv (serveAlone slowCfg slowRequest 20) 0 slowRequest :=
    .alone calmModel_runs (fun _ _ h => h) (fun _ => rfl) 20
  obtain ⟨toks, shown, hanswered, hcollect, -⟩ := collected_answer hserving
    ⟨rfl, by decide +kernel, by decide +kernel⟩
    (show TokenEvent.done ⟨1, 1, .length, 0, 0⟩ ∈ _ by decide +kernel)
  exact ⟨toks, shown, hanswered, hcollect⟩

end OneBrain.Api
