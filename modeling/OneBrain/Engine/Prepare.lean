import OneBrain.Engine.Host

/-!
# Preparing a generation

`prepareGeneration` validates a submitted job and turns it into a queue entry. A
fresh job is rendered and tokenized; a resumed one carries its tokens and
re-renders the pieces its client has not received. `none` means that the job was
ended here, with a non-blocking send whose result is ignored.
-/

namespace OneBrain.Engine

/-- `ApiError::ModelNotLoaded`. -/
def modelNotLoaded (model : String) : String :=
  "model " ++ model.quote ++ " is not loaded; run `onebrain run " ++ model ++ "` first"

/-- `ApiError::BadRequest`. -/
def badRequest (message : String) : String := "request validation failed: " ++ message

/-- `ApiError::NoModel`. -/
def noModel : String := "no model is loaded; run `onebrain run <model>` first"

/-- The refusal of a prompt without tokens. -/
def emptyPrompt : String := badRequest "`prompt` produced no tokens; provide non-empty input"

/-- The message for a prompt that is too long. -/
def contextExceeded (prompt maxTokens nCtx : ℕ) : String :=
  badRequest ("the prompt is " ++ toString prompt ++ " tokens and max_tokens is "
    ++ toString maxTokens ++ ", which together exceed the context length of " ++ toString nCtx
    ++ "; shorten the prompt, lower max_tokens, or raise ctx_len in config.toml")

/-- One turn in the generic chat format. -/
def fallbackTurn (turn : Text × Text) : Text :=
  "<|".toList ++ turn.1 ++ "|>\n".toList ++ turn.2 ++ "\n".toList

/-- `render_prompt`: chat prompts go through the model's template, or through the
generic format when it ships none. -/
def renderPrompt (env : Env) : PromptInput → Except String Text
  | .raw text => .ok text
  | .chat turns =>
    match env.applyChatTemplate turns with
    | .ok (some rendered) => .ok rendered
    | .ok none => .ok (turns.flatMap fallbackTurn ++ "<|assistant|>\n".toList)
    | .error e => .error e

/-- The pieces of some tokens. -/
def renderTokens (env : Env) : List Token → Except String (List Text)
  | [] => .ok []
  | t :: ts =>
    match env.tokenToPiece t with
    | .error e => .error e
    | .ok piece =>
      match renderTokens env ts with
      | .error e => .error e
      | .ok pieces => .ok (piece :: pieces)

/-- End a job while it is being prepared: one non-blocking send, then the
`Finished` outcome, whatever became of the send. -/
def endPrepare (env : Env) (h : Host) (sup : SupervisedGenerate) (ev : TokenEvent) : Host :=
  (trySend env h sup.job.id ev).1.finish sup.ending

/-- What the two arms on `resume` compute: the queue entry to be, or the error
that ends the job. -/
def prepareState (env : Env) (cfg : Cfg) (job : GenerateJob) :
    Option ResumeState → Except String PreparedGen
  | some state =>
    match renderTokens env (state.generatedTokens.drop state.piecesSent) with
    | .error e => .error e
    | .ok unsent =>
      .ok
        { job := job
          promptTokens := state.promptTokens
          priorGenerated := state.generatedTokens
          priorPieces := state.piecesSent
          scan := state.scan
          remaining := job.maxTokens - state.generatedTokens.length
          budget := state.promptTokens.length + job.maxTokens
          resumed := true
          unsent := unsent
          finish := state.finish }
  | none =>
    match renderPrompt env job.prompt with
    | .error e => .error e
    | .ok text =>
      match env.tokenize text with
      | .error e => .error e
      | .ok promptTokens =>
        if promptTokens = [] then .error emptyPrompt
        else if cfg.nCtx < promptTokens.length + job.maxTokens then
          .error (contextExceeded promptTokens.length job.maxTokens cfg.nCtx)
        else
          .ok
            { job := job
              promptTokens := promptTokens
              priorGenerated := []
              priorPieces := 0
              scan := StopScan.new job.stop
              remaining := job.maxTokens - 0
              budget := promptTokens.length + job.maxTokens
              resumed := false
              unsent := []
              finish := none }

/-- **What a fresh job is prepared to**, and what was checked for it. -/
theorem prepareState_fresh {env : Env} {cfg : Cfg} {job : GenerateJob} {p : PreparedGen}
    (hp : prepareState env cfg job none = .ok p) : ∃ text toks, renderPrompt env job.prompt = .ok text ∧
      env.tokenize text = .ok toks ∧ toks ≠ [] ∧ toks.length + job.maxTokens ≤ cfg.nCtx ∧
      p = { job, promptTokens := toks, priorGenerated := [], priorPieces := 0, scan := .new job.stop,
            remaining := job.maxTokens, budget := toks.length + job.maxTokens, resumed := false, unsent := [],
            finish := none } := by
  simp only [prepareState] at hp
  split at hp
  · cases hp
  · rename_i text htext
    split at hp
    · cases hp
    · rename_i toks htoks
      split at hp
      · cases hp
      · rename_i hne
        split at hp
        · cases hp
        · rename_i hfits
          cases hp
          exact ⟨text, toks, htext, htoks, hne, Nat.not_lt.mp hfits, rfl⟩

theorem prepareState_resumed {env : Env} {cfg : Cfg} {job : GenerateJob} {state : ResumeState} {p : PreparedGen}
    (hp : prepareState env cfg job (some state) = .ok p) :
    ∃ unsent, renderTokens env (state.generatedTokens.drop state.piecesSent) = .ok unsent ∧
      p = { job, promptTokens := state.promptTokens, priorGenerated := state.generatedTokens,
            priorPieces := state.piecesSent, scan := state.scan,
            remaining := job.maxTokens - state.generatedTokens.length,
            budget := state.promptTokens.length + job.maxTokens, resumed := true, unsent, finish := state.finish } := by
  simp only [prepareState] at hp
  split at hp
  · cases hp
  · rename_i unsent hunsent
    cases hp
    exact ⟨unsent, hunsent, rfl⟩

/-- The statistics of a finish applied without touching the engine. -/
def preparedStats (p : PreparedGen) (kind : FinishKind) : DoneStats :=
  { promptTokens := p.promptTokens.length
    completionTokens := p.priorGenerated.length
    finish := kind
    drafted := 0
    accepted := 0 }

/-- The finish a prepared job is already at: a carried one, or `Length` on a
spent budget, with every piece delivered. -/
def settledFinish (p : PreparedGen) : Option FinishKind :=
  if p.unsent = [] then
    match p.finish with
    | some kind => some kind
    | none => if p.remaining = 0 then some .length else none
  else none

/-- Check a job and make it ready for a slot, or end it. -/
def prepareGeneration (env : Env) (cfg : Cfg) (h : Host) (sup : SupervisedGenerate) :
    Host × Option PreparedGen :=
  match cfg.batchError with
  | some message => (endPrepare env h sup (.error message), none)
  | none =>
    if env.closed sup.job.id h.clock then
      (h.tick.finish sup.ending, none)
    else if sup.job.model ≠ cfg.name ∧ sup.job.model ≠ cfg.reference then
      (endPrepare env h.tick sup (.error (modelNotLoaded sup.job.model)), none)
    else
      match prepareState env cfg sup.job sup.resume with
      | .error message => (endPrepare env h.tick sup (.error message), none)
      | .ok p =>
        match settledFinish p with
        | some kind => (endPrepare env h.tick sup (.done (preparedStats p kind)), none)
        | none => (h.tick, some p)

end OneBrain.Engine
