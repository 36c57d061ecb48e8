import OneBrain.Engine.Types

/-!
# Streamed and collected answers

Four consumers turn the events of a generation into an answer: each of the two API dialects
streams them as they come, or collects them into one object. What they are given is the list of
the events that were sent before the channel closed; a terminal event need not be among them, since
the channel of a reaped job is closed as it is.

Such a list is some pieces, and then an ending or nothing (`pieces`, `ending`); the equations
`collectWith_eq`, `streamNdjson_parts` and `sseBody_parts` say what each consumer makes of them. Streamed
and collected answers agree (`Agrees`) wherever there is an ending. Without one the `sse` stream
reports an error as the collectors do, and the `ndjson` stream just ends.

Time stamps and durations of the answers are left out.
-/

namespace OneBrain.Api

open List OneBrain.Engine

/-! ### Collecting -/

/-- The loop of the collectors: the text accumulated when it is left, and what is returned then.
`closed` is the error for a channel that closes without a terminal event. -/
def collectWith (closed : String) : Text → List TokenEvent → Text × Except String DoneStats
  | full, [] => (full, .error closed)
  | full, .token piece :: events => collectWith closed (full ++ piece) events
  | full, .done stats :: _ => (full, .ok stats)
  | full, .error message :: _ => (full, .error message)

/-- The answer to a request that does not stream. -/
def Openai.collect : List TokenEvent → Text × Except String DoneStats :=
  collectWith "the generation stream ended without a result; retry the request" []

/-- The same for the other dialect. -/
def Ollama.collect : List TokenEvent → Text × Except String DoneStats :=
  collectWith "generation ended without a result; retry the request or check `onebrain status`" []

/-! ### The Ollama stream -/

/-- Which endpoint's line shape to emit. -/
inductive Kind where
  | generate
  | chat
  deriving DecidableEq

/-- The field of a line its text is in. -/
inductive Body where
  | response (text : Text)
  | message (role : String) (content : Text)
  deriving DecidableEq

/-- A line of the `ndjson` stream; the last four fields are those of a terminal line. -/
inductive Line where
  | piece (model : String) (body : Body)
  | done (model : String) (body : Body) (doneReason : String) (promptEvalCount evalCount : ℕ)
  | error (message : String)
  deriving DecidableEq

/-- A piece of text, as the request was made. -/
def Kind.body : Kind → Text → Body
  | .generate, text => .response text
  | .chat, text => .message "assistant" text

/-- The name of a finish. -/
def doneReason : FinishKind → String
  | .stop => "stop"
  | .length => "length"
  | .abort => "abort"

/-- One streamed progress line. -/
def pieceJson (kind : Kind) (model : String) (piece : Text) : Line := .piece model (kind.body piece)

/-- The terminal object: with the full text when collected, with none as the last streamed line. -/
def doneJson (kind : Kind) (model : String) (content : Text) (stats : DoneStats) : Line :=
  .done model (kind.body content) (doneReason stats.finish) stats.promptTokens stats.completionTokens

/-- The stream stops after a terminal line, or with the channel. -/
def streamNdjson (kind : Kind) (model : String) : List TokenEvent → List Line
  | [] => []
  | .token piece :: events => pieceJson kind model piece :: streamNdjson kind model events
  | .done stats :: _ => [doneJson kind model [] stats]
  | .error message :: _ => [.error message]

/-! ### The OpenAI stream -/

/-- The two public APIs. -/
inductive Dialect where
  | chat
  | text
  deriving DecidableEq

/-- What a chunk carries. -/
inductive ChunkBody where
  | role
  | content (piece : Text)
  | final
  deriving DecidableEq

/-- An event of the `sse` stream: a chunk, an error object, or `[DONE]`. -/
inductive SseEvent where
  | chunk (dialect : Dialect) (id : String) (model : String) (body : ChunkBody) (finish : Option String)
  | error (message : String)
  | doneMark
  deriving DecidableEq

/-- OpenAI has no word for an abort. -/
def finishReason : FinishKind → String
  | .stop | .abort => "stop"
  | .length => "length"

/-- The loop of the stream's task, with what it adds when the channel closes on it. -/
def sseBody (dialect : Dialect) (id model : String) : List TokenEvent → List SseEvent
  | [] => [.error "the generation stream ended without a result; retry the request"]
  | .token piece :: events => .chunk dialect id model (.content piece) none :: sseBody dialect id model events
  | .done stats :: _ => [.chunk dialect id model .final (some (finishReason stats.finish))]
  | .error message :: _ => [.error message]

/-- The whole stream: a chat begins with the role, and `[DONE]` is last. -/
def sseResponse (dialect : Dialect) (id model : String) (events : List TokenEvent) : List SseEvent :=
  (if dialect = .chat then [.chunk dialect id model .role none] else []) ++
    sseBody dialect id model events ++ [.doneMark]

/-! ### What a client reads -/

/-- What an element of a stream tells the client. -/
inductive Part where
  | content (text : Text)
  | finish (reason : String)
  | fails
  | mark
  deriving DecidableEq

/-- The part that ends a stream. -/
def Part.isFinal : Part → Bool
  | .finish _ | .fails => true
  | .content _ | .mark => false

/-- The text of a part. -/
def Part.text : Part → Text
  | .content text => text
  | .finish _ | .fails | .mark => []

/-- The text of a body. -/
def Body.text : Body → Text
  | .response text | .message _ text => text

/-- What a line of the stream carries. -/
def Line.parts : Line → List Part
  | .piece _ body => [.content body.text]
  | .done _ body reason _ _ => [.content body.text, .finish reason]
  | .error _ => [.fails]

/-- A terminal chunk of a text completion has an empty text. -/
def SseEvent.parts : SseEvent → List Part
  | .chunk _ _ _ (.content piece) _ => [.content piece]
  | .chunk .chat _ _ .final (some reason) => [.finish reason]
  | .chunk .text _ _ .final (some reason) => [.content [], .finish reason]
  | .error _ => [.fails]
  | _ => [.mark]

/-- **A stream agrees with a collected answer**: its contents are the accumulated text, and it has
exactly one final part, behind all contents, which is an error if and only if the collector returns
one and otherwise has the finish reason of the collected answer. -/
def Agrees (reason : FinishKind → String) (stream : List Part) (collected : Text × Except String DoneStats) :
    Prop :=
  stream.flatMap Part.text = collected.1 ∧
  ∃ before final after, stream = before ++ final :: after ∧ (∀ p ∈ before, p.isFinal = false) ∧
    (∀ p ∈ after, p = .mark) ∧
    match collected.2 with
    | .ok stats => final = .finish (reason stats.finish)
    | .error _ => final = .fails

/-! ### Pieces and an ending -/

/-- The pieces before the first terminal event. -/
def pieces : List TokenEvent → List Text
  | .token piece :: events => piece :: pieces events
  | _ => []

/-- What the first terminal event says. -/
def ending : List TokenEvent → Option (Except String DoneStats)
  | [] => none
  | .token _ :: events => ending events
  | .done stats :: _ => some (.ok stats)
  | .error message :: _ => some (.error message)

variable (kind : Kind) (dialect : Dialect) (id model : String) (events : List TokenEvent)

theorem ending_isSome : (ending events).isSome ↔ ∃ e ∈ events, e.isTerminal = true := by
  induction events with
  | nil => simp [ending]
  | cons e events ih => cases e <;> simp [ending, ih, TokenEvent.isTerminal]

theorem collectWith_eq (closed : String) (full : Text) : collectWith closed full events =
    (full ++ (pieces events).flatten, (ending events).getD (.error closed)) := by
  induction events generalizing full with
  | nil => simp [collectWith, pieces, ending]
  | cons e events ih => cases e <;> simp [collectWith, pieces, ending, ih]

/-- The parts of an ending; `blank` is what else a terminal element carries. -/
def endParts (reason : FinishKind → String) (blank : List Part) : Except String DoneStats → List Part
  | .ok stats => blank ++ [.finish (reason stats.finish)]
  | .error _ => [.fails]

theorem streamNdjson_parts : (streamNdjson kind model events).flatMap Line.parts =
    (pieces events).map .content ++ ((ending events).map (endParts doneReason [.content []])).getD [] := by
  have hbody : ∀ text, (kind.body text).text = text := fun text => by cases kind <;> rfl
  induction events with
  | nil => rfl
  | cons e events ih =>
    cases e with
    | token piece =>
      rw [streamNdjson, flatMap_cons, ih, pieceJson, Line.parts, hbody]
      rfl
    | done => simp [streamNdjson, doneJson, Line.parts, hbody, pieces, ending, endParts]
    | error => rfl

theorem sseBody_parts : (sseBody dialect id model events).flatMap SseEvent.parts =
    (pieces events).map .content ++ endParts finishReason (if dialect = .text then [.content []] else [])
      ((ending events).getD (.error "the generation stream ended without a result; retry the request")) := by
  induction events with
  | nil => rfl
  | cons e events ih =>
    cases e with
    | token piece => exact congrArg (Part.content piece :: ·) ih
    | done => cases dialect <;> rfl
    | error => rfl

/-- Marks, the pieces, an ending and marks again: such a stream agrees with what is collected. -/
theorem agrees_parts (reason : FinishKind → String) (front blank after : List Part)
    (hfront : ∀ p ∈ front, p = .mark) (hblank : ∀ p ∈ blank, p = .content []) (hafter : ∀ p ∈ after, p = .mark)
    (texts : List Text) (r : Except String DoneStats) :
    Agrees reason (front ++ (texts.map .content ++ endParts reason blank r) ++ after) (texts.flatten, r) := by
  have hnone : ∀ ps : List Part, (∀ p ∈ ps, p.text = []) → ps.flatMap Part.text = [] := fun ps hps =>
    flatMap_eq_nil_iff.mpr hps
  have htexts : (texts.map Part.content).flatMap Part.text = texts.flatten := by
    rw [flatMap_map]
    exact congrArg List.flatten (map_id texts)
  have hend : ∀ p ∈ endParts reason blank r, p.text = [] := by
    cases r with
    | error => simp [endParts, Part.text]
    | ok stats =>
      intro p hp
      rcases mem_append.mp hp with hp | hp
      · rw [hblank p hp, Part.text]
      · rw [mem_singleton.mp hp, Part.text]
  refine ⟨?_, ?_⟩
  · simp only [flatMap_append, htexts, hnone _ hend]
    rw [hnone front fun p hp => by rw [hfront p hp, Part.text],
      hnone after fun p hp => by rw [hafter p hp, Part.text], append_nil, append_nil, nil_append]
  · have hbefore : ∀ blank' : List Part, (∀ p ∈ blank', p = .content []) →
        ∀ p ∈ front ++ (texts.map .content ++ blank'), p.isFinal = false := by
      intro blank' hblank' p hp
      simp only [mem_append, mem_map] at hp
      rcases hp with hp | ⟨_, -, rfl⟩ | hp
      · rw [hfront p hp, Part.isFinal]
      · rfl
      · rw [hblank' p hp, Part.isFinal]
    cases r with
    | ok stats =>
      exact ⟨_, .finish (reason stats.finish), after, by simp [endParts], hbefore blank hblank, hafter, rfl⟩
    | error =>
      exact ⟨_, .fails, after, by simp [endParts], hbefore [] (fun p hp => absurd hp not_mem_nil), hafter, rfl⟩

/-- **Streamed and collected answers agree.** In the OpenAI dialect they do for every list of
events; in the Ollama dialect they do exactly if a terminal event was sent before the channel
closed. -/
theorem answers_agree_iff :
    (∀ dialect id model, Agrees finishReason ((sseResponse dialect id model events).flatMap SseEvent.parts)
      (Openai.collect events)) ∧
    ∀ kind model, Agrees doneReason ((streamNdjson kind model events).flatMap Line.parts) (Ollama.collect events) ↔
      ∃ e ∈ events, e.isTerminal = true := by
  refine ⟨fun dialect id model => ?_, fun kind model => ?_⟩
  · rw [Openai.collect, collectWith_eq, sseResponse, flatMap_append, flatMap_append, sseBody_parts]
    refine agrees_parts finishReason _ _ _ ?_ ?_ (by simp [SseEvent.parts]) _ _
    · cases dialect <;> simp [SseEvent.parts]
    · cases dialect <;> simp
  · rw [← ending_isSome, Ollama.collect, collectWith_eq, streamNdjson_parts]
    cases ending events with
    | some r =>
      have hagrees := agrees_parts doneReason [] [.content []] [] (by simp) (by simp) (by simp) (pieces events) r
      simpa using hagrees
    | none =>
      simp only [Option.map_none, Option.getD_none, append_nil, Option.isSome_none, Bool.false_eq_true, iff_false]
      rintro ⟨-, before, final, after, hstream, -, -, hfinal⟩
      have hmem : final ∈ (pieces events).map Part.content := by simp [hstream]
      obtain ⟨text, -, rfl⟩ := mem_map.mp hmem
      cases hfinal

/-- The channel of a reaped job closes after one piece: the stream just ends, and the collector
returns an error. -/
theorem stream_just_ends : streamNdjson .chat "m" [.token ['a']] = [.piece "m" (.message "assistant" ['a'])] ∧
    (Ollama.collect [.token ['a']]).2.isOk = false ∧
    ¬ Agrees doneReason ((streamNdjson .chat "m" [.token ['a']]).flatMap Line.parts)
      (Ollama.collect [.token ['a']]) := by
  refine ⟨rfl, rfl, ?_⟩
  rintro ⟨-, before, final, after, hstream, -, -, hfinal⟩
  have hmem : final ∈ [Part.content ['a']] := by
    have h : final ∈ before ++ final :: after := by simp
    rwa [← hstream] at h
  rw [mem_singleton.mp hmem] at hfinal
  cases hfinal

end OneBrain.Api
