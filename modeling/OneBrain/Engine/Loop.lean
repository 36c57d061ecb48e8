import OneBrain.Engine.Spec

/-!
# The serve loop and the system around it

One pass of the serve loop is cut into blocks at the points where the outside
world can intervene: `deliver` (steps 1 and 2), `pump` (step 3, one message at a
time), `settle` (steps 4 to 6), `step` (steps 7 to 11) and `blocked` (the short
wait when nothing can step). Around it stand the host thread's phases, the message
channel, and the supervisor, which re-issues or fails the generations a
distributed decode failure interrupted.

A run is a list of labels. A client's label submits a job, other labels queue
the other messages, the supervisor's label settles one interrupted generation,
and `tick` lets the engine thread execute its next block. Client
reads and disconnects, samples and failures are the environment's.
-/

namespace OneBrain.Engine

/-- A message to the engine host. -/
inductive HostMsg
  | models
  /-- An embeddings request, served in a session of its own. -/
  | embed
  | generate (sup : SupervisedGenerate)
  | shutdown
  | ctrl (c : Ctrl)

/-! ### Blocks of the serve loop -/

/-- Steps 1 and 2. -/
def deliverBlock (env : Env) (cfg : Cfg) (s : Loop) : Loop :=
  let o := retryOutbox env s.host s.host.outbox
  let r := sweepActive (retryHeld env cfg) { o.1 with outbox := o.2 } s.active
  { s with host := r.1, active := retainActive r.2 }

/-- `pump_msg`, for the messages that do not end the thread. -/
def pumpMsg (env : Env) (cfg : Cfg) (s : Loop) : HostMsg → Loop
  | .generate sup =>
    let r := prepareGeneration env cfg s.host sup
    { s with host := r.1, queue := s.queue ++ r.2.toList }
  | .ctrl c => { s with ctrl := some c }
  | _ => s

/-- Steps 4, 4b and 5. -/
def settleBlock (env : Env) (cfg : Cfg) (s : Loop) : Loop :=
  let r := sweepActive (dropClosed env) s.host s.active
  let active := retainActive r.2
  let q := dropClosedQueue env r.1 s.queue
  let r := if s.ctrl.isSome then sweepActive (reapStalled env) q.1 active else (q.1, active)
  admission env cfg q.2 { s with host := r.1, active := retainActive r.2 }

/-- A push that failed: only the affected generation fails. -/
def failPush (env : Env) (s : Loop) (i : ℕ) (e : String) : Loop :=
  match s.active[i]? with
  | none => s
  | some g =>
    let r := failSeq env s.host g e
    { s with host := r.1, active := retainActive (s.active.set i r.2) }

/-- A successful plain decode and its bookkeeping. -/
def plainDecoded (env : Env) (cfg : Cfg) (s : Loop) (batch : List BatchTok) (decodes : List (ℕ × ℕ))
    (prefill : Option (ℕ × ℕ × Option ℕ)) : Loop :=
  let h := decodeOk s.host s.active batch
  let logits := logitsAt h batch
  let r := postDecodes env cfg logits decodes h s.active
  match prefill with
  | none => { s with host := r.1, active := retainActive r.2 }
  | some (i, chunk, tail) =>
    match r.2[i]? with
    | none => { s with host := r.1, active := retainActive r.2 }
    | some g =>
      let q := postPrefill env cfg r.1 g chunk ((tail.map logits).getD [])
      { s with host := q.1, active := retainActive (r.2.set i q.2) }

/-- The plain step; `true` when nothing could be stepped. -/
def plainStep (env : Env) (cfg : Cfg) (s : Loop) : Loop × Bool :=
  match buildDecodes cfg s.active 0 [] [] with
  | .error (i, e) => (failPush env s i e, false)
  | .ok (b, decodes) =>
    match buildPrefill cfg s.active 0 b with
    | .error (i, e) => (failPush env s i e, false)
    | .ok (batch, prefill) =>
      if decodes = [] ∧ prefill = none then (s, true)
      else
        match env.decodeFails s.host.clock with
        | some e => (decodeFailed env cfg s batch e, false)
        | none => (plainDecoded env cfg s batch decodes prefill, false)

/-- A speculative round of the single active generation. -/
def specStep (env : Env) (cfg : Cfg) (s : Loop) (g : ActiveGen) (pending : PendingTok) : Loop :=
  match buildSpecStep env cfg s.host g pending.tok with
  | (h, .error _) => { s with host := { h with synced := none }, specDisabled := true }
  | (h, .ok step) =>
    match env.decodeFails h.clock with
    | some e => decodeFailed env cfg { s with host := h } step.batch e
    | none =>
      let h := decodeOk h s.active step.batch
      let r := postSpec env cfg (logitsAt h step.batch) step h g pending
      { s with
        host := r.1
        active := retainActive [r.2.1]
        specDisabled := s.specDisabled || r.2.2 }

/-- The generation and pending token of a speculative round, when one is due. -/
def specTarget (cfg : Cfg) (s : Loop) : Option (ActiveGen × PendingTok) :=
  match s.active with
  | [g] =>
    if !s.specDisabled && specEligible g && cfg.hasDraft then g.pending.map fun p => (g, p) else none
  | _ => none

/-- Steps 7 to 11; `true` when nothing could be stepped. -/
def stepBlock (env : Env) (cfg : Cfg) (s : Loop) : Loop × Bool :=
  match cfg.batchError with
  | some _ => (s, false)
  | none =>
    match specTarget cfg s with
    | some (g, pending) => (specStep env cfg s g pending, false)
    | none => plainStep env cfg s

/-! ### Phases, messages and the supervisor -/

/-- Where the engine thread is inside the serve loop. -/
inductive Pc
  /-- Before step 1. -/
  | deliver
  /-- In step 3. -/
  | pump
  /-- Before step 4. -/
  | settle
  /-- Before step 7. -/
  | step
  /-- In the wait of step 7. -/
  | blocked
  deriving DecidableEq, Repr

/-- The phases of the host thread. -/
inductive Phase
  | idle
  | serving (cfg : Cfg) (pc : Pc)
  | stopped

/-- The whole system. -/
structure Sys where
  loop : Loop
  rx : List HostMsg
  phase : Phase
  /-- The epoch a shard is served for. -/
  shard : Option ℕ
  nextJob : JobId

/-- The loop's variables when a model phase starts: a new session has an empty
cache, and nothing of the previous phase's lists survives. -/
def startPhase (cfg : Cfg) (h : Host) : Loop :=
  { host :=
      { h with
        kv := fun _ => []
        draftKv := []
        synced := none
        free := (List.range cfg.nSeqMax).reverse
        outbox := []
        retained := [] }
    active := []
    queue := []
    nextUid := 0
    specDisabled := false
    ctrl := none }

/-- What the host thread does with a model-replacing message between phases. -/
def applyCtrl (s : Sys) : Ctrl → Sys
  | .load (some cfg) =>
    { s with loop := startPhase cfg s.loop.host, phase := .serving cfg .deliver }
  | .load none => { s with phase := .idle }
  | .unload => { s with phase := .idle }
  | .serveShard epoch => { s with phase := .idle, shard := some epoch }

/-- The refusal of a generation while no model is loaded. -/
def idleError (shard : Option ℕ) : String :=
  match shard with
  | some epoch =>
    noModel ++ " (this node is serving a pipeline shard for epoch " ++ toString epoch ++ "; "
      ++ "send generations to the cluster head)"
  | none => noModel

/-- A blocking send, seen from one moment: sent, given up because the client is
gone, or still waiting. -/
def blockingSend (env : Env) (h : Host) (j : JobId) (ev : TokenEvent) : Host × Bool :=
  match trySend env h j ev with
  | (h', .full) => (h', false)
  | (h', _) => (h', true)

/-- End a job outside the serve loop with a blocking send; `false` while it waits. -/
def endBlocking (env : Env) (h : Host) (e : JobRecord) (message : String) : Host × Bool :=
  match blockingSend env h e.job.id (.error message) with
  | (h', true) => (h'.finish e, true)
  | (h', false) => (h', false)

/-- The host of a system, replaced. -/
def Sys.setHost (s : Sys) (h : Host) : Sys := { s with loop := { s.loop with host := h } }

/-- The idle thread receives its next message. -/
def idleStep (env : Env) (s : Sys) : Sys :=
  match s.rx with
  | [] => s
  | msg :: rest =>
    match msg with
    | .generate sup =>
      let r := endBlocking env s.loop.host sup.ending (idleError s.shard)
      if r.2 then { s.setHost r.1 with rx := rest } else s.setHost r.1
    | .shutdown => { s with rx := rest, phase := .stopped }
    | .ctrl c => applyCtrl { s with rx := rest } c
    | _ => { s with rx := rest }

/-- Receive one message inside the serve loop, then go on at `pc`. -/
def receive (env : Env) (cfg : Cfg) (s : Sys) (pc : Pc) : Sys :=
  match s.rx with
  | [] => { s with phase := .serving cfg pc }
  | .shutdown :: rest => { s with rx := rest, phase := .stopped }
  | msg :: rest =>
    { s with loop := pumpMsg env cfg s.loop msg, rx := rest, phase := .serving cfg pc }

/-- Nothing runs, waits, or is parked. -/
def Loop.quiet (s : Loop) : Bool := s.active.isEmpty && s.queue.isEmpty && s.host.outbox.isEmpty

/-- Step 3: messages one at a time until the channel is empty or a model-replacing
message is taken; a fully idle loop stays on the channel. -/
def pumpStep (env : Env) (cfg : Cfg) (s : Sys) : Sys :=
  if s.loop.ctrl.isSome then { s with phase := .serving cfg .settle }
  else if s.rx = [] then
    if s.loop.quiet then s else { s with phase := .serving cfg .settle }
  else receive env cfg s .pump

/-- Step 6: with nothing active or queued, a pending model-replacing message ends
the phase and the parked terminals are dropped. -/
def barrier (s : Sys) (cfg : Cfg) : Sys :=
  match s.loop.ctrl with
  | some c =>
    if s.loop.active.isEmpty && s.loop.queue.isEmpty then
      applyCtrl { s with loop := { s.loop with host := { s.loop.host with outbox := [] }, ctrl := none } } c
    else { s with phase := .serving cfg .step }
  | none => { s with phase := .serving cfg .step }

/-- The engine thread executes its next block. -/
def tickStep (env : Env) (s : Sys) : Sys :=
  match s.phase with
  | .idle => idleStep env s
  | .stopped => s
  | .serving cfg .deliver =>
    { s with loop := deliverBlock env cfg s.loop, phase := .serving cfg .pump }
  | .serving cfg .pump => pumpStep env cfg s
  | .serving cfg .settle => barrier { s with loop := settleBlock env cfg s.loop } cfg
  | .serving cfg .step =>
    let r := stepBlock env cfg s.loop
    { s with loop := r.1, phase := .serving cfg (if r.2 then .blocked else .deliver) }
  | .serving cfg .blocked =>
    if s.loop.ctrl.isSome then { s with phase := .serving cfg .deliver }
    else receive env cfg s .deliver

/-- What the supervisor does with an interrupted generation. -/
inductive Decision
  | reissue
  | fail (message : String)
  deriving DecidableEq, Repr

/-- `handle_interrupted`, seen from the job: it is re-issued, or its stream is ended
with a blocking send. -/
def superviseStep (env : Env) (s : Sys) (i : ℕ) (d : Decision) : Sys :=
  match s.loop.host.interrupted[i]? with
  | none => s
  | some gen =>
    let h := { s.loop.host with interrupted := s.loop.host.interrupted.eraseIdx i }
    match d with
    | .reissue =>
      { s.setHost h with rx := s.rx ++ [.generate { job := gen.job, resume := some gen.state }] }
    | .fail message =>
      let r := endBlocking env h gen.ending message
      if r.2 then s.setHost r.1 else s.setHost { r.1 with interrupted := s.loop.host.interrupted }

/-- A request as a client makes it. -/
structure Request where
  model : String
  prompt : PromptInput
  maxTokens : ℕ
  temperature : ℚ
  stop : List Text
  deriving DecidableEq, Repr

/-- The job of a request. -/
def Request.toJob (r : Request) (id : JobId) : GenerateJob :=
  { id := id, model := r.model, prompt := r.prompt, maxTokens := r.maxTokens
    temperature := r.temperature, stop := r.stop }

/-- What can happen next. -/
inductive Label
  | submit (r : Request)
  | query
  | embed
  | control (c : Ctrl)
  | shutdown
  | supervise (i : ℕ) (d : Decision)
  | tick

/-- One step of the host thread. -/
def sysStep (env : Env) (s : Sys) : Label → Sys
  | .submit r =>
    { s with
      rx := s.rx ++ [.generate { job := r.toJob s.nextJob, resume := none }]
      nextJob := s.nextJob + 1 }
  | .query => { s with rx := s.rx ++ [.models] }
  | .embed => { s with rx := s.rx ++ [.embed] }
  | .control c => { s with rx := s.rx ++ [.ctrl c] }
  | .shutdown => { s with rx := s.rx ++ [.shutdown] }
  | .supervise i d => superviseStep env s i d
  | .tick => tickStep env s

/-- A run. -/
def run (env : Env) (s : Sys) (labels : List Label) : Sys := labels.foldl (sysStep env) s

/-- A host nothing has happened on. -/
def Host.init : Host :=
  { clock := 0, chans := fun _ => [], kv := fun _ => [], draftKv := [], synced := none, free := []
    outbox := [], retained := [], finished := [], interrupted := [], reaped := []
    decoded := fun _ => [], ends := fun _ => none }

/-- The daemon at start: no model loaded, no message, no job. -/
def Sys.init : Sys :=
  { loop := { host := Host.init, active := [], queue := [], nextUid := 0, specDisabled := false
              ctrl := none }
    rx := [], phase := .idle, shard := none, nextJob := 0 }

/-- A state of a run from the start. -/
def Reachable (env : Env) (s : Sys) : Prop := ∃ labels, s = run env Sys.init labels

/-- Induction over runs: what holds at the start and is kept by every step holds in
every reachable state. -/
theorem Reachable.induct {env : Env} {P : Sys → Prop} (h0 : P Sys.init)
    (hstep : ∀ s l, P s → P (sysStep env s l)) {s : Sys} (h : Reachable env s) : P s := by
  obtain ⟨labels, rfl⟩ := h
  have hrun : ∀ (ls : List Label) (s : Sys), P s → P (run env s ls) := by
    intro ls
    induction ls with
    | nil => exact fun s hs => hs
    | cons l ls ih => exact fun s hs => ih _ (hstep s l hs)
  exact hrun labels _ h0

end OneBrain.Engine
