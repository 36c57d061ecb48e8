import OneBrain.Lib.Runs
import OneBrain.Mesh.Peers

/-!
# The mesh service

One task owns the session table, the pairing window and the dialing of a node. It works
through a queue of messages, one at a time: requests of the daemon, connections taken on by
the accept loop, results of its own dial and pairing tasks, reports of session runners, and
what discovery and the reconnect timer send. Everything else runs beside it: the accept
loop, which looks into the peer store before it passes a connection on; dial tasks; session
runners; pairing attempts; the blob provider.

## The model

`Service` is the state of the service and of all these tasks. A handler (`handle`) is one
step; so is each stretch of a task between two points where another task can come in
between. `machine` has a label for each of them, so a run is one interleaving.

* A message is put in the queue by a step of its own where the source waits for room in the
  channel after it decided to send.
* Times are in milliseconds. `elapses` lets time pass.
* Whether a confirm is right, whether a hello is exchanged, and when a connection is closed
  by the other end or lost, is in the labels.
* A pairing connection is followed through the attempt made on it; when it is closed is not
  recorded.
* Not modelled: the requests that only read (`peers`, `probe`, opening streams, fetching
  blobs), the addresses a peer is dialed at, and the shutdown of the service.
-/

namespace OneBrain.Mesh

/-- How many attempts a window allows. -/
def pairAttempts : ℕ := 3

/-- The first delay after a failed dial, in milliseconds. -/
def reconnectBackoffBase : ℕ := 3000

/-- The longest delay after a failed dial. -/
def reconnectBackoffCap : ℕ := 30000

/-- When a peer may be dialed again. -/
structure Backoff where
  nextAt : ℕ
  delay : ℕ
  deriving DecidableEq, Repr

/-- An open pairing window. -/
structure Window where
  id : ℕ
  attemptsLeft : ℕ
  deadline : ℕ
  deriving DecidableEq, Repr

/-- The other device, as learned from a pairing that succeeded. -/
structure PairOutcome where
  peer : EndpointId
  nodeName : String
  deriving DecidableEq, Repr

/-- Where the host's side of a pairing attempt is. -/
inductive AttemptStage where
  /-- Keys are exchanged; no confirm has been compared. -/
  | exchanging
  /-- The joiner's confirm was right; the host has sent its own, and introduced itself. -/
  | verified
  /-- The attempt has its result, which is not queued yet. -/
  | done (result : Option PairOutcome)
  deriving DecidableEq, Repr

/-- The host's side of a pairing attempt. -/
structure Attempt where
  window : ℕ
  conn : Conn
  stage : AttemptStage
  deriving DecidableEq, Repr

/-- The messages of the service's queue. -/
inductive Internal where
  | pairStart
  | unpair (name : String)
  | incomingPair (conn : Conn)
  | incomingMesh (conn : Conn)
  | pairHostDone (window : ℕ) (result : Option PairOutcome)
  | windowTimeout (window : ℕ)
  | joinedPeer (peer : EndpointId)
  | dialDone (peer : EndpointId) (conn : Option Conn)
  | tryDial (peer : EndpointId)
  | sessionEnded (peer : EndpointId) (conn : ConnId)
  | discovered (peer : EndpointId)
  | discoveryExpired (peer : EndpointId)
  | reconnectTick
  deriving DecidableEq, Repr

/-- What the daemon, the discovery and the timers send: messages that come with no work of
a task modelled here. -/
def Internal.outside : Internal → Bool
  | .pairStart | .unpair _ | .tryDial _ | .discovered _ | .discoveryExpired _ | .reconnectTick =>
    true
  | _ => false

/-- The mesh service and the tasks that work for it. -/
structure Service where
  me : EndpointId
  /-- How long a pairing window is open. -/
  pairWindow : ℕ
  store : PeerStore
  now : ℕ := 0
  peers : EndpointId → Peer := fun _ => {}
  dialing : EndpointId → Bool := fun _ => false
  discovered : EndpointId → Bool := fun _ => false
  reconnect : EndpointId → Option Backoff := fun _ => none
  window : Option Window := none
  windowSeq : ℕ := 0
  queue : List Internal := []
  attempts : List Attempt := []
  /-- The windows whose timer runs, with its deadline. -/
  timers : List (ℕ × ℕ) := []
  /-- Hosts this node joined that are stored; the message about them is not queued yet. -/
  joined : List EndpointId := []

namespace Service

/-- Change what is kept for one endpoint. -/
def setPeer (s : Service) (peer : EndpointId) (p : Peer) : Service :=
  { s with peers := Function.update s.peers peer p }

/-- Put a message in the queue. -/
def send (s : Service) (m : Internal) : Service := { s with queue := s.queue ++ [m] }

/-- What is shown of a peer. -/
def peerState (s : Service) (peer : EndpointId) : PeerState :=
  (s.peers peer).live.getD (if s.discovered peer then .reachable else .unknown)

/-! ## Sessions -/

/-- Dial a paired peer there is no session with, unless a dial is under way or the peer is
known to be incompatible. -/
def ensureSession (s : Service) (peer : EndpointId) : Service :=
  if peer = s.me ∨ (s.peers peer).session.isSome = true ∨ s.dialing peer = true then s
  else if s.store.contains peer = false then s
  else if (s.peers peer).live = some .incompatible then s
  else
    { s.setPeer peer ((s.peers peer).dial 1) with
      dialing := Function.update s.dialing peer true }

/-- The delay after a failed dial: it doubles, up to the cap. -/
def noteDialFailure (s : Service) (peer : EndpointId) : Service :=
  let entry := (s.reconnect peer).getD ⟨s.now, reconnectBackoffBase⟩
  { s with
    reconnect := Function.update s.reconnect peer
      (some ⟨s.now + entry.delay, min (entry.delay * 2) reconnectBackoffCap⟩) }

/-- Dial the peer again at once. -/
def forgetBackoff (s : Service) (peer : EndpointId) : Service :=
  { s with reconnect := Function.update s.reconnect peer none }

/-- Whether the next dial of a peer has to wait. -/
def backedOff (s : Service) (peer : EndpointId) : Bool :=
  (s.reconnect peer).any fun backoff => decide (s.now < backoff.nextAt)

/-- What a pass of the reconnect loop does for one stored peer. -/
def reconnectPeer (s : Service) (peer : EndpointId) : Service :=
  if (s.peers peer).session.isSome = true ∨ s.dialing peer = true then s
  else if s.backedOff peer = true then s
  else s.ensureSession peer

/-- One pass of the reconnect loop. -/
def reconnectTick (s : Service) : Service :=
  (s.store.map PeerRecord.id).foldl reconnectPeer s

/-- Take a connection on. -/
def adoptConn (s : Service) (conn : Conn) (dialer : Bool) : Service :=
  if conn.remote = s.me then s.setPeer conn.remote ((s.peers conn.remote).close conn.id)
  else
    (s.forgetBackoff conn.remote).setPeer conn.remote
      ((s.peers conn.remote).adoptConn (decide (s.me < conn.remote)) conn dialer)

/-- The request to unpair a peer, with its answer. -/
def unpair (s : Service) (name : String) : Service × Except MeshError Unit :=
  match s.store.removeByName name with
  | .error err => (s, .error err)
  | .ok (peer, store) =>
    ({ (s.forgetBackoff peer).setPeer peer (s.peers peer).unpair with
        store := store
        dialing := Function.update s.dialing peer false }, .ok ())

/-! ## Pairing -/

/-- Open a window with a new number. -/
def openWindow (s : Service) : Service :=
  { s with
    windowSeq := s.windowSeq + 1
    window := some ⟨s.windowSeq + 1, pairAttempts, s.now + s.pairWindow⟩
    timers := s.timers ++ [(s.windowSeq + 1, s.now + s.pairWindow)] }

/-- The request to open a pairing window, with its answer. -/
def pairStart (s : Service) : Service × Except MeshError Unit :=
  match s.window with
  | some window =>
    if s.now < window.deadline ∧ 0 < window.attemptsLeft then (s, .error .windowAlreadyOpen)
    else (s.openWindow, .ok ())
  | none => (s.openWindow, .ok ())

/-- A pairing connection: an attempt starts if a window is open, and has attempts left. The
connection is closed otherwise. -/
def incomingPair (s : Service) (conn : Conn) : Service :=
  match s.window with
  | none => s
  | some window =>
    if window.deadline ≤ s.now ∨ window.attemptsLeft = 0 then s
    else { s with attempts := s.attempts ++ [⟨window.id, conn, .exchanging⟩] }

/-- A pairing attempt is over: it counts only if its window is still the open one. -/
def pairHostDone (s : Service) (id : ℕ) (result : Option PairOutcome) : Service :=
  match s.window with
  | none => s
  | some window =>
    if window.id ≠ id then s
    else
      match result with
      | some outcome =>
        ({ s with
            store := s.store.add outcome.peer outcome.nodeName
            window := none }.forgetBackoff outcome.peer).ensureSession outcome.peer
      | none =>
        { s with
          window :=
            if window.attemptsLeft - 1 = 0 then none
            else some { window with attemptsLeft := window.attemptsLeft - 1 } }

/-- The timer of a window has run out. -/
def windowTimeout (s : Service) (id : ℕ) : Service :=
  if s.window.any fun window => window.id == id then { s with window := none } else s

/-! ## The handlers -/

/-- **What the service does with a message.** -/
def handle (s : Service) : Internal → Service
  | .pairStart => s.pairStart.1
  | .unpair name => (s.unpair name).1
  | .incomingPair conn => s.incomingPair conn
  | .incomingMesh conn => s.adoptConn conn false
  | .pairHostDone id result => s.pairHostDone id result
  | .windowTimeout id => s.windowTimeout id
  | .joinedPeer peer => (s.forgetBackoff peer).ensureSession peer
  | .dialDone peer conn =>
    let s := { s with dialing := Function.update s.dialing peer false }
    match conn with
    | some conn => s.adoptConn conn true
    | none => s.noteDialFailure peer
  | .tryDial peer => s.ensureSession peer
  | .sessionEnded peer conn => s.setPeer peer ((s.peers peer).sessionEnded conn)
  | .discovered peer =>
    if peer = s.me then s
    else
      let s := { s with discovered := Function.update s.discovered peer true }
      if s.store.contains peer then (s.forgetBackoff peer).ensureSession peer else s
  | .discoveryExpired peer => { s with discovered := Function.update s.discovered peer false }
  | .reconnectTick => s.reconnectTick

end Service

/-! ## Steps and runs -/

/-- The protocols a connection can be opened for. -/
inductive Alpn where
  | pair
  | mesh
  | blobs
  deriving DecidableEq, Repr

/-- What the host's side of a pairing attempt does next. -/
inductive AttemptStep where
  /-- It compares the joiner's confirm with the one it expects. -/
  | compares (right : Bool)
  /-- It reads how the joiner introduces itself. -/
  | introduced (nodeName : String)
  /-- It fails: a stream is lost, the protocol is broken, or the time is over. -/
  | fails
  | reports
  deriving DecidableEq, Repr

/-- The host's side of a pairing attempt after a step; `none` is a step it cannot take. -/
def Attempt.step (a : Attempt) : AttemptStep → Option Attempt
  | .compares right =>
    if a.stage = .exchanging then
      some { a with stage := if right then .verified else .done none }
    else none
  | .introduced nodeName =>
    if a.stage = .verified then
      some { a with stage := .done (some ⟨a.conn.remote, nodeName⟩) }
    else none
  | .fails => if a.stage = .done none then none else some { a with stage := .done none }
  | .reports => none

/-- What an attempt that is over reports. -/
def Attempt.result : Attempt → Option (Option PairOutcome)
  | ⟨_, _, .done result⟩ => some result
  | _ => none

/-- The steps of the service and of its tasks. -/
inductive Label where
  /-- The service takes the next message of its queue. -/
  | handles
  /-- The daemon, the discovery or a timer sends a message. -/
  | posts (m : Internal)
  | elapses (ms : ℕ)
  /-- The accept loop has a new connection, and looks into the store. -/
  | accepts (conn : Conn) (alpn : Alpn)
  /-- The accept loop queues a mesh connection that passed. -/
  | passes (peer : EndpointId) (i : ℕ)
  /-- A dial is over, with a connection or without. -/
  | dialEnds (peer : EndpointId) (conn : Option ConnId)
  /-- A connection is closed by the other end, or lost. -/
  | closes (peer : EndpointId) (conn : ConnId)
  | runner (peer : EndpointId) (i : ℕ) (step : RunnerStep)
  /-- A stream or a control message of the peer reaches a stream task of a session. -/
  | receives (peer : EndpointId) (conn : ConnId)
  /-- A stream or a control message of the peer is served: handed on, or answered. -/
  | serves (peer : EndpointId) (i : ℕ)
  /-- A stream or a control message is dropped. -/
  | drops (peer : EndpointId) (i : ℕ)
  /-- The blob provider answers a request on one of its connections. -/
  | servesBlob (peer : EndpointId) (i : ℕ)
  /-- The blob provider is done with a connection. -/
  | endsBlob (peer : EndpointId) (i : ℕ)
  /-- A pairing attempt of the host takes a step. -/
  | attempt (i : ℕ) (step : AttemptStep)
  /-- The timer of a pairing window fires. -/
  | timer (i : ℕ)
  /-- This node has joined a host, and stores it. -/
  | joins (host : EndpointId) (nodeName : String)
  /-- The message about a host that was joined is queued. -/
  | reportsJoin (i : ℕ)
  deriving DecidableEq, Repr

/-- The time that passes in a step. -/
def Label.elapsed : Label → ℕ
  | .elapses ms => ms
  | _ => 0

namespace Peer

/-- Register a new connection; one id is never used twice. -/
def enter (p : Peer) (c : ConnId) : Option Peer :=
  if c ∈ p.seen then none else some { p with seen := c :: p.seen }

/-- Whether a stream task of the connection is there to read from it. -/
def reads (p : Peer) (c : ConnId) : Bool :=
  (p.runners.any fun r => r.conn.id == c && r.stage == .established) && !p.closed.contains c

end Peer

namespace Service

/-- A step of a task that touches what is kept for one endpoint only. -/
def atPeer (s : Service) (peer : EndpointId) (f : Peer → Option Peer) : Option Service :=
  (f (s.peers peer)).map fun p => s.setPeer peer p

/-- The accept loop has a new connection. Pairing connections are passed on; the others are
closed unless the peer store lists their remote. -/
def accept (s : Service) (conn : Conn) : Alpn → Option Service
  | .pair => some (s.send (.incomingPair conn))
  | .mesh =>
    ((s.peers conn.remote).enter conn.id).map fun p =>
      s.setPeer conn.remote
        (if s.store.contains conn.remote then { p with accepting := p.accepting ++ [conn.id] }
          else p.close conn.id)
  | .blobs =>
    ((s.peers conn.remote).enter conn.id).map fun p =>
      s.setPeer conn.remote
        (if s.store.contains conn.remote then { p with blobs := p.blobs ++ [conn.id] }
          else p.close conn.id)

/-- The accept loop queues a mesh connection that passed the check. -/
def pass (s : Service) (peer : EndpointId) (i : ℕ) : Option Service :=
  ((s.peers peer).accepting[i]?).map fun c =>
    (s.setPeer peer { s.peers peer with accepting := (s.peers peer).accepting.eraseIdx i }).send
      (.incomingMesh ⟨c, peer⟩)

/-- A dial task is over. -/
def dialEnd (s : Service) (peer : EndpointId) (conn : Option ConnId) : Option Service :=
  if (s.peers peer).dials = 0 then none
  else
    let p := { s.peers peer with dials := (s.peers peer).dials - 1 }
    match conn with
    | none => some ((s.setPeer peer p).send (.dialDone peer none))
    | some c =>
      (p.enter c).map fun p => (s.setPeer peer p).send (.dialDone peer (some ⟨c, peer⟩))

/-- A session runner takes a step; the report of its end is queued. -/
def runnerStep (s : Service) (peer : EndpointId) (i : ℕ) (step : RunnerStep) : Option Service :=
  ((s.peers peer).runnerStep i step).map fun (p, ended) =>
    match ended with
    | some c => (s.setPeer peer p).send (.sessionEnded peer c)
    | none => s.setPeer peer p

/-- A pairing attempt takes a step; its result is queued when it is over. -/
def attemptStep (s : Service) (i : ℕ) (step : AttemptStep) : Option Service :=
  match s.attempts[i]? with
  | none => none
  | some a =>
    match step with
    | .reports =>
      a.result.map fun result =>
        { s with attempts := s.attempts.eraseIdx i }.send (.pairHostDone a.window result)
    | step => (a.step step).map fun a => { s with attempts := s.attempts.set i a }

/-- **One step.** -/
def next (s : Service) : Label → Option Service
  | .handles =>
    match s.queue with
    | [] => none
    | m :: rest => some ({ s with queue := rest }.handle m)
  | .posts m => if m.outside then some (s.send m) else none
  | .elapses ms => some { s with now := s.now + ms }
  | .accepts conn alpn => s.accept conn alpn
  | .passes peer i => s.pass peer i
  | .dialEnds peer conn => s.dialEnd peer conn
  | .closes peer c => s.atPeer peer fun p => if c ∈ p.seen then some (p.close c) else none
  | .runner peer i step => s.runnerStep peer i step
  | .receives peer c =>
    s.atPeer peer fun p =>
      if p.reads c then some { p with received := p.received ++ [c] } else none
  | .serves peer i | .drops peer i =>
    s.atPeer peer fun p =>
      if i < p.received.length then some { p with received := p.received.eraseIdx i } else none
  | .servesBlob peer i =>
    s.atPeer peer fun p => if i < p.blobs.length then some p else none
  | .endsBlob peer i =>
    s.atPeer peer fun p =>
      if i < p.blobs.length then some { p with blobs := p.blobs.eraseIdx i } else none
  | .attempt i step => s.attemptStep i step
  | .timer i =>
    match s.timers[i]? with
    | none => none
    | some (id, deadline) =>
      if deadline ≤ s.now then
        some ({ s with timers := s.timers.eraseIdx i }.send (.windowTimeout id))
      else none
  | .joins host nodeName =>
    some { s with store := s.store.add host nodeName, joined := s.joined ++ [host] }
  | .reportsJoin i =>
    (s.joined[i]?).map fun host =>
      { s with joined := s.joined.eraseIdx i }.send (.joinedPeer host)

/-- A node that starts: its id, how long its windows are open, and the peers it has stored. -/
def machine (me : EndpointId) (pairWindow : ℕ) (store : PeerStore) : Lib.Machine Service Label :=
  ⟨{ me, pairWindow, store }, next⟩

end Service

end OneBrain.Mesh
