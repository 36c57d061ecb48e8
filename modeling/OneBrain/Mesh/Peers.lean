import Mathlib.Data.List.Sort
import Mathlib.Logic.Function.Basic
import OneBrain.Lib.Positions

/-!
# Peers of the mesh: the store and what is kept for one endpoint

A node of the mesh knows other nodes by their endpoint ids, which QUIC authenticates. The
ids it is paired with are in a file, the peer store. With each of them it holds at most one
session on one connection; the session is driven by a task of its own, the session runner,
which writes the state the peer is shown in.

## The model

* Endpoint ids are numbers, ordered as the bytes of the ids are. A connection has an id of
  its own (`stable_id`), never used for a second connection of the same endpoint.
* `Peer` is what the service and its tasks keep for one endpoint id: the state in the live
  map, the entry of the session table, and the tasks that work for that endpoint.
* A session runner is a task of the runtime. It is polled, runs until it waits, and is
  polled again; `abort` keeps it from being polled again but does not stop a poll that is
  under way. A runner that is over is not in the list any more.
* The peer file can be read and written at any time; the fields of its records other than
  the name (addresses, versions) are read by no function here.
-/

namespace OneBrain.Mesh

/-- The public key of a node. -/
abbrev EndpointId := ℕ

/-- What tells two connections apart. -/
abbrev ConnId := ℕ

/-- A connection, seen from one of its ends. -/
structure Conn where
  /-- `stable_id`. -/
  id : ConnId
  /-- `remote_id`. -/
  remote : EndpointId
  deriving DecidableEq, Repr

/-- What is shown of a peer. -/
inductive PeerState where
  | unknown
  | reachable
  | connected
  | suspect
  | down
  | incompatible
  | draining
  deriving DecidableEq, Repr

/-- The errors a request to the service is answered with. -/
inductive MeshError where
  /-- No peer has this name; the names that are known. -/
  | unknownPeerName (name : String) (known : List String)
  | windowAlreadyOpen
  deriving DecidableEq, Repr

/-! ## The peer store -/

/-- A peer in the store. -/
structure PeerRecord where
  id : EndpointId
  name : String
  deriving DecidableEq, Repr

/-- The peer file: its records in the order of their ids. -/
abbrev PeerStore := List PeerRecord

namespace PeerStore

/-- Whether an endpoint is paired. -/
def contains (store : PeerStore) (id : EndpointId) : Bool := store.any fun record => record.id == id

/-- A character that `trim` removes: the Unicode property `White_Space`. -/
def isWhiteSpace (c : Char) : Bool :=
  let n := c.toNat
  (9 ≤ n && n ≤ 13) || n == 32 || n == 0x85 || n == 0xA0 || n == 0x1680 ||
    (0x2000 ≤ n && n ≤ 0x200A) || n == 0x2028 || n == 0x2029 || n == 0x202F || n == 0x205F ||
    n == 0x3000

/-- A name without the white space around it. -/
def trim (name : String) : String :=
  String.ofList ((name.toList.dropWhile isWhiteSpace).reverse.dropWhile isWhiteSpace).reverse

/-- The name asked for, or a default. -/
def baseName (wanted : String) : String :=
  if trim wanted = "" then "peer" else trim wanted

/-- The `n`-th name that is tried: the base, then the base with `-2`, `-3`, and so on. -/
def candidate (base : String) (n : ℕ) : String :=
  if n = 0 then base else s!"{base}-{n + 1}"

/-- The first name tried that no record has. -/
def freeName (names : List String) (base : String) : String :=
  (((List.range (names.length + 1)).map (candidate base)).find? fun name => !names.contains name).getD
    base

/-- Add a peer under a name of its own. A peer that is paired already keeps its record. -/
def add (store : PeerStore) (id : EndpointId) (wanted : String) : PeerStore :=
  if store.contains id then store
  else
    store.orderedInsert (fun a b => a.id ≤ b.id)
      ⟨id, freeName (store.map PeerRecord.name) (baseName wanted)⟩

/-- Remove a peer by name: its id and what is left, or the names there are. -/
def removeByName (store : PeerStore) (name : String) :
    Except MeshError (EndpointId × PeerStore) :=
  match store.find? fun record => record.name == name with
  | some record => .ok (record.id, store.filter fun other => other.id ≠ record.id)
  | none =>
    .error (.unknownPeerName name
      ((store.map PeerRecord.name).mergeSort fun a b => decide (a ≤ b)))

theorem contains_iff {store : PeerStore} {id : EndpointId} :
    store.contains id = true ↔ ∃ record ∈ store, record.id = id := by
  simp [contains]

@[simp] theorem contains_add {store : PeerStore} {id other : EndpointId} {wanted : String} :
    (store.add id wanted).contains other = (decide (id = other) || store.contains other) := by
  rw [Bool.eq_iff_iff, Bool.or_eq_true, decide_eq_true_eq]
  unfold add
  split
  · rename_i hin
    constructor
    · exact Or.inr
    · rintro (rfl | h)
      exacts [hin, h]
  · simp only [contains_iff, List.mem_orderedInsert]
    constructor
    · rintro ⟨record, rfl | hmem, hid⟩
      exacts [Or.inl hid, Or.inr ⟨record, hmem, hid⟩]
    · rintro (rfl | ⟨record, hmem, hid⟩)
      exacts [⟨_, Or.inl rfl, rfl⟩, ⟨record, Or.inr hmem, hid⟩]

theorem contains_removeByName {store left : PeerStore} {name : String} {id other : EndpointId}
    (h : store.removeByName name = .ok (id, left)) :
    left.contains other = (!decide (id = other) && store.contains other) := by
  unfold removeByName at h
  cases hfind : store.find? fun record => record.name == name with
  | none => simp only [hfind, reduceCtorEq] at h
  | some =>
    simp only [hfind, Except.ok.injEq, Prod.mk.injEq] at h
    obtain ⟨rfl, rfl⟩ := h
    rw [Bool.eq_iff_iff, Bool.and_eq_true, Bool.not_eq_true', decide_eq_false_iff_not]
    simp only [contains_iff, List.mem_filter, decide_eq_true_eq]
    constructor
    · rintro ⟨found, ⟨hmem, hne⟩, rfl⟩
      exact ⟨fun heq => hne heq.symm, found, hmem, rfl⟩
    · rintro ⟨hne, found, hmem, rfl⟩
      exact ⟨found, ⟨hmem, fun heq => hne heq.symm⟩, rfl⟩

/-! ### Names -/

/-- A pairing, or a request to unpair. -/
inductive Change where
  | adds (id : EndpointId) (wanted : String)
  | removes (name : String)

/-- The write lock makes a change one step; a removal that is refused changes nothing. -/
def change (store : PeerStore) : Change → PeerStore
  | .adds id wanted => store.add id wanted
  | .removes name =>
    match store.removeByName name with
    | .ok (_, left) => left
    | .error _ => store

/-- Each peer of the store has one record, and a name of its own. -/
structure Named (store : PeerStore) : Prop where
  ids : (store.map PeerRecord.id).Nodup
  names : (store.map PeerRecord.name).Nodup

theorem candidate_injective (base : String) : Function.Injective (candidate base) := by
  intro m n h
  have htext : (candidate base m).toList = (candidate base n).toList := congrArg _ h
  by_cases hm : m = 0 <;> by_cases hn : n = 0 <;> simp [candidate, hm, hn, ToString.toString] at htext
  · rw [hm, hn]
  · simpa using congrArg (fun digits => Nat.ofDigitChars 10 digits 0) htext

/-- Of one name more than there are records, one is free. -/
theorem freeName_not_mem (names : List String) (base : String) : freeName names base ∉ names := by
  unfold freeName
  cases hfind : ((List.range (names.length + 1)).map (candidate base)).find? fun name => !names.contains name with
  | some name => simpa using List.find?_some hfind
  | none =>
    have hsub : (List.range (names.length + 1)).map (candidate base) ⊆ names := by
      intro name hname
      simpa using List.find?_eq_none.mp hfind name hname
    have hlen := ((List.nodup_range.map (candidate_injective base)).subperm hsub).length_le
    simp only [List.length_map, List.length_range] at hlen
    omega

section
variable {store : PeerStore} (hs : store.Named)
include hs

theorem Named.add (id : EndpointId) (wanted : String) : (store.add id wanted).Named := by
  unfold PeerStore.add
  split
  · exact hs
  · rename_i hnew
    have hperm := fun record => List.perm_orderedInsert (fun a b : PeerRecord => a.id ≤ b.id) record store
    refine ⟨((hperm _).map PeerRecord.id).nodup_iff.mpr (List.nodup_cons.mpr ⟨?_, hs.ids⟩),
      ((hperm _).map PeerRecord.name).nodup_iff.mpr (List.nodup_cons.mpr ⟨freeName_not_mem _ _, hs.names⟩)⟩
    intro hmem
    obtain ⟨record, hrecord, hid⟩ := List.mem_map.mp hmem
    exact hnew (contains_iff.mpr ⟨record, hrecord, hid⟩)

theorem Named.change (c : Change) : (store.change c).Named := by
  cases c with
  | adds id wanted => exact hs.add id wanted
  | removes name =>
    simp only [PeerStore.change, removeByName]
    cases store.find? fun record => record.name == name with
    | none => exact hs
    | some => exact ⟨(List.filter_sublist.map _).nodup hs.ids, (List.filter_sublist.map _).nodup hs.names⟩

theorem Named.removeByName {record : PeerRecord} (hmem : record ∈ store) :
    store.removeByName record.name = .ok (record.id, store.filter (· ≠ record)) := by
  have hfind : (store.find? fun other => other.name == record.name) = some record := by
    cases hfind : store.find? fun other => other.name == record.name with
    | none => simpa using List.find?_eq_none.mp hfind record hmem
    | some other =>
      have hname : other.name = record.name := by simpa using List.find?_some hfind
      rw [List.inj_on_of_nodup_map hs.names (List.mem_of_find?_eq_some hfind) hmem hname]
  simp only [PeerStore.removeByName, hfind]
  congr 2
  refine List.filter_congr fun other hother => decide_eq_decide.mpr (not_congr ⟨fun h => ?_, congrArg _⟩)
  exact List.inj_on_of_nodup_map hs.ids hother hmem h

/-- **Names tell peers apart**: after any pairings and removals of a store whose names do, they still do, each
peer has one record, and its name takes out its record and no other. -/
theorem names_tell_apart (changes : List Change) : (changes.foldl PeerStore.change store).Named ∧
    ∀ record ∈ changes.foldl PeerStore.change store, (changes.foldl PeerStore.change store).removeByName record.name =
      .ok (record.id, (changes.foldl PeerStore.change store).filter (· ≠ record)) := by
  have hnamed : (changes.foldl PeerStore.change store).Named := by
    induction changes generalizing store with
    | nil => exact hs
    | cons c changes ih => exact ih (hs.change c)
  exact ⟨hnamed, fun record hmem => hnamed.removeByName hmem⟩

end

theorem names_tell_apart_twins : ([.adds 1 " a", .adds 2 "a"].foldl change []).removeByName "a-2" = .ok (2, [⟨1, "a"⟩]) :=
  (@names_tell_apart [] ⟨List.nodup_nil, List.nodup_nil⟩ [.adds 1 " a", .adds 2 "a"]).2 ⟨2, "a-2"⟩ (by decide +kernel)

end PeerStore

/-! ## Session runners -/

/-- Where a session runner is. -/
inductive Stage where
  | hello
  /-- The session is established: heartbeats run and streams of the peer are accepted. -/
  | established
  /-- The session is over; the runner reports its end to the service. -/
  | leaving
  deriving DecidableEq, Repr

/-- The task of a connection. -/
structure Runner where
  conn : Conn
  dialer : Bool
  stage : Stage
  running : Bool
  /-- It was told to stop: it is not polled again. -/
  aborted : Bool
  deriving DecidableEq, Repr

/-- What a session runner does next. -/
inductive RunnerStep where
  | poll
  | yields
  /-- The runtime drops it, after an abort. -/
  | cancels
  | helloOk (compatible : Bool)
  /-- The exchange of hellos fails, or takes too long. -/
  | helloFails (timedOut : Bool)
  /-- A turn of the heartbeat writes the state: an echo came back, or three are missing. -/
  | beats (echoed : Bool)
  /-- The session is over: the heartbeat is lost, or the connection was closed. -/
  | ends (lost : Bool)
  | reports
  deriving DecidableEq, Repr

/-- What a step of a runner does: what is left of it, the state it writes in the live map,
whether it closes its connection, and whether it reports the end of the session. -/
structure Outcome where
  runner : Option Runner
  writes : Option PeerState
  closes : Bool
  reports : Bool
  deriving DecidableEq, Repr

/-- A step of a runner that loses its connection, or gives it up. -/
def RunnerStep.loses : RunnerStep → Bool
  | .helloOk compatible => !compatible
  | .helloFails _ | .ends _ => true
  | _ => false

namespace Runner

/-- It goes on with no other effect. -/
def goesOn (r : Runner) : Outcome := ⟨some r, none, false, false⟩

/-- **One step of a session runner.** `closed` says whether its connection is closed. -/
def step (r : Runner) (closed : Bool) : RunnerStep → Option Outcome
  | .poll =>
    if r.running = false ∧ r.aborted = false then some (goesOn { r with running := true }) else none
  | .yields => if r.running then some (goesOn { r with running := false }) else none
  | .cancels =>
    if r.running = false ∧ r.aborted = true then some ⟨none, none, false, false⟩ else none
  | .helloOk compatible =>
    if r.running = true ∧ r.stage = .hello then
      if compatible then
        some ⟨some { r with stage := .established }, some .connected, false, false⟩
      else some ⟨some { r with stage := .leaving }, some .incompatible, true, false⟩
    else none
  | .helloFails timedOut =>
    if r.running = true ∧ r.stage = .hello then
      some ⟨some { r with stage := .leaving }, none, timedOut, false⟩
    else none
  | .beats echoed =>
    if r.running = true ∧ r.stage = .established then
      some ⟨some r, some (if echoed then .connected else .suspect), false, false⟩
    else none
  | .ends lost =>
    if r.running = true ∧ r.stage = .established ∧ (lost = true ∨ closed = true) then
      some ⟨some { r with stage := .leaving }, some .down, lost, false⟩
    else none
  | .reports =>
    if r.running = true ∧ r.stage = .leaving then some ⟨none, none, false, true⟩ else none

/-- **What a step leaves of a runner.** It keeps its connection, and goes on unless it loses
it; or it is gone, because it was aborted, or to report its end. -/
theorem step_runner {r : Runner} {closed : Bool} {step : RunnerStep} {o : Outcome} (h : r.step closed step = some o) :
    (∃ r', o.runner = some r' ∧ r'.conn = r.conn ∧ r'.dialer = r.dialer ∧
        r'.aborted = r.aborted ∧ o.reports = false ∧
        (step.loses = false → o.closes = false ∧ (r.stage ≠ .leaving → r'.stage ≠ .leaving))) ∨
      (o.runner = none ∧ o.closes = false ∧ (r.aborted = true ∨ r.stage = .leaving)) := by
  cases step <;> simp only [Runner.step] at h <;> split_ifs at h <;> obtain rfl := Option.some.inj h
  all_goals first
    | exact .inl ⟨_, rfl, rfl, rfl, rfl, rfl, fun hl => by simp_all [RunnerStep.loses, goesOn]⟩
    | exact .inr ⟨rfl, rfl, by simp_all⟩

end Runner

/-! ## What is kept for one endpoint -/

/-- An entry of the session table. -/
structure Session where
  conn : Conn
  dialer : Bool
  deriving DecidableEq, Repr

/-- What the service and its tasks keep for one endpoint. -/
structure Peer where
  live : Option PeerState := none
  session : Option Session := none
  runners : List Runner := []
  dials : ℕ := 0
  /-- Mesh connections that passed the check of the store and are not yet queued. -/
  accepting : List ConnId := []
  /-- Connections on which the blob provider serves the endpoint. -/
  blobs : List ConnId := []
  /-- Streams and control messages that reached a stream task and are not served yet. -/
  received : List ConnId := []
  seen : List ConnId := []
  /-- Connections that are closed, as far as this node knows. -/
  closed : List ConnId := []
  deriving DecidableEq, Repr

namespace Peer

/-- Close a connection. -/
def close (p : Peer) (c : ConnId) : Peer := { p with closed := c :: p.closed }

/-- Whether the runner of a session is over (`runner.is_finished`). -/
def finished (p : Peer) (c : ConnId) : Bool := p.runners.all fun r => r.conn.id != c

/-- Stop the runner of a connection. -/
def abort (p : Peer) (c : ConnId) : Peer :=
  { p with runners := p.runners.map fun r => if r.conn.id = c then { r with aborted := true } else r }

/-- Spawn tasks that dial the endpoint. -/
def dial (p : Peer) (n : ℕ) : Peer := { p with dials := p.dials + n }

/-- Start the runner of a connection. -/
def spawn (p : Peer) (conn : Conn) (dialer : Bool) : Peer :=
  { p with
    runners := ⟨conn, dialer, .hello, false, false⟩ :: p.runners
    session := some ⟨conn, dialer⟩ }

/-- Whether a second connection takes the place of the one in the table: the connection
dialed by the lower endpoint id stays. -/
def newWins (iAmLower dialer existing : Bool) : Bool := dialer == iAmLower && existing != iAmLower

/-- Take on a mesh connection with the endpoint. -/
def adoptConn (p : Peer) (iAmLower : Bool) (conn : Conn) (dialer : Bool) : Peer :=
  match p.session with
  | none => p.spawn conn dialer
  | some existing =>
    if p.finished existing.conn.id then
      -- a stale entry: the report of its end is still queued
      (p.close existing.conn.id).spawn conn dialer
    else if newWins iAmLower dialer existing.dialer then
      ((p.abort existing.conn.id).close existing.conn.id).spawn conn dialer
    else p.close conn.id

/-- Drop the session of the endpoint, for the request to unpair it. -/
def unpair (p : Peer) : Peer :=
  match p.session with
  | some existing =>
    { (p.abort existing.conn.id).close existing.conn.id with session := none, live := none }
  | none => { p with live := none }

/-- A session reports its end: its entry goes, unless another connection has taken over. -/
def sessionEnded (p : Peer) (c : ConnId) : Peer :=
  if p.session.any fun existing => existing.conn.id == c then { p with session := none } else p

/-- A step of one of the endpoint's session runners: what is left, and the connection whose
end it reports. -/
def runnerStep (p : Peer) (i : ℕ) (step : RunnerStep) : Option (Peer × Option ConnId) :=
  match p.runners[i]? with
  | none => none
  | some r =>
    (r.step (p.closed.contains r.conn.id) step).map fun o =>
      ({ p with
          runners := match o.runner with
            | some r => p.runners.set i r
            | none => p.runners.eraseIdx i
          live := o.writes.or p.live
          closed := if o.closes then r.conn.id :: p.closed else p.closed },
        if o.reports then some r.conn.id else none)

/-- The runners a step leaves: those there were, with the one that took it as it is now, if it
goes on. -/
theorem mem_runners {p : Peer} {i : ℕ} {r w : Runner} (hat : p.runners[i]? = some r) (goes : Option Runner) :
    (w ∈ match goes with
      | some r => p.runners.set i r
      | none => p.runners.eraseIdx i) ↔ goes = some w ∨ w ∈ p.runners.eraseIdx i := by
  cases goes with
  | some => simp only [Lib.mem_set_or hat, Option.some.injEq, eq_comm]
  | none => simp

theorem runnerStep_eq_some {p left : Peer} {i : ℕ} {step : RunnerStep} {ended : Option ConnId}
    (h : p.runnerStep i step = some (left, ended)) :
    ∃ r o, p.runners[i]? = some r ∧ r.step (p.closed.contains r.conn.id) step = some o ∧
      left = { p with
        runners := match o.runner with
          | some r => p.runners.set i r
          | none => p.runners.eraseIdx i
        live := o.writes.or p.live
        closed := if o.closes then r.conn.id :: p.closed else p.closed } ∧
      ended = if o.reports then some r.conn.id else none := by
  unfold runnerStep at h
  cases hat : p.runners[i]? with
  | none => simp only [hat, reduceCtorEq] at h
  | some r =>
    simp only [hat] at h
    obtain ⟨o, ho, heq⟩ := Option.map_eq_some_iff.mp h
    obtain ⟨rfl, rfl⟩ := Prod.mk.inj heq
    exact ⟨r, o, rfl, ho, rfl, rfl⟩

end Peer

end OneBrain.Mesh
