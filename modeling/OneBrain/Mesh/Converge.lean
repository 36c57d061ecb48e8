import OneBrain.Mesh.Sessions
import OneBrain.Mesh.LiveState
import OneBrain.Mesh.Windows

/-!
# Two nodes that dial each other

Two paired nodes may dial each other at the same time, and then there are two connections
between them. Each node adopts both, in the order in which they reach its queue, and keeps
one: the connection dialed by the node with the lower id. A node that closes a connection
does not ask the other; the other learns of it when it looks, which may be before or after
it has adopted anything.

`Net` is two services and the connections between them. Every step of either service is a
step of it, with these exceptions, which say what the two dial and lose:

* each node has one dial that returns a connection (`connects`), and the other node's accept
  loop sees that connection and no other;
* no connection between the two is lost: a session runner fails or ends only once its
  connection is closed, one node learns that a connection is closed only after the other has
  closed it, and neither finds the other incompatible, or unpairs it.

**`simultaneous_connect_converges`**: once both nodes have taken on both connections and
nothing about them is waiting, both have their session on the connection dialed by the
lower id, and the other connection is closed at both ends.

The argument is one invariant of either end (`EndOk`): a connection that an end has taken on
waits in its queue, is closed, or has a runner that is neither aborted nor over. The winner
is never closed: each end closes a connection only in favour of the winner, or when its
runner is over.
-/

namespace OneBrain.Mesh

open Function List

/-- The two nodes: the one with the lower endpoint id, and the other. -/
inductive Side where
  | low
  | high
  deriving DecidableEq, Repr

/-- The other side. -/
def Side.other : Side → Side
  | .low => .high
  | .high => .low

/-- Whether a node is the one with the lower id. -/
def Side.isLow : Side → Bool
  | .low => true
  | .high => false

/-- Two nodes, and the connections they dialed. -/
structure Net where
  node : Side → Service
  dialed : Side → Option ConnId

/-- The steps of the two nodes. -/
inductive NetLabel where
  /-- A dial of a node reaches the other: there is a connection. -/
  | connects (d : Side) (c : ConnId)
  | step (d : Side) (l : Label)

namespace Net

variable (ids : Side → EndpointId)

/-- What a node knows of the other. -/
def peer (net : Net) (d : Side) : Peer := (net.node d).peers (ids d.other)

/-- The steps a node can take: it meets no connection of the other but the one the other
dialed, none is lost, and the two stay paired. -/
def allows (net : Net) (d : Side) (l : Label) : Bool :=
  (net.node d).unpairing l != some (ids d.other) &&
    match l with
    | .accepts conn .mesh => conn.remote != ids d.other || net.dialed d.other == some conn.id
    | .accepts conn .blobs =>
      conn.remote != ids d.other ||
        (net.dialed d != some conn.id && net.dialed d.other != some conn.id)
    | .dialEnds q (some c) => q != ids d.other || net.dialed d == some c
    | .closes q c => q != ids d.other || (net.peer ids d.other).closed.contains c
    | .runner q i step =>
      q != ids d.other || !step.loses ||
        ((net.peer ids d).runners[i]?).all fun r => (net.peer ids d).closed.contains r.conn.id
    | _ => true

/-- Whether an id was never the id of a connection of a node with the other. -/
def fresh (net : Net) (d : Side) (c : ConnId) : Bool :=
  !(net.peer ids d).seen.contains c && !(net.peer ids d).closed.contains c &&
    net.dialed d != some c

/-- **One step of the two nodes.** -/
def next (net : Net) : NetLabel → Option Net
  | .connects d c =>
    if (net.peer ids d).dials ≠ 0 ∧ net.dialed d = none ∧ net.fresh ids d c = true ∧
        net.fresh ids d.other c = true then
      some { net with dialed := Function.update net.dialed d (some c) }
    else none
  | .step d l =>
    if net.allows ids d l = true then
      ((net.node d).next l).map fun t => { net with node := Function.update net.node d t }
    else none

/-- Two nodes that start, with the peers they have stored. -/
def machine (pairWindow : ℕ) (store : Side → PeerStore) : Lib.Machine Net NetLabel :=
  ⟨⟨fun d => { me := ids d, pairWindow, store := store d }, fun _ => none⟩, next ids⟩

/-- Nothing about the other is waiting at a node: no dial, no connection on its way to the
queue, and no message. -/
def QuietAt (net : Net) (d : Side) : Prop :=
  (net.peer ids d).dials = 0 ∧ (net.peer ids d).accepting = [] ∧
    ∀ m ∈ (net.node d).queue, m.about (ids d.other) = false

/-- No event is pending: both nodes have dialed, both have taken on both connections, and
nothing about them is waiting. -/
def Quiet (net : Net) : Prop :=
  ∀ d, net.QuietAt ids d ∧ ∀ e, ∃ c, net.dialed e = some c ∧ c ∈ (net.peer ids d).seen

end Net

/-! ## One end -/

section End

variable {ids : Side → EndpointId} {dialed : Side → Option ConnId} {d : Side}

/-- The connection that one of them dialed. -/
def connOf (ids : Side → EndpointId) (dialed : Side → Option ConnId) (d : Side) (dialer : Bool) :
    Option Conn :=
  (dialed (if dialer then d else d.other)).map fun c => ⟨c, ids d.other⟩

/-- What holds at one end. -/
structure EndOk (ids : Side → EndpointId) (dialed : Side → Option ConnId) (d : Side) (L : Link) :
    Prop where
  paired : L.paired = true
  ok : L.Ok
  accepting : ∀ c ∈ L.peer.accepting, dialed d.other = some c
  opened : ∀ conn dialer, .opened conn dialer ∈ L.events → connOf ids dialed d dialer = some conn
  runners : ∀ r ∈ L.peer.runners, connOf ids dialed d r.dialer = some r.conn
  /-- The session is on one of the two connections, which has left the queue. -/
  session : ∀ e, L.peer.session = some e → connOf ids dialed d e.dialer = some e.conn ∧
    e.conn.id ∈ L.peer.seen ∧ e.conn.id ∉ L.peer.accepting ∧ e.conn.id ∉ L.openedIds
  /-- A connection that the end has taken on is waiting, closed, or has a runner that is
  neither aborted nor over. -/
  adopted : ∀ dialer conn, connOf ids dialed d dialer = some conn → conn.id ∈ L.peer.seen →
    conn.id ∈ L.peer.accepting ∨ conn.id ∈ L.openedIds ∨ conn.id ∈ L.peer.closed ∨
      ∃ r ∈ L.peer.runners, r.conn.id = conn.id ∧ r.aborted = false ∧ r.stage ≠ .leaving
  /-- The connection dialed by the lower id is open. -/
  winner : ∀ conn, connOf ids dialed d d.isLow = some conn → conn.id ∉ L.peer.closed

namespace EndOk

variable {L L' : Link}

theorem mem_openedIds {c : ConnId} :
    c ∈ L.openedIds ↔ ∃ conn dialer, .opened conn dialer ∈ L.events ∧ conn.id = c := by
  simp only [Link.openedIds, mem_filterMap]
  constructor
  · rintro ⟨e, he, hc⟩
    cases e with
    | opened conn dialer => exact ⟨conn, dialer, he, Option.some.inj hc⟩
    | ended => cases hc
  · rintro ⟨conn, dialer, he, rfl⟩
    exact ⟨_, he, rfl⟩

/-- A step that keeps the connections, and takes on none of the two. -/
theorem frame (h : EndOk ids dialed d L) (hok : L'.Ok) (hpaired : L'.paired = true)
    (haccepting : L'.peer.accepting = L.peer.accepting) (hevents : L'.events = L.events)
    (hrunners : L'.peer.runners = L.peer.runners) (hsession : L'.peer.session = L.peer.session)
    (hclosed : L'.peer.closed = L.peer.closed) (hseen : ∀ c ∈ L.peer.seen, c ∈ L'.peer.seen)
    (hnew : ∀ dialer conn, connOf ids dialed d dialer = some conn → conn.id ∈ L'.peer.seen →
      conn.id ∈ L.peer.seen) : EndOk ids dialed d L' := by
  have hopened : L'.openedIds = L.openedIds := congrArg (List.filterMap Event.openedId) hevents
  refine ⟨hpaired, hok, haccepting ▸ h.accepting, hevents ▸ h.opened, hrunners ▸ h.runners,
    fun e he => ?_, fun dialer conn hconn hin => ?_, fun conn hconn => hclosed ▸ h.winner conn hconn⟩
  · obtain ⟨hconn, hin, hrest⟩ := h.session e (hsession ▸ he)
    rw [haccepting, hopened]
    exact ⟨hconn, hseen _ hin, hrest⟩
  · rw [haccepting, hopened, hclosed, hrunners]
    exact h.adopted dialer conn hconn (hnew dialer conn hconn hin)

variable {conn : Conn} {dialer : Bool} {rest : List Event}

theorem once (h : L.Ok) (hevents : L.events = .opened conn dialer :: rest) :
    conn.id ∈ L.peer.seen ∧ conn.id ∉ L.peer.accepting ∧
      conn.id ∉ rest.filterMap Event.openedId ∧ conn.id ∉ L.peer.runnerIds := by
  have huses := h.once conn.id
  have hcount : L.openedIds.count conn.id = (rest.filterMap Event.openedId).count conn.id + 1 := by
    simp [Link.openedIds, hevents, Event.openedId]
  simp only [Link.uses] at huses
  refine ⟨h.seen _ ?_, fun hin => ?_, fun hin => ?_, fun hin => ?_⟩
  · simp only [Link.uses]
    omega
  · have := count_pos_iff.mpr hin
    omega
  · have := count_pos_iff.mpr hin
    omega
  · have := count_pos_iff.mpr hin
    omega

theorem eq_of_id (hdist : ∀ c, dialed .low = some c → dialed .high ≠ some c) {a b : Bool}
    {x y : Conn} (hx : connOf ids dialed d a = some x) (hy : connOf ids dialed d b = some y)
    (hid : x.id = y.id) : a = b ∧ x = y := by
  obtain ⟨c, hc, rfl⟩ := Option.map_eq_some_iff.mp hx
  obtain ⟨c', hc', rfl⟩ := Option.map_eq_some_iff.mp hy
  obtain rfl : c = c' := hid
  refine ⟨?_, rfl⟩
  by_contra hab
  cases d <;> cases a <;> cases b <;> first
    | exact hab rfl
    | exact hdist c hc hc'
    | exact hdist c hc' hc

variable (h : EndOk ids dialed d L)
include h

theorem of_spawn (hok : L'.Ok) (hpaired : L'.paired = true)
    (hevents : L.events = .opened conn dialer :: rest) (hrest : L'.events = rest)
    (hseen : L'.peer.seen = L.peer.seen) (haccepting : L'.peer.accepting = L.peer.accepting)
    (hrunners : ∀ r ∈ L'.peer.runners, (r.conn = conn ∧ r.dialer = dialer) ∨
      ∃ old ∈ L.peer.runners, r.conn = old.conn ∧ r.dialer = old.dialer)
    (hnew : ∃ r ∈ L'.peer.runners, r.conn = conn ∧ r.aborted = false ∧ r.stage ≠ .leaving)
    (hsession : L'.peer.session = some ⟨conn, dialer⟩) (hclosed : ∀ c ∈ L.peer.closed, c ∈ L'.peer.closed)
    (hlive : ∀ r ∈ L.peer.runners, r.aborted = false → r.conn.id ∈ L'.peer.closed)
    (hwinner : ∀ w, connOf ids dialed d d.isLow = some w → w.id ∈ L'.peer.closed →
      w.id ∈ L.peer.closed) : EndOk ids dialed d L' := by
  obtain ⟨hin, hnotAccepting, hnotRest, -⟩ := once h.ok hevents
  have hconn : connOf ids dialed d dialer = some conn :=
    h.opened conn dialer (hevents ▸ mem_cons_self)
  have hopened : L'.openedIds = rest.filterMap Event.openedId :=
    congrArg (List.filterMap Event.openedId) hrest
  refine ⟨hpaired, hok, haccepting ▸ h.accepting, fun c b hb => ?_, fun r hr => ?_, fun e he => ?_,
    fun b c hc hcin => ?_, fun w hw hclosedw => h.winner w hw (hwinner w hw hclosedw)⟩
  · exact h.opened c b (hevents ▸ mem_cons_of_mem _ (hrest ▸ hb))
  · rcases hrunners r hr with ⟨hc, hd⟩ | ⟨old, hold, hc, hd⟩
    · rw [hc, hd]
      exact hconn
    · rw [hc, hd]
      exact h.runners old hold
  · obtain rfl : e = ⟨conn, dialer⟩ := Option.some.inj (he.symm.trans hsession)
    rw [hseen, haccepting, hopened]
    exact ⟨hconn, hin, hnotAccepting, hnotRest⟩
  · by_cases hid : c.id = conn.id
    · obtain ⟨r, hr, hrc, hrest⟩ := hnew
      exact .inr (.inr (.inr ⟨r, hr, by rw [hrc, hid], hrest⟩))
    · rw [haccepting, hopened]
      rcases h.adopted b c hc (hseen ▸ hcin) with hacc | hopen | hcl | ⟨r, hr, hrc, halive, -⟩
      · exact .inl hacc
      · refine .inr (.inl ?_)
        rw [Link.openedIds, hevents] at hopen
        exact (mem_cons.mp hopen).resolve_left hid
      · exact .inr (.inr (.inl (hclosed _ hcl)))
      · exact .inr (.inr (.inl (hrc ▸ hlive r hr halive)))

theorem of_duplicate (hok : Link.Ok { L with peer := L.peer.close conn.id, events := rest })
    (hevents : L.events = .opened conn dialer :: rest)
    (hwinner : ∀ w, connOf ids dialed d d.isLow = some w → w.id ≠ conn.id) :
    EndOk ids dialed d { L with peer := L.peer.close conn.id, events := rest } := by
  have hopened : ∀ c, c ∈ rest.filterMap Event.openedId → c ∈ L.openedIds := by
    intro c hc
    rw [Link.openedIds, hevents]
    exact mem_cons_of_mem _ hc
  refine ⟨h.paired, hok, h.accepting, fun c b hb => ?_, h.runners, fun e he => ?_,
    fun b c hc hcin => ?_, fun w hw hclosed => ?_⟩
  · exact h.opened c b (hevents ▸ mem_cons_of_mem _ hb)
  · obtain ⟨hconn, hin, hacc, hopen⟩ := h.session e he
    exact ⟨hconn, hin, hacc, fun hrest => hopen (hopened _ hrest)⟩
  · by_cases hid : c.id = conn.id
    · exact .inr (.inr (.inl (hid ▸ mem_cons_self)))
    · rcases h.adopted b c hc hcin with hacc | hopen | hcl | hlive
      · exact .inl hacc
      · rw [Link.openedIds, hevents] at hopen
        exact .inr (.inl ((mem_cons.mp hopen).resolve_left hid))
      · exact .inr (.inr (.inl (mem_cons_of_mem _ hcl)))
      · exact .inr (.inr (.inr hlive))
  · rcases mem_cons.mp hclosed with hid | hold
    · exact hwinner w hw hid
    · exact h.winner w hw hold

/-- **A connection is adopted** at an end: whichever of the two it is, and whatever was there
before, the winner is not closed. -/
theorem adoptConn (hdist : ∀ c, dialed .low = some c → dialed .high ≠ some c)
    (hevents : L.events = .opened conn dialer :: rest)
    (hok : Link.Ok { L with peer := L.peer.adoptConn d.isLow conn dialer, events := rest }) :
    EndOk ids dialed d { L with peer := L.peer.adoptConn d.isLow conn dialer, events := rest } := by
  have hconn : connOf ids dialed d dialer = some conn :=
    h.opened conn dialer (hevents ▸ mem_cons_self)
  unfold Peer.adoptConn at hok ⊢
  cases hsession : L.peer.session with
  | none =>
    simp only [hsession] at hok ⊢
    refine h.of_spawn hok h.paired hevents rfl rfl rfl (fun r hr => ?_)
      ⟨_, mem_cons_self, rfl, rfl, by simp⟩ rfl (fun _ hc => hc) (fun r hr halive => ?_)
      fun _ _ hw => hw
    · rcases mem_cons.mp hr with rfl | hr
      exacts [.inl ⟨rfl, rfl⟩, .inr ⟨r, hr, rfl, rfl⟩]
    · have hcurrent := h.ok.current r hr halive
      rw [hsession] at hcurrent
      cases hcurrent
  | some existing =>
    simp only [hsession] at hok ⊢
    obtain ⟨hexisting, hseen, hnotAccepting, hnotOpened⟩ := h.session existing hsession
    by_cases hfinished : L.peer.finished existing.conn.id = true
    · -- the entry is stale: its runner is over, so it is not on the winner
      simp only [hfinished, if_true] at hok ⊢
      have hgone := Peer.finished_iff.mp hfinished
      refine h.of_spawn hok h.paired hevents rfl rfl rfl (fun r hr => ?_)
        ⟨_, mem_cons_self, rfl, rfl, by simp⟩ rfl (fun _ hc => mem_cons_of_mem _ hc)
        (fun r hr halive => ?_) fun w hw hclosed => ?_
      · rcases mem_cons.mp hr with rfl | hr
        exacts [.inl ⟨rfl, rfl⟩, .inr ⟨r, hr, rfl, rfl⟩]
      · have hsame := Option.some.inj (hsession.symm.trans (h.ok.current r hr halive))
        exact absurd (mem_map.mpr ⟨r, hr, by rw [hsame]⟩) hgone
      · rcases mem_cons.mp hclosed with hid | hold
        · rw [hid]
          rcases h.adopted _ _ hexisting hseen with hacc | hopen | hcl | ⟨r, hr, hrc, -⟩
          · exact absurd hacc hnotAccepting
          · exact absurd hopen hnotOpened
          · exact hcl
          · exact absurd (mem_map.mpr ⟨r, hr, hrc⟩) hgone
        · exact hold
    · simp only [hfinished, Bool.false_eq_true, if_false] at hok ⊢
      by_cases hwins : Peer.newWins d.isLow dialer existing.dialer = true
      · -- the new connection takes over: the one it replaces was dialed by the higher id
        simp only [hwins, if_true] at hok ⊢
        obtain ⟨-, hloses⟩ := Bool.and_eq_true_iff.mp hwins
        refine h.of_spawn hok h.paired hevents rfl rfl rfl (fun r hr => ?_)
          ⟨_, mem_cons_self, rfl, rfl, by simp⟩ rfl (fun _ hc => mem_cons_of_mem _ hc)
          (fun r hr halive => ?_) fun w hw hclosed => ?_
        · rcases mem_cons.mp hr with rfl | hr
          · exact .inl ⟨rfl, rfl⟩
          · obtain ⟨old, hold, hc, hd, -⟩ := Peer.mem_abort hr
            exact .inr ⟨old, hold, hc, hd⟩
        · rw [Option.some.inj (hsession.symm.trans (h.ok.current r hr halive))]
          exact mem_cons_self
        · rcases mem_cons.mp hclosed with hid | hold
          · have hsame := (eq_of_id hdist hw hexisting hid).1
            rw [← hsame] at hloses
            simp at hloses
          · exact hold
      · -- the new connection is a duplicate: if it were the winner, so would the session be
        simp only [hwins, Bool.false_eq_true, if_false] at hok ⊢
        refine h.of_duplicate hok hevents fun w hw hid => ?_
        obtain ⟨hlow, rfl⟩ := eq_of_id hdist hw hconn hid
        have hdialer : existing.dialer = d.isLow := by
          simpa [Peer.newWins, hlow] using hwins
        rw [hdialer, hw] at hexisting
        obtain rfl := Option.some.inj hexisting
        exact hnotOpened (mem_openedIds.mpr ⟨_, dialer, hevents ▸ mem_cons_self, rfl⟩)

theorem sessionEnded {c : ConnId} (hevents : L.events = .ended c :: rest)
    (hok : Link.Ok { L with peer := L.peer.sessionEnded c, events := rest }) :
    EndOk ids dialed d { L with peer := L.peer.sessionEnded c, events := rest } := by
  have hopened : L.openedIds = rest.filterMap Event.openedId := by
    rw [Link.openedIds, hevents]
    rfl
  have hrest : ∀ conn dialer, .opened conn dialer ∈ rest → connOf ids dialed d dialer = some conn :=
    fun conn dialer hb => h.opened conn dialer (hevents ▸ mem_cons_of_mem _ hb)
  have hadopted := h.adopted
  have hsession := h.session
  simp only [hopened] at hadopted hsession
  unfold Peer.sessionEnded at hok ⊢
  split_ifs at hok ⊢ with hmatch
  · exact ⟨h.paired, hok, h.accepting, hrest, h.runners, fun e he => (by cases he), hadopted,
      h.winner⟩
  · exact ⟨h.paired, hok, h.accepting, hrest, h.runners, hsession, hadopted, h.winner⟩

end EndOk

theorem EndOk.runnerStep {L : Link} {left : Peer} {i : ℕ} {step : RunnerStep}
    {ended : Option ConnId} (h : EndOk ids dialed d L)
    (hstep : L.peer.runnerStep i step = some (left, ended)) (hloses : step.loses = true →
      ∀ r, L.peer.runners[i]? = some r → r.conn.id ∈ L.peer.closed) : EndOk ids dialed d
      { L with peer := left, events := L.events ++ (ended.map Event.ended).toList } := by
  have hok := h.ok.runnerStep hstep
  have hopened : Link.openedIds
      { L with peer := left, events := L.events ++ (ended.map Event.ended).toList } =
        L.openedIds := by
    cases ended <;> simp [Link.openedIds, Event.openedId]
  obtain ⟨r, o, hat, ho, hleft, -⟩ := Peer.runnerStep_eq_some hstep
  subst hleft
  have hspec := Runner.step_runner ho
  have hclosed : ∀ c, (c ∈ if o.closes then r.conn.id :: L.peer.closed else L.peer.closed) ↔
      c ∈ L.peer.closed := by
    intro c
    cases hlose : step.loses with
    | false =>
      have hopen : o.closes = false := by
        rcases hspec with ⟨_, _, _, _, _, _, hgoes⟩ | ⟨_, hopen, _⟩
        exacts [(hgoes hlose).1, hopen]
      simp [hopen]
    | true =>
      have hin := hloses hlose r hat
      split_ifs
      · constructor
        · intro hc
          rcases mem_cons.mp hc with rfl | hc
          exacts [hin, hc]
        · exact mem_cons_of_mem _
      · exact Iff.rfl
  refine ⟨h.paired, hok, h.accepting, fun conn dialer hb => ?_, fun w hw => ?_, fun e he => ?_,
    fun dialer conn hconn hin => ?_, fun conn hconn hc => h.winner conn hconn ((hclosed _).mp hc)⟩
  · rcases mem_append.mp hb with hold | hnew
    · exact h.opened conn dialer hold
    · cases ended <;> simp at hnew
  · rcases (Peer.mem_runners hat _).mp hw with hgoes | hw
    · rcases hspec with ⟨r', hr', hc, hd, -⟩ | ⟨hgone, -⟩
      · rw [← Option.some.inj (hr'.symm.trans hgoes), hc, hd]
        exact h.runners r (mem_of_getElem? hat)
      · cases hgone.symm.trans hgoes
    · exact h.runners w (mem_of_mem_eraseIdx hw)
  · rw [hopened]
    exact h.session e he
  · rw [hopened]
    rcases h.adopted dialer conn hconn hin with hacc | hopen | hcl | ⟨w, hw, hwc, halive, hstage⟩
    · exact .inl hacc
    · exact .inr (.inl hopen)
    · exact .inr (.inr (.inl ((hclosed _).mpr hcl)))
    · rcases (Lib.mem_eraseIdx_or hat).mp hw with rfl | hw
      · -- the step is one of the runner that stands for the connection
        cases hlose : step.loses with
        | true => exact .inr (.inr (.inl ((hclosed _).mpr (hwc ▸ hloses hlose w hat))))
        | false =>
          rcases hspec with ⟨r', hr', hconn', -, halive', -, hgoes⟩ | ⟨-, -, hdead | hleaving⟩
          · refine .inr (.inr (.inr ⟨r', (Peer.mem_runners hat _).mpr (.inl hr'), by rw [hconn', hwc],
              halive'.trans halive, (hgoes hlose).2 hstage⟩))
          · exact absurd (halive.symm.trans hdead) Bool.false_ne_true
          · exact absurd hleaving hstage
      · exact .inr (.inr (.inr ⟨w, (Peer.mem_runners hat _).mpr (.inr hw), hwc, halive, hstage⟩))

theorem EndOk.of_waiting {L L' : Link} (new : List ConnId) (h : EndOk ids dialed d L) (hok : L'.Ok)
    (hpaired : L'.paired = L.paired) (hnew : ∀ c ∈ new, c ∉ L.peer.seen) (hseen : L'.peer.seen = new ++ L.peer.seen)
    (hwaiting : ∀ c, (c ∈ L'.peer.accepting ∨ c ∈ L'.openedIds) ↔
      c ∈ new ∨ c ∈ L.peer.accepting ∨ c ∈ L.openedIds) (haccepting : ∀ c ∈ L'.peer.accepting, dialed d.other = some c)
    (hopened : ∀ conn dialer, .opened conn dialer ∈ L'.events → connOf ids dialed d dialer = some conn)
    (hrunners : L'.peer.runners = L.peer.runners) (hsession : L'.peer.session = L.peer.session)
    (hclosed : L'.peer.closed = L.peer.closed) : EndOk ids dialed d L' := by
  refine ⟨hpaired ▸ h.paired, hok, haccepting, hopened, hrunners ▸ h.runners, fun e he => ?_,
    fun dialer conn hconn hin => ?_, fun conn hconn => hclosed ▸ h.winner conn hconn⟩
  · obtain ⟨hconn, hin, hnotAccepting, hnotOpened⟩ := h.session e (hsession ▸ he)
    have hnot : ¬(e.conn.id ∈ L'.peer.accepting ∨ e.conn.id ∈ L'.openedIds) := by
      rw [hwaiting]
      rintro (hc | hc | hc)
      exacts [hnew _ hc hin, hnotAccepting hc, hnotOpened hc]
    exact ⟨hconn, hseen ▸ mem_append_right _ hin, fun hc => hnot (.inl hc),
      fun hc => hnot (.inr hc)⟩
  · have hor : (conn.id ∈ L'.peer.accepting ∨ conn.id ∈ L'.openedIds) ∨ conn.id ∈ L'.peer.closed ∨
        ∃ r ∈ L'.peer.runners, r.conn.id = conn.id ∧ r.aborted = false ∧ r.stage ≠ .leaving := by
      rw [hwaiting, hclosed, hrunners]
      rw [hseen] at hin
      rcases mem_append.mp hin with hc | hc
      · exact .inl (.inl hc)
      · rcases h.adopted dialer conn hconn hc with hx | hx | hx
        exacts [.inl (.inr (.inl hx)), .inl (.inr (.inr hx)), .inr hx]
    exact or_assoc.mp hor

end End

/-! ## Both ends -/

theorem Side.other_other (d : Side) : d.other.other = d := by cases d <;> rfl

section Both

variable {ids : Side → EndpointId} {net : Net} {d : Side}

theorem decide_isLow (hids : ids .low < ids .high) (d : Side) : decide (ids d < ids d.other) = d.isLow := by
  cases d with
  | low => exact decide_eq_true hids
  | high => exact decide_eq_false (Nat.lt_asymm hids)

/-- **A step of a node** that loses no connection keeps what holds at its end. -/
theorem EndOk.step {l : Label} {t : Service} (hids : ids .low < ids .high)
    (hdist : ∀ c, net.dialed .low = some c → net.dialed .high ≠ some c) (hme : (net.node d).me = ids d)
    (h : EndOk ids net.dialed d ((net.node d).link (ids d.other)))
    (hother : EndOk ids net.dialed d.other ((net.node d.other).link (ids d)))
    (hallows : net.allows ids d l = true) (hnext : (net.node d).next l = some t) :
    EndOk ids net.dialed d (t.link (ids d.other)) := by
  obtain ⟨hunpair, hallows⟩ := Bool.and_eq_true_iff.mp hallows
  have hstep := Service.link_step hnext (ids d.other)
  have hok := hstep.ok h.ok
  revert hok
  generalize t.link (ids d.other) = L' at hstep ⊢
  intro hok
  cases hstep with
  | idle => exact h
  | unpairs hl => simp [hl] at hunpair
  | refuses conn hpaired => exact absurd (hpaired.symm.trans h.paired) Bool.false_ne_true
  | dials | dialFails | receives | serves | endsBlob =>
    exact h.frame hok h.paired rfl rfl rfl rfl rfl (fun _ hc => hc) fun _ _ _ hc => hc
  | pairs => exact h.frame hok rfl rfl rfl rfl rfl rfl (fun _ hc => hc) fun _ _ _ hc => hc
  | acceptsBlob conn hl hremote =>
    subst hl
    have hblob : net.dialed d ≠ some conn.id ∧ net.dialed d.other ≠ some conn.id := by
      simpa [hremote] using hallows
    refine h.frame hok h.paired rfl rfl rfl rfl rfl (fun _ hc => mem_cons_of_mem _ hc)
      fun dialer c hc hin => (mem_cons.mp hin).resolve_left fun hid => ?_
    obtain ⟨x, hx, rfl⟩ := Option.map_eq_some_iff.mp hc
    obtain rfl : x = conn.id := hid
    cases dialer
    exacts [hblob.2 hx, hblob.1 hx]
  | accepts conn hl hremote _ hnew =>
    subst hl
    have hdialed : net.dialed d.other = some conn.id := by simpa [hremote] using hallows
    refine h.of_waiting [conn.id] hok rfl (by simpa using hnew) rfl (fun c => ?_) (fun c hc => ?_)
      h.opened rfl rfl rfl
    · show (c ∈ _ ++ [conn.id] ∨ c ∈ (Service.link _ _).openedIds) ↔ _
      rw [mem_append]
      tauto
    · rcases mem_append.mp hc with hold | hlast
      · exact h.accepting c hold
      · exact mem_singleton.mp hlast ▸ hdialed
  | passes i c hat =>
    have hdialed : net.dialed d.other = some c := h.accepting c (mem_of_getElem? hat)
    refine h.of_waiting [] hok rfl (by simp) rfl (fun x => ?_)
      (fun x hx => h.accepting x (mem_of_mem_eraseIdx hx)) (fun conn dialer hb => ?_) rfl rfl rfl
    · have hmem := Lib.mem_eraseIdx_or hat (x := x)
      simp only [Link.openedIds, filterMap_append, filterMap_cons, filterMap_nil,
        Event.openedId, mem_append, mem_singleton, not_mem_nil, false_or, hmem]
      tauto
    · rcases mem_append.mp hb with hold | hlast
      · exact h.opened conn dialer hold
      · obtain ⟨rfl, rfl⟩ := Event.opened.inj (mem_singleton.mp hlast)
        simp only [connOf, Bool.false_eq_true, if_false, hdialed, Option.map_some]
  | dialEnds c hl _ hnew =>
    subst hl
    have hdialed : net.dialed d = some c := by simpa using hallows
    refine h.of_waiting [c] hok rfl (by simpa using hnew) rfl (fun x => ?_) h.accepting
      (fun conn dialer hb => ?_) rfl rfl rfl
    · simp only [Link.openedIds, filterMap_append, filterMap_cons, filterMap_nil,
        Event.openedId, mem_append, mem_singleton]
      tauto
    · rcases mem_append.mp hb with hold | hlast
      · exact h.opened conn dialer hold
      · obtain ⟨rfl, rfl⟩ := Event.opened.inj (mem_singleton.mp hlast)
        simp only [connOf, if_true, hdialed, Option.map_some]
  | closes c hl =>
    subst hl
    -- the other end has closed it, so it is not the winner
    have hclosed : c ∈ ((net.node d.other).peers (ids d)).closed := by
      simpa [Net.peer, Side.other_other] using hallows
    refine ⟨h.paired, hok, h.accepting, h.opened, h.runners, h.session, fun dialer conn hconn hin => ?_,
      fun conn hconn hc => ?_⟩
    · rcases h.adopted dialer conn hconn hin with hx | hx | hx | hx
      exacts [.inl hx, .inr (.inl hx), .inr (.inr (.inl (mem_cons_of_mem _ hx))),
        .inr (.inr (.inr hx))]
    · rcases mem_cons.mp hc with hid | hold
      · obtain ⟨w, hw, rfl⟩ := Option.map_eq_some_iff.mp hconn
        obtain rfl : w = c := hid
        refine hother.winner ⟨w, ids d⟩ ?_ hclosed
        rw [connOf, Side.other_other]
        refine Option.map_eq_some_iff.mpr ⟨w, ?_, rfl⟩
        cases d <;> exact hw
      · exact h.winner conn hconn hold
  | runner i step hl left ended hstep =>
    subst hl
    refine h.runnerStep hstep fun hloses r hat => ?_
    have hat' : ((net.node d).peers (ids d.other)).runners[i]? = some r := hat
    have hclosed : r.conn.id ∈ ((net.node d).peers (ids d.other)).closed := by
      simpa [hloses, hat', Net.peer] using hallows
    exact hclosed
  | event e rest _ hevents =>
    cases e with
    | opened =>
      have hne : ids d.other ≠ ids d := by
        cases d
        exacts [hids.ne', hids.ne]
      simp only [Link.take, hme, if_neg hne, decide_isLow hids] at hok ⊢
      exact h.adoptConn hdist hevents hok
    | ended => exact h.sessionEnded hevents hok

/-- What holds of two nodes in every state. -/
structure NetOk (ids : Side → EndpointId) (net : Net) : Prop where
  me : ∀ d, (net.node d).me = ids d
  distinct : ∀ c, net.dialed .low = some c → net.dialed .high ≠ some c
  ends : ∀ d, EndOk ids net.dialed d ((net.node d).link (ids d.other))

/-- A dial reaches the other: both ends are as they were, and the connection is new to them. -/
theorem EndOk.connects {L : Link} {dialed : Side → Option ConnId} {e : Side} {c : ConnId}
    (h : EndOk ids dialed d L) (hnone : dialed e = none) (hseen : c ∉ L.peer.seen)
    (hclosed : c ∉ L.peer.closed) : EndOk ids (Function.update dialed e (some c)) d L := by
  have hkeep : ∀ side x, dialed side = some x →
      Function.update dialed e (some c) side = some x := by
    intro side x hx
    have hne : side ≠ e := by
      rintro rfl
      rw [hnone] at hx
      cases hx
    rw [update_of_ne hne, hx]
  have hkeepConn : ∀ dialer conn, connOf ids dialed d dialer = some conn →
      connOf ids (Function.update dialed e (some c)) d dialer = some conn := by
    intro dialer conn hconn
    obtain ⟨x, hx, rfl⟩ := Option.map_eq_some_iff.mp hconn
    exact Option.map_eq_some_iff.mpr ⟨x, hkeep _ x hx, rfl⟩
  have hfrom : ∀ dialer conn,
      connOf ids (Function.update dialed e (some c)) d dialer = some conn →
      conn.id = c ∨ connOf ids dialed d dialer = some conn := by
    intro dialer conn hconn
    obtain ⟨x, hx, rfl⟩ := Option.map_eq_some_iff.mp hconn
    by_cases hside : (if dialer then d else d.other) = e
    · rw [hside, update_self] at hx
      exact .inl (Option.some.inj hx).symm
    · rw [update_of_ne hside] at hx
      exact .inr (Option.map_eq_some_iff.mpr ⟨x, hx, rfl⟩)
  refine ⟨h.paired, h.ok, fun x hx => hkeep _ x (h.accepting x hx),
    fun conn dialer hb => hkeepConn _ _ (h.opened conn dialer hb),
    fun r hr => hkeepConn _ _ (h.runners r hr),
    fun s hs => ⟨hkeepConn _ _ (h.session s hs).1, (h.session s hs).2⟩,
    fun dialer conn hconn hin => ?_, fun conn hconn hcl => ?_⟩
  · rcases hfrom dialer conn hconn with rfl | hold
    exacts [absurd hin hseen, h.adopted dialer conn hold hin]
  · rcases hfrom _ conn hconn with rfl | hold
    exacts [hclosed hcl, h.winner conn hold hcl]

theorem not_mem_of_fresh {c : ConnId} (h : net.fresh ids d c = true) :
    c ∉ ((net.node d).link (ids d.other)).peer.seen ∧
      c ∉ ((net.node d).link (ids d.other)).peer.closed ∧ net.dialed d ≠ some c := by
  simp only [Net.fresh, Bool.and_eq_true, Bool.not_eq_true', bne_iff_ne, contains_eq_mem,
    decide_eq_false_iff_not] at h
  exact ⟨h.1.1, h.1.2, h.2⟩

/-- **A step of the two nodes.** -/
theorem NetOk.next {l : NetLabel} {net' : Net} (hids : ids .low < ids .high) (h : NetOk ids net)
    (hnext : net.next ids l = some net') : NetOk ids net' := by
  cases l with
  | connects e c =>
    simp only [Net.next] at hnext
    split_ifs at hnext with hguard
    obtain rfl := Option.some.inj hnext
    obtain ⟨-, hnone, hfresh, hfreshOther⟩ := hguard
    have hboth : ∀ d, net.fresh ids d c = true := by
      intro d
      cases d <;> cases e <;> assumption
    refine ⟨h.me, fun x hlow hhigh => ?_, fun d => ?_⟩
    · cases e with
      | low =>
        obtain rfl : c = x := by simpa using hlow
        exact (not_mem_of_fresh hfreshOther).2.2 (by simpa [Side.other] using hhigh)
      | high =>
        obtain rfl : c = x := by simpa using hhigh
        exact (not_mem_of_fresh hfreshOther).2.2 (by simpa [Side.other] using hlow)
    · obtain ⟨hseen, hclosed, -⟩ := not_mem_of_fresh (hboth d)
      exact (h.ends d).connects hnone hseen hclosed
  | step e =>
    simp only [Net.next] at hnext
    split_ifs at hnext with hallows
    obtain ⟨t, ht, rfl⟩ := Option.map_eq_some_iff.mp hnext
    have hother : EndOk ids net.dialed e.other ((net.node e.other).link (ids e)) := by
      have hends := h.ends e.other
      rwa [Side.other_other] at hends
    refine ⟨fun d => ?_, h.distinct, fun d => ?_⟩
    · by_cases hd : d = e
      · subst hd
        show Service.me (Function.update net.node d t d) = ids d
        rw [update_self, Service.me_next ht, h.me]
      · show Service.me (Function.update net.node e t d) = ids d
        rw [update_of_ne hd, h.me]
    · by_cases hd : d = e
      · subst hd
        show EndOk ids net.dialed d (Service.link (Function.update net.node d t d) _)
        rw [update_self]
        exact (h.ends d).step hids h.distinct (h.me d) hother hallows ht
      · show EndOk ids net.dialed d (Service.link (Function.update net.node e t d) _)
        rw [update_of_ne hd]
        exact h.ends d

variable {pairWindow : ℕ} {store : Side → PeerStore} {ls : List NetLabel}

/-- **Every state of two nodes that are paired.** -/
theorem run_netOk (hids : ids .low < ids .high) (hpaired : ∀ d, (store d).contains (ids d.other) = true)
    (hrun : (Net.machine ids pairWindow store).run ls = some net) : NetOk ids net := by
  refine Lib.Machine.run_invariant (I := NetOk ids) ⟨fun _ => rfl, fun c h => ?_, fun d => ?_⟩
    (fun _ _ _ h hnext => h.next hids hnext) hrun
  · cases h
  · refine ⟨hpaired d, Link.ok_start _, fun c hc => ?_, fun conn dialer hb => ?_, fun r hr => ?_,
      fun e he => ?_, fun dialer conn hconn => ?_, fun conn hconn => ?_⟩
    · exact absurd hc not_mem_nil
    · exact absurd hb not_mem_nil
    · exact absurd hr not_mem_nil
    · cases he
    · cases hconn
    · cases hconn

theorem openedIds_of_quiet (h : net.QuietAt ids d) : ((net.node d).link (ids d.other)).openedIds = [] := by
  refine eq_nil_iff_forall_not_mem.mpr fun c hc => ?_
  obtain ⟨conn, dialer, he, -⟩ := EndOk.mem_openedIds.mp hc
  obtain ⟨m, hm, hevent⟩ := mem_filterMap.mp he
  exact absurd ((h.2.2 m hm).symm.trans (Internal.about_of_event hevent)) Bool.false_ne_true

end Both

/-- **Simultaneous connect converges.** Two paired nodes with different ids, one connection
dialed by each, in every order of their steps: once no event is pending, both hold their
session on the connection dialed by the lower id, which is open at both ends and has its
runner; and the other connection is closed at both ends. -/
theorem simultaneous_connect_converges (ids : Side → EndpointId) (hids : ids .low < ids .high)
    (pairWindow : ℕ) (store : Side → PeerStore)
    (hpaired : ∀ d, (store d).contains (ids d.other) = true) (ls : List NetLabel) (net : Net)
    (hrun : (Net.machine ids pairWindow store).run ls = some net) (hquiet : net.Quiet ids) :
    ∃ winner loser, net.dialed .low = some winner ∧ net.dialed .high = some loser ∧
      ∀ d, (net.peer ids d).session = some ⟨⟨winner, ids d.other⟩, d.isLow⟩ ∧
        (net.peer ids d).finished winner = false ∧ winner ∉ (net.peer ids d).closed ∧
        loser ∈ (net.peer ids d).closed := by
  have hok := run_netOk hids hpaired hrun
  obtain ⟨winner, hwinner, -⟩ := (hquiet .low).2 .low
  obtain ⟨loser, hloser, -⟩ := (hquiet .low).2 .high
  refine ⟨winner, loser, hwinner, hloser, fun d => ?_⟩
  have hend := hok.ends d
  have hwait : ∀ c, c ∉ (net.peer ids d).accepting ∧
      c ∉ ((net.node d).link (ids d.other)).openedIds := by
    intro c
    rw [(hquiet d).1.2.1, openedIds_of_quiet (hquiet d).1]
    exact ⟨not_mem_nil, not_mem_nil⟩
  have hw : connOf ids net.dialed d d.isLow = some ⟨winner, ids d.other⟩ := by
    cases d <;> simp [connOf, Side.isLow, Side.other, hwinner]
  have hl : connOf ids net.dialed d (!d.isLow) = some ⟨loser, ids d.other⟩ := by
    cases d <;> simp [connOf, Side.isLow, Side.other, hloser]
  have hopen := hend.winner _ hw
  have hseen : ∀ e c, net.dialed e = some c → c ∈ (net.peer ids d).seen := by
    intro e c hc
    obtain ⟨c', hc', hin⟩ := (hquiet d).2 e
    exact Option.some.inj (hc.symm.trans hc') ▸ hin
  -- the winner waits nowhere and is open: it has its runner, and that is the session's
  obtain ⟨r, hr, hrid, halive, -⟩ :=
    (((hend.adopted _ _ hw (hseen _ _ hwinner)).resolve_left (hwait _).1).resolve_left
      (hwait _).2).resolve_left hopen
  obtain ⟨hdialer, hconn⟩ := EndOk.eq_of_id hok.distinct (hend.runners r hr) hw hrid
  have hsession := hend.ok.current r hr halive
  rw [hdialer, hconn] at hsession
  refine ⟨hsession, ?_, hopen, ?_⟩
  · refine Bool.eq_false_iff.mpr fun hfinished => ?_
    exact Peer.finished_iff.mp hfinished (mem_map.mpr ⟨r, hr, hrid⟩)
  · -- the loser has no runner: the session would be its own
    rcases hend.adopted _ _ hl (hseen _ _ hloser) with hx | hx | hx | ⟨r', hr', hrid', halive', -⟩
    · exact absurd hx (hwait _).1
    · exact absurd hx (hwait _).2
    · exact hx
    · have hsession' := hend.ok.current r' hr' halive'
      have hsame := Option.some.inj (hsession.symm.trans hsession')
      have hid : winner = loser := (congrArg (fun s : Session => s.conn.id) hsame).trans hrid'
      exact absurd hloser (hid ▸ hok.distinct winner hwinner)

/-- The ids and the stores of two paired nodes. -/
def pairIds : Side → EndpointId
  | .low => 1
  | .high => 2

/-- Each has the other in its store. -/
def pairStores : Side → PeerStore
  | .low => [⟨2, "b"⟩]
  | .high => [⟨1, "a"⟩]

/-- Each node adopts the connection of the other first; then both learn that the connection
dialed by the higher id is closed. -/
def crossedLabels : List NetLabel :=
  [.step .low (.posts (.tryDial 2)), .step .low .handles, .step .high (.posts (.tryDial 1)),
    .step .high .handles, .connects .low 10, .connects .high 11,
    .step .low (.accepts ⟨11, 2⟩ .mesh), .step .low (.passes 2 0), .step .low .handles,
    .step .high (.accepts ⟨10, 1⟩ .mesh), .step .high (.passes 1 0), .step .high .handles,
    .step .low (.dialEnds 2 (some 10)), .step .high (.dialEnds 1 (some 11)),
    .step .high .handles, .step .low (.closes 2 11), .step .low (.runner 2 0 .poll),
    .step .low (.runner 2 0 (.helloFails false)), .step .low (.runner 2 0 .reports),
    .step .low .handles, .step .low .handles]

instance (ids : Side → EndpointId) (net : Net) (d : Side) : Decidable (net.QuietAt ids d) := by
  unfold Net.QuietAt
  infer_instance

theorem simultaneous_connect_converges_crossed :
    ∃ net, (Net.machine pairIds 60000 pairStores).run crossedLabels = some net ∧
      ∃ winner loser, net.dialed .low = some winner ∧ net.dialed .high = some loser ∧
        ∀ d, (net.peer pairIds d).session = some ⟨⟨winner, pairIds d.other⟩, d.isLow⟩ ∧
          (net.peer pairIds d).finished winner = false ∧
          winner ∉ (net.peer pairIds d).closed ∧ loser ∈ (net.peer pairIds d).closed := by
  have hany : (((Net.machine pairIds 60000 pairStores).run crossedLabels).any fun net =>
      decide (net.QuietAt pairIds .low ∧ net.QuietAt pairIds .high ∧ net.dialed .low = some 10 ∧
        net.dialed .high = some 11 ∧ 10 ∈ (net.peer pairIds .low).seen ∧
        11 ∈ (net.peer pairIds .low).seen ∧ 10 ∈ (net.peer pairIds .high).seen ∧
        11 ∈ (net.peer pairIds .high).seen)) = true := by decide +kernel
  obtain ⟨net, hrun, hnet⟩ := (Option.any_eq_true _ _).mp hany
  obtain ⟨hlow, hhigh, hten, heleven, hll, hlh, hhl, hhh⟩ := of_decide_eq_true hnet
  have hquiet : net.Quiet pairIds := by
    intro d
    cases d with
    | low =>
      refine ⟨hlow, fun e => ?_⟩
      cases e
      exacts [⟨10, hten, hll⟩, ⟨11, heleven, hlh⟩]
    | high =>
      refine ⟨hhigh, fun e => ?_⟩
      cases e
      exacts [⟨10, hten, hhl⟩, ⟨11, heleven, hhh⟩]
  exact ⟨net, hrun, simultaneous_connect_converges pairIds (by decide) 60000 pairStores
    (fun d => by cases d <;> decide) crossedLabels net hrun hquiet⟩

end OneBrain.Mesh
