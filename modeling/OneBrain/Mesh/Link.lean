import OneBrain.Mesh.Service

/-!
# The link with one peer

Most of what the mesh promises is about one peer at a time. This module cuts the service
down to what concerns one endpoint: whether it is paired, what is kept for it, and the
messages about its connections that wait in the queue, in their order. Every step of the
service is a step of this smaller system, or does nothing to it (`link_step`), and the
statements about sessions are proved there.

The link says less than the service where nothing is lost by it: when a peer is dialed is
left open, as long as it is paired, so the delays of the reconnect loop, the discovery and
the flag of dials under way do not appear.
-/

namespace OneBrain.Mesh

open Option List

/-- A message in the queue about a connection of the peer. -/
inductive Event where
  /-- A connection that passed the accept loop, or was dialed. -/
  | opened (conn : Conn) (dialer : Bool)
  /-- The session on a connection has ended. -/
  | ended (conn : ConnId)
  deriving DecidableEq, Repr

/-- What a message of the queue says about the connections of a peer. -/
def Internal.event (p : EndpointId) : Internal → Option Event
  | .incomingMesh conn => if conn.remote = p then some (.opened conn false) else none
  | .dialDone _ (some conn) => if conn.remote = p then some (.opened conn true) else none
  | .sessionEnded peer c => if peer = p then some (.ended c) else none
  | _ => none

/-- The part of the service that concerns one peer. -/
structure Link where
  paired : Bool
  peer : Peer
  /-- Messages about its connections, in the order of the queue. -/
  events : List Event
  deriving DecidableEq, Repr

namespace Service

/-- What a node has of one peer. -/
def link (s : Service) (p : EndpointId) : Link :=
  ⟨s.store.contains p, s.peers p, s.queue.filterMap (Internal.event p)⟩

/-- The peer that a step takes out of the store: the one a request to unpair finds. -/
def unpairing (s : Service) : Label → Option EndpointId
  | .handles =>
    match s.queue with
    | .unpair name :: _ =>
      match s.store.removeByName name with
      | .ok (peer, _) => some peer
      | .error _ => none
    | _ => none
  | _ => none

/-- The peer that a step adds for a window: the result of an attempt of the open window. -/
def adding (w : ℕ) (s : Service) : Label → Option EndpointId
  | .handles =>
    match s.queue with
    | .pairHostDone id (some outcome) :: _ =>
      if id = w ∧ (s.window.any fun window => window.id == w) = true then some outcome.peer else none
    | _ => none
  | _ => none

/-- The step puts the peer into the store: for a window, or because this node has joined it. -/
def Pairs (s : Service) (l : Label) (p : EndpointId) : Prop :=
  (∃ w, s.adding w l = some p) ∨ ∃ nodeName, l = .joins p nodeName

end Service

namespace Link

/-- What the service does with a message about a connection of the peer. -/
def take (me p : EndpointId) (L : Link) : Event → Link
  | .opened conn dialer =>
    { L with
      peer :=
        if p = me then L.peer.close conn.id
        else L.peer.adoptConn (decide (me < p)) conn dialer }
  | .ended c => { L with peer := L.peer.sessionEnded c }

/-- **The steps of a link**, at a step `l` of the service in the state `s`. -/
inductive Step (p : EndpointId) (s : Service) (l : Label) (L : Link) : Link → Prop where
  /-- The step does not concern the peer. -/
  | idle : Step p s l L L
  /-- The peer is dialed, which only happens while it is paired. -/
  | dials (n : ℕ) (hpaired : 0 < n → L.paired = true) :
    Step p s l L { L with peer := L.peer.dial n }
  /-- The peer is paired, and perhaps dialed at once. -/
  | pairs (n : ℕ) (hl : s.Pairs l p) : Step p s l L { L with paired := true, peer := L.peer.dial n }
  | unpairs (hl : s.unpairing l = some p) : Step p s l L { L with paired := false, peer := L.peer.unpair }
  /-- A mesh connection of the peer passes the check of the store. -/
  | accepts (conn : Conn) (hl : l = .accepts conn .mesh) (hremote : conn.remote = p)
      (hpaired : L.paired = true) (hnew : conn.id ∉ L.peer.seen) :
    Step p s l L
      { L with
        peer := { L.peer with
          seen := conn.id :: L.peer.seen
          accepting := L.peer.accepting ++ [conn.id] } }
  /-- A blob connection of the peer passes the check of the store. -/
  | acceptsBlob (conn : Conn) (hl : l = .accepts conn .blobs) (hremote : conn.remote = p)
      (hpaired : L.paired = true) (hnew : conn.id ∉ L.peer.seen) :
    Step p s l L
      { L with
        peer := { L.peer with
          seen := conn.id :: L.peer.seen
          blobs := L.peer.blobs ++ [conn.id] } }
  /-- A connection of the peer does not pass, and is closed. -/
  | refuses (conn : Conn) (hpaired : L.paired = false) (hnew : conn.id ∉ L.peer.seen) :
    Step p s l L
      { L with peer := { L.peer with seen := conn.id :: L.peer.seen }.close conn.id }
  | passes (i : ℕ) (c : ConnId) (hat : L.peer.accepting[i]? = some c) :
    Step p s l L
      { L with
        peer := { L.peer with accepting := L.peer.accepting.eraseIdx i }
        events := L.events ++ [.opened ⟨c, p⟩ false] }
  | dialFails (hdial : L.peer.dials ≠ 0) :
    Step p s l L { L with peer := { L.peer with dials := L.peer.dials - 1 } }
  /-- A dial ends with a connection, which is queued. -/
  | dialEnds (c : ConnId) (hl : l = .dialEnds p (some c)) (hdial : L.peer.dials ≠ 0)
      (hnew : c ∉ L.peer.seen) :
    Step p s l L
      { L with
        peer := { L.peer with dials := L.peer.dials - 1, seen := c :: L.peer.seen }
        events := L.events ++ [.opened ⟨c, p⟩ true] }
  /-- A connection is closed by the other end, or lost. -/
  | closes (c : ConnId) (hl : l = .closes p c) : Step p s l L { L with peer := L.peer.close c }
  | runner (i : ℕ) (step : RunnerStep) (hl : l = .runner p i step) (left : Peer)
      (ended : Option ConnId) (hstep : L.peer.runnerStep i step = some (left, ended)) :
    Step p s l L
      { L with peer := left, events := L.events ++ (ended.map Event.ended).toList }
  /-- A stream or a control message arrives. -/
  | receives (c : ConnId) (hreads : L.peer.reads c = true) :
    Step p s l L { L with peer := { L.peer with received := L.peer.received ++ [c] } }
  /-- A stream or a control message is served, or dropped. -/
  | serves (i : ℕ) (hin : i < L.peer.received.length) :
    Step p s l L { L with peer := { L.peer with received := L.peer.received.eraseIdx i } }
  /-- The blob provider is done with a connection. -/
  | endsBlob (i : ℕ) (hin : i < L.peer.blobs.length) :
    Step p s l L { L with peer := { L.peer with blobs := L.peer.blobs.eraseIdx i } }
  /-- The service takes a message about a connection of the peer. -/
  | event (e : Event) (rest : List Event) (hl : l = .handles) (hevents : L.events = e :: rest) :
    Step p s l L ({ L with events := rest }.take s.me p e)

end Link

namespace Service

open PeerStore (contains_removeByName)

/-! ## What the operations of the service do to a link -/

theorem link_send (s : Service) (m : Internal) (p : EndpointId) : (s.send m).link p =
      { s.link p with events := (s.link p).events ++ (m.event p).toList } := by
  simp only [link, send, filterMap_append, filterMap_cons, filterMap_nil]
  cases m.event p <;> rfl

variable {s t : Service} {m : Internal} {p q : EndpointId} {L L' : Link} {l : Label}
  {rest : List Internal} {name : String} {i : ℕ}

theorem link_send_of_none (h : m.event p = none) : (s.send m).link p = s.link p := by
  rw [link_send, h, toList_none, append_nil]

theorem link_setPeer_self (s : Service) (p : EndpointId) (x : Peer) :
    (s.setPeer p x).link p = { s.link p with peer := x } := by
  simp only [link, setPeer, Function.update_self]

theorem link_setPeer_of_ne (h : p ≠ q) (x : Peer) : (s.setPeer q x).link p = s.link p := by
  simp only [link, setPeer, Function.update_of_ne h]

/-- What `ensureSession` does to a link: it may dial a peer that is paired. -/
def Dials (L L' : Link) : Prop :=
  ∃ n, (0 < n → L.paired = true) ∧ L' = { L with peer := L.peer.dial n }

theorem Dials.refl (L : Link) : Dials L L := ⟨0, fun h => absurd h (lt_irrefl 0), rfl⟩

theorem Dials.of_eq (h : L' = L) : Dials L L' := h ▸ Dials.refl L

theorem Dials.trans {L'' : Link} (h : Dials L L') (h' : Dials L' L'') : Dials L L'' := by
  obtain ⟨n, hn, rfl⟩ := h
  obtain ⟨m, hm, rfl⟩ := h'
  refine ⟨n + m, fun hpos => ?_, ?_⟩
  · rcases Nat.eq_zero_or_pos n with rfl | hpos
    exacts [hm (by omega), hn hpos]
  · simp only [Peer.dial, Nat.add_assoc]

theorem dials_ensureSession (s : Service) (q p : EndpointId) :
    Dials (s.link p) ((s.ensureSession q).link p) := by
  unfold ensureSession
  split_ifs with _ hpaired
  · exact Dials.refl _
  · exact Dials.refl _
  · exact Dials.refl _
  · by_cases hq : p = q
    · subst hq
      refine ⟨1, fun _ => ?_, link_setPeer_self s p _⟩
      exact Bool.not_eq_false _ ▸ hpaired
    · exact .of_eq (link_setPeer_of_ne (s := s) hq ((s.peers q).dial 1))

theorem dials_reconnectTick (s : Service) (p : EndpointId) : Dials (s.link p) (s.reconnectTick.link p) := by
  unfold reconnectTick
  generalize s.store.map PeerRecord.id = ids
  induction ids generalizing s with
  | nil => exact Dials.refl _
  | cons q ids ih =>
    have hone : Dials (s.link p) ((s.reconnectPeer q).link p) := by
      unfold reconnectPeer
      split_ifs
      exacts [Dials.refl _, Dials.refl _, dials_ensureSession s q p]
    exact hone.trans (ih _)

theorem Step.of_dials (h : Dials L L') : Link.Step p s l L L' := by
  obtain ⟨n, hn, rfl⟩ := h
  exact .dials n hn

/-- The link once the first message of the queue is taken. -/
theorem link_rest (h : s.queue = m :: rest) (p : EndpointId) :
    (s.link p).events = (m.event p).toList ++ ({ s with queue := rest }.link p).events := by
  simp only [link, h, filterMap_cons]
  cases m.event p <;> rfl

theorem link_rest_of_none (h : s.queue = m :: rest) (hm : m.event p = none) :
    { s with queue := rest }.link p = s.link p := by
  have hevents := link_rest h p
  rw [hm, toList_none, nil_append] at hevents
  exact congrArg (Link.mk (s.store.contains p) (s.peers p)) hevents.symm

theorem link_adoptConn_self (s : Service) (conn : Conn) (dialer : Bool) :
    (s.adoptConn conn dialer).link conn.remote = (s.link conn.remote).take s.me conn.remote (.opened conn dialer) := by
  unfold adoptConn Link.take
  split_ifs with hme
  · exact link_setPeer_self s _ _
  · exact link_setPeer_self (s.forgetBackoff conn.remote) _ _

theorem link_adoptConn_of_ne {conn : Conn} (h : p ≠ conn.remote)
    (dialer : Bool) : (s.adoptConn conn dialer).link p = s.link p := by
  unfold adoptConn
  split_ifs
  · exact link_setPeer_of_ne h _
  · exact link_setPeer_of_ne (s := s.forgetBackoff conn.remote) h _

theorem step_pairHostDone (s s₀ : Service) (l : Label) (id : ℕ) (result : Option PairOutcome) (p : EndpointId)
    (hl : ∀ outcome window, result = some outcome → s.window = some window → window.id = id →
      s₀.Pairs l outcome.peer) : Link.Step p s₀ l (s.link p) ((s.pairHostDone id result).link p) := by
  unfold pairHostDone
  cases hwindow : s.window with
  | none => exact .idle
  | some window =>
    by_cases hid : window.id ≠ id
    · simp only [if_pos hid]
      exact .idle
    · simp only [if_neg hid]
      cases result with
      | none => exact .idle
      | some outcome =>
        let s₁ : Service :=
          { s with
            store := s.store.add outcome.peer outcome.nodeName
            window := none }.forgetBackoff outcome.peer
        have hdials : Dials (s₁.link p) ((s₁.ensureSession outcome.peer).link p) :=
          dials_ensureSession s₁ outcome.peer p
        by_cases hp : outcome.peer = p
        · have hlink : s₁.link p = { s.link p with paired := true } := by
            have hin : s₁.store.contains p = true := by
              show (s.store.add outcome.peer outcome.nodeName).contains p = true
              simp [hp]
            exact congrArg (fun paired => Link.mk paired (s.peers p) _) hin
          obtain ⟨n, -, hn⟩ := hdials
          show Link.Step p s₀ l (s.link p) ((s₁.ensureSession outcome.peer).link p)
          rw [hn, hlink]
          exact .pairs n (hp ▸ hl outcome window rfl hwindow (not_not.mp hid))
        · have hlink : s₁.link p = s.link p := by
            have hin : s₁.store.contains p = s.store.contains p := by
              show (s.store.add outcome.peer outcome.nodeName).contains p = _
              simp [hp]
            exact congrArg (fun paired => Link.mk paired (s.peers p) _) hin
          exact Step.of_dials (hlink ▸ hdials)

theorem link_unpair {left : PeerStore} (h : s.store.removeByName name = .ok (q, left)) (p : EndpointId) :
    (s.unpair name).1.link p =
      if q = p then { s.link p with paired := false, peer := (s.peers p).unpair }
      else s.link p := by
  have hleft : left.contains p = (!decide (q = p) && s.store.contains p) := contains_removeByName h
  simp only [unpair, h, link, setPeer, forgetBackoff, hleft]
  split_ifs with hq
  · subst hq
    simp
  · have hp : p ≠ q := fun heq => hq heq.symm
    simp [hq, hp]

theorem link_unpair_error {err : MeshError} (h : s.store.removeByName name = .error err) : (s.unpair name).1 = s := by
  simp only [unpair, h]

theorem step_unpair (hqueue : s.queue = .unpair name :: rest) (p : EndpointId) :
    Link.Step p s .handles (s.link p) (({ s with queue := rest }.unpair name).1.link p) := by
  have hrest : { s with queue := rest }.link p = s.link p := link_rest_of_none hqueue rfl
  cases hremove : s.store.removeByName name with
  | error =>
    rw [link_unpair_error (s := { s with queue := rest }) hremove, hrest]
    exact .idle
  | ok found =>
    obtain ⟨q, left⟩ := found
    rw [link_unpair (s := { s with queue := rest }) hremove, hrest]
    split_ifs with hq
    · subst hq
      exact .unpairs (by simp only [unpairing, hqueue, hremove])
    · exact .idle

theorem step_event {e : Event} (hqueue : s.queue = m :: rest) (hm : m.event p = some e)
    (hhandle : ({ s with queue := rest }.handle m).link p = ({ s with queue := rest }.link p).take s.me p e) :
    Link.Step p s .handles (s.link p) (({ s with queue := rest }.handle m).link p) := by
  have hevents := link_rest hqueue p
  rw [hm, toList_some, singleton_append] at hevents
  rw [hhandle]
  exact .event e _ rfl hevents

theorem step_none (hqueue : s.queue = m :: rest) (hm : m.event p = none)
    (hhandle : Dials ({ s with queue := rest }.link p) (({ s with queue := rest }.handle m).link p)) :
    Link.Step p s .handles (s.link p) (({ s with queue := rest }.handle m).link p) := by
  rw [link_rest_of_none hqueue hm] at hhandle
  exact Step.of_dials hhandle

/-- **A message is taken from the queue.** -/
theorem step_handle (hqueue : s.queue = m :: rest) (p : EndpointId) :
    Link.Step p s .handles (s.link p) (({ s with queue := rest }.handle m).link p) := by
  cases m with
  | pairStart =>
    refine step_none hqueue rfl ?_
    have hsame : ({ s with queue := rest }.pairStart).1.link p = { s with queue := rest }.link p := by
      unfold pairStart
      cases s.window with
      | none => rfl
      | some => dsimp only; split_ifs <;> rfl
    exact .of_eq hsame
  | unpair => exact step_unpair hqueue p
  | incomingPair conn =>
    refine step_none hqueue rfl ?_
    have hsame : ({ s with queue := rest }.incomingPair conn).link p =
        { s with queue := rest }.link p := by
      unfold incomingPair
      cases s.window with
      | none => rfl
      | some => dsimp only; split_ifs <;> rfl
    exact .of_eq hsame
  | incomingMesh conn =>
    by_cases hp : conn.remote = p
    · subst hp
      exact step_event hqueue (if_pos rfl) (link_adoptConn_self _ conn false)
    · exact step_none hqueue (if_neg hp) (.of_eq (link_adoptConn_of_ne (fun h => hp h.symm) false))
  | pairHostDone id result =>
    have hstep := step_pairHostDone { s with queue := rest } s .handles id result p ?_
    · rwa [link_rest_of_none hqueue rfl] at hstep
    · rintro outcome window rfl hwindow hid
      refine .inl ⟨id, ?_⟩
      have hopen : s.window = some window := hwindow
      simp [adding, hqueue, hopen, hid]
  | windowTimeout id =>
    refine step_none hqueue rfl ?_
    have hsame : ({ s with queue := rest }.windowTimeout id).link p =
        { s with queue := rest }.link p := by
      unfold windowTimeout
      split_ifs <;> rfl
    exact .of_eq hsame
  | joinedPeer peer =>
    exact step_none hqueue rfl (dials_ensureSession ({ s with queue := rest }.forgetBackoff peer) peer p)
  | dialDone peer conn =>
    cases conn with
    | none => exact step_none hqueue rfl (Dials.refl _)
    | some conn =>
      by_cases hp : conn.remote = p
      · subst hp
        exact step_event hqueue (if_pos rfl) (link_adoptConn_self _ conn true)
      · refine step_none hqueue (if_neg hp) (.of_eq ?_)
        exact link_adoptConn_of_ne
          (s := { s with queue := rest, dialing := Function.update s.dialing peer false })
          (fun h => hp h.symm) true
  | tryDial peer => exact step_none hqueue rfl (dials_ensureSession _ peer p)
  | sessionEnded peer =>
    by_cases hp : peer = p
    · subst hp
      exact step_event hqueue (if_pos rfl) (link_setPeer_self _ peer _)
    · exact step_none hqueue (if_neg hp) (.of_eq (link_setPeer_of_ne (fun h => hp h.symm) _))
  | discovered peer =>
    refine step_none hqueue rfl ?_
    unfold handle
    dsimp only
    split_ifs
    · exact Dials.refl _
    · exact dials_ensureSession
        ({ s with
            queue := rest
            discovered := Function.update s.discovered peer true }.forgetBackoff peer) peer p
    · exact Dials.refl _
  | discoveryExpired => exact step_none hqueue rfl (Dials.refl _)
  | reconnectTick => exact step_none hqueue rfl (dials_reconnectTick _ p)

theorem step_setPeer {x : Peer} (hself : q = p → Link.Step p s l (s.link p) { s.link p with peer := x }) :
    Link.Step p s l (s.link p) ((s.setPeer q x).link p) := by
  by_cases hq : q = p
  · subst hq
    rw [link_setPeer_self]
    exact hself rfl
  · rw [link_setPeer_of_ne fun h => hq h.symm]
    exact .idle

theorem step_setPeer_send {x : Peer} {e : Event} (hevent : m.event p = if q = p then some e else none)
    (hself : q = p → Link.Step p s l (s.link p) { s.link p with peer := x, events := (s.link p).events ++ [e] }) :
    Link.Step p s l (s.link p) (((s.setPeer q x).send m).link p) := by
  rw [link_send, hevent]
  by_cases hq : q = p
  · subst hq
    rw [link_setPeer_self, if_pos rfl]
    exact hself rfl
  · rw [link_setPeer_of_ne fun h => hq h.symm, if_neg hq, toList_none, append_nil]
    exact .idle

theorem step_atPeer {f : Peer → Option Peer} (h : s.atPeer q f = some t)
    (hself : ∀ x, q = p → f (s.peers p) = some x → Link.Step p s l (s.link p) { s.link p with peer := x }) :
    Link.Step p s l (s.link p) (t.link p) := by
  obtain ⟨x, hx, rfl⟩ := map_eq_some_iff.mp h
  exact step_setPeer fun hq => hself x hq (hq ▸ hx)

theorem enter_eq_some {x y : Peer} {c : ConnId} (h : x.enter c = some y) :
    c ∉ x.seen ∧ y = { x with seen := c :: x.seen } := by
  unfold Peer.enter at h
  split_ifs at h with hin
  exact ⟨hin, (Option.some.inj h).symm⟩

theorem step_accept {conn : Conn} {alpn : Alpn} (h : s.accept conn alpn = some t)
    (p : EndpointId) : Link.Step p s (.accepts conn alpn) (s.link p) (t.link p) := by
  cases alpn with
  | pair =>
    obtain rfl := Option.some.inj h
    rw [link_send_of_none rfl]
    exact .idle
  | mesh | blobs =>
    obtain ⟨x, hx, rfl⟩ := map_eq_some_iff.mp h
    obtain ⟨hnew, rfl⟩ := enter_eq_some hx
    refine step_setPeer fun hp => ?_
    subst hp
    cases hpaired : s.store.contains conn.remote with
    | true => first | exact .accepts conn rfl rfl hpaired hnew | exact .acceptsBlob conn rfl rfl hpaired hnew
    | false => exact .refuses conn hpaired hnew

theorem step_pass (h : s.pass q i = some t) (p : EndpointId) : Link.Step p s (.passes q i) (s.link p) (t.link p) := by
  obtain ⟨c, hc, rfl⟩ := map_eq_some_iff.mp h
  refine step_setPeer_send rfl fun hq => ?_
  subst hq
  exact .passes i c hc

theorem step_dialEnd {conn : Option ConnId} (h : s.dialEnd q conn = some t) (p : EndpointId) :
    Link.Step p s (.dialEnds q conn) (s.link p) (t.link p) := by
  unfold dialEnd at h
  split_ifs at h with hdials
  cases conn with
  | none =>
    obtain rfl := Option.some.inj h
    rw [link_send_of_none rfl]
    refine step_setPeer fun hq => ?_
    subst hq
    exact .dialFails hdials
  | some c =>
    obtain ⟨x, hx, rfl⟩ := map_eq_some_iff.mp h
    obtain ⟨hnew, rfl⟩ := enter_eq_some hx
    refine step_setPeer_send rfl fun hq => ?_
    subst hq
    exact .dialEnds c rfl hdials hnew

theorem step_runnerStep {step : RunnerStep} (h : s.runnerStep q i step = some t) (p : EndpointId) :
    Link.Step p s (.runner q i step) (s.link p) (t.link p) := by
  obtain ⟨⟨x, ended⟩, hx, rfl⟩ := map_eq_some_iff.mp h
  have hrunner : q = p → Link.Step p s (.runner q i step) (s.link p) { s.link p with
      peer := x
      events := (s.link p).events ++ (ended.map Event.ended).toList } := by
    rintro rfl
    exact .runner i step rfl x ended hx
  cases ended with
  | none =>
    refine step_setPeer fun hq => ?_
    simpa using hrunner hq
  | some c => exact step_setPeer_send (m := .sessionEnded q c) rfl hrunner

theorem link_attemptStep {step : AttemptStep}
    (h : s.attemptStep i step = some t) (p : EndpointId) : t.link p = s.link p := by
  unfold attemptStep at h
  cases hat : s.attempts[i]? with
  | none => simp only [hat, reduceCtorEq] at h
  | some =>
    simp only [hat] at h
    cases step with
    | reports =>
      obtain ⟨result, -, rfl⟩ := map_eq_some_iff.mp h
      exact link_send_of_none (s := { s with attempts := s.attempts.eraseIdx i }) rfl
    | compares | introduced | fails =>
      obtain ⟨a', -, rfl⟩ := map_eq_some_iff.mp h
      rfl

theorem event_of_outside (h : m.outside = true) (p : EndpointId) : m.event p = none := by
  cases m <;> first | rfl | exact absurd h Bool.false_ne_true

/-- **Every step of the service is a step of the link with each peer.** -/
theorem link_step (h : s.next l = some t) (p : EndpointId) : Link.Step p s l (s.link p) (t.link p) := by
  cases l with
  | handles =>
    cases hqueue : s.queue with
    | nil => simp only [next, hqueue, reduceCtorEq] at h
    | cons =>
      simp only [next, hqueue, Option.some.injEq] at h
      subst h
      exact step_handle hqueue p
  | posts =>
    simp only [next] at h
    split_ifs at h with hm
    obtain rfl := Option.some.inj h
    rw [link_send_of_none (event_of_outside hm p)]
    exact .idle
  | elapses =>
    obtain rfl := Option.some.inj h
    exact .idle
  | accepts => exact step_accept h p
  | passes => exact step_pass h p
  | dialEnds => exact step_dialEnd h p
  | closes q c =>
    simp only [next] at h
    refine step_atPeer h fun x hq hx => ?_
    split_ifs at hx
    obtain rfl := Option.some.inj hx
    exact .closes c (hq ▸ rfl)
  | runner => exact step_runnerStep h p
  | receives q c =>
    simp only [next] at h
    refine step_atPeer h fun x _ hx => ?_
    split_ifs at hx with hreads
    obtain rfl := Option.some.inj hx
    exact .receives c hreads
  | serves _ i | drops _ i =>
    simp only [next] at h
    refine step_atPeer h fun x _ hx => ?_
    split_ifs at hx with hin
    obtain rfl := Option.some.inj hx
    exact .serves i hin
  | servesBlob =>
    simp only [next] at h
    refine step_atPeer h fun x _ hx => ?_
    split_ifs at hx
    obtain rfl := Option.some.inj hx
    exact .idle
  | endsBlob q i =>
    simp only [next] at h
    refine step_atPeer h fun x _ hx => ?_
    split_ifs at hx with hin
    obtain rfl := Option.some.inj hx
    exact .endsBlob i hin
  | attempt =>
    rw [link_attemptStep h p]
    exact .idle
  | timer i =>
    cases hat : s.timers[i]? with
    | none => simp only [next, hat, reduceCtorEq] at h
    | some timer =>
      obtain ⟨id, deadline⟩ := timer
      simp only [next, hat] at h
      split_ifs at h
      obtain rfl := Option.some.inj h
      rw [link_send_of_none rfl]
      exact .idle
  | joins host =>
    obtain rfl := Option.some.inj h
    by_cases hp : host = p
    · have hlink : ∀ store, store.contains p = true →
          { s with store := store, joined := s.joined ++ [host] }.link p =
            { s.link p with paired := true } :=
        fun store hin => congrArg (fun paired => Link.mk paired (s.peers p) _) hin
      rw [hlink _ (by simp [hp])]
      exact .pairs 0 (.inr ⟨_, by rw [hp]⟩)
    · have hlink : ∀ store, store.contains p = s.store.contains p →
          { s with store := store, joined := s.joined ++ [host] }.link p = s.link p :=
        fun store hin => congrArg (fun paired => Link.mk paired (s.peers p) _) hin
      rw [hlink _ (by simp [hp])]
      exact .idle
  | reportsJoin =>
    obtain ⟨host, -, rfl⟩ := map_eq_some_iff.mp h
    rw [link_send_of_none rfl]
    exact .idle

end Service

end OneBrain.Mesh
