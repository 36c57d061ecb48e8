import OneBrain.Mesh.Link

/-!
# The state a peer is shown in

A peer is shown as connected, or as suspect, on the word of its session runner, which takes
the word back when the session ends: it writes `down`. Two things can keep it from doing so.
A runner that is replaced is aborted and writes nothing more; the word it gave stands until
the runner in its place writes a state of its own, and that one writes none if its hellos
fail. And a runner that was aborted while it was being polled can still write a state in
that poll, after everything that would take it back.

* `connected_left_behind` — a peer is shown as connected with nothing left for it.
* `shown_has_session_task` — without these two a peer is shown as connected or suspect only
  while a session task of its own is there.
-/

namespace OneBrain.Mesh

/-- Whether a message of the queue is about a peer. -/
def Internal.about (p : EndpointId) : Internal → Bool
  | .pairStart | .unpair _ | .windowTimeout _ | .reconnectTick => false
  | .incomingPair conn | .incomingMesh conn => conn.remote == p
  | .pairHostDone _ result => result.any fun outcome => outcome.peer == p
  | .dialDone peer conn => peer == p || conn.any fun conn => conn.remote == p
  | .joinedPeer peer | .tryDial peer | .sessionEnded peer _ | .discovered peer
  | .discoveryExpired peer => peer == p

theorem Internal.about_of_event {p : EndpointId} {m : Internal} {e : Event}
    (h : m.event p = some e) : m.about p = true := by
  cases m with
  | incomingMesh | sessionEnded =>
    simp only [Internal.event] at h
    split_ifs at h with hp
    exact beq_iff_eq.mpr hp
  | dialDone peer conn =>
    cases conn with
    | none => cases h
    | some =>
      simp only [Internal.event] at h
      split_ifs at h with hp
      simp [Internal.about, hp]
  | pairStart | unpair | incomingPair | pairHostDone | windowTimeout | joinedPeer | tryDial | discovered
  | discoveryExpired | reconnectTick => cases h

namespace Peer

/-- A peer that is shown as there. -/
def shown (x : Peer) : Bool := x.live == some .connected || x.live == some .suspect

/-- A session task is there that will write the state again: it was not aborted, and has not
written its last. -/
def Manned (x : Peer) : Prop := ∃ r ∈ x.runners, r.aborted = false ∧ r.stage ≠ .leaving

/-- Whoever is shown as connected has a session task. -/
def LiveOk (x : Peer) : Prop := x.shown = true → x.Manned

end Peer

namespace Service

/-- Nothing is left for the peer: no session task, no dial, no connection on its way to the
queue, and no message about it. -/
def Quiet (s : Service) (p : EndpointId) : Prop :=
  (s.peers p).runners = [] ∧ (s.peers p).dials = 0 ∧ (s.peers p).accepting = [] ∧
    ∀ m ∈ s.queue, m.about p = false

instance (s : Service) (p : EndpointId) : Decidable (s.Quiet p) := by
  unfold Quiet
  infer_instance

/-- The steps that can leave a peer shown as connected: the hellos of a session that is
still the current one fail while the peer is shown so, on the word of the session it
replaced; and a runner that was aborted writes that the peer is connected, or suspect. -/
def misleads (p : EndpointId) (s : Service) : Label → Bool
  | .runner q i (.helloFails _) =>
    q == p && (((s.peers p).runners[i]?).any fun r => !r.aborted) && (s.peers p).shown
  | .runner q i (.helloOk true) | .runner q i (.beats _) =>
    q == p && ((s.peers p).runners[i]?).any fun r => r.aborted
  | _ => false

end Service

namespace Peer

theorem shown_eq_false {x : Peer} :
    x.shown = false ↔ x.live ≠ some .connected ∧ x.live ≠ some .suspect := by
  simp [shown]

theorem LiveOk.of_eq {x y : Peer} (hx : x.LiveOk) (hlive : y.live = x.live)
    (hrunners : y.runners = x.runners) : y.LiveOk := by
  intro hshown
  obtain ⟨r, hr, hrest⟩ := hx (by simpa only [shown, hlive] using hshown)
  exact ⟨r, hrunners ▸ hr, hrest⟩

theorem LiveOk.of_not_shown {x : Peer} (h : x.shown = false) : x.LiveOk :=
  fun hshown => absurd (h.symm.trans hshown) Bool.false_ne_true

/-- A session that is spawned has a task of its own. -/
theorem liveOk_spawn (x : Peer) (conn : Conn) (dialer : Bool) : (x.spawn conn dialer).LiveOk :=
  fun _ => ⟨_, List.mem_cons_self, rfl, by simp⟩

theorem LiveOk.adoptConn {x : Peer} (hx : x.LiveOk) (iAmLower : Bool) (conn : Conn)
    (dialer : Bool) : (x.adoptConn iAmLower conn dialer).LiveOk := by
  unfold Peer.adoptConn
  cases x.session with
  | none => exact liveOk_spawn _ conn dialer
  | some =>
    dsimp only
    split_ifs
    · exact liveOk_spawn _ conn dialer
    · exact liveOk_spawn _ conn dialer
    · exact hx.of_eq rfl rfl

theorem LiveOk.runnerStep {x left : Peer} {i : ℕ} {step : RunnerStep} {ended : Option ConnId}
    (hx : x.LiveOk) (h : x.runnerStep i step = some (left, ended))
    (hfails : ∀ timedOut r, step = .helloFails timedOut → x.runners[i]? = some r →
      r.aborted = false → x.shown = false) (hwrites : ∀ r, step = .helloOk true ∨ (∃ echoed, step = .beats echoed) →
      x.runners[i]? = some r → r.aborted = false) : left.LiveOk := by
  obtain ⟨r, o, hat, ho, rfl, -⟩ := runnerStep_eq_some h
  -- a runner that keeps the peer manned is another, or goes on
  have hkeep : (r.aborted = false → r.stage ≠ .leaving →
      ∃ r', o.runner = some r' ∧ r'.aborted = false ∧ r'.stage ≠ .leaving) → x.shown = true →
      ∃ w, (o.runner = some w ∨ w ∈ x.runners.eraseIdx i) ∧ w.aborted = false ∧ w.stage ≠ .leaving := by
    intro hgoes hshown
    obtain ⟨w, hw, halive, hstage⟩ := hx hshown
    rcases (Lib.mem_eraseIdx_or hat).mp hw with rfl | hw
    · obtain ⟨r', hr', hgood⟩ := hgoes halive hstage
      exact ⟨r', .inl hr', hgood⟩
    · exact ⟨w, .inr hw, halive, hstage⟩
  unfold LiveOk Manned
  simp only [mem_runners hat]
  cases step with
  | poll | yields =>
    simp only [Runner.step] at ho
    split_ifs at ho
    obtain rfl := Option.some.inj ho
    exact hkeep fun halive hstage => ⟨_, rfl, halive, hstage⟩
  | cancels =>
    simp only [Runner.step] at ho
    split_ifs at ho with hdead
    obtain rfl := Option.some.inj ho
    exact hkeep fun halive => absurd (halive.symm.trans hdead.2) Bool.false_ne_true
  | helloOk =>
    simp only [Runner.step] at ho
    split_ifs at ho with hstage hcompatible
    · obtain rfl := Option.some.inj ho
      have halive := hwrites r (.inl (by rw [hcompatible])) hat
      exact fun _ => ⟨_, .inl rfl, halive, by simp⟩
    · obtain rfl := Option.some.inj ho
      exact fun hshown => (Bool.false_ne_true hshown).elim
  | helloFails timedOut =>
    simp only [Runner.step] at ho
    split_ifs at ho with hstage
    obtain rfl := Option.some.inj ho
    intro hshown
    refine hkeep (fun halive => ?_) hshown
    exact absurd ((hfails timedOut r rfl hat halive).symm.trans hshown) Bool.false_ne_true
  | beats echoed =>
    simp only [Runner.step] at ho
    split_ifs at ho with hstage
    all_goals
      obtain rfl := Option.some.inj ho
      have halive := hwrites r (.inr ⟨echoed, rfl⟩) hat
      exact fun _ => ⟨r, .inl rfl, halive, by simp_all⟩
  | ends =>
    simp only [Runner.step] at ho
    split_ifs at ho
    obtain rfl := Option.some.inj ho
    exact fun hshown => (Bool.false_ne_true hshown).elim
  | reports =>
    simp only [Runner.step] at ho
    split_ifs at ho with hleaving
    obtain rfl := Option.some.inj ho
    exact hkeep fun _ hstage => absurd hleaving.2 hstage

theorem live_unpair (x : Peer) : x.unpair.live = none := by
  unfold Peer.unpair
  cases x.session <;> rfl

end Peer

/-- **A step of the link that does not mislead** keeps `LiveOk`. -/
theorem Link.Step.liveOk {p : EndpointId} {s : Service} {l : Label} {L : Link}
    (h : Link.Step p s l (s.link p) L) (hs : (s.peers p).LiveOk) (hl : s.misleads p l = false) :
    L.peer.LiveOk := by
  cases h with
  | idle => exact hs
  | unpairs => exact .of_not_shown (by simp only [Peer.shown, Peer.live_unpair]; rfl)
  | runner i step hlabel left ended hstep =>
    subst hlabel
    refine hs.runnerStep hstep (fun timedOut r hfails hat haborted => ?_) fun r hwrites hat => ?_
    · subst hfails
      simpa [Service.misleads, hat, haborted] using hl
    · rcases hwrites with rfl | ⟨echoed, rfl⟩
      · simpa [Service.misleads, hat] using hl
      · simpa [Service.misleads, hat] using hl
  | event e =>
    cases e with
    | opened conn dialer =>
      show Peer.LiveOk (if p = s.me then _ else _)
      split_ifs
      · exact hs.of_eq rfl rfl
      · exact hs.adoptConn _ conn dialer
    | ended c =>
      show ((s.peers p).sessionEnded c).LiveOk
      unfold Peer.sessionEnded
      split_ifs
      exacts [hs.of_eq rfl rfl, hs]
  | dials | pairs | accepts | acceptsBlob | refuses | passes | dialFails | dialEnds | closes | receives | serves
  | endsBlob => exact hs.of_eq rfl rfl

section Runs

variable {me : EndpointId} {pairWindow : ℕ} {store : PeerStore} {p : EndpointId} {ls : List Label}
  {s : Service}

theorem run_liveOk (hmeets : (Service.machine me pairWindow store).Meets (fun s l => s.misleads p l = false) ls)
    (hrun : (Service.machine me pairWindow store).run ls = some s) : (s.peers p).LiveOk :=
  Lib.Machine.run_induct_of_meets (I := fun _ s => (s.peers p).LiveOk)
    (.of_not_shown rfl)
    (fun _ _ _ _ _ hs hl hnext => (Service.link_step hnext p).liveOk hs hl) hmeets hrun

end Runs

/-- **A peer shown as connected has a session.** In every run without a step that misleads
about the peer, in every state reached: once no session task, dial or message for the peer
is left, it is shown neither as connected nor as suspect. -/
theorem shown_has_session_task (me : EndpointId) (pairWindow : ℕ) (store : PeerStore)
    (p : EndpointId) (ls : List Label) (s : Service)
    (hmeets : (Service.machine me pairWindow store).Meets (fun s l => s.misleads p l = false) ls)
    (hrun : (Service.machine me pairWindow store).run ls = some s) (hquiet : s.Quiet p) :
    (s.peers p).live ≠ some .connected ∧ (s.peers p).live ≠ some .suspect := by
  have hok := run_liveOk hmeets hrun
  refine Peer.shown_eq_false.mp (Bool.eq_false_iff.mpr fun hshown => ?_)
  obtain ⟨r, hr, -⟩ := hok hshown
  rw [hquiet.1] at hr
  exact List.not_mem_nil hr

/-- A session that is accepted, established, and ends when the heartbeat is lost. -/
def lostLabels : List Label :=
  [.accepts ⟨10, 2⟩ .mesh, .passes 2 0, .handles, .runner 2 0 .poll, .runner 2 0 (.helloOk true),
    .runner 2 0 (.beats false), .runner 2 0 (.ends true), .runner 2 0 .reports, .handles]

/-- The heartbeat of peer `2` is lost: it was connected, and suspect, and is neither. -/
theorem shown_has_session_task_lost :
    ∃ s, (Service.machine 1 60000 [⟨2, "b"⟩]).run lostLabels = some s ∧ s.Quiet 2 ∧
      (s.peers 2).live ≠ some .connected ∧ (s.peers 2).live ≠ some .suspect := by
  have hany : (((Service.machine 1 60000 [⟨2, "b"⟩]).run lostLabels).any
      fun s => decide (s.Quiet 2)) = true := by decide +kernel
  obtain ⟨s, hrun, hquiet⟩ := (Option.any_eq_true _ _).mp hany
  have hmeets : (Service.machine 1 60000 [⟨2, "b"⟩]).Meets (fun s l => s.misleads 2 l = false)
      lostLabels :=
    Lib.Machine.meets_of_checks (f := fun s l => !s.misleads 2 l)
      (fun _ _ _ _ h => by simpa using h) (by decide +kernel)
  exact ⟨s, hrun, of_decide_eq_true hquiet,
    shown_has_session_task 1 60000 [⟨2, "b"⟩] 2 lostLabels s hmeets hrun
      (of_decide_eq_true hquiet)⟩

/-- A dial is under way when a connection of the peer is accepted and established. The dial
ends: its connection takes over, as this node has the lower id. Then its hellos fail. -/
def replacedLabels : List Label :=
  [.posts (.tryDial 2), .handles, .accepts ⟨10, 2⟩ .mesh, .passes 2 0, .handles,
    .runner 2 0 .poll, .runner 2 0 (.helloOk true), .runner 2 0 .yields,
    .dialEnds 2 (some 11), .handles, .runner 2 1 .cancels,
    .runner 2 0 .poll, .runner 2 0 (.helloFails false), .runner 2 0 .reports, .handles]

/-- **Left behind.** No task, dial or message is left for peer `2`, there is no session with
it, and it is shown as connected. -/
theorem connected_left_behind :
    ∃ s, (Service.machine 1 60000 [⟨2, "b"⟩]).run replacedLabels = some s ∧ s.Quiet 2 ∧
      (s.peers 2).session = none ∧ s.peerState 2 = .connected := by
  have hany : (((Service.machine 1 60000 [⟨2, "b"⟩]).run replacedLabels).any
      fun s => decide (s.Quiet 2 ∧ (s.peers 2).session = none ∧ s.peerState 2 = .connected)) =
        true := by decide +kernel
  obtain ⟨s, hrun, hs⟩ := (Option.any_eq_true _ _).mp hany
  exact ⟨s, hrun, of_decide_eq_true hs⟩

end OneBrain.Mesh
