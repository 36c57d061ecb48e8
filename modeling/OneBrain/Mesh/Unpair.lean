import OneBrain.Mesh.Sessions

/-!
# Unpairing a peer

The request to unpair takes the peer out of the store, aborts its session and closes the
connection, and from then on the accept loop and the dialing turn the peer away: both look
into the store first. What passed that look before the request was handled is not looked at
again. A mesh connection on its way through the queue becomes a session, and so does the
connection of a dial that was under way; the blob provider keeps serving the connections it
has; and a stream task hands on what it had received.

* `unpair_races` — a run in which all of this happens after the request was answered.
* `unpair_final` — when the service has no session with a peer that is not paired, and serves
  none of its streams, messages and blob requests.
-/

namespace OneBrain.Mesh

namespace Service

/-- Nothing of the peer is on its way past the check of the store: no connection that waits
to be adopted, no blob connection, and nothing received that is not served. -/
def settled (s : Service) (p : EndpointId) : Bool :=
  (s.link p).openedIds.isEmpty && (s.peers p).accepting.isEmpty && (s.peers p).blobs.isEmpty &&
    (s.peers p).received.isEmpty

/-- The steps that race with the request to unpair: it is handled while something of the
peer is on its way, or a dial returns a connection of a peer that is not paired. -/
def races (p : EndpointId) (s : Service) (l : Label) : Bool :=
  (s.unpairing l == some p && !s.settled p) ||
    match l with
    | .dialEnds q (some _) => q == p && !s.store.contains p
    | _ => false

end Service

namespace Link

/-- A peer that is not paired has no session, and nothing on its way to one. -/
def Barred (L : Link) : Prop :=
  L.paired = false → L.peer.session = none ∧ L.openedIds = [] ∧ L.peer.accepting = [] ∧
    L.peer.blobs = [] ∧ L.peer.received = []

theorem Barred.of_paired {L : Link} (h : L.paired = true) : L.Barred :=
  fun hout => absurd (hout.symm.trans h) Bool.false_ne_true

theorem session_unpair (x : Peer) : x.unpair.session = none := by
  unfold Peer.unpair
  cases x.session <;> rfl

theorem unpair_keeps (x : Peer) : x.unpair.accepting = x.accepting ∧ x.unpair.blobs = x.blobs ∧
      x.unpair.received = x.received := by
  unfold Peer.unpair
  cases x.session <;> exact ⟨rfl, rfl, rfl⟩

theorem runnerStep_keeps {x left : Peer} {i : ℕ} {step : RunnerStep} {ended : Option ConnId}
    (h : x.runnerStep i step = some (left, ended)) :
    left.session = x.session ∧ left.accepting = x.accepting ∧ left.blobs = x.blobs ∧
      left.received = x.received := by
  obtain ⟨r, o, -, -, rfl, -⟩ := Peer.runnerStep_eq_some h
  exact ⟨rfl, rfl, rfl, rfl⟩

/-- Nothing is read from a peer that is not paired: its runners are aborted, so their
connections are closed. -/
theorem Ok.not_reads {L : Link} (h : L.Ok) (hsession : L.peer.session = none) (c : ConnId) :
    L.peer.reads c = false := by
  refine Bool.eq_false_iff.mpr fun hreads => ?_
  obtain ⟨hany, hopen⟩ := Bool.and_eq_true_iff.mp hreads
  obtain ⟨r, hr, hrc⟩ := List.any_eq_true.mp hany
  have hid : r.conn.id = c := beq_iff_eq.mp (Bool.and_eq_true_iff.mp hrc).1
  have hdead : r.aborted = true := by
    by_contra halive
    have hcurrent := h.current r hr (Bool.eq_false_iff.mpr halive)
    rw [hsession] at hcurrent
    cases hcurrent
  have hclosed := h.aborted r hr hdead
  rw [hid] at hclosed
  simp [hclosed] at hopen

/-- **A step that does not race** lets nothing of a peer in that is not paired. -/
theorem Step.barred {p : EndpointId} {s : Service} {l : Label} {L : Link}
    (h : Step p s l (s.link p) L) (hok : (s.link p).Ok) (hs : (s.link p).Barred)
    (hl : s.races p l = false) : L.Barred := by
  obtain ⟨hunpair, hdial⟩ := Bool.or_eq_false_iff.mp hl
  cases h with
  | idle | dials | refuses | dialFails | closes => exact hs
  | pairs => exact .of_paired rfl
  | unpairs hunpairing =>
    intro _
    have hsettled : s.settled p = true := by simpa [hunpairing] using hunpair
    simp only [Service.settled, Bool.and_eq_true, List.isEmpty_iff] at hsettled
    obtain ⟨⟨⟨hopened, haccepting⟩, hblobs⟩, hreceived⟩ := hsettled
    obtain ⟨ha, hb, hr⟩ := unpair_keeps (s.peers p)
    exact ⟨session_unpair _, hopened, ha.trans haccepting, hb.trans hblobs, hr.trans hreceived⟩
  | accepts _ _ _ hpaired | acceptsBlob _ _ _ hpaired => exact .of_paired hpaired
  | passes i c hat =>
    intro hout
    rw [(hs hout).2.2.1] at hat
    cases hat
  | dialEnds c hlabel =>
    subst hlabel
    have hpaired : s.store.contains p = true := by simpa using hdial
    exact .of_paired hpaired
  | runner i step _ left ended hstep =>
    intro hout
    obtain ⟨hsession, hopened, haccepting, hblobs, hreceived⟩ := hs hout
    obtain ⟨hks, hka, hkb, hkr⟩ := runnerStep_keeps hstep
    refine ⟨hks.trans hsession, ?_, hka.trans haccepting, hkb.trans hblobs, hkr.trans hreceived⟩
    rw [openedIds, List.filterMap_append]
    cases ended <;> simpa [Event.openedId, openedIds] using hopened
  | receives c hreads =>
    intro hout
    have hclosed := hok.not_reads (hs hout).1 c
    exact absurd (hclosed.symm.trans hreads) Bool.false_ne_true
  | serves =>
    intro hout
    obtain ⟨hsession, hopened, haccepting, hblobs, hreceived⟩ := hs hout
    exact ⟨hsession, hopened, haccepting, hblobs, by simp [hreceived]⟩
  | endsBlob =>
    intro hout
    obtain ⟨hsession, hopened, haccepting, hblobs, hreceived⟩ := hs hout
    exact ⟨hsession, hopened, haccepting, by simp [hblobs], hreceived⟩
  | event e rest _ hevents =>
    intro hout
    cases e with
    | opened =>
      have hopened := (hs hout).2.1
      rw [openedIds, hevents] at hopened
      cases hopened
    | ended c =>
      obtain ⟨hsession, hopened, hrest⟩ := hs hout
      rw [openedIds, hevents] at hopened
      have hsame : (s.link p).peer.sessionEnded c = (s.link p).peer := by
        simp [Peer.sessionEnded, hsession]
      simp only [take, hsame]
      exact ⟨hsession, hopened, hrest⟩

end Link

theorem run_barred {me : EndpointId} {pairWindow : ℕ} {store : PeerStore} {p : EndpointId}
    {ls : List Label} {s : Service}
    (hmeets : (Service.machine me pairWindow store).Meets (fun s l => s.races p l = false) ls)
    (hrun : (Service.machine me pairWindow store).run ls = some s) : (s.link p).Barred :=
  Lib.Machine.run_induct_of_meets (I := fun _ s => (s.link p).Barred)
    (fun _ => ⟨rfl, rfl, rfl, rfl, rfl⟩)
    (fun _ _ _ _ hbefore hs hl hnext => (Service.link_step hnext p).barred (run_ok hbefore p) hs hl)
    hmeets hrun

theorem contains_of_unpairing {s t : Service} {l : Label} {p : EndpointId}
    (hl : s.unpairing l = some p) (hnext : s.next l = some t) : t.store.contains p = false := by
  unfold Service.unpairing at hl
  split at hl
  · split at hl
    · rename_i name rest hqueue
      split at hl
      · rename_i peer left hremove
        obtain rfl := Option.some.inj hl
        simp only [Service.next, hqueue, Option.some.injEq] at hnext
        subst hnext
        have hlink := Service.link_unpair (s := { s with queue := rest }) hremove peer
        rw [if_pos rfl] at hlink
        exact congrArg Link.paired hlink
      · cases hl
    · cases hl
  · cases hl

/-- **Unpair is final**, in every run without a step that races. A request to unpair takes
its peer out of the store; and in every state in which a peer is not in the store, there is
no session with it, and neither a stream or control message nor a blob request of it can be
served. -/
theorem unpair_final (me : EndpointId) (pairWindow : ℕ) (store : PeerStore) (p : EndpointId)
    (ls : List Label) (s : Service)
    (hmeets : (Service.machine me pairWindow store).Meets (fun s l => s.races p l = false) ls)
    (hrun : (Service.machine me pairWindow store).run ls = some s) :
    (∀ l t, s.unpairing l = some p → s.next l = some t → t.store.contains p = false) ∧
      (s.store.contains p = false → (s.peers p).session = none ∧ (∀ i, s.next (.serves p i) = none) ∧
          ∀ i, s.next (.servesBlob p i) = none) := by
  refine ⟨fun l t hl hnext => contains_of_unpairing hl hnext, fun hout => ?_⟩
  obtain ⟨hsession, -, -, hblobs, hreceived⟩ := run_barred hmeets hrun hout
  have hnone : ((s.peers p).received).length = 0 := congrArg List.length hreceived
  have hnoblob : ((s.peers p).blobs).length = 0 := congrArg List.length hblobs
  exact ⟨hsession, fun i => by simp [Service.next, Service.atPeer, hnone],
    fun i => by simp [Service.next, Service.atPeer, hnoblob]⟩

/-- A session is established, and its peer unpaired. -/
def unpairLabels : List Label :=
  [.accepts ⟨10, 2⟩ .mesh, .passes 2 0, .handles, .runner 2 0 .poll, .runner 2 0 (.helloOk true),
    .receives 2 10, .serves 2 0, .posts (.unpair "b"), .handles]

theorem unpair_final_established : ∃ s, (Service.machine 1 60000 [⟨2, "b"⟩]).run unpairLabels = some s ∧
      s.store.contains 2 = false ∧ (s.peers 2).session = none ∧ ∀ i, s.next (.serves 2 i) = none := by
  have hany : (((Service.machine 1 60000 [⟨2, "b"⟩]).run unpairLabels).any
      fun s => decide (s.store.contains 2 = false)) = true := by decide +kernel
  obtain ⟨s, hrun, hs⟩ := (Option.any_eq_true _ _).mp hany
  have hout : s.store.contains 2 = false := of_decide_eq_true hs
  have hmeets : (Service.machine 1 60000 [⟨2, "b"⟩]).Meets (fun s l => s.races 2 l = false)
      unpairLabels :=
    Lib.Machine.meets_of_checks (f := fun s l => !s.races 2 l)
      (fun _ _ _ _ h => by simpa using h) (by decide +kernel)
  obtain ⟨hsession, hserves, -⟩ :=
    (unpair_final 1 60000 [⟨2, "b"⟩] 2 unpairLabels s hmeets hrun).2 hout
  exact ⟨s, hrun, hout, hsession, hserves⟩

/-- A blob connection and a mesh connection of the peer pass the check of the store; the
peer is unpaired; the mesh connection reaches the queue after that, and is adopted. -/
def raceLabels : List Label :=
  [.accepts ⟨11, 2⟩ .blobs, .accepts ⟨10, 2⟩ .mesh, .posts (.unpair "b"), .passes 2 0, .handles,
    .handles, .runner 2 0 .poll, .runner 2 0 (.helloOk true), .receives 2 10]

/-- **The races.** Peer `2` is unpaired, and still there is a session with it, a message of
it is served, and a blob request. -/
theorem unpair_races : ∃ s, (Service.machine 1 60000 [⟨2, "b"⟩]).run raceLabels = some s ∧
      s.store.contains 2 = false ∧ (s.peers 2).session = some ⟨⟨10, 2⟩, false⟩ ∧
      (s.next (.serves 2 0)).isSome = true ∧ (s.next (.servesBlob 2 0)).isSome = true := by
  have hany : (((Service.machine 1 60000 [⟨2, "b"⟩]).run raceLabels).any
      fun s => decide (s.store.contains 2 = false ∧
        (s.peers 2).session = some ⟨⟨10, 2⟩, false⟩ ∧ (s.next (.serves 2 0)).isSome = true ∧
        (s.next (.servesBlob 2 0)).isSome = true)) = true := by decide +kernel
  obtain ⟨s, hrun, hs⟩ := (Option.any_eq_true _ _).mp hany
  exact ⟨s, hrun, of_decide_eq_true hs⟩

end OneBrain.Mesh
