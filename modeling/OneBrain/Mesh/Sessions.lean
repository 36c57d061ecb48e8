import OneBrain.Lib.Positions
import OneBrain.Mesh.Link

/-!
# One session for each connection, one connection for each session

What keeps the session table in step with the tasks: a connection is on its way to the
queue, in the queue, or has a runner, and never two of these at a time; the end of a session
is reported once its runner is gone; a runner that was not aborted is the runner of the
entry in the table; and the connection of an aborted runner is closed. `run_ok` has this of
every run and every peer.
-/

namespace OneBrain.Mesh

open List

/-- The connection a message is to open a session on. -/
def Event.openedId : Event → Option ConnId
  | .opened conn _ => some conn.id
  | .ended _ => none

namespace Peer

/-- The connections that have a runner. -/
def runnerIds (x : Peer) : List ConnId := x.runners.map fun r => r.conn.id

theorem runnerIds_abort (x : Peer) (c : ConnId) : (x.abort c).runnerIds = x.runnerIds := by
  simp only [runnerIds, abort, map_map]
  refine map_congr_left fun r _ => ?_
  simp only [Function.comp]
  split_ifs <;> rfl

variable {x : Peer}

theorem finished_iff {c : ConnId} : x.finished c = true ↔ c ∉ x.runnerIds := by
  simp only [finished, runnerIds, all_eq_true, bne_iff_ne, ne_eq, mem_map, not_exists,
    not_and]

/-- A runner after another was aborted is a runner from before, aborted if it was the one. -/
theorem mem_abort {c : ConnId} {r : Runner} (h : r ∈ (x.abort c).runners) :
    ∃ old ∈ x.runners, r.conn = old.conn ∧ r.dialer = old.dialer ∧
      r.aborted = (old.aborted || decide (old.conn.id = c)) := by
  obtain ⟨old, hold, rfl⟩ := mem_map.mp h
  refine ⟨old, hold, ?_⟩
  split_ifs with hc
  · simp [hc]
  · simp [hc]

theorem runnerIds_set {i : ℕ} {r r' : Runner} (hat : x.runners[i]? = some r) (hconn : r'.conn = r.conn) :
    (x.runners.set i r').map (fun r => r.conn.id) = x.runnerIds := by
  obtain ⟨hi, rfl⟩ := List.getElem?_eq_some_iff.mp hat
  rw [map_set, hconn, runnerIds]
  refine ext_getElem? fun j => ?_
  by_cases hij : i = j
  · subst hij
    simp [hi]
  · rw [List.getElem?_set_ne hij]

theorem runnerIds_eraseIdx (x : Peer) (i : ℕ) :
    (x.runners.eraseIdx i).map (fun r => r.conn.id) = x.runnerIds.eraseIdx i :=
  (eraseIdx_map ..).symm

end Peer

namespace Link

/-- The connections reported open. -/
def openedIds (L : Link) : List ConnId := L.events.filterMap Event.openedId

/-- How often a connection is on its way to a session, or has a runner. -/
def uses (L : Link) (c : ConnId) : ℕ :=
  L.peer.accepting.count c + L.openedIds.count c + L.peer.runnerIds.count c

/-- What holds of the link with a peer in every state. -/
structure Ok (L : Link) : Prop where
  once : ∀ c, L.uses c ≤ 1
  seen : ∀ c, L.uses c ≠ 0 → c ∈ L.peer.seen
  /-- The end of a session is reported once its runner is gone. -/
  ended : ∀ c, .ended c ∈ L.events → c ∈ L.peer.seen ∧ L.uses c = 0
  /-- A runner that was not aborted is the runner of the session. -/
  current : ∀ r ∈ L.peer.runners, r.aborted = false → L.peer.session = some ⟨r.conn, r.dialer⟩
  /-- An aborted runner has lost its connection. -/
  aborted : ∀ r ∈ L.peer.runners, r.aborted = true → r.conn.id ∈ L.peer.closed

namespace Ok

variable {L L' : Link}

variable (h : L.Ok)
include h

/-- A step that keeps the runners and the table, and brings no new use of a connection. -/
theorem of_uses (huses : ∀ c, L'.uses c ≤ L.uses c) (hseen : ∀ c ∈ L.peer.seen, c ∈ L'.peer.seen)
    (hended : ∀ c, .ended c ∈ L'.events → .ended c ∈ L.events)
    (hrunners : L'.peer.runners = L.peer.runners) (hsession : L'.peer.session = L.peer.session)
    (hclosed : ∀ c ∈ L.peer.closed, c ∈ L'.peer.closed) : L'.Ok where
  once c := (huses c).trans (h.once c)
  seen c hc := hseen c (h.seen c fun hzero => hc (by have := huses c; omega))
  ended c hc := by
    obtain ⟨hin, hzero⟩ := h.ended c (hended c hc)
    exact ⟨hseen c hin, by have := huses c; omega⟩
  current r hr halive := by
    rw [hsession]
    exact h.current r (hrunners ▸ hr) halive
  aborted r hr haborted := hclosed _ (h.aborted r (hrunners ▸ hr) haborted)

theorem of_enter {c : ConnId} (hnew : c ∉ L.peer.seen)
    (huses : ∀ d, L'.uses d = L.uses d + if d = c then 1 else 0) (hseen : L'.peer.seen = c :: L.peer.seen)
    (hended : ∀ d, .ended d ∈ L'.events → .ended d ∈ L.events)
    (hrunners : L'.peer.runners = L.peer.runners) (hsession : L'.peer.session = L.peer.session)
    (hclosed : ∀ d ∈ L.peer.closed, d ∈ L'.peer.closed) : L'.Ok where
  once d := by
    rw [huses]
    split_ifs with hd
    · have hzero : L.uses d = 0 := not_not.mp fun hne => hnew (hd ▸ h.seen d hne)
      omega
    · exact h.once d
  seen d hd := by
    rw [hseen]
    by_cases hdc : d = c
    · exact hdc ▸ mem_cons_self
    · rw [huses, if_neg hdc] at hd
      exact mem_cons_of_mem c (h.seen d hd)
  ended d hd := by
    obtain ⟨hin, hzero⟩ := h.ended d (hended d hd)
    have hdc : d ≠ c := fun heq => hnew (heq ▸ hin)
    rw [huses, if_neg hdc, hseen]
    exact ⟨mem_cons_of_mem c hin, hzero⟩
  current r hr halive := by
    rw [hsession]
    exact h.current r (hrunners ▸ hr) halive
  aborted r hr haborted := hclosed _ (h.aborted r (hrunners ▸ hr) haborted)

variable {i : ℕ} {r : Runner} {rest : List Event}

theorem of_set {r' : Runner} (hat : L.peer.runners[i]? = some r)
    (hr' : r'.conn = r.conn ∧ r'.dialer = r.dialer ∧ r'.aborted = r.aborted)
    (hrunners : L'.peer.runners = L.peer.runners.set i r') (hevents : L'.events = L.events)
    (haccepting : L'.peer.accepting = L.peer.accepting) (hseen : L'.peer.seen = L.peer.seen)
    (hsession : L'.peer.session = L.peer.session) (hclosed : ∀ c ∈ L.peer.closed, c ∈ L'.peer.closed) : L'.Ok := by
  have huses : ∀ c, L'.uses c = L.uses c := by
    intro c
    have hids : L'.peer.runnerIds = L.peer.runnerIds := by
      rw [Peer.runnerIds, hrunners, Peer.runnerIds_set hat hr'.1]
    simp only [uses, openedIds, haccepting, hevents, hids]
  have hfrom : ∀ w ∈ L'.peer.runners, ∃ old ∈ L.peer.runners,
      w.conn = old.conn ∧ w.dialer = old.dialer ∧ w.aborted = old.aborted := by
    intro w hw
    rw [hrunners] at hw
    rcases mem_or_eq_of_mem_set hw with hold | rfl
    exacts [⟨w, hold, rfl, rfl, rfl⟩, ⟨r, mem_of_getElem? hat, hr'⟩]
  refine ⟨fun c => huses c ▸ h.once c, fun c hc => hseen ▸ h.seen c (huses c ▸ hc), fun c hc => ?_,
    fun w hw halive => ?_, fun w hw hdead => ?_⟩
  · rw [hseen, huses]
    exact h.ended c (hevents ▸ hc)
  · obtain ⟨old, hold, hc, hd, ha⟩ := hfrom w hw
    rw [hsession, hc, hd]
    exact h.current old hold (ha ▸ halive)
  · obtain ⟨old, hold, hc, -, ha⟩ := hfrom w hw
    exact hc ▸ hclosed _ (h.aborted old hold (ha ▸ hdead))

theorem of_eraseIdx (hat : L.peer.runners[i]? = some r)
    (hrunners : L'.peer.runners = L.peer.runners.eraseIdx i) (hopened : L'.openedIds = L.openedIds)
    (hended : ∀ c, .ended c ∈ L'.events → .ended c ∈ L.events ∨ c = r.conn.id)
    (haccepting : L'.peer.accepting = L.peer.accepting) (hseen : L'.peer.seen = L.peer.seen)
    (hsession : L'.peer.session = L.peer.session) (hclosed : L'.peer.closed = L.peer.closed) : L'.Ok := by
  have huses : ∀ c, L.uses c = L'.uses c + if c = r.conn.id then 1 else 0 := by
    intro c
    have hid : L.peer.runnerIds[i]? = some r.conn.id := by
      simp only [Peer.runnerIds, List.getElem?_map, hat, Option.map_some]
    have hids : L'.peer.runnerIds = L.peer.runnerIds.eraseIdx i := by
      rw [Peer.runnerIds, hrunners, Peer.runnerIds_eraseIdx]
    have hcount := Lib.count_eraseIdx hid c
    simp only [uses, haccepting, hopened, hids]
    omega
  have hmem : ∀ w ∈ L'.peer.runners, w ∈ L.peer.runners := by
    intro w hw
    rw [hrunners] at hw
    exact mem_of_mem_eraseIdx hw
  refine ⟨fun c => ?_, fun c hc => hseen ▸ h.seen c fun hzero => ?_, fun c hc => ?_,
    fun w hw halive => hsession ▸ h.current w (hmem w hw) halive,
    fun w hw hdead => hclosed ▸ h.aborted w (hmem w hw) hdead⟩
  · have := huses c
    have := h.once c
    omega
  · have := huses c
    omega
  · have hsum := huses c
    rw [hseen]
    rcases hended c hc with hold | hid
    · obtain ⟨hin, hzero⟩ := h.ended c hold
      exact ⟨hin, by omega⟩
    · rw [if_pos hid] at hsum
      have := h.once c
      exact ⟨h.seen c (by omega), by omega⟩

theorem runnerStep {left : Peer} {step : RunnerStep} {ended : Option ConnId}
    (hstep : L.peer.runnerStep i step = some (left, ended)) :
    Ok { L with peer := left, events := L.events ++ (ended.map Event.ended).toList } := by
  obtain ⟨r, o, hat, ho, rfl, rfl⟩ := Peer.runnerStep_eq_some hstep
  rcases Runner.step_runner ho with ⟨r', hr', hconn, hdialer, haborted, hreports, -⟩ | ⟨hgone, hcloses, -⟩
  · simp only [hr', hreports, Bool.false_eq_true, if_false, Option.map_none, Option.toList_none,
      append_nil]
    refine h.of_set hat ⟨hconn, hdialer, haborted⟩ rfl rfl rfl rfl rfl fun c hc => ?_
    show c ∈ if o.closes then _ else _
    split_ifs
    exacts [mem_cons_of_mem _ hc, hc]
  · simp only [hgone, hcloses, Bool.false_eq_true, if_false]
    refine h.of_eraseIdx hat rfl ?_ (fun c hc => ?_) rfl rfl rfl rfl
    · cases o.reports <;> simp [openedIds, Event.openedId]
    · rcases mem_append.mp hc with hold | hnew
      · exact .inl hold
      · right
        cases hrep : o.reports with
        | false => simp [hrep] at hnew
        | true => simpa [hrep] using hnew

theorem of_spawn {conn : Conn} {dialer : Bool} (hevents : L.events = .opened conn dialer :: rest)
    (hrest : L'.events = rest) (hseen : L'.peer.seen = L.peer.seen) (haccepting : L'.peer.accepting = L.peer.accepting)
    (hids : L'.peer.runnerIds = conn.id :: L.peer.runnerIds)
    (hrunners : ∀ r ∈ L'.peer.runners, (r.conn = conn ∧ r.dialer = dialer ∧ r.aborted = false) ∨
      (r.aborted = true ∧ r.conn.id ∈ L'.peer.closed)) (hsession : L'.peer.session = some ⟨conn, dialer⟩) : L'.Ok := by
  have huses : ∀ c, L'.uses c = L.uses c := by
    intro c
    simp only [uses, openedIds, hevents, hrest, haccepting, hids, filterMap_cons,
      Event.openedId, count_cons]
    omega
  refine ⟨fun c => huses c ▸ h.once c, fun c hc => hseen ▸ h.seen c (huses c ▸ hc), fun c hc => ?_,
    fun r hr halive => ?_, fun r hr hdead => ?_⟩
  · rw [hseen, huses]
    exact h.ended c (by rw [hevents]; exact mem_cons_of_mem _ (hrest ▸ hc))
  · rcases hrunners r hr with ⟨hc, hd, -⟩ | ⟨hdead, -⟩
    · rw [hsession, hc, hd]
    · exact absurd (halive.symm.trans hdead) Bool.false_ne_true
  · rcases hrunners r hr with ⟨-, -, halive⟩ | ⟨-, hin⟩
    · exact absurd (halive.symm.trans hdead) Bool.false_ne_true
    · exact hin

theorem aborted_abort {existing : Session} (hsession : L.peer.session = some existing)
    (hr : r ∈ (L.peer.abort existing.conn.id).runners) : r.aborted = true ∧
      r.conn.id ∈ ((L.peer.abort existing.conn.id).close existing.conn.id).closed := by
  obtain ⟨old, hold, hconn, -, haborted⟩ := Peer.mem_abort hr
  cases hdead : old.aborted with
  | true =>
    refine ⟨by rw [haborted, hdead, Bool.true_or], ?_⟩
    rw [hconn]
    exact mem_cons_of_mem _ (h.aborted old hold hdead)
  | false =>
    have hid : existing.conn.id = old.conn.id := by
      rw [Option.some.inj (hsession.symm.trans (h.current old hold hdead))]
    refine ⟨by simp [haborted, hid], ?_⟩
    rw [hconn, ← hid]
    exact mem_cons_self

theorem aborted_of_finished (hsession : ∀ existing, L.peer.session = some existing →
      L.peer.finished existing.conn.id = true) (hr : r ∈ L.peer.runners) : r.aborted = true := by
  by_contra halive
  have hcurrent := h.current r hr (Bool.eq_false_iff.mpr halive)
  have hfinished := hsession _ hcurrent
  exact Peer.finished_iff.mp hfinished (mem_map.mpr ⟨r, hr, rfl⟩)

theorem drop {e : Event} {x : Peer} (hevents : L.events = e :: rest)
    (hx : x = L.peer ∨ ∃ c, x = L.peer.close c) : Ok { L with peer := x, events := rest } := by
  have huses : ∀ c, uses { L with peer := L.peer, events := rest } c ≤ L.uses c := by
    intro c
    have hle : (rest.filterMap Event.openedId).count c ≤ L.openedIds.count c := by
      rw [openedIds, hevents]
      exact ((sublist_cons_self e rest).filterMap _).count_le c
    simp only [uses]
    show L.peer.accepting.count c + (rest.filterMap Event.openedId).count c + _ ≤ _
    omega
  have hended : ∀ c, .ended c ∈ rest → .ended c ∈ L.events :=
    fun c hc => hevents ▸ mem_cons_of_mem e hc
  rcases hx with rfl | ⟨c, rfl⟩
  · exact h.of_uses huses (fun _ hc => hc) hended rfl rfl fun _ hc => hc
  · exact h.of_uses huses (fun _ hc => hc) hended rfl rfl fun _ hc => mem_cons_of_mem c hc

theorem opened {me p : EndpointId} {conn : Conn} {dialer : Bool} (hevents : L.events = .opened conn dialer :: rest) :
    Ok ({ L with events := rest }.take me p (.opened conn dialer)) := by
  show Ok { L with
    peer := if p = me then _ else L.peer.adoptConn _ conn dialer
    events := rest }
  split_ifs
  · exact h.drop hevents (.inr ⟨_, rfl⟩)
  · unfold Peer.adoptConn
    cases hsession : L.peer.session with
    | none =>
      refine h.of_spawn hevents rfl rfl rfl rfl (fun r hr => ?_) rfl
      rcases mem_cons.mp hr with rfl | hr
      · exact .inl ⟨rfl, rfl, rfl⟩
      · have hdead := h.aborted_of_finished (by simp [hsession]) hr
        exact .inr ⟨hdead, h.aborted r hr hdead⟩
    | some existing =>
      dsimp only
      split_ifs with hfinished
      · refine h.of_spawn hevents rfl rfl rfl rfl (fun r hr => ?_) rfl
        rcases mem_cons.mp hr with rfl | hr
        · exact .inl ⟨rfl, rfl, rfl⟩
        · have hdead := h.aborted_of_finished
            (fun e he => Option.some.inj (hsession.symm.trans he) ▸ hfinished) hr
          exact .inr ⟨hdead, mem_cons_of_mem _ (h.aborted r hr hdead)⟩
      · refine h.of_spawn hevents rfl rfl rfl ?_ (fun r hr => ?_) rfl
        · exact congrArg (conn.id :: ·) (Peer.runnerIds_abort L.peer existing.conn.id)
        · rcases mem_cons.mp hr with rfl | hr
          · exact .inl ⟨rfl, rfl, rfl⟩
          · exact .inr (h.aborted_abort hsession hr)
      · exact h.drop hevents (.inr ⟨_, rfl⟩)

theorem sessionEnded {me p : EndpointId} {c : ConnId} (hevents : L.events = .ended c :: rest) :
    Ok ({ L with events := rest }.take me p (.ended c)) := by
  have hdrop := h.drop hevents (.inl rfl)
  show Ok { L with peer := L.peer.sessionEnded c, events := rest }
  unfold Peer.sessionEnded
  split_ifs with hmatch
  · refine ⟨hdrop.once, hdrop.seen, hdrop.ended, fun r hr halive => ?_, hdrop.aborted⟩
    obtain ⟨existing, hexisting, hid⟩ := (Option.any_eq_true _ _).mp hmatch
    have hsame := Option.some.inj (hexisting.symm.trans (h.current r hr halive))
    have hzero := (h.ended c (hevents ▸ mem_cons_self)).2
    have hin : c ∈ L.peer.runnerIds := by
      refine mem_map.mpr ⟨r, hr, ?_⟩
      rw [hsame] at hid
      exact beq_iff_eq.mp hid
    have hpos := count_pos_iff.mpr hin
    simp only [uses] at hzero
    omega
  · exact hdrop

theorem unpair : Ok { L with paired := false, peer := L.peer.unpair } := by
  unfold Peer.unpair
  cases hsession : L.peer.session with
  | none =>
    exact h.of_uses (fun _ => le_rfl) (fun _ hc => hc) (fun _ hc => hc) rfl hsession.symm
      fun _ hc => hc
  | some existing =>
    have huses : ∀ c, L.peer.accepting.count c + L.openedIds.count c +
        (L.peer.abort existing.conn.id).runnerIds.count c = L.uses c := by
      intro c
      rw [Peer.runnerIds_abort]
      rfl
    refine ⟨fun c => (huses c).le.trans (h.once c), fun c hc => h.seen c fun hzero => ?_,
      fun c hc => ⟨(h.ended c hc).1, (huses c).trans (h.ended c hc).2⟩, fun r hr halive => ?_,
      fun r hr _ => (h.aborted_abort hsession hr).2⟩
    · exact hc ((huses c).trans hzero)
    · exact absurd (halive.symm.trans (h.aborted_abort hsession hr).1) Bool.false_ne_true

end Ok

/-- **A step of the link** keeps the sessions in order. -/
theorem Step.ok {p : EndpointId} {s : Service} {l : Label} {L L' : Link} (h : Step p s l L L')
    (hok : L.Ok) : L'.Ok := by
  cases h with
  | idle => exact hok
  | unpairs => exact hok.unpair
  | accepts conn _ _ _ hnew =>
    refine hok.of_enter hnew (fun d => ?_) rfl (fun _ hd => hd) rfl rfl fun _ hd => hd
    simp only [uses, openedIds, Peer.runnerIds, count_append, count_singleton, beq_iff_eq,
      eq_comm (a := d)]
    omega
  | acceptsBlob =>
    exact hok.of_uses (fun _ => le_rfl) (fun _ hc => mem_cons_of_mem _ hc) (fun _ hc => hc) rfl
      rfl fun _ hc => hc
  | refuses =>
    exact hok.of_uses (fun _ => le_rfl) (fun _ hc => mem_cons_of_mem _ hc) (fun _ hc => hc) rfl
      rfl fun _ hc => mem_cons_of_mem _ hc
  | passes i c hat =>
    refine hok.of_uses (fun d => ?_) (fun _ hd => hd) (fun d hd => by simpa using hd) rfl rfl
      fun _ hd => hd
    have hcount := Lib.count_eraseIdx hat d
    simp only [uses, openedIds, Peer.runnerIds, filterMap_append, filterMap_cons,
      filterMap_nil, Event.openedId, count_append, count_singleton, beq_iff_eq,
      eq_comm (a := c)]
    omega
  | dialEnds c _ _ hnew =>
    refine hok.of_enter hnew (fun d => ?_) rfl (fun d hd => by simpa using hd) rfl rfl fun _ hd => hd
    simp only [uses, openedIds, Peer.runnerIds, filterMap_append, filterMap_cons,
      filterMap_nil, Event.openedId, count_append, count_singleton, beq_iff_eq,
      eq_comm (a := c)]
    omega
  | runner i step _ left ended hstep => exact hok.runnerStep hstep
  | event e rest _ hevents =>
    cases e with
    | opened => exact hok.opened hevents
    | ended => exact hok.sessionEnded hevents
  | closes =>
    exact hok.of_uses (fun _ => le_rfl) (fun _ hc => hc) (fun _ hc => hc) rfl rfl
      fun _ hc => mem_cons_of_mem _ hc
  | dials | pairs | dialFails | receives | serves | endsBlob =>
    exact hok.of_uses (fun _ => le_rfl) (fun _ hc => hc) (fun _ hc => hc) rfl rfl fun _ hc => hc

theorem ok_start (paired : Bool) : Ok ⟨paired, {}, []⟩ :=
  ⟨fun _ => Nat.zero_le _, fun _ hc => absurd rfl hc, fun _ hc => absurd hc not_mem_nil,
    fun _ hr => absurd hr not_mem_nil, fun _ hr => absurd hr not_mem_nil⟩

end Link

/-- **Sessions are in order** with every peer in every state of every run. -/
theorem run_ok {me : EndpointId} {pairWindow : ℕ} {store : PeerStore} {ls : List Label} {s : Service}
    (hrun : (Service.machine me pairWindow store).run ls = some s) (p : EndpointId) : (s.link p).Ok :=
  Lib.Machine.run_invariant (I := fun s => (s.link p).Ok) (Link.ok_start _)
    (fun _ _ _ hs hnext => (Service.link_step hnext p).ok hs) hrun

/-- **One session runner for each peer**: in every state of every run no connection of a peer is on its way, or
has a runner, twice; at most one of the peer's runners was not aborted; and a runner whose connection is not
closed is the runner of the session. -/
theorem one_runner {me : EndpointId} {pairWindow : ℕ} {store : PeerStore} {ls : List Label} {s : Service}
    (hrun : (Service.machine me pairWindow store).run ls = some s) (p : EndpointId) :
    (∀ c, (s.link p).uses c ≤ 1) ∧
    (∀ r ∈ (s.peers p).runners, ∀ r' ∈ (s.peers p).runners, r.aborted = false → r'.aborted = false → r = r') ∧
    ∀ r ∈ (s.peers p).runners, r.conn.id ∉ (s.peers p).closed → (s.peers p).session = some ⟨r.conn, r.dialer⟩ := by
  have hok := run_ok hrun p
  refine ⟨hok.once, fun r hr r' hr' hlive hlive' => ?_, fun r hr hopen => ?_⟩
  · have hids : ((s.peers p).runners.map fun r => r.conn.id).Nodup :=
      nodup_iff_count_le_one.mpr fun c => (Nat.le_add_left _ _).trans (hok.once c)
    have hsession := (hok.current r hr hlive).symm.trans (hok.current r' hr' hlive')
    have hconn : r.conn = r'.conn := congrArg Session.conn (Option.some.inj hsession)
    exact inj_on_of_nodup_map hids hr hr' (congrArg Conn.id hconn)
  · cases haborted : r.aborted with
    | true => exact absurd (hok.aborted r hr haborted) hopen
    | false => exact hok.current r hr haborted

/-- Peer `2` connects twice: one connection gets the session, the other one is closed. -/
theorem one_runner_twice : ∃ ls s, (Service.machine 1 60000 [⟨2, "b"⟩]).run ls = some s ∧
    (s.peers 2).closed = [11] ∧ ∀ c, (s.link 2).uses c ≤ 1 := by
  have hany : ((Service.machine 1 60000 [⟨2, "b"⟩]).run [.accepts ⟨10, 2⟩ .mesh, .accepts ⟨11, 2⟩ .mesh, .passes 2 0,
      .handles, .passes 2 0, .handles]).any (fun s => (s.peers 2).closed == [11]) = true := by decide +kernel
  obtain ⟨s, hrun, hclosed⟩ := (Option.any_eq_true _ _).mp hany
  exact ⟨_, s, hrun, by simpa using hclosed, (one_runner hrun 2).1⟩

end OneBrain.Mesh
