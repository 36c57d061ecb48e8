import OneBrain.Mesh.Windows

/-!
# Pairing agreement

The two ends of a pairing store each other on their own. A joiner stores the host as soon as
it has checked the host's confirm and read how the host introduces itself; its `pair_join`
then returns. The host stores the joiner when the result of the attempt reaches its service,
and only if the window of the attempt is still the open one. An attempt that is in flight
when another closes the window has lost its window: its joiner may have returned, or may
still return, and the host drops the result.

`Meeting` is a host with the joiners that pair with it. Every step of the host's service is a
step of it, without message loss and without timeouts: a host that has sent its confirm gets
the joiner's introduction, no attempt fails after that, and no window runs out. No peer is
unpaired.

* `joiner_not_stored` — of two joiners that overlap one is not stored.
* `joined_is_stored` — when every joiner that returned is in the host's store.
-/

namespace OneBrain.Mesh

open List

/-- A host and the joiners that pair with it, each on a connection of its own. -/
structure Meeting where
  host : Service
  /-- Where the host has sent its confirm, and introduced itself. -/
  answered : List Conn := []
  /-- Where the joiner has checked the host's confirm, and introduced itself. -/
  introduced : List Conn := []
  /-- Where the joiner has stored the host, and `pair_join` has returned. -/
  joined : List Conn := []

/-- The steps of the host and of the joiners. -/
inductive MeetingLabel where
  | host (l : Label)
  /-- The joiner checks the host's confirm and introduces itself. -/
  | introduces (conn : Conn)
  /-- The joiner reads the host's introduction, stores the host, and returns. -/
  | joins (conn : Conn)

namespace Meeting

/-- What the host can do: nothing is lost, no time runs out, and no peer is unpaired. -/
def allows (m : Meeting) : Label → Bool
  | .handles =>
    match m.host.queue with
    | .windowTimeout id :: _ => m.host.window.all fun window => window.id != id
    | .unpair _ :: _ => false
    | _ => true
  | .elapses ms => m.host.window.all fun window => decide (m.host.now + ms < window.deadline)
  | .attempt i .fails => (m.host.attempts[i]?).all fun a => a.stage == .exchanging
  | .attempt i (.introduced _) =>
    (m.host.attempts[i]?).all fun a => m.introduced.contains a.conn
  | _ => true

/-- The connections on which a step of the host answers a joiner. -/
def answers (s : Service) : Label → List Conn
  | .attempt i (.compares true) => (s.attempts[i]?).toList.map Attempt.conn
  | _ => []

/-- **One step.** -/
def next (m : Meeting) : MeetingLabel → Option Meeting
  | .host l =>
    if m.allows l = true then
      (m.host.next l).map fun t => { m with host := t, answered := answers m.host l ++ m.answered }
    else none
  | .introduces conn =>
    if conn ∈ m.answered then some { m with introduced := conn :: m.introduced } else none
  | .joins conn =>
    if conn ∈ m.introduced then some { m with joined := conn :: m.joined } else none

/-- A host that starts, with no joiner yet. -/
def machine (me : EndpointId) (pairWindow : ℕ) (store : PeerStore) :
    Lib.Machine Meeting MeetingLabel :=
  ⟨⟨{ me, pairWindow, store }, [], [], []⟩, next⟩

/-- The step takes a result that closes the window while another attempt of the window is in
flight, or its result in the queue. -/
def cutsOff (m : Meeting) : MeetingLabel → Bool
  | .host .handles =>
    match m.host.queue, m.host.window with
    | .pairHostDone id result :: _, some window =>
      decide (window.id = id ∧ (result.isSome = true ∨ window.attemptsLeft ≤ 1) ∧
        1 < m.host.pairing.inFlight id)
    | _, _ => false
  | _ => false

/-- The host has no attempt left, and no result. -/
def Processed (m : Meeting) : Prop := m.host.attempts = [] ∧ m.host.pairing.results = []

end Meeting

/-- A peer stays in the store until it is unpaired. -/
theorem contains_next {s t : Service} {l : Label} {p : EndpointId} (hnext : s.next l = some t)
    (hl : s.unpairing l ≠ some p) (hin : s.store.contains p = true) : t.store.contains p = true := by
  have hstep := Service.link_step hnext p
  have hpaired : (s.link p).paired = true := hin
  show (t.link p).paired = true
  generalize t.link p = L' at hstep
  cases hstep with
  | unpairs h => exact absurd h hl
  | pairs => rfl
  | event e => cases e <;> exact hpaired
  | idle | dials | accepts | acceptsBlob | refuses | passes | dialFails | dialEnds | closes | runner | receives
  | serves | endsBlob => exact hpaired

namespace Service

/-- Every attempt in flight is one of the open window, and the window has time left. -/
def Current (s : Service) : Prop :=
  ∀ k ∈ s.desk.tickets, ∃ window, s.window = some window ∧ window.id = k.window ∧ s.now < window.deadline

variable {s t : Service} {l : Label}

/-- The window after a result of its own that does not close it. -/
theorem settle_open {window : Window} (hleft : 1 < window.attemptsLeft) :
    settle (some window) window.id none = some { window with attemptsLeft := window.attemptsLeft - 1 } := by
  have hne : ¬window.id ≠ window.id := not_not.mpr rfl
  have hzero : ¬window.attemptsLeft - 1 = 0 := by omega
  simp only [settle, if_neg hne, if_neg hzero]

theorem PairStep.current (h : PairStep s l t) (hs : s.Current) (hbooked : s.desk.Booked)
    (htime : ∀ window, s.window = some window → s.now < window.deadline → t.now < window.deadline)
    (hexpires : ∀ id rest window, l = .handles → s.queue = .windowTimeout id :: rest →
      s.window = some window → window.id ≠ id)
    (hcut : ∀ id result rest window, l = .handles → s.queue = .pairHostDone id result :: rest →
      s.window = some window → window.id = id → result.isSome = true ∨ window.attemptsLeft ≤ 1 →
      s.pairing.inFlight id ≤ 1) : t.Current := by
  have hkeep : t.window = s.window → ∀ k ∈ s.desk.tickets,
      ∃ window, t.window = some window ∧ window.id = k.window ∧ t.now < window.deadline := by
    intro hw k hk
    obtain ⟨window, hwindow, hid, hlt⟩ := hs k hk
    exact ⟨window, hw.trans hwindow, hid, htime window hwindow hlt⟩
  cases h with
  | idle _ h => exact fun k hk => hkeep (congrArg Desk.window h) k (h ▸ hk)
  | opens deadline _ hold h =>
    -- the window there was has run out, so nothing was in flight
    intro k hk
    rw [h] at hk
    obtain ⟨window, hwindow, -, hlt⟩ := hs k hk
    have hover := (hold window hwindow).resolve_right
      (Nat.pos_iff_ne_zero.mp (hbooked.window window hwindow).2.1)
    exact absurd hover (Nat.not_le.mpr hlt)
  | takes conn window rest hl hqueue hwindow hopen _ h =>
    have hw : t.window = s.window := congrArg Desk.window h
    rw [Current, h]
    refine Multiset.forall_mem_cons.mpr ⟨?_, hkeep hw⟩
    exact ⟨window, hw.trans hwindow, rfl, htime window hwindow hopen⟩
  | result id result rest hl hqueue htickets _ hsettle =>
    rw [Current, htickets, Multiset.forall_mem_cons] at hs
    obtain ⟨⟨window, hwindow, (hid : window.id = id), hlt⟩, hs⟩ := hs
    have hsame : ∀ k ∈ t.desk.tickets, window.id = k.window := fun k hk => by
      obtain ⟨window', hwindow', hkw, -⟩ := hs k hk
      obtain rfl := Option.some.inj (hwindow.symm.trans hwindow')
      exact hkw
    intro k hk
    by_cases hcloses : result.isSome = true ∨ window.attemptsLeft ≤ 1
    · -- nothing else was in flight
      have hone := hcut id result rest window hl hqueue hwindow hid hcloses
      rw [inFlight_desk, Desk.inFlight, htickets, Multiset.countP_cons, resultTicket, if_pos rfl] at hone
      have hzero := Nat.le_zero.mp (Nat.le_of_succ_le_succ hone)
      exact absurd ((hsame k hk).symm.trans hid) (Multiset.countP_eq_zero.mp hzero k hk)
    · obtain ⟨hnone, hleft⟩ := not_or.mp hcloses
      have hresult : result = none := by simpa using hnone
      have hopen : t.window = some { window with attemptsLeft := window.attemptsLeft - 1 } := by
        refine hsettle.trans ?_
        rw [hresult, ← hid]
        exact (congrArg (settle · _ _) hwindow).trans (settle_open (by omega))
      exact ⟨_, hopen, hsame k hk, htime window hwindow hlt⟩
  | expires id rest hl hqueue h =>
    -- the timeout is one of an older window
    have hstale : ¬(s.window.any fun window => window.id == id) = true := by
      intro hany
      obtain ⟨window, hwindow, hid⟩ := (Option.any_eq_true _ _).mp hany
      exact hexpires id rest window hl hqueue hwindow (beq_iff_eq.mp hid)
    rw [Current, h]
    exact hkeep ((congrArg Desk.window h).trans (if_neg hstale))
  | attempt i step a a' others hl hat hstep htickets h =>
    have hold := hkeep (congrArg Desk.window h)
    rw [htickets, Multiset.forall_mem_cons] at hold
    rw [Current, h]
    refine Multiset.forall_mem_cons.mpr ⟨?_, hold.2⟩
    rw [show a'.ticket.window = a.ticket.window from (Attempt.step_keeps hstep).1]
    exact hold.1

end Service

namespace Meeting

/-- A joiner that was answered is stored, or its attempt is in flight. -/
def Held (s : Service) (conn : Conn) : Prop :=
  s.store.contains conn.remote = true ∨ ∃ k ∈ s.desk.tickets, k.proven = some conn.remote

/-- What holds of a host and its joiners in every state. -/
structure Ok (m : Meeting) : Prop where
  booked : m.host.desk.Booked
  current : m.host.Current
  held : ∀ conn ∈ m.answered, Held m.host conn
  introduced : ∀ conn ∈ m.introduced, conn ∈ m.answered
  joined : ∀ conn ∈ m.joined, conn ∈ m.introduced

variable {s t : Service} {l : Label}

/-- A step of an attempt that does not fail keeps the peer it has proven. -/
theorem proven_step {a a' : Attempt} {step : AttemptStep} {p : EndpointId}
    (h : a.step step = some a') (hfails : step = .fails → a.stage = .exchanging)
    (hp : a.proven = some p) : a'.proven = some p := by
  cases step with
  | compares =>
    have hstage := (Attempt.stage_compares h).1
    simp only [Attempt.proven, hstage, reduceCtorEq] at hp
  | introduced =>
    simp only [Attempt.step] at h
    split_ifs at h with hstage
    obtain rfl := Option.some.inj h
    simpa only [Attempt.proven, hstage, Option.map_some] using hp
  | fails =>
    simp only [Attempt.proven, hfails rfl, reduceCtorEq] at hp
  | reports => cases h

/-- **A joiner that was answered stays held**, while no attempt fails and no peer is
unpaired. -/
theorem Held.next {conn : Conn} (h : Held s conn) (hcurrent : s.Current)
    (hnext : s.next l = some t) (hunpair : s.unpairing l ≠ some conn.remote)
    (hfails : ∀ i a, l = .attempt i .fails → s.attempts[i]? = some a → a.stage = .exchanging) :
    Held t conn := by
  rcases h with hin | ⟨k, hk, hp⟩
  · exact .inl (contains_next hnext hunpair hin)
  cases (Service.front_step hnext).2 with
  | idle _ h | opens _ _ _ h | expires _ _ _ _ h => exact .inr ⟨k, h ▸ hk, hp⟩
  | takes _ window _ _ _ _ _ _ h => exact .inr ⟨k, h ▸ Multiset.mem_cons_of_mem hk, hp⟩
  | result id result rest _ _ htickets _ _ hadds =>
    obtain ⟨window, hwindow, hid, -⟩ := hcurrent k hk
    rw [htickets] at hk
    rcases Multiset.mem_cons.mp hk with rfl | hk
    · -- the result is taken, and its window is the open one
      obtain ⟨outcome, rfl, hpeer⟩ := Option.map_eq_some_iff.mp hp
      exact .inl (hpeer ▸ hadds outcome window rfl hwindow hid)
    · exact .inr ⟨k, hk, hp⟩
  | attempt i step a a' others hl hat hstep htickets h =>
    rw [htickets] at hk
    rcases Multiset.mem_cons.mp hk with rfl | hk
    · refine .inr ⟨a'.ticket, h ▸ Multiset.mem_cons_self _ _, ?_⟩
      exact proven_step hstep (fun hf => hfails i a (hf ▸ hl) hat) hp
    · exact .inr ⟨k, h ▸ Multiset.mem_cons_of_mem hk, hp⟩

theorem now_lt_of_allows {m : Meeting} (hallows : m.allows l = true)
    (hnext : m.host.next l = some t) {window : Window} (hwindow : m.host.window = some window)
    (hlt : m.host.now < window.deadline) : t.now < window.deadline := by
  rw [Service.now_next hnext]
  cases l with
  | elapses => simpa [allows, hwindow, Label.elapsed] using hallows
  | _ => exact hlt

theorem unpairing_of_allows {m : Meeting} (hallows : m.allows l = true) : m.host.unpairing l = none := by
  cases l with
  | handles =>
    simp only [Service.unpairing]
    split
    · rename_i name rest hqueue
      simp only [allows, hqueue, Bool.false_eq_true] at hallows
    · rfl
  | _ => rfl

theorem held_of_answers {conn : Conn} (hnext : s.next l = some t) (hin : conn ∈ answers s l) :
    Held t conn := by
  cases l with
  | attempt i step =>
    cases step with
    | compares right =>
      cases right with
      | false => exact absurd hin not_mem_nil
      | true =>
        cases (Service.front_step hnext).2 with
        | attempt j step a a' others hl hat hstep _ h =>
          obtain ⟨rfl, rfl⟩ := Label.attempt.inj hl
          simp only [answers, hat, Option.toList_some, map_cons, map_nil,
            mem_singleton] at hin
          refine .inr ⟨a'.ticket, h ▸ Multiset.mem_cons_self _ _, ?_⟩
          simp only [Attempt.ticket, Attempt.proven, (Attempt.stage_compares hstep).2, if_true,
            (Attempt.step_keeps hstep).2, hin]
        | idle hl => cases hl
        | opens _ hl | takes _ _ _ hl | result _ _ _ hl | expires _ _ hl => cases hl
    | introduced | fails | reports => exact absurd hin not_mem_nil
  | _ => exact absurd hin not_mem_nil

/-- **A step of the host and its joiners** that cuts off no attempt. -/
theorem Ok.next {m m' : Meeting} {k : MeetingLabel} (h : m.Ok) (hcut : m.cutsOff k = false)
    (hnext : m.next k = some m') : m'.Ok := by
  cases k with
  | introduces =>
    simp only [Meeting.next] at hnext
    split_ifs at hnext with hin
    obtain rfl := Option.some.inj hnext
    refine ⟨h.booked, h.current, h.held, fun c hc => ?_, fun c hc =>
      mem_cons_of_mem _ (h.joined c hc)⟩
    rcases mem_cons.mp hc with rfl | hc
    exacts [hin, h.introduced c hc]
  | joins =>
    simp only [Meeting.next] at hnext
    split_ifs at hnext with hin
    obtain rfl := Option.some.inj hnext
    refine ⟨h.booked, h.current, h.held, h.introduced, fun c hc => ?_⟩
    rcases mem_cons.mp hc with rfl | hc
    exacts [hin, h.joined c hc]
  | host l =>
    simp only [Meeting.next] at hnext
    split_ifs at hnext with hallows
    obtain ⟨t, ht, rfl⟩ := Option.map_eq_some_iff.mp hnext
    have hstep := (Service.front_step ht).2
    refine ⟨hstep.booked h.booked, ?_, fun conn hconn => ?_, fun c hc =>
      mem_append_right _ (h.introduced c hc), h.joined⟩
    · refine hstep.current h.current h.booked
        (fun window hwindow hlt => now_lt_of_allows hallows ht hwindow hlt) ?_ ?_
      · rintro id rest window rfl hqueue hwindow
        simpa [allows, hqueue, hwindow] using hallows
      · rintro id result rest window rfl hqueue hwindow hid hcloses
        simp only [cutsOff, hqueue, hwindow, decide_eq_false_iff_not] at hcut
        exact Nat.not_lt.mp fun hmany => hcut ⟨hid, hcloses, hmany⟩
    · rcases mem_append.mp hconn with hnew | hold
      · exact held_of_answers ht hnew
      · refine (h.held conn hold).next h.current ht ?_ fun i a hl hat => ?_
        · rw [unpairing_of_allows hallows]
          exact fun heq => by cases heq
        · subst hl
          simpa [allows, hat] using hallows

/-- **Pairing agreement**, in every run in which a result closes the window only while no
other attempt of the window is in flight: whenever a joiner's `pair_join` has returned, the
host's store has the joiner once all pending results are processed. -/
theorem joined_is_stored (me : EndpointId) (pairWindow : ℕ) (store : PeerStore) (ks : List MeetingLabel) (m : Meeting)
    (hmeets : (machine me pairWindow store).Meets (fun m k => m.cutsOff k = false) ks)
    (hrun : (machine me pairWindow store).run ks = some m) (hdone : m.Processed) (conn : Conn)
    (hjoined : conn ∈ m.joined) : m.host.store.contains conn.remote = true := by
  have hok : m.Ok := by
    refine Lib.Machine.run_induct_of_meets (I := fun _ m => m.Ok) ⟨Service.booked_start me pairWindow store,
      fun _ hk => absurd hk (Multiset.notMem_zero _), fun _ hc => absurd hc not_mem_nil, fun _ hc => absurd hc not_mem_nil,
      fun _ hc => absurd hc not_mem_nil⟩ (fun _ _ _ _ _ h hcut hnext => h.next hcut hnext)
      hmeets hrun
  refine (hok.held conn (hok.introduced conn (hok.joined conn hjoined))).resolve_right fun ⟨k, hk, _⟩ => ?_
  simp [Service.desk, Pairing.desk, hdone.2, show m.host.pairing.attempts = [] from hdone.1] at hk

instance (m : Meeting) : Decidable m.Processed := by
  unfold Processed
  infer_instance

/-- Of two joiners that pair at the same time the first has the wrong code. -/
def joinLabels : List MeetingLabel :=
  [.host (.posts .pairStart), .host .handles, .host (.accepts ⟨20, 2⟩ .pair), .host .handles,
    .host (.accepts ⟨21, 3⟩ .pair), .host .handles,
    .host (.attempt 0 (.compares false)), .host (.attempt 1 (.compares true)), .introduces ⟨21, 3⟩,
    .host (.attempt 0 .reports), .joins ⟨21, 3⟩, .host .handles,
    .host (.attempt 0 (.introduced "c")), .host (.attempt 0 .reports), .host .handles]

theorem joined_is_stored_second :
    ∃ m, (machine 1 60000 []).run joinLabels = some m ∧ ⟨21, 3⟩ ∈ m.joined ∧ m.Processed ∧
      m.host.store.contains 2 = false ∧ m.host.store.contains 3 = true := by
  have hany : (((machine 1 60000 []).run joinLabels).any
      fun m => decide (⟨21, 3⟩ ∈ m.joined ∧ m.Processed ∧ m.host.store.contains 2 = false)) = true := by decide +kernel
  obtain ⟨m, hrun, hm⟩ := (Option.any_eq_true _ _).mp hany
  obtain ⟨hjoined, hdone, hfirst⟩ := of_decide_eq_true hm
  have hmeets : (machine 1 60000 []).Meets (fun m k => m.cutsOff k = false) joinLabels :=
    Lib.Machine.meets_of_checks (f := fun m k => !m.cutsOff k)
      (fun _ _ _ _ h => by simpa using h) (by decide +kernel)
  exact ⟨m, hrun, hjoined, hdone, hfirst,
    joined_is_stored 1 60000 [] joinLabels m hmeets hrun hdone ⟨21, 3⟩ hjoined⟩

/-- Two joiners with the right code pair at the same time. -/
def overlapLabels : List MeetingLabel :=
  [.host (.posts .pairStart), .host .handles, .host (.accepts ⟨20, 2⟩ .pair), .host .handles,
    .host (.accepts ⟨21, 3⟩ .pair), .host .handles,
    .host (.attempt 0 (.compares true)), .host (.attempt 1 (.compares true)),
    .introduces ⟨20, 2⟩, .introduces ⟨21, 3⟩, .joins ⟨20, 2⟩, .joins ⟨21, 3⟩,
    .host (.attempt 0 (.introduced "b")), .host (.attempt 1 (.introduced "c")),
    .host (.attempt 0 .reports), .host (.attempt 0 .reports), .host .handles, .host .handles]

/-- **One end only.** Joiner `3` has returned and stored the host; all results are
processed, and the host has not stored it. -/
theorem joiner_not_stored :
    ∃ m, (machine 1 60000 []).run overlapLabels = some m ∧ m.Processed ∧ ⟨21, 3⟩ ∈ m.joined ∧
      m.host.store.contains 3 = false := by
  have hany : (((machine 1 60000 []).run overlapLabels).any fun m =>
      decide (m.Processed ∧ ⟨21, 3⟩ ∈ m.joined ∧ m.host.store.contains 3 = false)) = true := by
    decide +kernel
  obtain ⟨m, hrun, hm⟩ := (Option.any_eq_true _ _).mp hany
  exact ⟨m, hrun, of_decide_eq_true hm⟩

end Meeting

end OneBrain.Mesh
