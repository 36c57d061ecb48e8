import OneBrain.Lib.Positions
import OneBrain.Mesh.Link

/-!
# Pairing windows

A pairing window has a code of six digits and three attempts. A pairing connection is taken
on while the window is open and has attempts left; the attempt compares one confirm, and its
result is sent to the service, which adds the peer and closes the window, or charges the
window with the failure. So the budget is looked at when a connection arrives and charged
when its attempt is over, and any number of connections can be taken on in between.

* `guesses_over_budget` — four wrong confirms are compared while the window is open.
* `guess_budget` — when at most three are, and what holds of a window in every run.

The pairing side of the service is cut out first, as the link with one peer was. An attempt
and its result in the queue are one `Ticket` of the window, so a report changes nothing, and
`Desk` is the window with its tickets. `front_step` says what every step does to the desk, and
to the clock.
-/

namespace OneBrain.Mesh

open Option List

/-- The result of an attempt in a message of the queue. -/
def Internal.result : Internal → Option (ℕ × Option PairOutcome)
  | .pairHostDone window result => some (window, result)
  | _ => none

/-- Whether a step is one of a pairing attempt that is not over. -/
def Label.isAttempt : Label → Bool
  | .attempt _ .reports => false
  | .attempt _ _ => true
  | _ => false

/-- The pairing side of the service. -/
structure Pairing where
  window : Option Window
  windowSeq : ℕ
  attempts : List Attempt
  /-- Results in the queue, with the window of the attempt. -/
  results : List (ℕ × Option PairOutcome)
  deriving DecidableEq, Repr

/-- The peer whose confirm an attempt has found right. -/
def Attempt.proven (a : Attempt) : Option EndpointId :=
  match a.stage with
  | .exchanging => none
  | .verified => some a.conn.remote
  | .done result => result.map PairOutcome.peer

/-- An attempt in flight as its window sees it, before and after it has reported. -/
structure Ticket where
  window : ℕ
  /-- The peer whose confirm was found right. -/
  proven : Option EndpointId
  failed : Bool

/-- The ticket of an attempt. -/
def Attempt.ticket (a : Attempt) : Ticket := ⟨a.window, a.proven, a.stage == .done none⟩

/-- The ticket of a result. -/
def resultTicket (r : ℕ × Option PairOutcome) : Ticket := ⟨r.1, r.2.map PairOutcome.peer, r.2.isNone⟩

variable {a a' : Attempt} {step : AttemptStep}

theorem Attempt.ticket_of_result {result : Option PairOutcome} (h : a.result = some result) :
    a.ticket = resultTicket (a.window, result) := by
  obtain ⟨window, conn, stage⟩ := a
  cases stage with
  | done =>
    cases Option.some.inj h
    cases result <;> rfl
  | exchanging | verified => cases h

/-- The window, and the attempts in flight. -/
structure Desk where
  window : Option Window
  windowSeq : ℕ
  tickets : Multiset Ticket

/-- The window, and a ticket for each attempt and result. -/
def Pairing.desk (P : Pairing) : Desk :=
  ⟨P.window, P.windowSeq, ↑(P.attempts.map Attempt.ticket) + ↑(P.results.map resultTicket)⟩

/-- The window after a result. -/
def settle (window : Option Window) (id : ℕ) (result : Option PairOutcome) : Option Window :=
  match window with
  | none => none
  | some w =>
    if w.id ≠ id then some w
    else
      match result with
      | some _ => none
      | none => if w.attemptsLeft - 1 = 0 then none else some { w with attemptsLeft := w.attemptsLeft - 1 }

namespace Service

/-- The part of the service that pairs. -/
def pairing (s : Service) : Pairing :=
  ⟨s.window, s.windowSeq, s.attempts, s.queue.filterMap Internal.result⟩

/-- Its tickets. -/
def desk (s : Service) : Desk := s.pairing.desk

/-- **The steps of the pairing side.** -/
inductive PairStep (s : Service) (l : Label) (t : Service) : Prop where
  | idle (hl : l.isAttempt = false) (h : t.desk = s.desk)
  /-- A window is opened, if none is open or the one there is has run out. -/
  | opens (deadline : ℕ) (hl : l = .handles)
    (hold : ∀ w, s.window = some w → w.deadline ≤ s.now ∨ w.attemptsLeft = 0)
    (h : t.desk = { s.desk with
      windowSeq := s.windowSeq + 1
      window := some ⟨s.windowSeq + 1, pairAttempts, deadline⟩ })
  | takes (conn : Conn) (window : Window) (rest : List Internal) (hl : l = .handles)
    (hqueue : s.queue = .incomingPair conn :: rest) (hwindow : s.window = some window)
    (hopen : s.now < window.deadline) (hleft : window.attemptsLeft ≠ 0)
    (h : t.desk = { s.desk with tickets := ⟨window.id, none, false⟩ ::ₘ s.desk.tickets })
  /-- A result is taken from the queue. -/
  | result (id : ℕ) (result : Option PairOutcome) (rest : List Internal) (hl : l = .handles)
    (hqueue : s.queue = .pairHostDone id result :: rest)
    (htickets : s.desk.tickets = resultTicket (id, result) ::ₘ t.desk.tickets)
    (hseq : t.desk.windowSeq = s.desk.windowSeq) (hwindow : t.desk.window = settle s.desk.window id result)
    (hadds : ∀ outcome window, result = some outcome → s.window = some window →
      window.id = id → t.store.contains outcome.peer = true)
  /-- The timer of a window has run out. -/
  | expires (id : ℕ) (rest : List Internal) (hl : l = .handles)
    (hqueue : s.queue = .windowTimeout id :: rest)
    (h : t.desk = { s.desk with
      window := if s.window.any fun window => window.id == id then none else s.window })
  | attempt (i : ℕ) (step : AttemptStep) (a a' : Attempt) (others : Multiset Ticket) (hl : l = .attempt i step)
    (hat : s.attempts[i]? = some a) (hstep : a.step step = some a')
    (htickets : s.desk.tickets = a.ticket ::ₘ others)
    (h : t.desk = { s.desk with tickets := a'.ticket ::ₘ others })

/-! ## What the operations of the service do to the pairing side -/

/-- The id of a node and its time. -/
def clock (s : Service) : EndpointId × ℕ := (s.me, s.now)

/-- Only what is kept for the peers, and messages of no pairing attempt, have changed. -/
structure SameFront (s t : Service) : Prop where
  clock : t.clock = s.clock
  pairing : t.pairing = s.pairing

variable {s t : Service} {l : Label} {m : Internal}

theorem SameFront.trans {u : Service} (h : SameFront s t) (h' : SameFront t u) : SameFront s u :=
  ⟨h'.clock.trans h.clock, h'.pairing.trans h.pairing⟩

theorem SameFront.idle (h : SameFront s t) (hl : l.isAttempt = false) : PairStep s l t :=
  .idle hl (congrArg Pairing.desk h.pairing)

theorem front_send (s : Service) (h : m.result = none) : SameFront s (s.send m) := by
  refine ⟨rfl, ?_⟩
  simp only [pairing, send, filterMap_append, filterMap_cons, filterMap_nil, h,
    append_nil]

theorem front_rest {rest : List Internal} (hqueue : s.queue = m :: rest)
    (hm : m.result = none) : SameFront s { s with queue := rest } := by
  refine ⟨rfl, ?_⟩
  simp only [pairing, hqueue, filterMap_cons, hm]

variable (s)

theorem front_ensureSession (q : EndpointId) : SameFront s (s.ensureSession q) := by
  unfold ensureSession
  split_ifs <;> exact ⟨rfl, rfl⟩

theorem front_reconnectTick : SameFront s s.reconnectTick := by
  unfold reconnectTick
  generalize s.store.map PeerRecord.id = stored
  induction stored generalizing s with
  | nil => exact ⟨rfl, rfl⟩
  | cons q stored ih =>
    refine SameFront.trans ?_ (ih _)
    unfold reconnectPeer
    split_ifs
    exacts [⟨rfl, rfl⟩, ⟨rfl, rfl⟩, front_ensureSession s q]

theorem front_adoptConn (conn : Conn) (dialer : Bool) : SameFront s (s.adoptConn conn dialer) := by
  unfold adoptConn
  split_ifs <;> exact ⟨rfl, rfl⟩

theorem front_unpair (name : String) : SameFront s (s.unpair name).1 := by
  unfold unpair
  split <;> exact ⟨rfl, rfl⟩

theorem store_ensureSession (q : EndpointId) : (s.ensureSession q).store = s.store := by
  unfold ensureSession
  split_ifs <;> rfl

/-- A result, for the pairing side and for the store. -/
theorem front_pairHostDone (id : ℕ) (result : Option PairOutcome) :
    SameFront { s with window := settle s.window id result } (s.pairHostDone id result) ∧
      ∀ outcome window, result = some outcome → s.window = some window → window.id = id →
        (s.pairHostDone id result).store.contains outcome.peer = true := by
  unfold pairHostDone settle
  cases hwindow : s.window with
  | none => exact ⟨⟨rfl, by simp only [pairing, hwindow]⟩, fun _ _ _ hwindow => by cases hwindow⟩
  | some window =>
    by_cases hid : window.id ≠ id
    · simp only [if_pos hid]
      refine ⟨⟨rfl, by simp only [pairing, hwindow]⟩, fun _ _ _ hwindow hsame => ?_⟩
      obtain rfl := Option.some.inj hwindow
      exact absurd hsame hid
    · simp only [if_neg hid]
      cases result with
      | none => exact ⟨⟨rfl, rfl⟩, fun _ _ hresult => by cases hresult⟩
      | some outcome =>
        obtain ⟨hclock, hpairing⟩ := front_ensureSession ({ s with
          store := s.store.add outcome.peer outcome.nodeName
          window := none }.forgetBackoff outcome.peer) outcome.peer
        refine ⟨⟨hclock, hpairing⟩, fun added _ hadded _ _ => ?_⟩
        obtain rfl := Option.some.inj hadded
        rw [store_ensureSession]
        show (s.store.add outcome.peer outcome.nodeName).contains outcome.peer = true
        simp

variable {s}

theorem front_handle {rest : List Internal} (hqueue : s.queue = m :: rest) :
    ({ s with queue := rest }.handle m).clock = s.clock ∧
      PairStep s .handles ({ s with queue := rest }.handle m) := by
  have aside : m.result = none → ∀ {t}, SameFront { s with queue := rest } t →
      t.clock = s.clock ∧ PairStep s .handles t := fun hm t h =>
    ⟨h.clock, ((front_rest hqueue hm).trans h).idle rfl⟩
  cases m with
  | pairStart =>
    have hrest := front_rest hqueue rfl
    have opens : (∀ w, s.window = some w → w.deadline ≤ s.now ∨ w.attemptsLeft = 0) →
        PairStep s .handles { s with queue := rest }.openWindow := fun hold => by
      refine .opens (s.now + s.pairWindow) rfl hold ?_
      rw [desk, desk, ← hrest.pairing]
      rfl
    cases hwindow : s.window with
    | none =>
      simp only [handle, pairStart]
      exact ⟨rfl, opens fun w hw => by cases hwindow.symm.trans hw⟩
    | some window =>
      by_cases hopen : s.now < window.deadline ∧ 0 < window.attemptsLeft
      · simp only [handle, pairStart, if_pos hopen]
        exact aside rfl ⟨rfl, by simp only [pairing, hwindow]⟩
      · simp only [handle, pairStart, if_neg hopen]
        refine ⟨rfl, opens fun w hw => ?_⟩
        obtain rfl := Option.some.inj (hwindow.symm.trans hw)
        omega
  | unpair name => exact aside rfl (front_unpair _ name)
  | incomingPair conn =>
    have hrest := front_rest hqueue rfl
    cases hwindow : s.window with
    | none =>
      simp only [handle, incomingPair]
      exact aside rfl ⟨rfl, by simp only [pairing, hwindow]⟩
    | some window =>
      by_cases hout : window.deadline ≤ s.now ∨ window.attemptsLeft = 0
      · simp only [handle, incomingPair, if_pos hout]
        exact aside rfl ⟨rfl, by simp only [pairing, hwindow]⟩
      · simp only [handle, incomingPair, if_neg hout]
        refine ⟨rfl, .takes conn window rest rfl hqueue hwindow (by omega) (by omega) ?_⟩
        rw [desk, desk, ← hrest.pairing]
        simp only [pairing, Pairing.desk, hwindow, map_append, map_cons, map_nil, ← Multiset.coe_add,
          ← Multiset.cons_coe, Multiset.coe_nil, Multiset.add_cons, Multiset.cons_add, Multiset.add_zero]
        rfl
  | incomingMesh conn => exact aside rfl (front_adoptConn _ conn false)
  | pairHostDone id result =>
    obtain ⟨hfront, hadds⟩ := front_pairHostDone { s with queue := rest } id result
    have hdesk := congrArg Pairing.desk hfront.pairing
    have hseq := congrArg Desk.windowSeq hdesk
    have hwindow := congrArg Desk.window hdesk
    have htickets := congrArg Desk.tickets hdesk
    refine ⟨hfront.clock, .result id result rest rfl hqueue ?_ hseq hwindow hadds⟩
    refine Eq.trans ?_ (congrArg (resultTicket (id, result) ::ₘ ·) htickets.symm)
    simp only [desk, pairing, Pairing.desk, hqueue, filterMap_cons, Internal.result, map_cons,
      ← Multiset.cons_coe, Multiset.add_cons]
  | windowTimeout id =>
    refine ⟨?_, .expires id rest rfl hqueue ?_⟩ <;> simp only [handle, windowTimeout]
    · split_ifs <;> rfl
    · rw [desk, desk, ← (front_rest hqueue rfl).pairing]
      split_ifs <;> rfl
  | joinedPeer q =>
    obtain ⟨hclock, hpairing⟩ := front_ensureSession ({ s with queue := rest }.forgetBackoff q) q
    exact aside rfl ⟨hclock, hpairing⟩
  | dialDone q conn =>
    cases conn with
    | none => exact aside rfl ⟨rfl, rfl⟩
    | some conn =>
      obtain ⟨hclock, hpairing⟩ := front_adoptConn
        { s with queue := rest, dialing := Function.update s.dialing q false } conn true
      exact aside rfl ⟨hclock, hpairing⟩
  | tryDial q => exact aside rfl (front_ensureSession _ q)
  | sessionEnded | discoveryExpired => exact aside rfl ⟨rfl, rfl⟩
  | discovered q =>
    refine aside rfl ?_
    unfold handle
    dsimp only
    split_ifs
    · exact ⟨rfl, rfl⟩
    · obtain ⟨hclock, hpairing⟩ := front_ensureSession ({ s with
        queue := rest
        discovered := Function.update s.discovered q true }.forgetBackoff q) q
      exact ⟨hclock, hpairing⟩
    · exact ⟨rfl, rfl⟩
  | reconnectTick => exact aside rfl (front_reconnectTick _)

theorem result_of_outside (h : m.outside = true) : m.result = none := by
  cases m <;> first | rfl | exact absurd h Bool.false_ne_true

/-- **Every step of the service is a step of its pairing side**, and time passes in the steps
that let time pass. -/
theorem front_step (h : s.next l = some t) : t.clock = (s.me, s.now + l.elapsed) ∧ PairStep s l t := by
  have aside : ∀ {l' : Label}, l'.isAttempt = false → l'.elapsed = 0 → ∀ {t}, SameFront s t →
      t.clock = (s.me, s.now + l'.elapsed) ∧ PairStep s l' t := fun hl hms t h =>
    ⟨by rw [hms, h.clock]; rfl, h.idle hl⟩
  have sends : ∀ {l' : Label}, l'.isAttempt = false → l'.elapsed = 0 → ∀ {s' m}, SameFront s s' →
      m.result = none → (s'.send m).clock = (s.me, s.now + l'.elapsed) ∧ PairStep s l' (s'.send m) :=
    fun hl hms s' m h hm => aside hl hms (h.trans (front_send s' hm))
  cases l with
  | handles =>
    cases hqueue : s.queue with
    | nil => simp only [next, hqueue, reduceCtorEq] at h
    | cons =>
      simp only [next, hqueue, Option.some.injEq] at h
      exact h ▸ front_handle hqueue
  | attempt i step =>
    simp only [next, attemptStep] at h
    cases hat : s.attempts[i]? with
    | none => simp only [hat, reduceCtorEq] at h
    | some a =>
      simp only [hat] at h
      cases step with
      | reports =>
        obtain ⟨result, hresult, rfl⟩ := map_eq_some_iff.mp h
        refine ⟨rfl, .idle rfl ?_⟩
        have hold := congrArg (Multiset.map Attempt.ticket) (Lib.coe_eraseIdx hat)
        have hnew : s.desk.tickets = a.ticket ::ₘ (↑((s.attempts.eraseIdx i).map Attempt.ticket) +
            ↑(s.pairing.results.map resultTicket)) := by
          rw [← Multiset.cons_add]
          exact congrArg (· + (↑(s.pairing.results.map resultTicket) : Multiset Ticket)) hold
        refine congrArg (Desk.mk s.window s.windowSeq) (Eq.trans ?_ hnew.symm)
        simp only [pairing, send, filterMap_append, map_append, ← Multiset.coe_add]
        rw [← Multiset.add_assoc, Multiset.add_comm, a.ticket_of_result hresult]
        rfl
      | compares | introduced | fails =>
        obtain ⟨a', ha', rfl⟩ := map_eq_some_iff.mp h
        have hold := congrArg (Multiset.map Attempt.ticket) (Lib.coe_eraseIdx hat)
        have hnew := congrArg (Multiset.map Attempt.ticket) (Lib.coe_set hat a')
        refine ⟨rfl, .attempt i _ a a' (↑((s.attempts.eraseIdx i).map Attempt.ticket) +
          ↑(s.pairing.results.map resultTicket)) rfl hat ha' ?_ ?_⟩
        · rw [← Multiset.cons_add]
          exact congrArg (· + (↑(s.pairing.results.map resultTicket) : Multiset Ticket)) hold
        · rw [← Multiset.cons_add]
          exact congrArg (fun T => Desk.mk s.window s.windowSeq
            (T + (↑(s.pairing.results.map resultTicket) : Multiset Ticket))) hnew
  | posts =>
    simp only [next] at h
    split_ifs at h with hm
    exact Option.some.inj h ▸ sends rfl rfl ⟨rfl, rfl⟩ (result_of_outside hm)
  | elapses => exact Option.some.inj h ▸ ⟨rfl, .idle rfl rfl⟩
  | joins => exact Option.some.inj h ▸ aside rfl rfl ⟨rfl, rfl⟩
  | accepts conn alpn =>
    cases alpn with
    | pair => exact Option.some.inj h ▸ sends rfl rfl ⟨rfl, rfl⟩ rfl
    | mesh | blobs =>
      obtain ⟨x, -, rfl⟩ := map_eq_some_iff.mp h
      exact aside rfl rfl ⟨rfl, rfl⟩
  | dialEnds q conn =>
    simp only [next, dialEnd] at h
    split_ifs at h
    cases conn with
    | none => exact Option.some.inj h ▸ sends rfl rfl ⟨rfl, rfl⟩ rfl
    | some =>
      obtain ⟨x, -, rfl⟩ := map_eq_some_iff.mp h
      exact sends rfl rfl ⟨rfl, rfl⟩ rfl
  | runner q =>
    obtain ⟨⟨x, ended⟩, -, rfl⟩ := map_eq_some_iff.mp h
    cases ended with
    | none => exact aside rfl rfl ⟨rfl, rfl⟩
    | some => exact @sends (.runner q _ _) rfl rfl (s.setPeer q x) _ ⟨rfl, rfl⟩ rfl
  | timer i =>
    cases hat : s.timers[i]? with
    | none => simp only [next, hat, reduceCtorEq] at h
    | some timer =>
      obtain ⟨id, deadline⟩ := timer
      simp only [next, hat] at h
      split_ifs at h
      exact Option.some.inj h ▸ sends rfl rfl ⟨rfl, rfl⟩ rfl
  | passes | reportsJoin =>
    obtain ⟨c, -, rfl⟩ := map_eq_some_iff.mp h
    exact sends rfl rfl ⟨rfl, rfl⟩ rfl
  | closes | receives | serves | drops | servesBlob | endsBlob =>
    simp only [next] at h
    obtain ⟨x, -, rfl⟩ := map_eq_some_iff.mp h
    exact aside rfl rfl ⟨rfl, rfl⟩

theorem me_next (h : s.next l = some t) : t.me = s.me :=
  congrArg Prod.fst (front_step h).1

theorem now_next (h : s.next l = some t) : t.now = s.now + l.elapsed :=
  congrArg Prod.snd (front_step h).1

end Service

/-! ## Window ids -/

theorem settle_eq_some {old : Option Window} {id : ℕ} {result : Option PairOutcome} {w : Window}
    (h : settle old id result = some w) : (old = some w ∧ w.id ≠ id) ∨
      ∃ o, old = some o ∧ o.id = id ∧ result = none ∧ o.attemptsLeft - 1 ≠ 0 ∧
        w = { o with attemptsLeft := o.attemptsLeft - 1 } := by
  unfold settle at h
  cases old with
  | none => cases h
  | some o =>
    simp only at h
    by_cases hid : o.id ≠ id
    · rw [if_pos hid] at h
      obtain rfl := Option.some.inj h
      exact .inl ⟨rfl, hid⟩
    · rw [if_neg hid] at h
      cases result with
      | some => cases h
      | none =>
        by_cases hlast : o.attemptsLeft - 1 = 0
        · simp only [if_pos hlast, reduceCtorEq] at h
        · simp only [if_neg hlast, Option.some.injEq] at h
          exact .inr ⟨o, rfl, not_not.mp hid, rfl, hlast, h.symm⟩

theorem Attempt.step_keeps (h : a.step step = some a') : a'.window = a.window ∧ a'.conn = a.conn := by
  cases step <;> simp only [Attempt.step] at h
  case reports => cases h
  all_goals
    split_ifs at h <;> obtain rfl := Option.some.inj h
    all_goals exact ⟨rfl, rfl⟩

namespace Desk

/-- Windows and attempts have ids that were given out, and an open window has attempts left. -/
structure Booked (D : Desk) : Prop where
  window : ∀ w, D.window = some w →
    w.id ≤ D.windowSeq ∧ 0 < w.attemptsLeft ∧ w.attemptsLeft ≤ pairAttempts
  tickets : ∀ k ∈ D.tickets, k.window ≤ D.windowSeq

end Desk

namespace Service

variable {s t : Service} {l : Label}

theorem PairStep.booked (h : PairStep s l t) (hs : s.desk.Booked) : t.desk.Booked := by
  cases h with
  | idle _ h => exact h ▸ hs
  | opens deadline _ _ h =>
    rw [h]
    refine ⟨fun w hw => ?_, fun k hk => Nat.le_succ_of_le (hs.tickets k hk)⟩
    obtain rfl := Option.some.inj hw
    have hpos : 0 < pairAttempts := by decide
    exact ⟨le_rfl, hpos, le_rfl⟩
  | takes conn window rest _ _ hwindow _ _ h =>
    rw [h]
    refine ⟨hs.window, Multiset.forall_mem_cons.mpr ⟨?_, hs.tickets⟩⟩
    exact (hs.window window hwindow).1
  | result id result rest _ _ htickets hseq hwindow =>
    refine ⟨fun w hw => ?_, fun k hk => ?_⟩
    · rw [hseq]
      rcases settle_eq_some (hwindow.symm.trans hw) with ⟨hold, -⟩ | ⟨old, hold, -, -, hleft, rfl⟩
      · exact hs.window w hold
      · obtain ⟨hid, hpos, hle⟩ := hs.window old hold
        exact ⟨hid, Nat.pos_of_ne_zero hleft, (Nat.sub_le _ _).trans hle⟩
    · rw [hseq]
      exact hs.tickets k (htickets ▸ Multiset.mem_cons_of_mem hk)
  | expires id rest _ _ h =>
    rw [h]
    refine ⟨fun w hw => hs.window w ?_, hs.tickets⟩
    simp only at hw
    split_ifs at hw
    exact hw
  | attempt i step a a' others _ _ hstep htickets h =>
    have hall := htickets ▸ hs.tickets
    rw [h]
    refine ⟨hs.window, Multiset.forall_mem_cons.mpr ⟨?_, (Multiset.forall_mem_cons.mp hall).2⟩⟩
    show a'.window ≤ _
    rw [(Attempt.step_keeps hstep).1]
    exact (Multiset.forall_mem_cons.mp hall).1

theorem booked_start (me : EndpointId) (pairWindow : ℕ) (store : PeerStore) :
    (machine me pairWindow store).start.desk.Booked :=
  ⟨fun _ hw => (by cases hw), fun _ hk => absurd hk (Multiset.notMem_zero _)⟩

theorem run_booked {me : EndpointId} {pairWindow : ℕ} {store : PeerStore} {ls : List Label}
    (hrun : (machine me pairWindow store).run ls = some s) : s.desk.Booked :=
  Lib.Machine.run_invariant (I := fun s => s.desk.Booked) (booked_start me pairWindow store)
    (fun _ _ _ hs hnext => (front_step hnext).2.booked hs) hrun

end Service

/-! ## The budget -/

/-- The attempts of a window in flight, those whose result is in the queue included. -/
def Pairing.inFlight (P : Pairing) (w : ℕ) : ℕ :=
  P.attempts.countP (fun a => a.window == w) + P.results.countP fun r => r.1 == w

namespace Service

/-- The service takes on a pairing connection though as many attempts are in flight as the
window has left. -/
def overbooks (s : Service) : Label → Bool
  | .handles =>
    match s.queue, s.window with
    | .incomingPair _ :: _, some window =>
      decide (s.now < window.deadline ∧ window.attemptsLeft ≠ 0 ∧
        window.attemptsLeft ≤ s.pairing.inFlight window.id)
    | _, _ => false
  | _ => false

/-- A step that compares a wrong confirm under a window. -/
def guessesWrong (w : ℕ) (s : Service) : Label → Bool
  | .attempt i (.compares false) =>
    ((s.attempts[i]?).any fun a => a.window == w) && s.window.any fun window => window.id == w
  | _ => false

/-- The confirm of a peer is found right for a window that is open. -/
def verifies (w : ℕ) (p : EndpointId) (s : Service) : Label → Bool
  | .attempt i (.compares true) =>
    ((s.attempts[i]?).any fun a => a.window == w && a.conn.remote == p) &&
      s.window.any fun window => window.id == w
  | _ => false

end Service

namespace Desk

/-- The attempts of a window that are not settled. -/
def inFlight (D : Desk) (w : ℕ) : ℕ := D.tickets.countP fun k => k.window = w

/-- Those of them that have failed. -/
def failed (D : Desk) (w : ℕ) : ℕ := D.tickets.countP fun k => k.window = w ∧ k.failed = true

/-- How many wrong confirms a window has seen, against what it was charged. -/
structure Budget (D : Desk) (w n : ℕ) : Prop where
  bound : n ≤ pairAttempts
  unopened : D.windowSeq < w → n = 0
  /-- While it is open, each was charged or is a failure that will be. -/
  charged : ∀ window, D.window = some window → window.id = w →
    n + window.attemptsLeft ≤ pairAttempts + D.failed w ∧ D.inFlight w ≤ window.attemptsLeft

variable {D : Desk} {w : ℕ}

theorem failed_le_inFlight (D : Desk) (w : ℕ) : D.failed w ≤ D.inFlight w := by
  unfold failed inFlight
  rw [Multiset.countP_eq_card_filter, Multiset.countP_eq_card_filter]
  exact Multiset.card_le_card (Multiset.monotone_filter_right _ fun _ h => h.1)

theorem Booked.inFlight_eq_zero (h : D.Booked) (hw : D.windowSeq < w) : D.inFlight w = 0 := by
  refine Multiset.countP_eq_zero.mpr fun k hk heq => ?_
  have := h.tickets k hk
  omega

/-- While the window is open the bound follows from what was charged. -/
theorem bound_of_charged {n left : ℕ}
    (h : n + left ≤ pairAttempts + D.failed w ∧ D.inFlight w ≤ left) : n ≤ pairAttempts := by
  have := D.failed_le_inFlight w
  omega

end Desk

theorem Service.inFlight_desk (s : Service) (w : ℕ) : s.pairing.inFlight w = s.desk.inFlight w := by
  simp only [Desk.inFlight, Service.desk, Pairing.desk, Pairing.inFlight, Multiset.countP_add, Multiset.coe_countP,
    countP_map]
  rfl

theorem Attempt.stage_compares {right : Bool} (h : a.step (.compares right) = some a') :
    a.stage = .exchanging ∧ a'.stage = if right then .verified else .done none := by
  simp only [Attempt.step] at h
  split_ifs at h with hstage hright <;> obtain rfl := Option.some.inj h
  · exact ⟨hstage, by rw [if_pos hright]⟩
  · exact ⟨hstage, by rw [if_neg hright]⟩

theorem Attempt.not_failed (h : a.step step = some a') : a.ticket.failed = false := by
  refine beq_eq_false_iff_ne.mpr fun hfailed => ?_
  cases step <;> simp [Attempt.step, hfailed] at h

namespace Service

variable {s t : Service} {l : Label} {w n : ℕ}

open Desk

theorem guessesWrong_of_not_attempt (h : l.isAttempt = false) : s.guessesWrong w l = false := by
  cases l with
  | attempt i step => cases step <;> first | rfl | cases h
  | _ => rfl

theorem failed_of_guessesWrong {i : ℕ} {step : AttemptStep} {a a' : Attempt} (hat : s.attempts[i]? = some a)
    (hstep : a.step step = some a') (h : s.guessesWrong w (.attempt i step) = true) :
    a.window = w ∧ a'.ticket.failed = true ∧ (s.window.any fun window => window.id == w) = true := by
  cases step with
  | compares right =>
    cases right with
    | true => cases h
    | false =>
      simp only [guessesWrong, hat, any_some, Bool.and_eq_true, beq_iff_eq] at h
      have hstage := (Attempt.stage_compares hstep).2
      exact ⟨h.1, by rw [Attempt.ticket, hstage]; rfl, h.2⟩
  | introduced | fails | reports => cases h

/-- **A step that does not overbook** keeps the budget of a window. -/
theorem PairStep.budget (h : PairStep s l t) (hbooked : s.desk.Booked)
    (hs : s.desk.Budget w n) (hl : s.overbooks l = false) :
    t.desk.Budget w (n + if s.guessesWrong w l then 1 else 0) := by
  cases h with
  | idle hlabel h =>
    rw [guessesWrong_of_not_attempt hlabel, h]
    exact hs
  | opens deadline hlabel _ h =>
    subst hlabel
    rw [h]
    refine ⟨hs.bound, fun hw => hs.unopened (Nat.lt_of_succ_lt hw), fun window hwindow hid => ?_⟩
    obtain rfl := Option.some.inj hwindow
    have hnew : s.desk.windowSeq < w := hid ▸ Nat.lt_succ_self _
    have hzero := hs.unopened hnew
    have hnone : s.desk.inFlight w = 0 := hbooked.inFlight_eq_zero hnew
    refine ⟨?_, hnone.le.trans (Nat.zero_le _)⟩
    show n + 0 + pairAttempts ≤ pairAttempts + _
    omega
  | takes conn window rest hlabel hqueue hwindow hopen hleft h =>
    subst hlabel
    rw [h]
    refine ⟨hs.bound, hs.unopened, fun window' hwindow' hid => ?_⟩
    obtain rfl := Option.some.inj (hwindow.symm.trans hwindow')
    obtain ⟨hcharged, -⟩ := hs.charged window hwindow hid
    have hroom : s.desk.inFlight window.id < window.attemptsLeft := by
      rw [← inFlight_desk]
      simpa [overbooks, hqueue, hwindow, hopen, hleft] using hl
    rw [hid] at hroom
    simp only [Desk.inFlight, Desk.failed, Multiset.countP_cons, hid, if_true, Bool.false_eq_true, and_false,
      if_false] at hcharged hroom ⊢
    exact ⟨hcharged, hroom⟩
  | result id result rest hlabel hqueue htickets hseq hsettle =>
    subst hlabel
    refine ⟨hs.bound, fun hw => hs.unopened (hseq ▸ hw), fun window hwindow hid => ?_⟩
    have hcharge := hs.charged
    simp only [Desk.inFlight, Desk.failed, htickets, Multiset.countP_cons, resultTicket] at hcharge ⊢
    show n + 0 + _ ≤ _ ∧ _
    rcases settle_eq_some (hsettle.symm.trans hwindow) with ⟨hold, hne⟩ | ⟨old, hold, hsame, rfl, hleft, rfl⟩
    · obtain ⟨hcharged, hle⟩ := hcharge window hold hid
      have hneq : id ≠ w := fun heq => hne (hid.trans heq.symm)
      simp only [hneq, false_and, if_false] at hcharged hle
      exact ⟨hcharged, hle⟩
    · obtain ⟨hcharged, hle⟩ := hcharge old hold hid
      have heq : id = w := hsame.symm.trans hid
      simp only [heq, isNone_none, and_self, if_true] at hcharged hle
      show n + 0 + (old.attemptsLeft - 1) ≤ _ ∧ _ ≤ old.attemptsLeft - 1
      omega
  | expires id rest hlabel _ h =>
    subst hlabel
    rw [h]
    refine ⟨hs.bound, hs.unopened, fun window hwindow hid => hs.charged window ?_ hid⟩
    simp only at hwindow
    split_ifs at hwindow
    exact hwindow
  | attempt i step a a' others hlabel hat hstep htickets h =>
    subst hlabel
    rw [h]
    have hsame : a'.ticket.window = a.ticket.window := (Attempt.step_keeps hstep).1
    have hguess := fun hguess => failed_of_guessesWrong (w := w) hat hstep hguess
    -- a wrong confirm is one more failure; the other steps may be
    have hnow : ∀ window, s.desk.window = some window → window.id = w →
        n + (if s.guessesWrong w (.attempt i step) then 1 else 0) + window.attemptsLeft ≤
          pairAttempts + Desk.failed { s.desk with tickets := a'.ticket ::ₘ others } w ∧
        Desk.inFlight { s.desk with tickets := a'.ticket ::ₘ others } w ≤ window.attemptsLeft := by
      intro window hwindow hid
      obtain ⟨hcharged, hle⟩ := hs.charged window hwindow hid
      simp only [Desk.inFlight, Desk.failed, htickets, Multiset.countP_cons, hsame, Attempt.not_failed hstep,
        Bool.false_eq_true, and_false, if_false] at hcharged hle ⊢
      refine ⟨?_, hle⟩
      split_ifs with hwrong hfailed
      · omega
      · exact absurd ⟨(hguess hwrong).1, (hguess hwrong).2.1⟩ hfailed
      all_goals omega
    by_cases hwrong : s.guessesWrong w (.attempt i step) = true
    · obtain ⟨window, hwindow, hid⟩ := (any_eq_true _ _).mp (hguess hwrong).2.2
      refine ⟨bound_of_charged (hnow window hwindow (beq_iff_eq.mp hid)), fun hw => ?_, hnow⟩
      have hin := (hbooked.window window hwindow).1
      have hid := beq_iff_eq.mp hid
      have : s.desk.windowSeq < w := hw
      omega
    · rw [if_neg hwrong] at hnow ⊢
      exact ⟨hs.bound, hs.unopened, hnow⟩

/-! ## The peer a window adds -/

theorem adding_eq_some {p : EndpointId} (h : s.adding w l = some p) : l = .handles ∧ ∃ outcome rest window,
      s.queue = .pairHostDone w (some outcome) :: rest ∧ outcome.peer = p ∧
        s.window = some window ∧ window.id = w := by
  cases l with
  | handles =>
    simp only [adding] at h
    split at h
    · rename_i id outcome rest hqueue
      split_ifs at h with hguard
      obtain ⟨rfl, hany⟩ := hguard
      obtain ⟨window, hwindow, hid⟩ := (any_eq_true _ _).mp hany
      exact ⟨rfl, outcome, rest, window, hqueue, Option.some.inj h, hwindow, beq_iff_eq.mp hid⟩
    · cases h
  | _ => cases h

/-- A window is not open any more once it has added a peer. -/
structure Added (D : Desk) (w n : ℕ) : Prop where
  bound : n ≤ 1
  closed : n ≠ 0 → w ≤ D.windowSeq ∧ ∀ window, D.window = some window → window.id ≠ w

/-- The window of a state that comes after another: an old one, or one with a new id. -/
theorem PairStep.window (h : PairStep s l t) :
    s.desk.windowSeq ≤ t.desk.windowSeq ∧ ∀ window, t.desk.window = some window →
      (∃ old, s.desk.window = some old ∧ old.id = window.id) ∨ s.desk.windowSeq < window.id := by
  cases h with
  | idle _ h | takes _ _ _ _ _ _ _ _ h | attempt _ _ _ _ _ _ _ _ _ h =>
    rw [h]
    exact ⟨le_rfl, fun window hw => .inl ⟨window, hw, rfl⟩⟩
  | opens deadline _ _ h =>
    rw [h]
    refine ⟨Nat.le_succ _, fun window hw => .inr ?_⟩
    obtain rfl := Option.some.inj hw
    exact Nat.lt_succ_self _
  | result id result rest _ _ _ hseq hsettle =>
    refine ⟨hseq.ge, fun window hw => .inl ?_⟩
    rcases settle_eq_some (hsettle.symm.trans hw) with ⟨hold, -⟩ | ⟨old, hold, -, -, -, rfl⟩
    exacts [⟨window, hold, rfl⟩, ⟨old, hold, rfl⟩]
  | expires id _ _ _ h =>
    rw [h]
    refine ⟨le_rfl, fun window hw => .inl ⟨window, ?_, rfl⟩⟩
    simp only at hw
    split_ifs at hw
    exact hw

theorem window_of_adding {p : EndpointId} (hnext : s.next l = some t)
    (hadds : s.adding w l = some p) : t.desk.window = none := by
  obtain ⟨rfl, outcome, rest, window, hqueue, -, hwindow, hid⟩ := adding_eq_some hadds
  simp only [next, hqueue, Option.some.injEq] at hnext
  have hfront := (front_pairHostDone { s with queue := rest } w (some outcome)).1.pairing
  have hne : ¬window.id ≠ w := not_not.mpr hid
  have hsettle : settle s.window w (some outcome) = none := by
    simp only [settle, hwindow, if_neg hne]
  rw [← hnext]
  exact (congrArg Pairing.window hfront).trans hsettle

/-- **A step adds a peer for a window once.** -/
theorem Added.next (hs : Added s.desk w n) (hbooked : s.desk.Booked) (hnext : s.next l = some t) :
    Added t.desk w (n + if (s.adding w l).isSome then 1 else 0) := by
  obtain ⟨hseq, hwindows⟩ := (front_step hnext).2.window
  cases hadds : s.adding w l with
  | none =>
    refine ⟨hs.bound, fun hn => ?_⟩
    obtain ⟨hle, hclosed⟩ := hs.closed hn
    refine ⟨hle.trans hseq, fun window hwindow hid => ?_⟩
    rcases hwindows window hwindow with ⟨old, hold, hsame⟩ | hnew
    · exact hclosed old hold (hsame.trans hid)
    · exact absurd (hid ▸ hnew) (Nat.not_lt.mpr hle)
  | some =>
    obtain ⟨-, -, -, window, -, -, hwindow, hid⟩ := adding_eq_some hadds
    have hzero : n = 0 := by
      by_contra hn
      exact (hs.closed hn).2 window hwindow hid
    refine ⟨by simp [hzero], fun _ => ⟨?_, fun window' hwindow' => ?_⟩⟩
    · exact (hid ▸ (hbooked.window window hwindow).1).trans hseq
    · rw [window_of_adding hnext hadds] at hwindow'
      cases hwindow'

end Service

theorem Attempt.proven_step {p : EndpointId} (h : a.step step = some a') (hp : a'.proven = some p) :
    a.proven = some p ∨ step = .compares true ∧ a.conn.remote = p := by
  cases step with
  | compares right =>
    cases right with
    | true =>
      simp only [Attempt.step, if_true] at h
      split_ifs at h
      obtain rfl := Option.some.inj h
      exact .inr ⟨rfl, Option.some.inj hp⟩
    | false =>
      simp only [Attempt.step, Bool.false_eq_true, if_false] at h
      split_ifs at h
      obtain rfl := Option.some.inj h
      cases hp
  | introduced =>
    simp only [Attempt.step] at h
    split_ifs at h with hstage
    obtain rfl := Option.some.inj h
    refine .inl ?_
    simp only [Attempt.proven, hstage]
    exact hp
  | fails =>
    simp only [Attempt.step] at h
    split_ifs at h
    obtain rfl := Option.some.inj h
    cases hp
  | reports => cases h

/-- While a window is open, the peers its attempts have proven were found right under it.
`f p` is how often the confirm of `p` was. -/
def Desk.Vouched (D : Desk) (w : ℕ) (f : EndpointId → ℕ) : Prop :=
  ∀ window, D.window = some window → window.id = w →
    ∀ k ∈ D.tickets, k.window = w → ∀ p, k.proven = some p → 0 < f p

namespace Service

variable {s t : Service} {l : Label} {w n : ℕ} {f : EndpointId → ℕ}

/-- **A peer is proven while its window is open.** -/
theorem PairStep.vouched (h : PairStep s l t) (hbooked : s.desk.Booked) (hs : s.desk.Vouched w f) :
    t.desk.Vouched w fun p => f p + if s.verifies w p l then 1 else 0 := by
  intro window hwindow hid k hk hkw p hp
  have hmono : 0 < f p → 0 < f p + if s.verifies w p l then 1 else 0 :=
    fun hp => Nat.lt_of_lt_of_le hp (Nat.le_add_right _ _)
  cases h with
  | idle _ h =>
    rw [h] at hwindow hk
    exact hmono (hs window hwindow hid k hk hkw p hp)
  | opens deadline _ _ h =>
    -- no attempt has the id of a window that is opened only now
    rw [h] at hwindow hk
    obtain rfl := Option.some.inj hwindow
    have hnew : s.desk.windowSeq < w := hid ▸ Nat.lt_succ_self _
    have := hbooked.tickets k hk
    omega
  | takes conn open' rest _ _ _ _ _ h =>
    rw [h] at hwindow hk
    simp only [Multiset.mem_cons] at hk
    rcases hk with rfl | hk
    · cases hp
    · exact hmono (hs window hwindow hid k hk hkw p hp)
  | result id result rest _ _ htickets _ hsettle =>
    have hin : k ∈ s.desk.tickets := htickets ▸ Multiset.mem_cons_of_mem hk
    rcases settle_eq_some (hsettle.symm.trans hwindow) with ⟨hold, -⟩ | ⟨old, hold, -, -, -, rfl⟩
    · exact hmono (hs window hold hid k hin hkw p hp)
    · exact hmono (hs old hold hid k hin hkw p hp)
  | expires id _ _ _ h =>
    rw [h] at hwindow hk
    simp only at hwindow
    split_ifs at hwindow
    exact hmono (hs window hwindow hid k hk hkw p hp)
  | attempt i step a a' others hlabel hat hstep htickets h =>
    subst hlabel
    rw [h] at hwindow hk
    have hopen : s.window = some window := hwindow
    rcases Multiset.mem_cons.mp hk with rfl | hk
    · have haw : a.window = w := (Attempt.step_keeps hstep).1 ▸ hkw
      rcases Attempt.proven_step hstep hp with hold | ⟨rfl, hremote⟩
      · exact hmono (hs window hwindow hid a.ticket (htickets ▸ Multiset.mem_cons_self _ _) haw p hold)
      · have hverifies : s.verifies w p (.attempt i (.compares true)) = true := by
          simp [verifies, hat, haw, hremote, hopen, hid]
        simp [hverifies]
    · exact hmono (hs window hwindow hid k (htickets ▸ Multiset.mem_cons_of_mem hk) hkw p hp)

/-! ## Runs -/

section Runs

variable {me : EndpointId} {pairWindow : ℕ} {store : PeerStore} {ls : List Label}

/-- How often a test was met in a run of the service. -/
def times (me : EndpointId) (pairWindow : ℕ) (store : PeerStore) (f : Service → Label → Bool)
    (ls : List Label) : ℕ :=
  (machine me pairWindow store).tally f (machine me pairWindow store).start ls

theorem run_budget (hmeets : (machine me pairWindow store).Meets (fun s l => s.overbooks l = false) ls)
    (hrun : (machine me pairWindow store).run ls = some s) (w : ℕ) :
    s.desk.Budget w (times me pairWindow store (guessesWrong w) ls) := by
  refine Lib.Machine.run_induct_of_meets
    (I := fun ls s => s.desk.Budget w (times me pairWindow store (guessesWrong w) ls))
    ⟨Nat.zero_le _, fun _ => rfl, fun _ hw => (by cases hw)⟩ (fun ls s l t hs hI hl hnext => ?_)
    hmeets hrun
  have hstep := (front_step hnext).2.budget (run_booked hs) hI hl
  rwa [times, Lib.Machine.tally_snoc hs]

theorem run_added (hrun : (machine me pairWindow store).run ls = some s) (w : ℕ) :
    Added s.desk w (times me pairWindow store (fun s l => (s.adding w l).isSome) ls) := by
  refine Lib.Machine.run_induct
    (I := fun ls s =>
      Added s.desk w (times me pairWindow store (fun s l => (s.adding w l).isSome) ls))
    ⟨Nat.zero_le _, fun hn => absurd rfl hn⟩ (fun ls s l t hs hI hnext => ?_) hrun
  have hstep := hI.next (run_booked hs) hnext
  rwa [times, Lib.Machine.tally_snoc hs]

theorem run_vouched (hrun : (machine me pairWindow store).run ls = some s) (w : ℕ) :
    s.desk.Vouched w fun p => times me pairWindow store (verifies w p) ls := by
  refine Lib.Machine.run_induct
    (I := fun ls s => s.desk.Vouched w fun p => times me pairWindow store (verifies w p) ls)
    (fun _ hw => (by cases hw)) (fun ls s l t hs hI hnext => ?_) hrun
  have hstep := (front_step hnext).2.vouched (run_booked hs) hI
  simp only [times, Lib.Machine.tally_snoc hs]
  exact hstep

end Runs

/-- A peer that is new in the store was put there for a window, or is a host this node has joined. -/
theorem pairs_of_stored {p : EndpointId} (hnext : s.next l = some t) (hout : s.store.contains p = false)
    (hin : t.store.contains p = true) : s.Pairs l p := by
  have hstep := link_step hnext p
  have hbefore : (s.link p).paired = false := hout
  have hafter : (t.link p).paired = true := hin
  generalize t.link p = L at hstep hafter
  cases hstep with
  | pairs n hl => exact hl
  | unpairs => cases hafter
  | event e => cases e <;> exact absurd (hbefore.symm.trans hafter) Bool.false_ne_true
  | idle | dials | accepts | acceptsBlob | refuses | passes | dialFails | dialEnds | closes | runner | receives
  | serves | endsBlob => exact absurd (hbefore.symm.trans hafter) Bool.false_ne_true

/-- **The guess budget of a pairing window.** In every run in which no connection is taken on
over the budget, at most three wrong confirms are compared while the window is open. In
every run, a window adds at most one peer, and a step that adds one comes after the confirm
of that peer was found right while the window was open; and no peer comes into the store that is
not added for a window or a host that this node has joined. -/
theorem guess_budget (me : EndpointId) (pairWindow : ℕ) (store : PeerStore) (w : ℕ)
    (ls : List Label) (s : Service) (hrun : (machine me pairWindow store).run ls = some s) :
    ((machine me pairWindow store).Meets (fun s l => s.overbooks l = false) ls →
        times me pairWindow store (guessesWrong w) ls ≤ pairAttempts) ∧
      times me pairWindow store (fun s l => (s.adding w l).isSome) ls ≤ 1 ∧
      (∀ l p, s.adding w l = some p → 0 < times me pairWindow store (verifies w p) ls) ∧
      ∀ l t p, s.next l = some t → s.store.contains p = false → t.store.contains p = true →
        (∃ w, s.adding w l = some p) ∨ ∃ nodeName, l = .joins p nodeName := by
  refine ⟨fun hmeets => (run_budget hmeets hrun w).bound, (run_added hrun w).bound,
    fun l p hadds => ?_, fun _ _ _ => pairs_of_stored⟩
  obtain ⟨-, outcome, rest, window, hqueue, rfl, hwindow, hid⟩ := adding_eq_some hadds
  refine run_vouched hrun w window hwindow hid (resultTicket (w, some outcome)) ?_ rfl _ rfl
  simp only [desk, Pairing.desk, pairing, hqueue, filterMap_cons, Internal.result, map_cons,
    ← Multiset.cons_coe, Multiset.add_cons]
  exact Multiset.mem_cons_self _ _

/-- One joiner guesses wrong, another is right and is paired. -/
def guessLabels : List Label :=
  [.posts .pairStart, .handles, .accepts ⟨20, 2⟩ .pair, .handles, .attempt 0 (.compares false),
    .attempt 0 .reports, .handles, .accepts ⟨21, 3⟩ .pair, .handles, .attempt 0 (.compares true),
    .attempt 0 (.introduced "c"), .attempt 0 .reports]

theorem guess_budget_two : ∃ s, (machine 1 60000 []).run guessLabels = some s ∧
      times 1 60000 [] (guessesWrong 1) guessLabels ≤ 3 ∧ s.adding 1 .handles = some 3 ∧
      0 < times 1 60000 [] (verifies 1 3) guessLabels := by
  have hany : (((machine 1 60000 []).run guessLabels).any
      fun s => decide (s.adding 1 .handles = some 3)) = true := by decide +kernel
  obtain ⟨s, hrun, hs⟩ := (any_eq_true _ _).mp hany
  have hmeets : (machine 1 60000 []).Meets (fun s l => s.overbooks l = false) guessLabels :=
    Lib.Machine.meets_of_checks (f := fun s l => !s.overbooks l)
      (fun _ _ _ _ h => by simpa using h) (by decide +kernel)
  obtain ⟨hbudget, -, hproven, -⟩ := guess_budget 1 60000 [] 1 guessLabels s hrun
  exact ⟨s, hrun, hbudget hmeets, of_decide_eq_true hs, hproven .handles 3 (of_decide_eq_true hs)⟩

/-- Four connections are taken on before the first confirm is compared. -/
def overbookedLabels : List Label :=
  [.posts .pairStart, .handles,
    .accepts ⟨20, 2⟩ .pair, .handles, .accepts ⟨21, 3⟩ .pair, .handles,
    .accepts ⟨22, 4⟩ .pair, .handles, .accepts ⟨23, 5⟩ .pair, .handles,
    .attempt 0 (.compares false), .attempt 1 (.compares false), .attempt 2 (.compares false),
    .attempt 3 (.compares false)]

/-- **Over the budget.** Four wrong confirms are compared for one window while it is open. -/
theorem guesses_over_budget : ((machine 1 60000 []).run overbookedLabels).isSome = true ∧
      times 1 60000 [] (guessesWrong 1) overbookedLabels = 4 := by
  decide +kernel

end Service

end OneBrain.Mesh
