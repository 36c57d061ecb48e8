import OneBrain.Engine.Books
import OneBrain.Lib.Runs

/-!
# One outcome for every message

The supervisor waits for the outcome of every generation it submits, so each message has to
get exactly one, whatever becomes of the job inside the loop: refused while it is prepared,
dropped from the queue, ended by its sampler, finished, failed, cancelled, reaped, or
interrupted.

`serveModel` is one call of the serve loop as a machine, fed with any stream of messages
from any state of the host. The call ends when it returns a control message, which it does
only when nothing is active or queued, or when it takes a shutdown. `outcomes_in_order` says
what holds in every state of every run: where the outcomes stand, what was taken, and in
which order jobs were admitted.
-/

namespace OneBrain.Engine

open List OneBrain.Lib

variable (env : Env) (cfg : Cfg)

/-! ### Taking a message -/

/-- The jobs of the generations among some messages. -/
def jobsOf (msgs : List HostMsg) : List GenerateJob := (msgs.filterMap HostMsg.job).map fun sup => sup.job

/-- The control message a message is. -/
def HostMsg.control : HostMsg → Option Ctrl
  | .ctrl c => some c
  | _ => none

theorem jobsOf_append (as bs : List HostMsg) : jobsOf (as ++ bs) = jobsOf as ++ jobsOf bs := by
  simp [jobsOf]

/-- A generation is prepared: it is over with its outcome, or it waits at the end of the
queue. -/
theorem prepare_books (h : Host) (sup : SupervisedGenerate) :
    (∃ h', prepareGeneration env cfg h sup = (h', none) ∧ h'.interrupted = h.interrupted ∧
      h'.finished = h.finished ++ [sup.job.id]) ∨
    ∃ h' p, prepareGeneration env cfg h sup = (h', some p) ∧ p.job = sup.job ∧ SameBooks h h' := by
  rcases prepareGeneration_cases env cfg h sup with ⟨ev, -, heq⟩ | ⟨-, heq⟩ | ⟨p, hp, -, heq⟩
  · refine .inl ⟨_, heq, ?_⟩
    have hsame : SameBooks h (endsAt cfg h) := by
      unfold endsAt
      split
      · exact .refl h
      · exact .tick h
    have hsent := hsame.trans (@trySend_sends env (endsAt cfg h) sup.job.id ev).books
    exact ⟨hsent.interrupted, congrArg (· ++ [sup.job.id]) hsent.finished⟩
  · exact .inl ⟨_, heq, rfl, rfl⟩
  · exact .inr ⟨_, p, heq, prepareState_job hp, .tick h⟩

/-- What taking a message does: its outcome is owed or reported, and its job stands behind
the others. -/
structure Pumped (s : Loop) (msg : HostMsg) (s' : Loop) : Prop where
  booked : Booked s → Booked s'
  book : s'.book.Perm ((jobsOf [msg]).map GenerateJob.id ++ s.book)
  order : List.Sublist (s'.queue.map PreparedGen.job) (s.queue.map PreparedGen.job ++ jobsOf [msg])
  ctrl : s'.ctrl = msg.control.or s.ctrl
  active : s'.active = s.active
  nextUid : s'.nextUid = s.nextUid

theorem pumpMsg_pumped (s : Loop) (msg : HostMsg) : Pumped s msg (pumpMsg env cfg s msg) := by
  cases msg with
  | generate sup =>
    have hjobs : jobsOf [.generate sup] = [sup.job] := rfl
    rcases prepare_books env cfg s.host sup with ⟨h, heq, hint, hfin⟩ | ⟨h, p, heq, hjob, hbooks⟩
    · have hloop : pumpMsg env cfg s (.generate sup) = { s with host := h } := by simp [pumpMsg, heq]
      rw [hloop]
      refine ⟨fun hs => ⟨hs.settled, hs.uids⟩, ?_, ?_, rfl, rfl, rfl⟩
      · rw [perm_iff_count]
        intro j
        simp only [Loop.book, Host.reported, hjobs, hint, hfin, map_cons, map_nil, count_append]
        omega
      · exact sublist_append_left _ _
    · have hloop : pumpMsg env cfg s (.generate sup) = { s with host := h, queue := s.queue ++ [p] } := by
        simp [pumpMsg, heq]
      rw [hloop]
      refine ⟨fun hs => ⟨hs.settled, hs.uids⟩, ?_, ?_, rfl, rfl, rfl⟩
      · rw [perm_iff_count]
        intro j
        simp only [Loop.book, Host.reported, hjobs, hjob, hbooks.interrupted, hbooks.finished, map_append,
          map_cons, map_nil, count_append]
        omega
      · simp [hjobs, hjob]
  | ctrl => exact ⟨fun hs => ⟨hs.settled, hs.uids⟩, .refl _, sublist_append_left _ _, rfl, rfl, rfl⟩
  | models | embed | shutdown => exact ⟨id, .refl _, sublist_append_left _ _, rfl, rfl, rfl⟩

/-! ### One call -/

/-- One call of `serve_model`: the system, and what the loop has done so far. -/
structure Call where
  sys : Sys
  taken : List HostMsg := []
  /-- The jobs admitted to the batch, in order. -/
  admitted : List GenerateJob := []
  /-- What the call returned: a control message, or nothing on shutdown. -/
  result : Option (Option Ctrl) := none

/-- What a call is fed: a message arrives, or the thread executes its next block. -/
inductive Feed
  | arrives (msg : HostMsg)
  | tick

/-- The control message the next block returns. -/
def returns (env : Env) (s : Sys) : Option Ctrl :=
  match s.phase with
  | .serving cfg .settle =>
    let l := settleBlock env cfg s.loop
    if l.active.isEmpty && l.queue.isEmpty then l.ctrl else none
  | _ => none

/-- The call's result after a block. -/
def resultOf (env : Env) (s t : Sys) : Option (Option Ctrl) :=
  match returns env s with
  | some c => some (some c)
  | none =>
    match t.phase with
    | .stopped => some none
    | _ => none

/-- The thread executes its next block of the call. -/
def Call.tick (env : Env) (x : Call) : Call :=
  let t := tickStep env x.sys
  { sys := t
    taken := x.taken ++ x.sys.rx.take (x.sys.rx.length - t.rx.length)
    admitted := x.admitted ++ (newcomers x.sys.loop t.loop).map ActiveGen.job
    result := resultOf env x.sys t }

/-- A call of `serve_model` for a model, from any state of the host and with any messages
already in the channel. -/
def serveModel (env : Env) (cfg : Cfg) (s : Sys) : Machine Call Feed where
  start := { sys := applyCtrl s (.load (some cfg)) }
  next x
    | .arrives msg => some { x with sys := { x.sys with rx := x.sys.rx ++ [msg] } }
    | .tick =>
      match x.result with
      | none => some (x.tick env)
      | some _ => none

/-- The messages a call was fed. -/
def arrivals (feeds : List Feed) : List HostMsg :=
  feeds.filterMap fun
    | .arrives msg => some msg
    | .tick => none

/-! ### What a block of the call does -/

/-- The blocks of a call: it works on its generations, takes a message, takes a shutdown, or
returns a control message. -/
inductive Block (env : Env) (s t : Sys) : Prop
  | works (keeps : Keeps s.loop t.loop) (rx : t.rx = s.rx) (serves : ∃ cfg pc, t.phase = .serving cfg pc)
      (result : resultOf env s t = none)
  | takes (msg : HostMsg) (free : s.loop.ctrl = none) (rx : s.rx = msg :: t.rx)
      (pumped : Pumped s.loop msg t.loop) (serves : ∃ cfg pc, t.phase = .serving cfg pc)
      (result : resultOf env s t = none)
  | stops (free : s.loop.ctrl = none) (rx : s.rx = .shutdown :: t.rx) (loop : t.loop = s.loop)
      (result : resultOf env s t = some none)
  | returns (c : Ctrl) (l : Loop) (keeps : Keeps s.loop l) (ctrl : l.ctrl = some c) (rx : t.rx = s.rx)
      (books : SameBooks l.host t.loop.host) (active : l.active = []) (queue : l.queue = [])
      (active' : t.loop.active = []) (queue' : t.loop.queue = []) (result : resultOf env s t = some (some c))

variable {s : Sys} {pc : Pc} {feeds : List Feed} {x : Call}

theorem returns_of_ne (hphase : s.phase = .serving cfg pc) (hpc : pc ≠ .settle) : returns env s = none := by
  unfold returns
  rw [hphase]
  cases pc <;> first | rfl | exact absurd rfl hpc

/-- The result of a block that leaves the phase where it is. -/
theorem resultOf_serving {t : Sys} {pc' : Pc} (hphase : s.phase = .serving cfg pc) (hpc : pc ≠ .settle)
    (ht : t.phase = .serving cfg pc') : resultOf env s t = none := by
  unfold resultOf
  rw [returns_of_ne env cfg hphase hpc, ht]

theorem receive_block (hs : Booked s.loop) {pc' : Pc} (hphase : s.phase = .serving cfg pc)
    (hpc : pc ≠ .settle) (hfree : s.loop.ctrl = none) : Block env s (receive env cfg s pc') := by
  unfold receive
  split
  · exact .works (.refl hs) rfl ⟨cfg, _, rfl⟩ (resultOf_serving env cfg hphase hpc rfl)
  · rename_i rest hrx
    refine .stops hfree hrx rfl ?_
    unfold resultOf
    rw [returns_of_ne env cfg hphase hpc]
  · rename_i msg rest _ hrx
    exact .takes msg hfree hrx (pumpMsg_pumped env cfg s.loop msg) ⟨cfg, _, rfl⟩
      (resultOf_serving env cfg hphase hpc rfl)

theorem applyCtrl_books (s : Sys) (c : Ctrl) : SameBooks s.loop.host (applyCtrl s c).loop.host ∧
    (applyCtrl s c).rx = s.rx ∧ (s.loop.active = [] → (applyCtrl s c).loop.active = []) ∧
    (s.loop.queue = [] → (applyCtrl s c).loop.queue = []) := by
  cases c with
  | load next => cases next <;> exact ⟨⟨rfl, rfl⟩, rfl, fun h => by first | exact h | rfl, fun h => by first | exact h | rfl⟩
  | unload | serveShard => exact ⟨⟨rfl, rfl⟩, rfl, id, id⟩

theorem settle_block (hs : Booked s.loop) (hphase : s.phase = .serving cfg .settle) :
    Block env s (barrier { s with loop := settleBlock env cfg s.loop } cfg) := by
  have hkeeps := settleBlock_keeps env cfg hs
  have hreturns : returns env s = if (settleBlock env cfg s.loop).active.isEmpty &&
      (settleBlock env cfg s.loop).queue.isEmpty then (settleBlock env cfg s.loop).ctrl else none := by
    unfold returns
    rw [hphase]
  generalize settleBlock env cfg s.loop = l at hkeeps hreturns ⊢
  unfold barrier
  dsimp only
  split
  · rename_i c hc
    split
    · rename_i hempty
      rw [if_pos hempty, hc] at hreturns
      simp only [Bool.and_eq_true, List.isEmpty_iff] at hempty
      obtain ⟨hbooks, hrx, hactive, hqueue⟩ := applyCtrl_books
        { s with loop := { l with host := { l.host with outbox := [] }, ctrl := none } } c
      refine .returns c l hkeeps hc hrx ⟨hbooks.finished, hbooks.interrupted⟩ hempty.1 hempty.2 (hactive hempty.1)
        (hqueue hempty.2) ?_
      unfold resultOf
      rw [hreturns]
    · rename_i hbusy
      rw [if_neg hbusy] at hreturns
      exact .works hkeeps rfl ⟨cfg, _, rfl⟩ (by simp [resultOf, hreturns])
  · rename_i hc
    have hnone : returns env s = none := by
      rw [hreturns, hc]
      split <;> rfl
    exact .works hkeeps rfl ⟨cfg, _, rfl⟩ (by simp [resultOf, hnone])

theorem tick_block (hs : Booked s.loop) (hphase : s.phase = .serving cfg pc) :
    Block env s (tickStep env s) := by
  unfold tickStep
  rw [hphase]
  cases pc with
  | deliver =>
    exact .works (deliverBlock_keeps env cfg hs) rfl ⟨cfg, _, rfl⟩ (resultOf_serving env cfg hphase (by simp) rfl)
  | pump =>
    dsimp only
    unfold pumpStep
    split
    · exact .works (.refl hs) rfl ⟨cfg, _, rfl⟩ (resultOf_serving env cfg hphase (by simp) rfl)
    · rename_i hfree
      have hfree : s.loop.ctrl = none := by simpa using hfree
      split
      · split
        · exact .works (.refl hs) rfl ⟨cfg, _, hphase⟩ (resultOf_serving env cfg hphase (by simp) hphase)
        · exact .works (.refl hs) rfl ⟨cfg, _, rfl⟩ (resultOf_serving env cfg hphase (by simp) rfl)
      · exact receive_block env cfg hs hphase (by simp) hfree
  | settle => exact settle_block env cfg hs hphase
  | step =>
    exact .works (stepBlock_keeps env cfg hs) rfl ⟨cfg, _, rfl⟩ (resultOf_serving env cfg hphase (by simp) rfl)
  | blocked =>
    dsimp only
    split
    · exact .works (.refl hs) rfl ⟨cfg, _, rfl⟩ (resultOf_serving env cfg hphase (by simp) rfl)
    · rename_i hfree
      exact receive_block env cfg hs hphase (by simp) (by simpa using hfree)

/-! ### Runs of a call -/

/-- The jobs of a call that are still without an outcome. -/
def Call.inFlight (x : Call) : List JobId :=
  x.sys.loop.queue.map (fun p => p.job.id) ++ owed x.sys.loop.active

/-- The control message the call has taken and not returned, or has returned. -/
def Call.barrier (x : Call) : Option Ctrl :=
  match x.result with
  | some (some c) => some c
  | _ => x.sys.loop.ctrl

/-- What was taken ends with the control message, if one was taken at all. -/
def EndsAt (taken : List HostMsg) : Option Ctrl → Prop
  | none => ∀ c, .ctrl c ∉ taken
  | some c => ∃ before, taken = before ++ [.ctrl c] ∧ ∀ c', .ctrl c' ∉ before

/-- What holds in every state of a call. -/
structure CallOk (s : Sys) (feeds : List Feed) (x : Call) : Prop where
  serves : x.result = none → ∃ cfg pc, x.sys.phase = .serving cfg pc
  booked : Booked x.sys.loop
  /-- Messages are taken in the order they arrive. -/
  mail : x.taken ++ x.sys.rx = s.rx ++ arrivals feeds
  /-- Every message taken has its outcome, or it is still owed. -/
  book : x.sys.loop.book.Perm ((jobsOf x.taken).map GenerateJob.id ++ s.loop.host.reported)
  /-- Jobs are admitted in the order of their messages. -/
  order : List.Sublist (x.admitted ++ x.sys.loop.queue.map PreparedGen.job) (jobsOf x.taken)
  /-- Nothing is taken behind a control message. -/
  ends : EndsAt x.taken x.barrier
  /-- A call that has returned has no job left. -/
  empty : (∃ c, x.result = some (some c)) → x.sys.loop.active = [] ∧ x.sys.loop.queue = []

theorem callOk_start (s : Sys) : CallOk s [] { sys := applyCtrl s (.load (some cfg)) } where
  serves _ := ⟨cfg, .deliver, rfl⟩
  booked := ⟨fun g hg => (by cases hg), fun g hg => (by cases hg)⟩
  mail := (append_nil _).symm
  book := .refl _
  order := .slnil
  ends := fun c hc => by cases hc
  empty := fun ⟨c, hc⟩ => by cases hc

theorem CallOk.arrives (hx : CallOk s feeds x) (msg : HostMsg) :
    CallOk s (feeds ++ [.arrives msg]) { x with sys := { x.sys with rx := x.sys.rx ++ [msg] } } where
  serves := hx.serves
  booked := hx.booked
  mail := by
    have harrivals : arrivals (feeds ++ [.arrives msg]) = arrivals feeds ++ [msg] := by simp [arrivals]
    rw [harrivals]
    show x.taken ++ (x.sys.rx ++ [msg]) = s.rx ++ (arrivals feeds ++ [msg])
    rw [← append_assoc, ← append_assoc, hx.mail]
  book := hx.book
  order := hx.order
  ends := hx.ends
  empty := hx.empty

/-- Without a control message pending, taking a message keeps to the rule. -/
theorem EndsAt.take {taken : List HostMsg} (h : EndsAt taken none) (msg : HostMsg) :
    EndsAt (taken ++ [msg]) msg.control := by
  cases msg with
  | ctrl => exact ⟨taken, rfl, h⟩
  | _ =>
    intro c hc
    rcases mem_append.mp hc with hc | hc
    · exact h c hc
    · cases mem_singleton.mp hc

theorem EndsAt.behind {taken before behind : List HostMsg} {b : Option Ctrl} {c : Ctrl} (h : EndsAt taken b)
    (htaken : taken = before ++ .ctrl c :: behind) : behind = [] := by
  cases b with
  | none => exact absurd (by simp [htaken]) (h c)
  | some c' =>
    obtain ⟨front, hfront, hnone⟩ := h
    rcases eq_nil_or_concat behind with rfl | ⟨rest, last, rfl⟩
    · rfl
    · have hsame : front ++ [.ctrl c'] = (before ++ .ctrl c :: rest) ++ [last] := by
        rw [← hfront, htaken]
        simp
      have hrest := (append_inj' hsame rfl).1
      exact absurd (by simp [hrest]) (hnone c)

theorem newcomers_same {s s' : Loop} (hs : Booked s) (h : s'.active = s.active) : newcomers s s' = [] :=
  newcomers_eq_nil fun g hg => hs.uids g (h ▸ hg)

theorem CallOk.tick (hx : CallOk s feeds x) (hrunning : x.result = none) :
    CallOk s (feeds ++ [.tick]) (x.tick env) := by
  have harrivals : arrivals (feeds ++ [.tick]) = arrivals feeds := by simp [arrivals]
  have hends : EndsAt x.taken x.sys.loop.ctrl := by
    have h := hx.ends
    rwa [Call.barrier, hrunning] at h
  obtain ⟨cfg, pc, hphase⟩ := hx.serves hrunning
  have hblock := tick_block env cfg hx.booked hphase
  unfold Call.tick
  dsimp only
  generalize tickStep env x.sys = t at hblock ⊢
  cases hblock with
  | works keeps rx serves result =>
    have htaken : x.taken ++ x.sys.rx.take (x.sys.rx.length - t.rx.length) = x.taken := by
      rw [rx, Nat.sub_self, take_zero, append_nil]
    rw [htaken, result]
    refine ⟨fun _ => serves, keeps.booked, ?_, keeps.book.trans hx.book, ?_, ?_, fun ⟨c, hc⟩ => by cases hc⟩
    · rw [harrivals]
      exact rx ▸ hx.mail
    · rw [append_assoc]
      exact (List.Sublist.append_left keeps.order _).trans hx.order
    · show EndsAt x.taken t.loop.ctrl
      rw [keeps.ctrl]
      exact hends
  | takes msg free rx pumped serves result =>
    have htaken : x.sys.rx.take (x.sys.rx.length - t.rx.length) = [msg] := by
      rw [rx, length_cons, Nat.add_sub_cancel_left]
      rfl
    rw [htaken, result, newcomers_same hx.booked pumped.active]
    refine ⟨fun _ => serves, pumped.booked hx.booked, ?_, ?_, ?_, ?_, fun ⟨c, hc⟩ => by cases hc⟩
    · rw [harrivals, ← hx.mail, rx]
      exact append_assoc _ _ _
    · rw [perm_iff_count]
      intro j
      have hnew := perm_iff_count.mp pumped.book j
      have hold := perm_iff_count.mp hx.book j
      simp only [jobsOf_append, map_append, count_append] at hnew hold ⊢
      omega
    · rw [map_nil, append_nil, jobsOf_append]
      refine (List.Sublist.append_left pumped.order _).trans ?_
      rw [← append_assoc]
      exact List.Sublist.append_right hx.order _
    · show EndsAt (x.taken ++ [msg]) t.loop.ctrl
      rw [free] at hends
      rw [pumped.ctrl, free, Option.or_none]
      exact hends.take msg
  | stops free rx loop result =>
    have htaken : x.sys.rx.take (x.sys.rx.length - t.rx.length) = [.shutdown] := by
      rw [rx, length_cons, Nat.add_sub_cancel_left]
      rfl
    have hnil : jobsOf [.shutdown] = [] := rfl
    rw [htaken, result, newcomers_same hx.booked (by rw [loop])]
    refine ⟨fun h => (by cases h), loop ▸ hx.booked, ?_, ?_, ?_, ?_, fun ⟨c, hc⟩ => by cases hc⟩
    · rw [harrivals, ← hx.mail, rx]
      exact append_assoc _ _ _
    · rw [loop, jobsOf_append, hnil, append_nil]
      exact hx.book
    · rw [loop, jobsOf_append, hnil, append_nil, map_nil, append_nil]
      exact hx.order
    · show EndsAt (x.taken ++ [.shutdown]) t.loop.ctrl
      rw [free] at hends
      rw [loop, free]
      exact hends.take .shutdown
  | returns c l keeps ctrl rx books active queue active' queue' result =>
    have htaken : x.taken ++ x.sys.rx.take (x.sys.rx.length - t.rx.length) = x.taken := by
      rw [rx, Nat.sub_self, take_zero, append_nil]
    have hnone : newcomers x.sys.loop t.loop = [] := by simp [newcomers, active']
    rw [htaken, result, hnone]
    refine ⟨fun h => (by cases h), ?_, ?_, ?_, ?_, ?_, fun _ => ⟨active', queue'⟩⟩
    · exact ⟨fun g hg => absurd hg (by simp [active']), fun g hg => absurd hg (by simp [active'])⟩
    · rw [harrivals]
      exact rx ▸ hx.mail
    · have hbook := keeps.book.trans hx.book
      unfold Loop.book Host.reported at hbook ⊢
      rw [active, queue] at hbook
      rw [active', queue', books.finished, books.interrupted]
      exact hbook
    · have hsub := hx.order
      rw [queue', map_nil, map_nil, append_nil, append_nil]
      exact (sublist_append_left _ _).trans hsub
    · show EndsAt x.taken (some c)
      rw [← ctrl, keeps.ctrl]
      exact hends

theorem callOk_of_run (hrun : (serveModel env cfg s).run feeds = some x) : CallOk s feeds x := by
  refine Machine.run_induct (M := serveModel env cfg s) (I := CallOk s) (callOk_start cfg s) ?_ hrun
  intro feeds x feed y _ hx hnext
  cases feed with
  | arrives msg =>
    cases hnext
    exact hx.arrives msg
  | tick =>
    simp only [serveModel] at hnext
    split at hnext
    · rename_i hrunning
      cases hnext
      exact hx.tick env hrunning
    · cases hnext

/-- **Every message has one outcome, in order.** In every state of a call of the serve loop,
from any state of the host and on any stream of messages: messages are taken in the order of
their arrival; the outcomes reported so far, with those of the jobs in flight, are one for
each generation taken and those from before the call, so no generation has more than one; once
the call returns a control message, each generation taken has its outcome; that control message
is the last message taken, and nothing was taken behind any control message; and jobs are
admitted in the order of their messages. -/
theorem outcomes_in_order {s : Sys} {feeds : List Feed} {x : Call}
    (hrun : (serveModel env cfg s).run feeds = some x) : x.taken ++ x.sys.rx = s.rx ++ arrivals feeds ∧
    (x.inFlight ++ x.sys.loop.host.reported).Perm ((jobsOf x.taken).map GenerateJob.id ++ s.loop.host.reported) ∧
    (∀ j, x.sys.loop.host.reported.count j ≤
      ((jobsOf x.taken).map GenerateJob.id).count j + s.loop.host.reported.count j) ∧
    (∀ c, x.result = some (some c) →
      x.sys.loop.host.reported.Perm ((jobsOf x.taken).map GenerateJob.id ++ s.loop.host.reported) ∧
      x.taken.getLast? = some (.ctrl c)) ∧
    (∀ before c behind, x.taken = before ++ .ctrl c :: behind → behind = []) ∧
    List.Sublist x.admitted (jobsOf x.taken) := by
  have hx := callOk_of_run env cfg hrun
  have hbook : (x.inFlight ++ x.sys.loop.host.reported).Perm
      ((jobsOf x.taken).map GenerateJob.id ++ s.loop.host.reported) := by
    have h := hx.book
    unfold Loop.book at h
    rw [← append_assoc] at h
    exact h
  refine ⟨hx.mail, hbook, ?_, ?_, ?_, ?_⟩
  · intro j
    have hj := perm_iff_count.mp hbook j
    simp only [count_append] at hj
    omega
  · intro c hc
    obtain ⟨hactive, hqueue⟩ := hx.empty ⟨c, hc⟩
    have hnone : x.inFlight = [] := by simp [Call.inFlight, hactive, hqueue, owed]
    rw [hnone] at hbook
    refine ⟨hbook, ?_⟩
    have hends := hx.ends
    rw [Call.barrier, hc] at hends
    obtain ⟨before, htaken, -⟩ := hends
    rw [htaken, List.getLast?_concat]
  · exact fun before c behind htaken => hx.ends.behind htaken
  · exact (sublist_append_left _ _).trans hx.order

/-- A solo model with one slot. -/
def soloCfg : Cfg := { (default : Cfg) with nCtx := 8 }

/-- A job of one token, and then an unload behind which another job stands. -/
def unloadBetween : List Feed :=
  [.arrives (.generate ⟨⟨0, "", .raw [], 1, 0, []⟩, none⟩), .arrives (.ctrl .unload),
    .arrives (.generate ⟨⟨1, "", .raw [], 1, 0, []⟩, none⟩)] ++ List.replicate 13 .tick

theorem outcomes_in_order_unload : ∃ x, (serveModel calmEnv soloCfg Sys.init).run unloadBetween = some x ∧
    x.result = some (some .unload) ∧ x.sys.loop.host.reported.Perm [0] ∧ x.taken.length = 2 := by
  obtain ⟨x, hrun, hresult, hjobs, htaken⟩ : ∃ x,
      (serveModel calmEnv soloCfg Sys.init).run unloadBetween = some x ∧ x.result = some (some .unload) ∧
      (jobsOf x.taken).map GenerateJob.id = [0] ∧ x.taken.length = 2 := ⟨_, rfl, rfl, rfl, rfl⟩
  have hperm := ((outcomes_in_order calmEnv soloCfg hrun).2.2.2.1 .unload hresult).1
  rw [hjobs] at hperm
  exact ⟨x, hrun, hresult, hperm, htaken⟩

end OneBrain.Engine
