import OneBrain.Engine.Effects
import OneBrain.Engine.Mirror

/-!
# One terminal event

A job that is over has exactly one terminal event, the last on its channel or parked
for it, and a job that is not over has none. This is proved along the steps of the
job, and then for runs.

Three things end a job without its event: its client goes away, its client is reaped,
and the event is lost. The last happens in two steps of the system, which
`losesTerminal` decides: a phase that ends drops the parked events, and a job ended
while it is being prepared is sent its event without a second try, so that a channel without
room loses it. Parked events are delivered when the loop comes around and the client has room.
A client is reaped by the time since its first failed send, whatever room it has made since.
-/

namespace OneBrain.Engine

open List OneBrain.Lib

variable {env : Env} {cfg : Cfg} {drafting : Bool} {j : JobId} {allow : Allow}

/-! ### One job -/

/-- One terminal event, sent last or parked. -/
def OneTerminal (chan parked : List TokenEvent) : Prop :=
  ∃ tokens ev, (∀ e ∈ tokens, e.isTerminal = false) ∧ ev.isTerminal = true ∧
    (chan = tokens ++ [ev] ∧ parked = [] ∨ chan = tokens ∧ parked = [ev])

/-- No terminal event, sent or parked. -/
def NoTerminal (chan parked : List TokenEvent) : Prop :=
  (∀ e ∈ chan, e.isTerminal = false) ∧ parked = []

/-- A job that is over has its terminal event, unless it was reaped; any other has none. -/
structure JobEnd (v : JobView) : Prop where
  running : v.place ≠ .ended → NoTerminal v.chan v.parked
  isOver : v.place = .ended → v.reaped ∨ OneTerminal v.chan v.parked

variable {p : Place} {ev : TokenEvent} {chan parked : List TokenEvent} {s : Sys}
  {labels : List Label}

theorem EndsWith.isTerminal (hev : EndsWith env p ev) : ev.isTerminal = true := by
  cases hev <;> rfl

theorem EndsWith.place_ne (hev : EndsWith env p ev) : p ≠ .ended := by
  cases hev <;> simp

theorem EndsWith.ending (hev : EndsWith env p ev) : ∃ e, p.ending = some e := by
  cases hev <;> exact ⟨_, rfl⟩

theorem GenEnd.isTerminal {f : Focus} (hev : GenEnd env cfg f ev) : ev.isTerminal = true := by
  cases hev <;> rfl

variable (h : NoTerminal chan parked)
include h

theorem NoTerminal.sent (hev : ev.isTerminal = true) : OneTerminal (chan ++ [ev]) parked :=
  ⟨chan, ev, h.1, hev, .inl ⟨rfl, h.2⟩⟩

theorem NoTerminal.parks (hev : ev.isTerminal = true) : OneTerminal chan (parked ++ [ev]) :=
  ⟨chan, ev, h.1, hev, .inr ⟨rfl, by rw [h.2]; rfl⟩⟩

theorem NoTerminal.token (piece : Text) :
    NoTerminal (chan ++ [.token piece]) parked := by
  refine ⟨fun e he => ?_, h.2⟩
  rcases mem_append.mp he with he | he
  · exact h.1 e he
  · rw [mem_singleton.mp he]
    rfl

omit h

/-- A step gives no terminal event to a job, or ends it: with one, or reaped. -/
theorem GenStep.terminal {f f' : Focus} (hs : GenStep env cfg drafting f f') (hid : f.g.job.id = j)
    (hlive : f.g.done = false) (hv : NoTerminal (f.h.view j p).chan (f.h.view j p).parked) :
    (NoTerminal (f'.h.view j (f'.place cfg)).chan (f'.h.view j (f'.place cfg)).parked ∧
      (f'.place cfg = .ended → env.closed j f.h.clock = true)) ∨
    (f'.place cfg = .ended ∧ ((f'.h.view j (f'.place cfg)).reaped ∨
      OneTerminal (f'.h.view j (f'.place cfg)).chan (f'.h.view j (f'.place cfg)).parked)) := by
  have hgo : f'.g.done = true → f'.place cfg = .ended := fun hdone => by simp [Focus.place, hdone]
  have hstay : f'.g.done = false → f'.place cfg ≠ .ended := fun hdone => by simp [Focus.place, hdone]
  cases hs.effect hid hlive with
  | quiet hdone _ _ hview | held _ hdone _ _ hview =>
    rw [hview]
    exact .inl ⟨hv, fun h => absurd h (hstay hdone)⟩
  | gone hclosed hview =>
    rw [hview]
    exact .inl ⟨hv, fun _ => hclosed⟩
  | sent piece hdone _ _ hview =>
    rw [hview]
    exact .inl ⟨hv.token piece, fun h => absurd h (hstay hdone)⟩
  | endSent ev hev hdone _ hview =>
    rw [hview]
    exact .inr ⟨hgo hdone, .inr (hv.sent hev.isTerminal)⟩
  | endParked ev hev hdone _ _ hview =>
    rw [hview]
    exact .inr ⟨hgo hdone, .inr (hv.parks hev.isTerminal)⟩
  | reaped hdone _ hview =>
    rw [hview]
    exact .inr ⟨hgo hdone, .inl trivial⟩

theorem JobStep.noTerminal {v v' : JobView} (hs : JobStep env j allow v v')
    (hv : v.place ≠ .ended → NoTerminal v.chan v.parked) : v'.place ≠ .ended → NoTerminal v'.chan v'.parked := by
  intro hplace'
  cases hs with
  | endSent | endParked | endLost | gone => exact absurd rfl hplace'
  | wait => exact hv hplace'
  | prepared _ _ _ _ hplace | admitted _ _ _ _ _ _ hplace | decoded _ _ _ _ hplace | interrupted _ _ _ _ hplace
    | reissued _ _ hplace =>
    exact hv (by simp [hplace])
  | gen cfg drafting f f' hid hlive hok hstep =>
    exact ((hstep.terminal hid hlive (hv (by simp [Host.view]))).resolve_right fun h => hplace' h.1).1
  | retrySent _ pre post ev hparked | retryGone _ pre post ev hparked =>
    simp [(hv hplace').2] at hparked
  | dropped => exact ⟨(hv hplace').1, rfl⟩

namespace JobEnd

variable {v v' : JobView}

theorem step (hopen : env.closed j v.clock = false) (hloss : ¬ allow.loss) (hv : JobEnd v)
    (hs : JobStep env j allow v v') : JobEnd v' := by
  refine ⟨hs.noTerminal hv.running, fun hplace' => ?_⟩
  cases hs with
  | wait => exact hv.isOver hplace'
  | prepared | admitted | decoded | interrupted | reissued => cases hplace'
  | endSent _ ev hev => exact .inr ((hv.running hev.place_ne).sent hev.isTerminal)
  | endParked _ p ev hplace hev => exact .inr ((hv.running hev.place_ne).parks hev.isTerminal)
  | endLost _ sup ev hplace hev hfull hl => exact absurd hl hloss
  | gone _ hclosed | retryGone _ _ _ _ _ hclosed =>
    rw [hopen] at hclosed
    cases hclosed
  | gen cfg drafting f f' hid hlive hok hstep =>
    rcases hstep.terminal hid hlive (hv.running (by simp [Host.view])) with ⟨-, hgone⟩ | ⟨-, hend⟩
    · exact absurd (hgone hplace') (Bool.eq_false_iff.mp hopen)
    · exact hend
  | retrySent _ pre post ev hparked =>
    rcases hv.isOver hplace' with hreaped | ⟨tokens, last, htok, hlast, ⟨-, hnil⟩ | ⟨hchan, hone⟩⟩
    · exact .inl hreaped
    · simp [hnil] at hparked
    · -- the one parked event is the terminal event
      rw [hone, singleton_eq_append_iff] at hparked
      rcases hparked with ⟨rfl, htail⟩ | ⟨-, htail⟩
      · obtain ⟨rfl, rfl⟩ := List.cons.inj htail
        exact .inr ⟨tokens, ev, htok, hlast, .inl ⟨by rw [hchan], rfl⟩⟩
      · cases htail
  | dropped _ hl =>
    have hnil : v.parked = [] := by
      by_contra hne
      exact hloss (hl hne)
    have hover := hv.isOver hplace'
    rwa [hnil] at hover

theorem fresh (r : Request) : JobEnd (freshJob j r) :=
  ⟨fun _ => ⟨by simp [freshJob], rfl⟩, fun h => by cases h⟩

end JobEnd

/-! ### Runs -/

/-- The step loses the terminal event of a job: the phase ends while it is parked, or the
job is ended while it is prepared and its channel has no room. -/
def losesTerminal (env : Env) (j : JobId) (s : Sys) : Label → Bool
  | .tick =>
    (match s.taken with
      | some (cfg, sup) => decide (sup.job.id = j) && endsUnheard env cfg s.loop.host sup
      | none => false) ||
    match s.phase with
    | .serving cfg .settle =>
      let s' := settleBlock env cfg s.loop
      s'.ctrl.isSome && s'.active.isEmpty && s'.queue.isEmpty && !(parkedOf j s'.host.outbox).isEmpty
    | _ => false
  | _ => false

/-- Every terminal event but this job's may be lost. -/
def sparing (j : JobId) : JobId → Allow := fun k => ⟨k ≠ j, fun _ => True, fun _ => True⟩

theorem allowed_sparing {l : Label} (hl : losesTerminal env j s l = false) :
    Allowed env (sparing j) s l := by
  refine ⟨fun _ _ _ _ => trivial, ?_, ?_, fun _ _ _ _ _ => trivial⟩
  · rintro rfl cfg sup htaken hend rfl
    simp [losesTerminal, htaken, hend] at hl
  · rintro rfl k ⟨cfg, hphase, hctrl, hactive, hqueue, hparked⟩ rfl
    simp [losesTerminal, hphase, hctrl, hactive, hqueue, hparked] at hl

theorem runAllowed_sparing (hkeep : avoids env (losesTerminal env j) Sys.init labels = true) :
    RunAllowed env (sparing j) labels :=
  fun _ _ _ heq => allowed_sparing (avoids_split hkeep heq)

theorem JobsHeld.jobEnd (hheld : JobsHeld env (sparing j) labels cfg s)
    (hopen : env.closed j s.loop.host.clock = false) (hp : (j, p) ∈ s.places cfg) : JobEnd (s.view j p) := by
  obtain ⟨r, -, hsteps⟩ := hheld.chain j p hp
  exact hsteps.induct_open (P := JobEnd) (fun _ _ hopen hv hs => hv.step hopen (by simp [sparing]) hs) hopen (.fresh r)

/-! ### A job that is over stays over -/

theorem JobSteps.stays_ended {v v' : JobView} (hs : JobSteps env j allow v v') (hv : v.place = .ended) :
    v'.place = .ended := by
  refine JobSteps.induct (P := fun v => v.place = .ended) (fun v v' hv hstep => ?_) hs hv
  cases hstep with
  | endSent | endParked | endLost | gone => rfl
  | wait | retrySent | retryGone | dropped => exact hv
  | prepared _ _ _ _ hplace | admitted _ _ _ _ _ _ hplace | decoded _ _ _ _ hplace | interrupted _ _ _ _ hplace
    | reissued _ _ hplace =>
    rw [hplace] at hv
    cases hv
  | gen => cases hv

theorem Sim.finished {as : JobId → Allow} {st st' : Station} (hs : Sim env cfg as st st') (hnodup : st.ids.Nodup)
    (hj : j ∈ st.h.finished) : j ∈ st'.h.finished := by
  have hended : (j, .ended) ∈ st.places cfg := Station.ended_mem_places.mpr hj
  have hid := Multiset.mem_map_of_mem Prod.fst hended
  rw [← Goes.ids hs] at hid
  obtain ⟨⟨_, p'⟩, hp', rfl⟩ := Multiset.mem_map.mp hid
  obtain ⟨p, hp, hsteps⟩ := Goes.place hs _ p' hp'
  rw [← st.map_fst_places cfg] at hnodup
  obtain ⟨-, rfl⟩ := Prod.mk.inj (Multiset.inj_on_of_nodup_map hnodup _ hp _ hended rfl)
  obtain rfl : p' = .ended := hsteps.stays_ended rfl
  exact Station.ended_mem_places.mp hp'

theorem endBlocking_finished (h : Host) (e : JobRecord) (message : String) (hj : j ∈ h.finished) :
    j ∈ (endBlocking env h e message).1.finished := by
  rcases JobsHeld.endBlocking_cases env h e message with ⟨-, he⟩ | he | he <;> rw [he]
  · exact mem_append_left _ hj
  · exact hj
  · exact mem_append_left _ hj

theorem applyCtrl_finished (s : Sys) (c : Ctrl) : (applyCtrl s c).loop.host.finished = s.loop.host.finished := by
  rcases c with (_ | cfg) | _ | _ <;> rfl

theorem receive_finished (pc : Pc) (hj : j ∈ s.loop.host.finished) :
    j ∈ (receive env cfg s pc).loop.host.finished := by
  unfold receive
  split
  · exact hj
  · exact hj
  · rename_i msg rest _ _
    cases msg with
    | generate sup =>
      simp only [pumpMsg]
      rcases prepareGeneration_cases env cfg s.loop.host sup with
        ⟨ev, -, he⟩ | ⟨-, he⟩ | ⟨p, -, -, he⟩ <;> rw [he]
      · obtain ⟨_, _, _, hsends⟩ := @trySend_sends env (endsAt cfg s.loop.host) sup.job.id ev
        refine mem_append_left _ ?_
        rw [hsends]
        unfold endsAt
        split <;> exact hj
      · exact mem_append_left _ hj
      · exact hj
    | models | embed | shutdown | ctrl => exact hj

theorem idleStep_finished (hj : j ∈ s.loop.host.finished) : j ∈ (idleStep env s).loop.host.finished := by
  unfold idleStep
  split
  · exact hj
  · rename_i msg rest _
    cases msg with
    | generate sup =>
      have hend := @endBlocking_finished env j s.loop.host sup.ending (idleError s.shard) hj
      simp only
      split <;> exact hend
    | ctrl c => exact (applyCtrl_finished _ c).symm ▸ hj
    | models | embed | shutdown => exact hj

theorem barrier_finished (s : Sys) (cfg : Cfg) : (barrier s cfg).loop.host.finished = s.loop.host.finished := by
  unfold barrier
  split
  · split
    · exact applyCtrl_finished _ _
    · rfl
  · rfl

theorem tick_finished (hs : s = run env Sys.init labels)
    (hj : j ∈ s.loop.host.finished) : j ∈ (tickStep env s).loop.host.finished := by
  obtain ⟨c, hheld⟩ : ∃ c, JobsHeld env allowAll labels c s := hs ▸ run_jobsHeld labels (runAllowed_all labels)
  have hok : SysOk s := Reachable.sysOk ⟨labels, hs⟩
  have hjobs := hheld.jobsOk
  unfold tickStep
  split
  · exact idleStep_finished hj
  · exact hj
  · rename_i cfg hphase
    exact (@deliverBlock_sim env cfg allowAll s.loop (hok.loop cfg _ hphase) hjobs).1.finished hjobs.nodup hj
  · unfold pumpStep
    split
    · exact hj
    · split
      · split <;> exact hj
      · exact receive_finished .pump hj
  · rename_i cfg hphase
    rw [barrier_finished]
    exact (@settleBlock_sim env cfg allowAll s.loop (hok.loop cfg _ hphase) hjobs fun _ => trivial).1.finished hjobs.nodup hj
  · rename_i cfg hphase
    exact (@stepBlock_sim env cfg allowAll s.loop (hok.loop cfg _ hphase) hjobs
      fun _ _ _ => trivial).1.finished hjobs.nodup hj
  · split
    · exact hj
    · exact receive_finished .deliver hj

/-! ### Parked events are delivered -/

/-- A client with room is sent everything parked for it. -/
theorem retryOutbox_room (l : List PendingTerminal) (h : Host)
    (hroom : ∀ n t, h.clock ≤ t → env.room j n t = true) : parkedOf j (retryOutbox env h l).2 = [] := by
  induction l generalizing h with
  | nil => rfl
  | cons p rest ih =>
    have htick : ∀ n t, h.tick.clock ≤ t → env.room j n t = true := fun n t ht => hroom n t (Nat.le_of_succ_le ht)
    rcases trySend_cases env h p.tx p.event with ⟨hc, hs⟩ | ⟨-, hfull, hs⟩ | ⟨-, -, hs⟩ <;>
      simp only [retryOutbox, hs]
    · exact ih h.tick htick
    · by_cases htx : p.tx = j
      · rw [htx, hroom _ _ le_rfl] at hfull
        cases hfull
      · have := ih h.tick htick
        simpa [parkedOf, htx] using this
    · exact ih (h.accept p.tx p.event) htick

theorem turns_parked {m m' : Mid} (ht : Turns env cfg drafting m m')
    (hm : (∀ g ∈ m.active, g.job.id ≠ j) ∧ parkedOf j m.h.outbox = []) :
    (∀ g ∈ m'.active, g.job.id ≠ j) ∧ parkedOf j m'.h.outbox = [] := by
  refine @Turns.induct env cfg drafting (fun m => (∀ g ∈ m.active, g.job.id ≠ j) ∧ parkedOf j m.h.outbox = [])
    (fun pre post _ f => (∀ g ∈ pre ++ f.g :: post, g.job.id ≠ j) ∧ parkedOf j f.h.outbox = [])
    (fun pre g post h ahead _ hI => hI) ?_ (fun pre post ahead f hJ _ => hJ) m m' ht hm
  rintro pre post ahead f f' ⟨hids, hparked⟩ hstep
  have hframe := hstep.frame
  have hne : f.g.job.id ≠ j := hids f.g (by simp)
  refine ⟨fun g hg => ?_, ?_⟩
  · simp only [mem_append, mem_cons] at hg hids
    rcases hg with hg | rfl | hg
    · exact hids g (.inl hg)
    · rwa [hframe.job]
    · exact hids g (.inr (.inr hg))
  · rw [parkedOf, hframe.host.outbox j (Ne.symm hne)]
    exact hparked

theorem deliverBlock_room {s : Loop} (hlive : ∀ g ∈ s.active, g.done = false)
    (hother : ∀ g ∈ s.active, g.job.id ≠ j) (hroom : ∀ n t, s.host.clock ≤ t → env.room j n t = true) :
    parkedOf j (deliverBlock env cfg s).host.outbox = [] := by
  unfold deliverBlock
  have ho := retryOutbox_room s.host.outbox s.host hroom
  generalize retryOutbox env s.host s.host.outbox = o at ho
  have hturns := sweepActive_turns (@retryHeld_steps env cfg false) s.active [] { o.1 with outbox := o.2 } hlive
  exact (turns_parked hturns ⟨hother, ho⟩).2

theorem barrier_cases (s : Sys) (cfg : Cfg) : (barrier s cfg).loop.host.outbox = [] ∨
      (barrier s cfg).phase = .serving cfg .step ∧ (barrier s cfg).rx = s.rx := by
  unfold barrier
  split
  · rename_i c hc
    split
    · refine .inl ?_
      rcases c with (_ | cfg') | _ | _ <;> rfl
    · exact .inr ⟨rfl, rfl⟩
  · exact .inr ⟨rfl, rfl⟩

/-- The engine thread runs on its own for `n` blocks. -/
def ticks (n : ℕ) : List Label := List.replicate n .tick

theorem run_append (s : Sys) (ls ms : List Label) : run env s (ls ++ ms) = run env (run env s ls) ms :=
  foldl_append ..

theorem ticks_finished (hj : j ∈ (run env Sys.init labels).loop.host.finished) (n : ℕ) :
    j ∈ (run env Sys.init (labels ++ ticks n)).loop.host.finished := by
  induction n generalizing labels with
  | zero => simpa [ticks] using hj
  | succ n ih =>
    have hsplit : labels ++ ticks (n + 1) = (labels ++ [.tick]) ++ ticks n := by simp [ticks, replicate_succ]
    rw [hsplit]
    refine ih ?_
    rw [run_snoc]
    exact tick_finished rfl hj

/-- The thread reaches the deliver block of its phase, or nothing is parked for the job. -/
def Returns (env : Env) (cfg : Cfg) (j : JobId) (s : Sys) : Prop :=
  ∃ n, (run env s (ticks n)).phase = .serving cfg .deliver ∨
    parkedOf j (run env s (ticks n)).loop.host.outbox = []

theorem Returns.of_tick (h : Returns env cfg j (tickStep env s)) : Returns env cfg j s := by
  obtain ⟨n, hn⟩ := h
  exact ⟨n + 1, hn⟩

theorem Returns.here (h : s.phase = .serving cfg .deliver) : Returns env cfg j s := ⟨0, .inl h⟩

/-- Receiving a message other than the shutdown keeps the thread in its phase. -/
theorem receive_serving {s : Sys} (pc : Pc) (hshut : ∀ m ∈ s.rx, m ≠ .shutdown) :
    (receive env cfg s pc).phase = .serving cfg pc ∧ (receive env cfg s pc).rx = s.rx.tail := by
  unfold receive
  split
  · rename_i hrx
    exact ⟨rfl, by simp [hrx]⟩
  · rename_i rest hrx
    exact absurd rfl (hshut .shutdown (by simp [hrx]))
  · rename_i hrx
    exact ⟨rfl, by simp [hrx]⟩

theorem returns_blocked (hphase : s.phase = .serving cfg .blocked)
    (hshut : ∀ m ∈ s.rx, m ≠ .shutdown) : Returns env cfg j s := by
  refine .of_tick (.here ?_)
  simp only [tickStep, hphase]
  split
  · rfl
  · exact (receive_serving .deliver hshut).1

theorem returns_step (hphase : s.phase = .serving cfg .step) (hshut : ∀ m ∈ s.rx, m ≠ .shutdown) :
    Returns env cfg j s := by
  refine .of_tick ?_
  cases hr : (stepBlock env cfg s.loop).2 with
  | false => exact .here (by simp [tickStep, hphase, hr])
  | true => exact returns_blocked (by simp [tickStep, hphase, hr]) (by simpa [tickStep, hphase] using hshut)

theorem returns_settle (hphase : s.phase = .serving cfg .settle)
    (hshut : ∀ m ∈ s.rx, m ≠ .shutdown) : Returns env cfg j s := by
  have htick : tickStep env s = barrier { s with loop := settleBlock env cfg s.loop } cfg := by
    unfold tickStep
    rw [hphase]
  refine .of_tick ?_
  rw [htick]
  rcases barrier_cases { s with loop := settleBlock env cfg s.loop } cfg with hout | ⟨hp, hrx⟩
  · refine ⟨0, .inr ?_⟩
    simp only [run, ticks, replicate_zero, foldl_nil, hout]
    rfl
  · refine returns_step hp ?_
    rw [hrx]
    exact hshut

theorem returns_pump (msgs : List HostMsg) (hrx : s.rx = msgs) (hphase : s.phase = .serving cfg .pump)
    (hshut : ∀ m ∈ s.rx, m ≠ .shutdown) : Returns env cfg j s := by
  induction msgs generalizing s with
  | nil =>
    cases hquiet : s.loop.quiet with
    | true =>
      refine ⟨0, .inr ?_⟩
      simp only [Loop.quiet, Bool.and_eq_true, List.isEmpty_iff] at hquiet
      simp [run, ticks, hquiet.2, parkedOf]
    | false =>
      refine .of_tick (returns_settle ?_ ?_)
      · simp [tickStep, hphase, pumpStep, hrx, hquiet]
      · simp only [tickStep, hphase, pumpStep, hrx, hquiet]
        split <;> simp
  | cons m rest ih =>
    refine .of_tick ?_
    simp only [tickStep, hphase, pumpStep]
    split
    · exact returns_settle rfl hshut
    · rw [if_neg (by simp [hrx])]
      obtain ⟨hp, hrx'⟩ := @receive_serving env cfg s .pump hshut
      refine ih (by rw [hrx', hrx]; rfl) hp fun m hm => hshut m ?_
      rw [hrx'] at hm
      exact mem_of_mem_tail hm

/-- **The serve loop comes back to its deliver block.** -/
theorem returns_to_deliver {s : Sys} {pc : Pc} (hphase : s.phase = .serving cfg pc)
    (hshut : ∀ m ∈ s.rx, m ≠ .shutdown) : Returns env cfg j s := by
  cases pc with
  | deliver => exact .here hphase
  | pump => exact returns_pump s.rx rfl hphase hshut
  | settle => exact returns_settle hphase hshut
  | step => exact returns_step hphase hshut
  | blocked => exact returns_blocked hphase hshut

/-! ### The theorem -/

/-- The client has kept its channel open and was not reaped, and no step lost its terminal event. -/
structure Attentive (env : Env) (j : JobId) (labels : List Label) : Prop where
  opened : env.closed j (run env Sys.init labels).loop.host.clock = false
  unreaped : j ∉ (run env Sys.init labels).loop.host.reaped
  kept : avoids env (losesTerminal env j) Sys.init labels = true

/-- The terminal event is the last one on the channel. -/
def Delivered (s : Sys) (j : JobId) : Prop :=
  ∃ tokens ev, (∀ e ∈ tokens, e.isTerminal = false) ∧ ev.isTerminal = true ∧
    s.loop.host.chans j = tokens ++ [ev]

namespace Attentive

variable {labels : List Label}

variable (hc : Attentive env j labels)
include hc

theorem isOver (hfin : j ∈ (run env Sys.init labels).loop.host.finished) :
    OneTerminal ((run env Sys.init labels).loop.host.chans j)
      (parkedOf j (run env Sys.init labels).loop.host.outbox) := by
  obtain ⟨cfg, hheld⟩ := run_jobsHeld labels (runAllowed_sparing hc.kept)
  rcases (hheld.jobEnd hc.opened (ended_mem_held.mpr hfin)).isOver rfl with hreaped | hone
  · exact absurd hreaped hc.unreaped
  · exact hone

theorem delivered (hfin : j ∈ (run env Sys.init labels).loop.host.finished)
    (hparked : parkedOf j (run env Sys.init labels).loop.host.outbox = []) :
    Delivered (run env Sys.init labels) j := by
  obtain ⟨tokens, ev, htok, hev, ⟨hchan, -⟩ | ⟨-, hone⟩⟩ := hc.isOver hfin
  · exact ⟨tokens, ev, htok, hev, hchan⟩
  · rw [hparked] at hone
    cases hone

/-- A job that is not over has no terminal event. -/
theorem running (hj : j < (run env Sys.init labels).nextJob) (hfin : j ∉ (run env Sys.init labels).loop.host.finished) :
    NoTerminal ((run env Sys.init labels).loop.host.chans j)
      (parkedOf j (run env Sys.init labels).loop.host.outbox) := by
  obtain ⟨cfg, hheld⟩ := run_jobsHeld labels (runAllowed_sparing hc.kept)
  obtain ⟨p, hp⟩ := hheld.mem_places hj
  refine (hheld.jobEnd hc.opened hp).running ?_
  rintro (rfl : p = .ended)
  exact hfin (ended_mem_held.mp hp)

theorem not_active (hfin : j ∈ (run env Sys.init labels).loop.host.finished)
    {pc : Pc} (hphase : (run env Sys.init labels).phase = .serving cfg pc) :
    ∀ g ∈ (run env Sys.init labels).loop.active, g.job.id ≠ j := by
  intro g hg hid
  subst hid
  obtain ⟨c, hheld⟩ := run_jobsHeld labels (runAllowed_sparing hc.kept)
  have hlive := ((Reachable.sysOk ⟨labels, rfl⟩).loop cfg pc hphase).live g hg
  cases Multiset.inj_on_of_nodup_map hheld.nodup _ (mem_held_active hg hlive) _ (ended_mem_held.mpr hfin) rfl

omit hc

theorem eventually (hc : ∀ n, Attentive env j (labels ++ ticks n))
    (hfin : j ∈ (run env Sys.init labels).loop.host.finished) {pc : Pc}
    (hphase : (run env Sys.init labels).phase = .serving cfg pc)
    (hshut : ∀ m ∈ (run env Sys.init labels).rx, m ≠ .shutdown)
    (hroom : ∀ n k t, (run env Sys.init (labels ++ ticks n)).loop.host.clock ≤ t → env.room j k t = true) :
    ∃ n, Delivered (run env Sys.init (labels ++ ticks n)) j := by
  obtain ⟨n, hdeliver | hparked⟩ := @returns_to_deliver env cfg j _ _ hphase hshut
  · rw [← run_append] at hdeliver
    refine ⟨n + 1, (hc (n + 1)).delivered (ticks_finished hfin _) ?_⟩
    have hsplit : labels ++ ticks (n + 1) = (labels ++ ticks n) ++ [.tick] := by
      simp [ticks, replicate_succ']
    have hlive := ((Reachable.sysOk ⟨labels ++ ticks n, rfl⟩).loop cfg _ hdeliver).live
    rw [hsplit, run_snoc]
    simp only [sysStep, tickStep, hdeliver]
    exact deliverBlock_room hlive ((hc n).not_active (ticks_finished hfin n) hdeliver) (hroom n)
  · rw [← run_append] at hparked
    exact ⟨n, (hc n).delivered (ticks_finished hfin n) hparked⟩

end Attentive

/-- **One terminal event.** A job that is over has exactly one terminal event, delivered last
or parked for its client; a job that is not over has none; and what is parked is
delivered when the client has room. -/
theorem one_terminal_event {labels : List Label} (hc : Attentive env j labels)
    (hj : j < (run env Sys.init labels).nextJob) : (j ∈ (run env Sys.init labels).loop.host.finished →
      OneTerminal ((run env Sys.init labels).loop.host.chans j)
        (parkedOf j (run env Sys.init labels).loop.host.outbox)) ∧
    (j ∉ (run env Sys.init labels).loop.host.finished → (run env Sys.init labels).phase ≠ .stopped →
      NoTerminal ((run env Sys.init labels).loop.host.chans j)
        (parkedOf j (run env Sys.init labels).loop.host.outbox)) ∧
    (j ∈ (run env Sys.init labels).loop.host.finished → ∀ cfg pc,
      (run env Sys.init labels).phase = .serving cfg pc →
      (∀ m ∈ (run env Sys.init labels).rx, m ≠ .shutdown) → (∀ n, Attentive env j (labels ++ ticks n)) →
      (∀ n k t, (run env Sys.init (labels ++ ticks n)).loop.host.clock ≤ t → env.room j k t = true) →
      ∃ n, Delivered (run env Sys.init (labels ++ ticks n)) j) :=
  ⟨hc.isOver, fun hfin _ => hc.running hj hfin,
    fun hfin _ _ hphase hshut hc' hroom => Attentive.eventually hc' hfin hphase hshut hroom⟩

/-! ### A run that loses one -/

/-- The client is behind for a moment after its first piece. -/
def slowEnv : Env :=
  { calmEnv with
    room := fun _ n t => n == 0 || decide (100 ≤ t)
    room_fresh := fun _ _ => rfl }

/-- A local model. -/
def slowCfg : Cfg := { trimCfg with hasDraft := false }

/-- A request of one token. -/
def slowRequest : Request :=
  { model := "m", prompt := .raw ['p'], maxTokens := 1, temperature := 0, stop := [] }

/-- It is served. -/
def slowLabels : List Label :=
  .control (.load (some slowCfg)) :: .tick :: .submit slowRequest :: List.replicate 9 .tick

/-- Then unload the model. -/
def swapLabels : List Label := slowLabels ++ .control .unload :: List.replicate 4 .tick

theorem one_terminal_event_slow : OneTerminal ((run slowEnv Sys.init slowLabels).loop.host.chans 0)
      (parkedOf 0 (run slowEnv Sys.init slowLabels).loop.host.outbox) :=
  (@one_terminal_event slowEnv 0 slowLabels ⟨rfl, by decide +kernel, by decide +kernel⟩
    (by decide +kernel)).1 (by decide +kernel)

/-- The client is behind for an instant; then the loop is held up for as long as it lets a client stall. -/
def jumpEnv : Env :=
  { calmEnv with
    room := fun _ n t => n == 0 || decide (11 ≤ t)
    room_fresh := fun _ _ => rfl
    now := fun t => if t < 11 then 0 else SWAP_STALL_GRACE }

/-- An embedding holds the loop up, and the model is to be unloaded. -/
def reapLabels : List Label :=
  .control (.load (some slowCfg)) :: .tick :: .submit { slowRequest with maxTokens := 3 } ::
    List.replicate 10 .tick ++ .embed :: .control .unload :: List.replicate 4 .tick

/-- A job that is over without its terminal event, while its client stays. In the first run the client is never
reaped and is behind for less than a second, but the model is unloaded in that moment: the event was parked and is
dropped. In the second it is behind only at the instant `0`, and it is reaped before the loop looks again. -/
theorem swap_drops_terminal :
    ((∀ t, slowEnv.closed 0 t = false) ∧ (∀ n t, 100 ≤ t → slowEnv.room 0 n t = true) ∧
      0 ∈ (run slowEnv Sys.init swapLabels).loop.host.finished ∧
      0 ∉ (run slowEnv Sys.init swapLabels).loop.host.reaped ∧
      (run slowEnv Sys.init swapLabels).loop.host.chans 0 = [.token ['a']] ∧
      (run slowEnv Sys.init swapLabels).loop.host.outbox = []) ∧
    (∀ t, jumpEnv.closed 0 t = false) ∧ (∀ n t, 0 < jumpEnv.now t → jumpEnv.room 0 n t = true) ∧
      avoids jumpEnv (losesTerminal jumpEnv 0) Sys.init reapLabels = true ∧
      0 ∈ (run jumpEnv Sys.init reapLabels).loop.host.finished ∧
      (run jumpEnv Sys.init reapLabels).loop.host.chans 0 = [.token ['a']] ∧
      (run jumpEnv Sys.init reapLabels).loop.host.outbox = [] := by
  refine ⟨⟨fun _ => rfl, fun n t ht => ?_, ?_⟩, fun _ => rfl, fun n t ht => ?_, ?_⟩
  · simp [slowEnv, ht]
  · decide +kernel
  · have hlate : ¬ t < 11 := fun hlt => by simp [jumpEnv, hlt] at ht
    simp [jumpEnv, Nat.not_lt.mp hlate]
  · decide +kernel

end OneBrain.Engine
