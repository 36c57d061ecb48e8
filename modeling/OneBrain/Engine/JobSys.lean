import OneBrain.Engine.JobRuns

/-!
# Jobs in the whole system

The simulation of `JobRuns` is lifted from the loop to the system with its message
channel, phases and supervisor: in every reachable state each submitted job is in
exactly one place (`JobsHeld.once`), and what the system holds of it is the
end of a chain of job steps that starts at its request.
-/

namespace OneBrain.Engine

open List OneBrain.Lib

variable {env : Env} {cfg : Cfg} {allow : JobId → Allow} {h h' : Host} {st : Station} {rx rest : List HostMsg}

/-! ### Jobs of a run -/

/-- The request a step submits. -/
def Label.request : Label → Option Request
  | .submit r => some r
  | _ => none

/-- The requests of a run, in the order of their jobs' identities. -/
def requests (labels : List Label) : List Request := labels.filterMap Label.request

/-- The generation a message carries. -/
def HostMsg.job : HostMsg → Option SupervisedGenerate
  | .generate sup => some sup
  | _ => none

/-- Generations on their way to the engine thread. -/
def Sys.mail (s : Sys) : List SupervisedGenerate := s.rx.filterMap HostMsg.job

/-- The jobs among some messages, and those of a station. -/
def held (cfg : Cfg) (rx : List HostMsg) (st : Station) : Places :=
  (rx.filterMap HostMsg.job : Multiset SupervisedGenerate).map (fun sup => (sup.job.id, .mailed sup)) + st.places cfg

/-- The jobs of the system, and where they are; generations run under `cfg`. -/
abbrev Sys.places (cfg : Cfg) (s : Sys) : Places := held cfg s.rx s.loop.station

/-- What the system holds of a job in a place. -/
def Sys.view (s : Sys) (j : JobId) (p : Place) : JobView := s.loop.host.view j p

theorem held_none {m : HostMsg} (hm : m.job = none) : held cfg (m :: rest) st = held cfg rest st := by
  rw [held, held, filterMap_cons_none hm]

theorem held_append_none {m : HostMsg} (hm : m.job = none) : held cfg (rx ++ [m]) st = held cfg rx st := by
  simp only [held, filterMap_append, filterMap_cons_none hm, filterMap_nil, append_nil]

theorem held_generate (sup : SupervisedGenerate) :
    held cfg (.generate sup :: rest) st = (sup.job.id, .mailed sup) ::ₘ held cfg rest st := by
  simp only [held, filterMap_cons, HostMsg.job, ← Multiset.cons_coe, Multiset.map_cons, Multiset.cons_add]

theorem held_append_generate (sup : SupervisedGenerate) :
    held cfg (rx ++ [.generate sup]) st = (sup.job.id, .mailed sup) ::ₘ held cfg rx st := by
  simp only [held, filterMap_append, filterMap_cons, filterMap_nil, HostMsg.job, ← Multiset.coe_add,
    ← Multiset.cons_coe, Multiset.coe_nil, Multiset.map_cons, Multiset.add_cons, Multiset.cons_add, Multiset.add_zero]

variable {active : List ActiveGen} {ahead : SeqId → List Token} {queue : List PreparedGen}
  {j : JobId} {labels : List Label}

theorem held_finished {k : JobId} (hint : h'.interrupted = h.interrupted) (hfin : h'.finished = h.finished ++ [k]) :
    held cfg rx ⟨h', active, ahead, queue⟩ = (k, .ended) ::ₘ held cfg rx ⟨h, active, ahead, queue⟩ := by
  simp only [held, Station.places, inactive_finished hint hfin, Multiset.add_cons]

theorem held_queue {p : PreparedGen} :
    held cfg rx ⟨h, active, ahead, queue ++ [p]⟩ = (p.job.id, .queued p) ::ₘ held cfg rx ⟨h, active, ahead, queue⟩ := by
  simp only [held, places_queue, append_nil, Multiset.add_cons]

theorem held_interrupted {gen : InterruptedGen} {i : ℕ} (hgen : h.interrupted[i]? = some gen) :
    held cfg rx ⟨h, active, ahead, queue⟩ = (gen.job.id, .interrupted gen) ::ₘ
      held cfg rx ⟨{ h with interrupted := h.interrupted.eraseIdx i }, active, ahead, queue⟩ := by
  have hperm : (h.interrupted : Multiset InterruptedGen) = gen ::ₘ (h.interrupted.eraseIdx i : Multiset InterruptedGen) :=
    (Multiset.coe_eq_coe.mpr (perm_eraseIdx hgen)).symm
  simp only [held, Station.places, Station.inactive, hperm, Multiset.map_cons, Multiset.add_cons, Multiset.cons_add]

theorem mem_held {p : Place} : (j, p) ∈ held cfg rx st ↔
    (∃ sup ∈ rx.filterMap HostMsg.job, (sup.job.id, .mailed sup) = (j, p)) ∨
    (∃ g ∈ retainActive st.active, g.place cfg st.ahead = (j, p)) ∨
    (∃ q ∈ st.queue, (q.job.id, .queued q) = (j, p)) ∨
    (∃ gen ∈ st.h.interrupted, (gen.job.id, .interrupted gen) = (j, p)) ∨
    ∃ k ∈ st.h.finished, (k, .ended) = (j, p) := by
  simp only [held, Station.places, Station.inactive, Multiset.mem_add, Multiset.mem_map, Multiset.mem_coe, or_assoc]

theorem mem_held_active {g : ActiveGen} (hg : g ∈ st.active) (hlive : g.done = false) :
    g.place cfg st.ahead ∈ held cfg rx st :=
  mem_held.mpr (.inr (.inl ⟨g, mem_retainActive.mpr ⟨hg, hlive⟩, rfl⟩))

theorem ended_mem_held : (j, .ended) ∈ held cfg rx st ↔ j ∈ st.h.finished := by
  simp [held, Station.ended_mem_places]

/-- Without active generations it does not matter what they run under. -/
theorem held_congr {cfg' : Cfg} (hactive : st.active = []) : held cfg rx st = held cfg' rx st := by
  simp only [held, Station.places, hactive, retainActive, filter_nil, Multiset.coe_nil, Multiset.map_zero]

/-! ### Steps a run may rule out -/

/-- The phase ends in this step, with terminal events still parked. -/
def swapDrops (env : Env) (s : Sys) (j : JobId) : Prop :=
  ∃ cfg, s.phase = .serving cfg .settle ∧ (settleBlock env cfg s.loop).ctrl.isSome = true ∧
    (settleBlock env cfg s.loop).active = [] ∧ (settleBlock env cfg s.loop).queue = [] ∧
    parkedOf j (settleBlock env cfg s.loop).host.outbox ≠ []

/-- The job is ended while it is prepared, and its channel has no room when the one attempt to
send its terminal event is made. -/
def endsUnheard (env : Env) (cfg : Cfg) (h : Host) (sup : SupervisedGenerate) : Bool :=
  (prepareGeneration env cfg h sup).2.isNone &&
    !env.room sup.job.id (h.chans sup.job.id).length (if cfg.batchError.isSome then h.clock else h.clock + 1)

/-- The generation the serve loop takes from its channel in the next block. -/
def Sys.taken (s : Sys) : Option (Cfg × SupervisedGenerate) :=
  match s.phase, s.loop.ctrl, s.rx with
  | .serving cfg .pump, none, .generate sup :: _ => some (cfg, sup)
  | .serving cfg .blocked, none, .generate sup :: _ => some (cfg, sup)
  | _, _, _ => none

/-- What a step does to jobs that `allow` must permit, it permits. -/
structure Allowed (env : Env) (allow : JobId → Allow) (s : Sys) (l : Label) : Prop where
  interrupt : l = .tick → InterruptAllowed allow s.loop (sysStep env s l).loop
  unheard : l = .tick → ∀ cfg sup, s.taken = some (cfg, sup) → endsUnheard env cfg s.loop.host sup = true →
    (allow sup.job.id).loss
  swap : l = .tick → ∀ j, swapDrops env s j → (allow j).loss
  model : l = .tick → ∀ cfg pc, s.phase = .serving cfg pc → ∀ j, (allow j).model cfg

/-- Everything is permitted. -/
def allowAll : JobId → Allow := fun _ => ⟨True, fun _ => True, fun _ => True⟩

theorem allowed_all (s : Sys) (l : Label) : Allowed env allowAll s l :=
  ⟨fun _ _ _ _ => trivial, fun _ _ _ _ _ => trivial, fun _ _ _ => trivial, fun _ _ _ _ _ => trivial⟩

/-! ### The invariant -/

/-- A job nobody has submitted. -/
def unborn (t : ℕ) : JobView := ⟨.ended, [], [], [], False, none, t⟩

/-- What the phase says of the loop. -/
structure PhaseOk (cfg : Cfg) (s : Sys) : Prop where
  /-- Live generations have not reported an outcome. -/
  outcome : Outcomes s.loop.active
  idle : s.phase = .idle → s.loop.active = [] ∧ s.loop.queue = [] ∧ s.loop.host.outbox = []
  /-- Generations run under the configuration of the phase. -/
  runs : ∀ c pc, s.phase = .serving c pc → c = cfg

/-- **Every submitted job is in one place**, at the end of a chain of steps from its
request. -/
structure JobsHeld (env : Env) (allow : JobId → Allow) (labels : List Label) (cfg : Cfg) (s : Sys) : Prop where
  next : s.nextJob = (requests labels).length
  once : (s.places cfg).map Prod.fst = (List.range s.nextJob : Multiset JobId)
  phase : PhaseOk cfg s
  chain : ∀ j p, (j, p) ∈ s.places cfg → ∃ r, (requests labels)[j]? = some r ∧
    JobSteps env j (allow j) (freshJob j r) (s.view j p)
  fresh : ∀ j, s.nextJob ≤ j → s.view j .ended = unborn s.loop.host.clock

theorem unborn_steps {a : Allow} {v : JobView} {t : ℕ} (hs : JobSteps env j a (unborn t) v) : v = unborn v.clock := by
  refine JobSteps.induct (P := fun v => v = unborn v.clock) ?_ hs rfl
  rintro v v' hv hstep
  generalize hu : unborn v.clock = u at hv
  subst hv
  cases hstep with
  | wait | gone | dropped => rw [← hu]; rfl
  | endSent _ ev hev => rw [← hu] at hev; cases hev
  | retrySent _ _ _ _ hparked | retryGone _ _ _ _ hparked => rw [← hu] at hparked; simp [unborn] at hparked
  | gen => simp [unborn, Host.view] at hu
  | prepared _ _ _ _ hplace | endParked _ _ _ hplace | endLost _ _ _ hplace | admitted _ _ _ _ _ _ hplace
  | decoded _ _ _ _ hplace | interrupted _ _ _ _ hplace | reissued _ _ hplace => rw [← hu] at hplace; cases hplace

/-! ### Preparing a job -/

theorem prepareState_job {job : GenerateJob} {resume : Option ResumeState} {p : PreparedGen}
    (hp : prepareState env cfg job resume = .ok p) : p.job = job := by
  cases resume with
  | some =>
    obtain ⟨unsent, -, rfl⟩ := prepareState_resumed hp
    rfl
  | none =>
    obtain ⟨text, toks, -, -, -, -, rfl⟩ := prepareState_fresh hp
    rfl

/-- The host when a job ended in preparation is sent its event: all but a failed batch ask first whether
the client is gone. -/
def endsAt (cfg : Cfg) (h : Host) : Host := if cfg.batchError.isSome then h else h.tick

theorem prepareGeneration_cases (env : Env) (cfg : Cfg) (h : Host) (sup : SupervisedGenerate) :
    (∃ ev, EndsWith env (.mailed sup) ev ∧
      prepareGeneration env cfg h sup = (endPrepare env (endsAt cfg h) sup ev, none)) ∨
    (env.closed sup.job.id h.clock = true ∧ prepareGeneration env cfg h sup = (h.tick.finish sup.ending, none)) ∨
    ∃ p, prepareState env cfg sup.job sup.resume = .ok p ∧ settledFinish p = none ∧
      prepareGeneration env cfg h sup = (h.tick, some p) := by
  unfold prepareGeneration endsAt
  cases cfg.batchError with
  | some message => exact .inl ⟨_, .refused sup _, rfl⟩
  | none =>
    simp only
    split
    · rename_i hc
      exact .inr (.inl ⟨hc, rfl⟩)
    · split
      · exact .inl ⟨_, .refused sup _, rfl⟩
      · split
        · exact .inl ⟨_, .refused sup _, rfl⟩
        · rename_i p hp
          split
          · rename_i kind hkind
            exact .inl ⟨_, .settled sup cfg p kind hp hkind, rfl⟩
          · rename_i hopen
            exact .inr (.inr ⟨p, hp, hopen, rfl⟩)

theorem endPrepare_job {sup : SupervisedGenerate} {ev : TokenEvent} {a : Allow} (h : Host)
    (hev : EndsWith env (.mailed sup) ev)
    (hloss : env.room sup.job.id (h.chans sup.job.id).length h.clock = false → a.loss) :
    JobSteps env sup.job.id a (h.view sup.job.id (.mailed sup))
      ((endPrepare env h sup ev).view sup.job.id .ended) := by
  rw [endPrepare, @view_finish sup.job.id _ sup.ending rfl]
  rcases trySend_cases env h sup.job.id ev with ⟨hc, hs⟩ | ⟨-, hroom, hs⟩ | ⟨-, -, hs⟩ <;> rw [hs]
  · exact (JobStep.gone (h.view sup.job.id (.mailed sup)) hc).ticked
  · exact (JobStep.endLost (h.view sup.job.id (.mailed sup)) sup ev rfl hev hroom (hloss hroom)).ticked
  · rw [view_accept]
    exact (JobStep.endSent (h.view sup.job.id (.mailed sup)) ev hev).ticked

theorem trySend_other {a : Allow} (h : Host) {k : JobId} (ev : TokenEvent) (hj : j ≠ k) (p : Place) :
    JobSteps env j a (h.view j p) ((trySend env h k ev).1.view j p) := by
  rcases trySend_cases env h k ev with ⟨-, hs⟩ | ⟨-, -, hs⟩ | ⟨-, -, hs⟩ <;> rw [hs]
  · exact view_tick h p
  · exact view_tick h p
  · exact (HostFrame.accept k 0 h ev).view_waits hj p

theorem endsAt_waits {a : Allow} (h : Host) (p : Place) :
    JobSteps env j a (h.view j p) ((endsAt cfg h).view j p) := by
  unfold endsAt
  split
  · exact .refl
  · exact view_tick h p

namespace JobsHeld

variable {labels : List Label} {cfg' : Cfg} {s s' : Sys}

variable (hj : JobsHeld env allow labels cfg s)
include hj

theorem nodup : ((s.places cfg).map Prod.fst).Nodup :=
  hj.once ▸ Multiset.coe_nodup.mpr nodup_range

theorem mem_places {j : JobId} (hlt : j < s.nextJob) :
    ∃ p, (j, p) ∈ s.places cfg := by
  have hmem : j ∈ (s.places cfg).map Prod.fst := by
    rw [hj.once, Multiset.mem_coe, mem_range]
    exact hlt
  obtain ⟨⟨_, p⟩, hp, rfl⟩ := Multiset.mem_map.mp hmem
  exact ⟨p, hp⟩

theorem jobsOk : JobsOk s.loop := by
  have hnodup := hj.nodup
  rw [Sys.places, held, Multiset.map_add, Station.map_fst_places] at hnodup
  exact ⟨hj.phase.outcome, (Multiset.nodup_add.mp hnodup).2.1⟩

theorem of_goes
    (hgo : Goes env allow s.loop.host (s.places cfg) s'.loop.host (s'.places cfg')) (hnext : s'.nextJob = s.nextJob)
    (hphase : PhaseOk cfg' s') : JobsHeld env allow labels cfg' s' := by
  refine ⟨hnext.trans hj.next, ?_, hphase, ?_, ?_⟩
  · rw [hgo.ids, hj.once, hnext]
  · intro j p' hp'
    obtain ⟨p, hp, hsteps'⟩ := hgo.place j p' hp'
    obtain ⟨r, hr, hsteps⟩ := hj.chain j p hp
    exact ⟨r, hr, hsteps.trans hsteps'⟩
  · intro j hle
    rw [hnext] at hle
    have hnotin : j ∉ (s.places cfg).map Prod.fst := by
      rw [hj.once, Multiset.mem_coe, mem_range]
      exact Nat.not_lt.mpr hle
    have hsteps : JobSteps env j (allow j) (s.view j .ended) (s'.view j .ended) := hgo.other j hnotin .ended
    rw [hj.fresh j hle] at hsteps
    exact unborn_steps hsteps

theorem of_sim (hsim : Sim env cfg allow s.loop.station s'.loop.station)
    (hrx : s'.rx = s.rx) (hnext : s'.nextJob = s.nextJob) (hphase : PhaseOk cfg s') :
    JobsHeld env allow labels cfg s' := by
  refine hj.of_goes ?_ hnext hphase
  rw [show s'.places cfg = held cfg s.rx s'.loop.station by rw [Sys.places, hrx]]
  exact Goes.beside hsim hj.nodup

variable {k : JobId}

theorem move {p p' : Place} {rest : Places}
    (hp : s.places cfg = (k, p) ::ₘ rest) (hp' : s'.places cfg = (k, p') ::ₘ rest)
    (hsteps : JobSteps env k (allow k) (s.view k p) (s'.view k p'))
    (hother : ∀ j, j ≠ k → ∀ q, JobSteps env j (allow j) (s.view j q) (s'.view j q)) (hnext : s'.nextJob = s.nextJob)
    (hphase : PhaseOk cfg s') : JobsHeld env allow labels cfg s' := by
  have hnodup := hj.nodup
  refine hj.of_goes ?_ hnext hphase
  rw [hp] at hnodup ⊢
  rw [hp']
  exact Goes.one hsteps hother hnodup

theorem keep (hplaces : s'.places cfg' = s.places cfg)
    (hwait : ∀ j p, JobSteps env j (allow j) (s.view j p) (s'.view j p)) (hnext : s'.nextJob = s.nextJob)
    (hphase : PhaseOk cfg' s') : JobsHeld env allow labels cfg' s' := by
  refine hj.of_goes ?_ hnext hphase
  rw [hplaces]
  exact Goes.views hwait

/-- Only the phase changes, or messages that carry no generation. -/
theorem sameLoop (hheld : held cfg s'.rx s.loop.station = s.places cfg)
    (hloop : s'.loop = s.loop) (hnext : s'.nextJob = s.nextJob) (hphase : PhaseOk cfg s') :
    JobsHeld env allow labels cfg s' :=
  hj.keep (by rw [Sys.places, hloop, hheld]) (fun j p => by rw [Sys.view, Sys.view, hloop]) hnext hphase

theorem relabel {l : Label} (hl : l.request = none) :
    JobsHeld env allow (labels ++ [l]) cfg s := by
  have hreq : requests (labels ++ [l]) = requests labels := by simp [requests, hl]
  refine ⟨?_, hj.once, hj.phase, ?_, hj.fresh⟩ <;> rw [hreq]
  · exact hj.next
  · exact hj.chain

omit hj

/-! ### Steps of the system -/

theorem init : JobsHeld env allow [] cfg Sys.init := by
  have hnone : Sys.init.places cfg = 0 := rfl
  refine ⟨rfl, rfl, ⟨by simp [Outcomes, Sys.init], by simp [Sys.init, Host.init], by simp [Sys.init]⟩, ?_, ?_⟩
  · intro j p hp
    rw [hnone] at hp
    exact absurd hp (Multiset.notMem_zero _)
  · intro j _
    simp [Sys.view, Sys.init, Host.init, Host.view, unborn]

include hj

theorem submit (r : Request) :
    JobsHeld env allow (labels ++ [.submit r]) cfg (sysStep env s (.submit r)) := by
  have hreq : requests (labels ++ [.submit r]) = requests labels ++ [r] := by
    simp [requests, Label.request]
  have hplaces : (sysStep env s (.submit r)).places cfg =
      (s.nextJob, .mailed { job := r.toJob s.nextJob, resume := none }) ::ₘ s.places cfg := held_append_generate _
  refine ⟨?_, ?_, ⟨hj.phase.outcome, hj.phase.idle, hj.phase.runs⟩, ?_, fun j hle => hj.fresh j (Nat.le_of_succ_le hle)⟩
  · rw [hreq, length_append, ← hj.next]
    rfl
  · rw [hplaces, Multiset.map_cons, hj.once]
    show s.nextJob ::ₘ (List.range s.nextJob : Multiset JobId) = (List.range (s.nextJob + 1) : Multiset JobId)
    rw [range_succ, Multiset.cons_coe, Multiset.coe_eq_coe]
    exact (perm_append_singleton _ _).symm
  · intro j p hp
    rw [hreq]
    rw [hplaces] at hp
    rcases Multiset.mem_cons.mp hp with hp | hp
    · obtain ⟨rfl, rfl⟩ := Prod.mk.inj hp
      refine ⟨r, by rw [hj.next]; simp, ?_⟩
      have hfresh := hj.fresh s.nextJob le_rfl
      simp only [Sys.view, Host.view, unborn, JobView.mk.injEq, true_and] at hfresh
      obtain ⟨h1, h2, h3, h4, h5, -⟩ := hfresh
      simp only [sysStep, Sys.view, Host.view, h1, h2, h3, h4, h5]
      exact .single (.wait (freshJob s.nextJob r) _ (Nat.zero_le _))
    · obtain ⟨r', hr', hsteps⟩ := hj.chain j p hp
      refine ⟨r', ?_, hsteps⟩
      rw [List.getElem?_append_left (List.getElem?_eq_some_iff.mp hr').1]
      exact hr'

theorem prepare {sup : SupervisedGenerate} {pc : Pc}
    (hrx : s.rx = .generate sup :: rest) (hmodel : (allow sup.job.id).model cfg)
    (hloss : endsUnheard env cfg s.loop.host sup = true → (allow sup.job.id).loss) :
    JobsHeld env allow labels cfg { s with
      loop := pumpMsg env cfg s.loop (.generate sup), rx := rest, phase := .serving cfg pc } := by
  have hplaces : s.places cfg = (sup.job.id, .mailed sup) ::ₘ held cfg rest s.loop.station := by
    rw [Sys.places, hrx, held_generate]
  have hphase : ∀ {l : Loop}, l.active = s.loop.active →
      PhaseOk cfg { s with loop := l, rx := rest, phase := .serving cfg pc } :=
    fun hactive => ⟨by rw [hactive]; exact hj.phase.outcome, by simp, by simp⟩
  -- the job is over
  have hend : ∀ h' : Host, prepareGeneration env cfg s.loop.host sup = (h', none) →
      JobSteps env sup.job.id (allow sup.job.id) (s.view sup.job.id (.mailed sup)) (h'.view sup.job.id .ended) →
      h'.finished = s.loop.host.finished ++ [sup.job.id] → h'.interrupted = s.loop.host.interrupted →
      (∀ j, j ≠ sup.job.id → ∀ p, JobSteps env j (allow j) (s.view j p) (h'.view j p)) →
      JobsHeld env allow labels cfg { s with
        loop := pumpMsg env cfg s.loop (.generate sup), rx := rest, phase := .serving cfg pc } := by
    intro h' heq hsteps hfin hint hother
    have hloop : pumpMsg env cfg s.loop (.generate sup) = { s.loop with host := h' } := by
      simp [pumpMsg, heq]
    rw [hloop]
    exact hj.move hplaces (held_finished hint hfin) hsteps hother rfl (hphase rfl)
  rcases prepareGeneration_cases env cfg s.loop.host sup with ⟨ev, hev, heq⟩ | ⟨hc, heq⟩ | ⟨p, hp, hopen, heq⟩
  · have hsame : (endsAt cfg s.loop.host).chans = s.loop.host.chans ∧
        (endsAt cfg s.loop.host).finished = s.loop.host.finished ∧
        (endsAt cfg s.loop.host).interrupted = s.loop.host.interrupted ∧ (endsAt cfg s.loop.host).clock =
          if cfg.batchError.isSome then s.loop.host.clock else s.loop.host.clock + 1 := by
      unfold endsAt
      split <;> exact ⟨rfl, rfl, rfl, rfl⟩
    have hlists : (endPrepare env (endsAt cfg s.loop.host) sup ev).finished = s.loop.host.finished ++ [sup.job.id] ∧
        (endPrepare env (endsAt cfg s.loop.host) sup ev).interrupted = s.loop.host.interrupted := by
      obtain ⟨_, _, _, hsends⟩ := @trySend_sends env (endsAt cfg s.loop.host) sup.job.id ev
      simp [endPrepare, Host.finish, Host.record, hsends, hsame, SupervisedGenerate.ending]
    refine hend _ heq ((endsAt_waits _ _).trans (endPrepare_job _ hev fun hroom => hloss ?_)) hlists.1 hlists.2
      fun j hjk p => ?_
    · rw [hsame.1, hsame.2.2.2] at hroom
      simp [endsUnheard, heq, hroom]
    · rw [endPrepare, view_finish_other _ hjk]
      exact (endsAt_waits _ p).trans (trySend_other _ ev hjk p)
  · refine hend _ heq ?_ rfl rfl fun j hjk p => ?_
    · rw [@view_finish sup.job.id _ sup.ending rfl]
      exact (JobStep.gone (s.loop.host.view sup.job.id (.mailed sup)) hc).ticked
    · rw [view_finish_other _ hjk]
      exact view_tick _ p
  · have hloop : pumpMsg env cfg s.loop (.generate sup) =
        { s.loop with host := s.loop.host.tick, queue := s.loop.queue ++ [p] } := by
      simp [pumpMsg, heq]
    have hid : p.job.id = sup.job.id := by rw [prepareState_job hp]
    rw [hloop]
    refine hj.move hplaces (hid ▸ held_queue) ?_ (fun j _ p => view_tick _ p) rfl (hphase rfl)
    exact (JobStep.prepared (s.loop.host.view sup.job.id (.mailed sup)) sup cfg p rfl hp hopen hmodel).ticked

theorem applyCtrl (hactive : s.loop.active = []) (hqueue : s.loop.queue = [])
    (houtbox : s.loop.host.outbox = []) (c : Ctrl) : ∃ cfg', JobsHeld env allow labels cfg' (applyCtrl s c) := by
  have hidle : ∀ shard, JobsHeld env allow labels cfg { s with phase := .idle, shard := shard } := fun shard =>
    hj.sameLoop rfl rfl rfl ⟨hj.phase.outcome, fun _ => ⟨hactive, hqueue, houtbox⟩, by simp⟩
  match c with
  | .load (some cfg') =>
    refine ⟨cfg', hj.keep ?_ ?_ rfl ⟨by simp [Engine.applyCtrl, startPhase, Outcomes], by simp [Engine.applyCtrl], ?_⟩⟩
    · have hstation : (Engine.applyCtrl s (.load (some cfg'))).loop.station.places cfg' = s.loop.station.places cfg' := by
        simp only [Station.places, Engine.applyCtrl, startPhase, Loop.station, hactive, hqueue, Station.inactive]
      rw [Sys.places, Sys.places, @held_congr cfg s.loop.station s.rx cfg' hactive, held, held, hstation]
      rfl
    · intro j p
      exact view_waits p le_rfl rfl (by simp [Engine.applyCtrl, startPhase, houtbox]) rfl .rfl rfl
    · intro c pc hc
      simp only [Engine.applyCtrl, Phase.serving.injEq] at hc
      exact hc.1.symm
  | .load none => exact ⟨cfg, hidle s.shard⟩
  | .unload => exact ⟨cfg, hidle s.shard⟩
  | .serveShard epoch => exact ⟨cfg, hidle (some epoch)⟩

theorem receive (pc : Pc) (hmodel : ∀ j, (allow j).model cfg)
    (hloss : ∀ sup rest, s.rx = .generate sup :: rest → endsUnheard env cfg s.loop.host sup = true →
      (allow sup.job.id).loss) :
    JobsHeld env allow labels cfg (receive env cfg s pc) := by
  have hphase : ∀ {l : Loop} {rx}, l.active = s.loop.active →
      PhaseOk cfg { s with loop := l, rx := rx, phase := .serving cfg pc } :=
    fun hactive => ⟨by rw [hactive]; exact hj.phase.outcome, by simp, by simp⟩
  have hgo : ∀ {msg rest}, s.rx = msg :: rest → msg.job = none →
      JobsHeld env allow labels cfg { s with rx := rest, phase := .serving cfg pc } := fun hrx hm =>
    hj.sameLoop (by rw [Sys.places, hrx, held_none hm]) rfl rfl (hphase rfl)
  unfold Engine.receive
  split
  · exact hj.sameLoop rfl rfl rfl (hphase rfl)
  · rename_i rest hrx
    exact hj.sameLoop (by rw [Sys.places, hrx, held_none rfl]) rfl rfl ⟨hj.phase.outcome, by simp, by simp⟩
  · rename_i msg rest _ hrx
    cases msg with
    | generate sup => exact hj.prepare hrx (hmodel sup.job.id) (hloss sup rest hrx)
    | models | embed | shutdown => exact hgo hrx rfl
    | ctrl => exact hj.keep (by rw [Sys.places, Sys.places, hrx, held_none rfl]; rfl) (fun _ _ => .refl) rfl (hphase rfl)

omit hj

theorem endBlocking_cases (env : Env) (h : Host) (e : JobRecord) (message : String) :
    (env.closed e.job.id h.clock = true ∧ endBlocking env h e message = (h.tick.finish e, true)) ∨
    endBlocking env h e message = (h.tick, false) ∨
    endBlocking env h e message = ((h.accept e.job.id (.error message)).finish e, true) := by
  unfold endBlocking blockingSend
  rcases trySend_cases env h e.job.id (.error message) with ⟨hc, hs⟩ | ⟨-, -, hs⟩ | ⟨-, -, hs⟩ <;> rw [hs]
  · exact .inl ⟨hc, rfl⟩
  · exact .inr (.inl rfl)
  · exact .inr (.inr rfl)

theorem endBlocking_job {h h' : Host} {e : JobRecord} {message : String} {place : Place}
    (hev : EndsWith env place (.error message)) (he : place.ending = some e)
    (hend : endBlocking env h e message = (h', true)) :
    JobSteps env e.job.id (allow e.job.id) (h.view e.job.id place) (h'.view e.job.id .ended) ∧
      (∀ k, k ≠ e.job.id → ∀ p, JobSteps env k (allow k) (h.view k p) (h'.view k p)) ∧
      h'.finished = h.finished ++ [e.job.id] ∧ h'.interrupted = h.interrupted ∧ h'.outbox = h.outbox := by
  rcases endBlocking_cases env h e message with ⟨hc, heq⟩ | heq | heq <;> rw [heq] at hend <;>
    simp only [Prod.mk.injEq, and_true, reduceCtorEq, and_false] at hend
  · subst hend
    refine ⟨?_, fun k hk p => ?_, rfl, rfl, rfl⟩
    · rw [view_finish _ rfl, ← he]
      exact (JobStep.gone (h.view e.job.id place) hc).ticked
    · rw [view_finish_other _ hk]
      exact view_tick h p
  · subst hend
    refine ⟨?_, fun k hk p => ?_, rfl, rfl, rfl⟩
    · rw [view_finish _ rfl, view_accept, ← he]
      exact (JobStep.endSent (h.view e.job.id place) _ hev).ticked
    · rw [view_finish_other _ hk]
      exact (HostFrame.accept e.job.id 0 h _).view_waits hk p

theorem tickHost (hj : JobsHeld env allow labels cfg s) : JobsHeld env allow labels cfg (s.setHost s.loop.host.tick) :=
  hj.keep rfl (fun _ p => view_tick _ p) rfl ⟨hj.phase.outcome, hj.phase.idle, hj.phase.runs⟩

theorem endBlocking (hj : JobsHeld env allow labels cfg s) {p : Place} {e : JobRecord} {message : String} (hrx : s'.rx = rest)
    (hp : s.places cfg = (e.job.id, p) ::ₘ held cfg rest ⟨h, s.loop.active, noAhead, s.loop.queue⟩)
    (hview : ∀ j q, h.view j q = s.view j q) (hev : EndsWith env p (.error message)) (he : p.ending = some e)
    (hend : endBlocking env h e message = (h', true)) (houtbox : h.outbox = s.loop.host.outbox)
    (hs' : s' = { s with loop := { s.loop with host := h' }, rx := rest }) : JobsHeld env allow labels cfg s' := by
  subst hs'
  obtain ⟨hsteps, hother, hfin, hint, hout⟩ := @endBlocking_job env allow h h' e message p hev he hend
  refine hj.move hp (held_finished hint hfin) (by rwa [hview] at hsteps)
    (fun j hjk q => hview j q ▸ hother j hjk q) rfl ⟨hj.phase.outcome, fun hidle => ?_, hj.phase.runs⟩
  obtain ⟨h1, h2, h3⟩ := hj.phase.idle hidle
  exact ⟨h1, h2, hout.trans (houtbox.trans h3)⟩

theorem endBlocking_waits {e : JobRecord} {message : String} (hend : Engine.endBlocking env h e message = (h', false)) :
    h' = h.tick := by
  rcases endBlocking_cases env h e message with ⟨-, heq⟩ | heq | heq <;>
    rw [heq] at hend <;> simp only [Prod.mk.injEq, and_true, reduceCtorEq, and_false] at hend
  exact hend.symm

include hj

theorem idleStep (hphase : s.phase = .idle) :
    ∃ cfg', JobsHeld env allow labels cfg' (idleStep env s) := by
  obtain ⟨hactive, hqueue, houtbox⟩ := hj.phase.idle hphase
  unfold Engine.idleStep
  split
  · exact ⟨cfg, hj⟩
  · rename_i msg rest hrx
    have hdrop : msg.job = none → JobsHeld env allow labels cfg { s with rx := rest } := fun hm =>
      hj.sameLoop (by rw [Sys.places, hrx, held_none hm]) rfl rfl ⟨hj.phase.outcome, hj.phase.idle, hj.phase.runs⟩
    split
    · rename_i sup
      refine ⟨cfg, ?_⟩
      simp only
      cases hend : Engine.endBlocking env s.loop.host sup.ending (idleError s.shard) with
      | mk h' sent =>
        cases sent with
        | false =>
          obtain rfl := endBlocking_waits hend
          exact hj.tickHost
        | true =>
          exact hj.endBlocking rfl (by rw [Sys.places, hrx, held_generate]; rfl) (fun _ _ => rfl) (.refused sup _) rfl
            hend rfl rfl
    · exact ⟨cfg, hj.sameLoop (by rw [Sys.places, hrx, held_none rfl]) rfl rfl ⟨hj.phase.outcome, by simp, by simp⟩⟩
    · exact (hdrop rfl).applyCtrl hactive hqueue houtbox _
    · rename_i hne _ _
      refine ⟨cfg, hdrop ?_⟩
      cases msg with
      | generate sup => exact absurd rfl (hne sup)
      | _ => rfl

theorem barrier {pc₀ : Pc} (hphase : s.phase = .serving cfg pc₀)
    (hloss : s.loop.ctrl.isSome = true → s.loop.active = [] → s.loop.queue = [] → ∀ j,
      parkedOf j s.loop.host.outbox ≠ [] → (allow j).loss) :
    ∃ cfg', JobsHeld env allow labels cfg' (barrier s cfg) := by
  have hgo : JobsHeld env allow labels cfg { s with phase := .serving cfg .step } :=
    hj.sameLoop rfl rfl rfl ⟨hj.phase.outcome, by simp, by simp⟩
  unfold Engine.barrier
  split
  · rename_i c hc
    split
    · rename_i hempty
      simp only [Bool.and_eq_true, List.isEmpty_iff] at hempty
      obtain ⟨hactive, hqueue⟩ := hempty
      have hsim : Sim env cfg allow s.loop.station
          (Loop.station { s.loop with host := { s.loop.host with outbox := [] }, ctrl := none }) := by
        refine @Sim.views env cfg allow { s.loop.host with outbox := [] } s.loop.station ?_ rfl rfl
        exact fun j p => .single (.dropped _ (hloss (by simp [hc]) hactive hqueue j))
      have hdropped : JobsHeld env allow labels cfg { s with
          loop := { s.loop with host := { s.loop.host with outbox := [] }, ctrl := none } } :=
        hj.of_sim hsim rfl rfl ⟨hj.phase.outcome, by simp [hphase], hj.phase.runs⟩
      exact hdropped.applyCtrl hactive hqueue rfl c
    · exact ⟨cfg, hgo⟩
  · exact ⟨cfg, hgo⟩

theorem supervise (i : ℕ) (d : Decision) :
    JobsHeld env allow labels cfg (superviseStep env s i d) := by
  unfold superviseStep
  split
  · exact hj
  · rename_i gen hgen
    have hplaces : s.places cfg = _ := held_interrupted hgen
    simp only
    split
    · -- re-issued
      refine hj.move hplaces (held_append_generate _) ?_ (fun _ _ _ => .refl) rfl
        ⟨hj.phase.outcome, hj.phase.idle, hj.phase.runs⟩
      exact .single (.reissued _ gen rfl)
    · rename_i message
      cases hend : Engine.endBlocking env { s.loop.host with interrupted := s.loop.host.interrupted.eraseIdx i }
          gen.ending message with
      | mk h' sent =>
        cases sent with
        | false =>
          obtain rfl := endBlocking_waits hend
          exact hj.tickHost
        | true =>
          exact hj.endBlocking (h := { s.loop.host with interrupted := s.loop.host.interrupted.eraseIdx i }) rfl hplaces
            (fun _ _ => rfl) (.gaveUp gen _) rfl hend rfl rfl

theorem tick (hok : SysOk s) (hallow : Allowed env allow s .tick) :
    ∃ cfg', JobsHeld env allow labels cfg' (tickStep env s) := by
  obtain ⟨hinterrupt, hunheard, hswap, hmodel⟩ := hallow
  simp only [sysStep] at hinterrupt
  have hgo : ∀ {loop pc}, Sim env cfg allow s.loop.station loop.station → JobsOk loop →
      JobsHeld env allow labels cfg { s with loop := loop, phase := .serving cfg pc } := fun hsim hjobs =>
    hj.of_sim hsim rfl rfl ⟨hjobs.outcome, by simp, by simp⟩
  have hjobs := hj.jobsOk
  unfold tickStep at hinterrupt ⊢
  split
  · rename_i hphase
    exact hj.idleStep hphase
  · exact ⟨cfg, hj⟩
  · rename_i c hphase
    obtain rfl := hj.phase.runs c _ hphase
    obtain ⟨h1, h2⟩ := @deliverBlock_sim env c allow s.loop (hok.loop c _ hphase) hjobs
    exact ⟨c, hgo h1 h2⟩
  · rename_i c hphase
    obtain rfl := hj.phase.runs c _ hphase
    unfold pumpStep
    refine ⟨c, ?_⟩
    split
    · exact hgo (.refl _) hjobs
    · rename_i hc
      split
      · split
        · exact hj
        · exact hgo (.refl _) hjobs
      · refine hj.receive .pump (hmodel rfl c _ hphase) fun sup rest hrx => hunheard rfl c sup ?_
        simp [Sys.taken, hphase, hrx, Option.not_isSome_iff_eq_none.mp hc]
  · rename_i c hphase
    obtain rfl := hj.phase.runs c _ hphase
    obtain ⟨h1, h2⟩ := @settleBlock_sim env c allow s.loop (hok.loop c _ hphase) hjobs (hmodel rfl c _ hphase)
    have hsettled : JobsHeld env allow labels c { s with loop := settleBlock env c s.loop } :=
      hj.of_sim h1 rfl rfl ⟨h2.outcome, by simp [hphase], hj.phase.runs⟩
    exact hsettled.barrier hphase fun hc ha hq j hp => hswap rfl j ⟨c, hphase, hc, ha, hq, hp⟩
  · rename_i c hphase
    obtain rfl := hj.phase.runs c _ hphase
    simp only [hphase] at hinterrupt
    obtain ⟨h1, h2⟩ := @stepBlock_sim env c allow s.loop (hok.loop c _ hphase) hjobs (hinterrupt trivial)
    exact ⟨c, hgo h1 h2⟩
  · rename_i c hphase
    obtain rfl := hj.phase.runs c _ hphase
    refine ⟨c, ?_⟩
    split
    · exact hgo (.refl _) hjobs
    · rename_i hc
      refine hj.receive .deliver (hmodel rfl c _ hphase) fun sup rest hrx => hunheard rfl c sup ?_
      simp [Sys.taken, hphase, hrx, Option.not_isSome_iff_eq_none.mp hc]

/-- **Every step of the system takes every job along its steps.** -/
theorem step (hok : SysOk s) (l : Label) (hallow : Allowed env allow s l) :
    ∃ cfg', JobsHeld env allow (labels ++ [l]) cfg' (sysStep env s l) := by
  have hother : ∀ m : HostMsg, m.job = none → l.request = none →
      JobsHeld env allow (labels ++ [l]) cfg { s with rx := s.rx ++ [m] } := by
    intro m hm hl
    have hkeep : JobsHeld env allow labels cfg { s with rx := s.rx ++ [m] } :=
      hj.sameLoop (held_append_none hm) rfl rfl ⟨hj.phase.outcome, hj.phase.idle, hj.phase.runs⟩
    exact hkeep.relabel hl
  cases l with
  | submit r => exact ⟨cfg, hj.submit r⟩
  | query => exact ⟨cfg, hother .models rfl rfl⟩
  | embed => exact ⟨cfg, hother .embed rfl rfl⟩
  | control c => exact ⟨cfg, hother (.ctrl c) rfl rfl⟩
  | shutdown => exact ⟨cfg, hother .shutdown rfl rfl⟩
  | supervise i d => exact ⟨cfg, (hj.supervise i d).relabel rfl⟩
  | tick =>
    obtain ⟨cfg', h⟩ := hj.tick hok hallow
    exact ⟨cfg', h.relabel rfl⟩

end JobsHeld

/-! ### Runs -/

theorem run_snoc (env : Env) (s : Sys) (labels : List Label) (l : Label) :
    run env s (labels ++ [l]) = sysStep env (run env s labels) l := by
  simp [run]

/-- No step of the run is of the given kind. -/
def avoids (env : Env) (bad : Sys → Label → Bool) : Sys → List Label → Bool
  | _, [] => true
  | s, l :: ls => !bad s l && avoids env bad (sysStep env s l) ls

theorem avoids_split {bad : Sys → Label → Bool} {s : Sys}
    (h : avoids env bad s labels = true) {pre post : List Label} {l : Label} (heq : labels = pre ++ l :: post) :
    bad (run env s pre) l = false := by
  induction labels generalizing s pre with
  | nil => simp at heq
  | cons a ls ih =>
    simp only [avoids, Bool.and_eq_true, Bool.not_eq_true'] at h
    cases pre with
    | nil =>
      obtain ⟨rfl, -⟩ := List.cons.inj heq
      exact h.1
    | cons =>
      obtain ⟨rfl, htail⟩ := List.cons.inj heq
      exact ih h.2 htail

/-- Every step of a run does to each job what is allowed. -/
def RunAllowed (env : Env) (allow : JobId → Allow) (labels : List Label) : Prop :=
  ∀ pre l post, labels = pre ++ l :: post → Allowed env allow (run env Sys.init pre) l

theorem runAllowed_all (labels : List Label) : RunAllowed env allowAll labels := fun _ _ _ _ => allowed_all _ _

/-- **Every run is a run of its jobs.** -/
theorem run_jobsHeld (labels : List Label) (hallow : RunAllowed env allow labels) :
    ∃ cfg, JobsHeld env allow labels cfg (run env Sys.init labels) := by
  induction labels using List.reverseRecOn with
  | nil => exact ⟨default, .init⟩
  | append_singleton labels l ih =>
    rw [run_snoc]
    have hok : SysOk (run env Sys.init labels) := Reachable.sysOk ⟨labels, rfl⟩
    obtain ⟨cfg, hj⟩ := ih fun pre l' post heq => hallow pre l' (post ++ [l]) (by simp [heq])
    exact hj.step hok l (hallow labels l [] (by simp))

theorem run_chain {labels : List Label} (hallow : RunAllowed env allow labels) {j : JobId} {p : Place}
    (hp : ∀ cfg, (j, p) ∈ (run env Sys.init labels).places cfg) : ∃ r, (requests labels)[j]? = some r ∧
      JobSteps env j (allow j) (freshJob j r) ((run env Sys.init labels).view j p) := by
  obtain ⟨cfg, hj⟩ := run_jobsHeld labels hallow
  exact hj.chain j p (hp cfg)

theorem run_job (hallow : RunAllowed env allow labels) {r : Request} (hr : (requests labels)[j]? = some r) :
    ∃ p, JobSteps env j (allow j) (freshJob j r) ((run env Sys.init labels).view j p) := by
  obtain ⟨cfg, hj⟩ := run_jobsHeld labels hallow
  obtain ⟨p, hp⟩ := hj.mem_places (by rw [hj.next]; exact (List.getElem?_eq_some_iff.mp hr).1)
  obtain ⟨r', hr', hsteps⟩ := hj.chain _ p hp
  obtain rfl : r = r' := Option.some.inj (hr.symm.trans hr')
  exact ⟨p, hsteps⟩

theorem run_active (hallow : RunAllowed env allow labels) {pc : Pc}
    (hphase : (run env Sys.init labels).phase = .serving cfg pc) {g : ActiveGen}
    (hg : g ∈ (run env Sys.init labels).loop.active) :
    ∃ r, (requests labels)[g.job.id]? = some r ∧ JobSteps env g.job.id (allow g.job.id) (freshJob g.job.id r)
      ((run env Sys.init labels).view g.job.id (.active cfg g [] false)) := by
  obtain ⟨c, hj⟩ := run_jobsHeld labels hallow
  obtain rfl := hj.phase.runs cfg pc hphase
  have hlive := ((Reachable.sysOk ⟨labels, rfl⟩).loop cfg pc hphase).live g hg
  exact hj.chain _ _ (mem_held_active hg hlive)

end OneBrain.Engine
