import Mathlib.Data.Multiset.UnionInter
import OneBrain.Engine.Job

/-!
# Every run is a run of its jobs

Each part of the loop is shown to move every job along `JobStep`s (`Sim`): it neither
invents nor forgets a job, a job it works on goes where the step says, and the view of
every other job changes at most by a retried terminal event. The parts compose to the
blocks of the loop, the blocks to the steps of the system, and the steps to runs:
`run_job` reads any job of any reachable state as the end of a chain of steps
from the request that created it.
-/

namespace OneBrain.Engine

open List OneBrain.Lib

variable {env : Env} {cfg : Cfg} {drafting : Bool} {allow : JobId → Allow} {h h' : Host} {active : List ActiveGen}
  {ahead : SeqId → List Token} {queue : List PreparedGen} {batch : List BatchTok} {s : Loop}

/-! ### Simulation -/

/-- Jobs, and where they are. -/
abbrev Places := Multiset (JobId × Place)

/-- The jobs held by one host become those held by another. -/
structure Goes (env : Env) (allow : JobId → Allow) (h : Host) (ps : Places) (h' : Host) (ps' : Places) : Prop where
  ids : ps'.map Prod.fst = ps.map Prod.fst
  place : ∀ j p', (j, p') ∈ ps' → ∃ p, (j, p) ∈ ps ∧ JobSteps env j (allow j) (h.view j p) (h'.view j p')
  /-- So did every job that is elsewhere. -/
  other : ∀ j, j ∉ ps.map Prod.fst → ∀ p, JobSteps env j (allow j) (h.view j p) (h'.view j p)

namespace Goes

variable {h'' : Host} {ps ps' ps'' moved moved' : Places}

theorem trans (a : Goes env allow h ps h' ps') (b : Goes env allow h' ps' h'' ps'') : Goes env allow h ps h'' ps'' where
  ids := b.ids.trans a.ids
  place j p'' hp := by
    obtain ⟨p', hp', hsteps'⟩ := b.place j p'' hp
    obtain ⟨p, hp, hsteps⟩ := a.place j p' hp'
    exact ⟨p, hp, hsteps.trans hsteps'⟩
  other j hj p := (a.other j hj p).trans (b.other j (a.ids ▸ hj) p)

theorem views (hview : ∀ j p, JobSteps env j (allow j) (h.view j p) (h'.view j p)) : Goes env allow h ps h' ps :=
  ⟨rfl, fun j p hp => ⟨p, hp, hview j p⟩, fun j _ p => hview j p⟩

theorem refl (h : Host) (ps : Places) : Goes env allow h ps h ps := views fun _ _ => .refl

/-- **Some jobs move**, and the others wait. -/
theorem some (hids : moved'.map Prod.fst = moved.map Prod.fst)
    (hmoved : ∀ j p', (j, p') ∈ moved' → ∃ p, (j, p) ∈ moved ∧ JobSteps env j (allow j) (h.view j p) (h'.view j p'))
    (hwait : ∀ j, j ∉ moved.map Prod.fst → ∀ p, JobSteps env j (allow j) (h.view j p) (h'.view j p))
    (hnodup : ((moved + ps).map Prod.fst).Nodup) : Goes env allow h (moved + ps) h' (moved' + ps) := by
  rw [Multiset.map_add, Multiset.nodup_add] at hnodup
  refine ⟨by rw [Multiset.map_add, Multiset.map_add, hids], fun j p' hp' => ?_, fun j hj p => ?_⟩
  · rcases Multiset.mem_add.mp hp' with hp' | hp'
    · obtain ⟨p, hp, hsteps⟩ := hmoved j p' hp'
      exact ⟨p, Multiset.mem_add.mpr (.inl hp), hsteps⟩
    · have hj : j ∉ moved.map Prod.fst := fun hj =>
        Multiset.disjoint_left.mp hnodup.2.2 hj (Multiset.mem_map_of_mem Prod.fst hp')
      exact ⟨p', Multiset.mem_add.mpr (.inr hp'), hwait j hj p'⟩
  · rw [Multiset.map_add, Multiset.mem_add, not_or] at hj
    exact hwait j hj.1 p

theorem one {k : JobId} {p p' : Place} (hsteps : JobSteps env k (allow k) (h.view k p) (h'.view k p'))
    (hwait : ∀ j, j ≠ k → ∀ q, JobSteps env j (allow j) (h.view j q) (h'.view j q))
    (hnodup : (((k, p) ::ₘ ps).map Prod.fst).Nodup) :
    Goes env allow h ((k, p) ::ₘ ps) h' ((k, p') ::ₘ ps) := by
  rw [← Multiset.singleton_add] at hnodup
  rw [← Multiset.singleton_add, ← Multiset.singleton_add]
  refine some rfl (fun j q hq => ?_) (fun j hj q => hwait j (by simpa using hj) q) hnodup
  obtain ⟨rfl, rfl⟩ := Prod.mk.inj (Multiset.mem_singleton.mp hq)
  exact ⟨p, Multiset.mem_singleton_self _, hsteps⟩

theorem beside {qs : Places} (hgo : Goes env allow h ps h' ps') (hnodup : ((qs + ps).map Prod.fst).Nodup) :
    Goes env allow h (qs + ps) h' (qs + ps') := by
  rw [Multiset.map_add, Multiset.nodup_add] at hnodup
  refine ⟨by rw [Multiset.map_add, Multiset.map_add, hgo.ids], fun j p' hp' => ?_, fun j hj p => ?_⟩
  · rcases Multiset.mem_add.mp hp' with hp' | hp'
    · have hj : j ∉ ps.map Prod.fst := Multiset.disjoint_left.mp hnodup.2.2 (Multiset.mem_map_of_mem Prod.fst hp')
      exact ⟨p', Multiset.mem_add.mpr (.inl hp'), hgo.other j hj p'⟩
    · obtain ⟨p, hp, hsteps⟩ := hgo.place j p' hp'
      exact ⟨p, Multiset.mem_add.mpr (.inr hp), hsteps⟩
  · rw [Multiset.map_add, Multiset.mem_add, not_or] at hj
    exact hgo.other j hj.2 p

end Goes

/-- The loop's jobs in the middle of a block. -/
structure Station where
  h : Host
  active : List ActiveGen
  ahead : SeqId → List Token
  queue : List PreparedGen

/-- The loop's jobs between two blocks. -/
def Loop.station (s : Loop) : Station := ⟨s.host, s.active, noAhead, s.queue⟩

/-- Where the job of a generation is. -/
def ActiveGen.place (cfg : Cfg) (ahead : SeqId → List Token) (g : ActiveGen) : JobId × Place :=
  (g.job.id, .active cfg g (ahead g.seq) false)

/-- The jobs of the loop and the supervisor that are not active. -/
def Station.inactive (h : Host) (queue : List PreparedGen) : Places :=
  (queue : Multiset PreparedGen).map (fun p => (p.job.id, .queued p)) +
    (h.interrupted : Multiset InterruptedGen).map (fun gen => (gen.job.id, .interrupted gen)) +
    (h.finished : Multiset JobId).map fun j => (j, .ended)

/-- The jobs of the loop and the supervisor. -/
def Station.places (cfg : Cfg) (st : Station) : Places :=
  (retainActive st.active : Multiset ActiveGen).map (ActiveGen.place cfg st.ahead) + Station.inactive st.h st.queue

/-- Their identities. -/
def Station.ids (st : Station) : Multiset JobId :=
  (retainActive st.active : Multiset ActiveGen).map (fun g => g.job.id) + (Station.inactive st.h st.queue).map Prod.fst

theorem Station.map_fst_places (cfg : Cfg) (st : Station) : (st.places cfg).map Prod.fst = st.ids := by
  rw [places, ids, Multiset.map_add, Multiset.map_map]
  rfl

variable {j : JobId} {g : ActiveGen} {p : PreparedGen}

theorem Station.ended_mem_places {st : Station} : (j, .ended) ∈ st.places cfg ↔ j ∈ st.h.finished := by
  simp [places, inactive, ActiveGen.place]

/-- Live generations have not reported an outcome. -/
def Outcomes (active : List ActiveGen) : Prop := ∀ g ∈ active, g.done = false → g.outcome = true

/-- What the simulation needs of a station. -/
structure StationOk (cfg : Cfg) (st : Station) : Prop where
  mid : MidOk cfg ⟨st.h, st.active, st.ahead⟩
  /-- Live generations have not reported an outcome. -/
  outcome : Outcomes st.active
  nodup : st.ids.Nodup

/-- The jobs of one station become those of another. -/
def Sim (env : Env) (cfg : Cfg) (allow : JobId → Allow) (st st' : Station) : Prop :=
  Goes env allow st.h (st.places cfg) st'.h (st'.places cfg)

namespace Sim

variable {st st' st'' : Station}

theorem ids (hs : Sim env cfg allow st st') : st'.ids = st.ids := by
  rw [← st'.map_fst_places cfg, ← st.map_fst_places cfg]
  exact Goes.ids hs

theorem nodup (hs : Sim env cfg allow st st') (hnodup : st.ids.Nodup) : st'.ids.Nodup := hs.ids ▸ hnodup

theorem refl (st : Station) : Sim env cfg allow st st := Goes.refl _ _

theorem trans (a : Sim env cfg allow st st') (b : Sim env cfg allow st' st'') : Sim env cfg allow st st'' :=
  Goes.trans a b

theorem one {k : JobId} {p p' : Place} {rest : Places} (hst : st.places cfg = (k, p) ::ₘ rest)
    (hst' : st'.places cfg = (k, p') ::ₘ rest) (hsteps : JobSteps env k (allow k) (st.h.view k p) (st'.h.view k p'))
    (hwait : ∀ j, j ≠ k → ∀ q, JobSteps env j (allow j) (st.h.view j q) (st'.h.view j q)) (hnodup : st.ids.Nodup) :
    Sim env cfg allow st st' := by
  rw [← st.map_fst_places cfg, hst] at hnodup
  rw [Sim, hst, hst']
  exact Goes.one hsteps hwait hnodup

theorem views (hview : ∀ j p, JobSteps env j (allow j) (st.h.view j p) (h'.view j p))
    (hint : h'.interrupted = st.h.interrupted) (hfin : h'.finished = st.h.finished) :
    Sim env cfg allow st { st with h := h' } := by
  have hplaces : Station.places cfg { st with h := h' } = st.places cfg := by
    simp only [Station.places, Station.inactive, hint, hfin]
  rw [Sim, hplaces]
  exact Goes.views hview

theorem retain (st : Station) : Sim env cfg allow st { st with active := retainActive st.active } := by
  have hidem : retainActive (retainActive st.active) = retainActive st.active :=
    retainActive_live fun g hg => (mem_retainActive.mp hg).2
  rw [Sim, Station.places, Station.places, hidem]
  exact Goes.refl _ _

end Sim

theorem places_live (hg : g.done = false) (h : Host) (pre post : List ActiveGen)
    (ahead : SeqId → List Token) (queue : List PreparedGen) :
    Station.places cfg ⟨h, pre ++ g :: post, ahead, queue⟩ =
      g.place cfg ahead ::ₘ Station.places cfg ⟨h, pre ++ post, ahead, queue⟩ := by
  simp only [Station.places, retainActive_append, retainActive_cons_live hg, ← Multiset.coe_add, ← Multiset.cons_coe,
    Multiset.map_add, Multiset.map_cons, Multiset.add_cons, Multiset.cons_add]

theorem places_done (hg : g.done = true) (h : Host) (pre post : List ActiveGen)
    (ahead : SeqId → List Token) (queue : List PreparedGen) :
    Station.places cfg ⟨h, pre ++ g :: post, ahead, queue⟩ = Station.places cfg ⟨h, pre ++ post, ahead, queue⟩ := by
  simp only [Station.places, retainActive_append, retainActive_cons_done hg]

theorem places_queue (h : Host) (active : List ActiveGen) (ahead : SeqId → List Token)
    (pre post : List PreparedGen) (p : PreparedGen) :
    Station.places cfg ⟨h, active, ahead, pre ++ p :: post⟩ =
      (p.job.id, .queued p) ::ₘ Station.places cfg ⟨h, active, ahead, pre ++ post⟩ := by
  simp only [Station.places, Station.inactive, ← Multiset.coe_add, ← Multiset.cons_coe, Multiset.map_add,
    Multiset.map_cons, Multiset.add_cons, Multiset.cons_add]

theorem inactive_finished {k : JobId} (hint : h'.interrupted = h.interrupted) (hfin : h'.finished = h.finished ++ [k])
    (queue : List PreparedGen) : Station.inactive h' queue = (k, .ended) ::ₘ Station.inactive h queue := by
  simp only [Station.inactive, hint, hfin, ← Multiset.coe_add, ← Multiset.cons_coe, Multiset.coe_nil, Multiset.map_cons,
    Multiset.add_cons, Multiset.add_zero]

/-! ### Turns -/

/-- The station with the host and active set of a turn. -/
def Station.at (st : Station) (m : Mid) : Station := { st with h := m.h, active := m.active, ahead := m.ahead }

/-- Along the moves of a live generation its job stays active or is reported
`Finished`, and what is reported is the outcome it owed. -/
theorem GenSteps.finished {f f' : Focus} (hs : GenSteps env cfg drafting f f') (hlive : f.g.done = false)
    (hout : f.g.outcome = true) : (f'.g.done = false ∧ f'.g.outcome = true ∧ f'.h.finished = f.h.finished) ∨
      (f'.g.done = true ∧ f'.h.finished = f.h.finished ++ [f.g.job.id]) := by
  induction hs with
  | refl => exact .inl ⟨hlive, hout, rfl⟩
  | @tail f₁ f₂ hsteps hstep ih =>
    have hframe := hstep.frame
    rcases ih with ⟨hlive₁, hout₁, hfin₁⟩ | ⟨hdone₁, hfin₁⟩
    · have hjob : f₁.g.job.id = f.g.job.id := by rw [GenSteps.job_eq hsteps]
      cases hframe.exit with
      | stays done outcome prompt prior prefixToks budget free retained finished =>
        exact .inl ⟨by rw [done, hlive₁], by rw [outcome, hout₁], by rw [finished, hfin₁]⟩
      | released _ done _ _ finished | kept _ done _ _ _ _ _ _ finished =>
        exact .inr ⟨done, by rw [finished, hfin₁, hout₁, hjob, if_pos rfl]⟩
    · cases hframe.exit with
      | stays done outcome prompt prior prefixToks budget free retained finished =>
        exact .inr ⟨by rw [done, hdone₁], by rw [finished, hfin₁]⟩
      | released live | kept live => rw [hdone₁] at live; cases live

theorem GenSteps.host_frame {f f' : Focus} (hs : GenSteps env cfg drafting f f') :
    HostFrame f.g.job.id f.g.seq f.h f'.h := by
  induction hs with
  | refl => exact .refl _ _ _
  | tail hsteps hstep ih =>
    have := hstep.frame.host
    rw [GenSteps.job_eq hsteps, GenSteps.seq_eq hsteps] at this
    exact ih.trans this

theorem focus_sim {pre post : List ActiveGen} {g : ActiveGen} {f : Focus} (hdone : g.done = false)
    (hsteps : GenSteps env cfg drafting ⟨h, g, ahead g.seq, false⟩ f) (hhit : f.hit = false)
    (hjobsteps : JobSteps env g.job.id (allow g.job.id) (h.view g.job.id (.active cfg g (ahead g.seq) false))
      (f.h.view g.job.id (f.place cfg)))
    (hahead : ∀ o ∈ pre ++ post, o.done = false → Function.update ahead g.seq f.ahead o.seq = ahead o.seq)
    (hout : Outcomes (pre ++ g :: post)) (hnodup : (Station.ids ⟨h, pre ++ g :: post, ahead, queue⟩).Nodup) :
    Sim env cfg allow ⟨h, pre ++ g :: post, ahead, queue⟩
        ⟨f.h, pre ++ f.g :: post, Function.update ahead g.seq f.ahead, queue⟩ ∧
      Outcomes (pre ++ f.g :: post) := by
  have hframe : HostFrame g.job.id g.seq h f.h := hsteps.host_frame
  have hfin := hsteps.finished hdone (hout g (by simp) hdone)
  simp only at hfin
  -- the others' places do not change
  have hrest : (retainActive (pre ++ post) : Multiset ActiveGen).map (ActiveGen.place cfg (Function.update ahead g.seq f.ahead)) =
      (retainActive (pre ++ post) : Multiset ActiveGen).map (ActiveGen.place cfg ahead) := by
    refine Multiset.map_congr rfl fun o ho => ?_
    obtain ⟨hmem, hlive⟩ := mem_retainActive.mp (Multiset.mem_coe.mp ho)
    rw [ActiveGen.place, ActiveGen.place, hahead o hmem hlive]
  refine ⟨Sim.one (places_live hdone h pre post ahead queue) ?_ hjobsteps (fun j hj => hframe.view_waits hj) hnodup, ?_⟩
  · rcases hfin with ⟨hlive', -, hf⟩ | ⟨hdone', hf⟩
    · have hplace : f.g.place cfg (Function.update ahead g.seq f.ahead) = (g.job.id, f.place cfg) := by
        have hjob : f.g.job = g.job := hsteps.job_eq
        have hseq : f.g.seq = g.seq := hsteps.seq_eq
        simp [ActiveGen.place, Focus.place, hlive', hjob, hseq, hhit]
      rw [places_live hlive', hplace, Station.places, Station.places, hrest, Station.inactive, Station.inactive,
        hframe.interrupted, hf]
    · have hplace : f.place cfg = .ended := by rw [Focus.place, if_pos hdone']
      rw [places_done hdone', hplace, Station.places, Station.places, hrest,
        inactive_finished hframe.interrupted hf, Multiset.add_cons]
  · intro o ho hlive
    simp only [mem_append, mem_cons] at ho
    by_cases hof : o = f.g
    · subst hof
      rcases hfin with ⟨-, hout', -⟩ | ⟨hdone', -⟩
      · exact hout'
      · rw [hlive] at hdone'
        cases hdone'
    · refine hout o ?_ hlive
      simp only [mem_append, mem_cons]
      tauto

/-- **A turn** moves the job whose turn it is along its steps and leaves the others alone. -/
theorem turn_sim {st : Station} {m : Mid} (hok : StationOk cfg st)
    (ht : Turn env cfg drafting ⟨st.h, st.active, st.ahead⟩ m) :
    Sim env cfg allow st (st.at m) ∧ StationOk cfg (st.at m) := by
  obtain ⟨hm, hout, hnodup⟩ := hok
  have hm' := midOk_turns (.single ht) hm
  generalize hmid : (⟨st.h, st.active, st.ahead⟩ : Mid) = m₀ at ht hm
  cases ht with
  | mk pre g post h ahead f hdone hsteps hhit =>
    obtain ⟨sh, sactive, sahead, queue⟩ := st
    simp only [Mid.mk.injEq] at hmid
    obtain ⟨rfl, rfl, rfl⟩ := hmid
    have hgok : GenOk cfg sh g (sahead g.seq) := hm.gens g (by simp) hdone
    have hahead : ∀ o ∈ pre ++ post, o.done = false → Function.update sahead g.seq f.ahead o.seq = sahead o.seq :=
      fun o ho hlive => Function.update_of_ne (hm.slots.seq_ne hdone ho hlive) _ _
    obtain ⟨hsim, hout'⟩ := @focus_sim env cfg drafting allow sh sahead queue pre post g f hdone hsteps hhit
      (hsteps.job_steps rfl hdone hgok) hahead hout hnodup
    exact ⟨hsim, hm', hout', hsim.nodup hnodup⟩

theorem turns_sim {st : Station} {m : Mid} (hok : StationOk cfg st)
    (ht : Turns env cfg drafting ⟨st.h, st.active, st.ahead⟩ m) :
    Sim env cfg allow st (st.at m) ∧ StationOk cfg (st.at m) := by
  induction ht with
  | refl => exact ⟨.refl _, hok⟩
  | tail _ hturn ih =>
    obtain ⟨h1, h2⟩ := ih
    obtain ⟨h3, h4⟩ := @turn_sim env cfg drafting allow _ _ h2 hturn
    exact ⟨h1.trans h3, h4⟩

/-! ### Delivery and sweeps -/

/-- What the simulation needs of the loop between two blocks. -/
structure JobsOk (s : Loop) : Prop where
  /-- Live generations have not reported an outcome. -/
  outcome : Outcomes s.active
  nodup : s.station.ids.Nodup

theorem LoopOk.stationOk {s : Loop} (hs : LoopOk cfg s) (hj : JobsOk s) : StationOk cfg s.station :=
  ⟨hs.mid, hj.outcome, hj.nodup⟩

theorem Outcomes.retain {active : List ActiveGen} (h : Outcomes active) : Outcomes (retainActive active) :=
  fun g hg => h g (mem_retainActive.mp hg).1

/-- The parked events of a job. -/
def parkedOf (j : JobId) (l : List PendingTerminal) : List TokenEvent :=
  (l.filter fun p => p.tx = j).map PendingTerminal.event

theorem parkedOf_append (j : JobId) (l m : List PendingTerminal) :
    parkedOf j (l ++ m) = parkedOf j l ++ parkedOf j m := by
  simp [parkedOf]

/-- Step 1 for one job: some of its parked events are sent, or dropped with its client. -/
theorem retryOutbox_job (j : JobId) (a : Allow) (place : Place) (l kept : List PendingTerminal) (h : Host) :
    JobSteps env j a ({ h with outbox := kept ++ l }.view j place)
      ({ (retryOutbox env h l).1 with outbox := kept ++ (retryOutbox env h l).2 }.view j place) := by
  induction l generalizing h kept with
  | nil => exact .refl
  | cons p rest ih =>
    -- the view before, with this job's first parked event in sight
    have hparked : p.tx = j → ({ h with outbox := kept ++ p :: rest }.view j place).parked =
        parkedOf j kept ++ p.event :: parkedOf j rest := by
      intro htx
      simp [Host.view, parkedOf, htx]
    -- an event parked for another job
    have hskip : p.tx ≠ j → ∀ h' : Host, h.clock ≤ h'.clock → h'.chans j = h.chans j → h'.decoded = h.decoded →
        h'.reaped = h.reaped → h'.ends = h.ends → JobSteps env j a
          ({ h with outbox := kept ++ p :: rest }.view j place) ({ h' with outbox := kept ++ rest }.view j place) := by
      intro htx h' hclock h1 h2 h3 h4
      exact view_waits place hclock h1 (by simp [htx]) (congrFun h2 j) (by simp only [h3]) (congrFun h4 j)
    rcases trySend_cases env h p.tx p.event with ⟨hc, hs⟩ | ⟨-, -, hs⟩ | ⟨-, -, hs⟩
    · simp only [retryOutbox, hs]
      refine .trans ?_ (ih kept h.tick)
      by_cases htx : p.tx = j
      · have hstep : JobStep env j a ({ h with outbox := kept ++ p :: rest }.view j place) _ :=
          .retryGone _ _ _ _ (hparked htx) (htx ▸ hc)
        rw [← parkedOf_append] at hstep
        exact hstep.ticked
      · exact hskip htx h.tick (Nat.le_succ _) rfl rfl rfl rfl
    · simp only [retryOutbox, hs]
      have hrest := ih (kept ++ [p]) h.tick
      simp only [append_assoc, singleton_append] at hrest
      exact (view_tick { h with outbox := kept ++ p :: rest } place).trans hrest
    · simp only [retryOutbox, hs]
      refine .trans ?_ (ih kept (h.accept p.tx p.event))
      by_cases htx : p.tx = j
      · have hstep : JobStep env j a ({ h with outbox := kept ++ p :: rest }.view j place) _ :=
          .retrySent _ _ _ _ (hparked htx)
        rw [← parkedOf_append] at hstep
        simpa [Host.view, Host.accept, Host.tick, htx, parkedOf] using hstep.ticked
      · exact hskip htx (h.accept p.tx p.event) (Nat.le_succ _) (Function.update_of_ne (Ne.symm htx) _ _) rfl rfl rfl

theorem retryOutbox_lists (l : List PendingTerminal) (h : Host) :
    (retryOutbox env h l).1.finished = h.finished := by
  induction l generalizing h with
  | nil => rfl
  | cons p rest ih =>
    simp only [retryOutbox]
    rcases trySend_cases env h p.tx p.event with ⟨-, hs⟩ | ⟨-, -, hs⟩ | ⟨-, -, hs⟩ <;> rw [hs] <;>
      exact ih _

/-- Nothing a job sees changes but the time. -/
structure Quiet (h h' : Host) : Prop where
  clock : h.clock ≤ h'.clock
  chans : h'.chans = h.chans
  outbox : h'.outbox = h.outbox
  decoded : h'.decoded = h.decoded
  reaped : h'.reaped = h.reaped
  ends : h'.ends = h.ends
  interrupted : h'.interrupted = h.interrupted
  finished : h'.finished = h.finished

theorem Quiet.waits {h h' : Host} (hq : Quiet h h') (j : JobId) (a : Allow) (p : Place) :
    JobSteps env j a (h.view j p) (h'.view j p) :=
  view_waits p hq.clock (congrFun hq.chans j) (by rw [hq.outbox]) (congrFun hq.decoded j) (by rw [hq.reaped])
    (congrFun hq.ends j)

theorem Quiet.trans {h h' h'' : Host} (a : Quiet h h') (b : Quiet h' h'') : Quiet h h'' :=
  ⟨a.clock.trans b.clock, b.chans.trans a.chans, b.outbox.trans a.outbox, b.decoded.trans a.decoded,
    b.reaped.trans a.reaped, b.ends.trans a.ends, b.interrupted.trans a.interrupted, b.finished.trans a.finished⟩

theorem Quiet.sim {st : Station} (hq : Quiet st.h h') : Sim env cfg allow st { st with h := h' } :=
  .views (fun j p => hq.waits j _ p) hq.interrupted hq.finished

theorem Quiet.tick (h : Host) : Quiet h h.tick := ⟨Nat.le_succ _, rfl, rfl, rfl, rfl, rfl, rfl, rfl⟩

theorem Evicted.quiet {h h' : Host} (he : Evicted h h') : Quiet h h' := by
  rw [he.same]
  exact ⟨le_rfl, rfl, rfl, rfl, rfl, rfl, rfl, rfl⟩

theorem Taken.quiet {h h' : Host} {reuse : Option (ℕ × ℕ)} {prompt : List Token} {seq : SeqId} {reused : ℕ}
    (ht : Taken h reuse prompt h' seq reused) : Quiet h h' := by
  rw [ht.same]
  exact ⟨ht.clock, rfl, rfl, rfl, rfl, rfl, rfl, rfl⟩

/-- A sweep of turns, with the generations that are over removed. -/
theorem sweep_sim {s : Loop} {h' : Host} {active' : List ActiveGen} (hs : LoopOk cfg s) (hj : JobsOk s)
    (ht : Turns env cfg drafting ⟨s.host, s.active, noAhead⟩ ⟨h', active', noAhead⟩) :
    Sim env cfg allow s.station (Loop.station { s with host := h', active := retainActive active' }) ∧
      JobsOk { s with host := h', active := retainActive active' } := by
  obtain ⟨h1, h2⟩ := @turns_sim env cfg drafting allow s.station _ (hs.stationOk hj) ht
  have h3 := h1.trans (.retain _)
  exact ⟨h3, h2.outcome.retain, h3.nodup hj.nodup⟩

theorem deliverBlock_sim {s : Loop} (hs : LoopOk cfg s) (hj : JobsOk s) :
    Sim env cfg allow s.station (deliverBlock env cfg s).station ∧ JobsOk (deliverBlock env cfg s) := by
  have hretry := (@retryOutbox_sends env s.host s.host.outbox).same
  obtain ⟨o, ho⟩ : ∃ o, o = retryOutbox env s.host s.host.outbox := ⟨_, rfl⟩
  have hs' : LoopOk cfg { s with host := { o.1 with outbox := o.2 } } :=
    hs.same (ho ▸ hretry.trans ⟨rfl, rfl, rfl, ⟨rfl, rfl⟩, rfl⟩) hs.queue
  have h1 : Sim env cfg allow s.station (Loop.station { s with host := { o.1 with outbox := o.2 } }) := by
    refine Sim.views ?_ ?_ ?_
    · intro j p
      subst ho
      exact retryOutbox_job j (allow j) p s.host.outbox [] s.host
    · exact ho ▸ hretry.interrupted
    · exact ho ▸ retryOutbox_lists s.host.outbox s.host
  have hj' : JobsOk { s with host := { o.1 with outbox := o.2 } } :=
    ⟨hj.outcome, h1.nodup hj.nodup⟩
  have h2 := @sweep_sim env cfg false allow _ _ _ hs' hj'
    (sweepActive_turns retryHeld_steps s.active [] _ hs.live)
  subst ho
  exact ⟨h1.trans h2.1, h2.2⟩

/-! ### The queue -/

theorem queueEnd_sim {pre post : List PreparedGen}
    (hjob : JobSteps env p.job.id (allow p.job.id) (h.view p.job.id (.queued p)) (h'.view p.job.id .ended))
    (hwait : ∀ j, j ≠ p.job.id → ∀ place, JobSteps env j (allow j) (h.view j place) (h'.view j place))
    (hint : h'.interrupted = h.interrupted) (hfin : h'.finished = h.finished ++ [p.job.id])
    (hnodup : (Station.ids ⟨h, active, ahead, pre ++ p :: post⟩).Nodup) :
    Sim env cfg allow ⟨h, active, ahead, pre ++ p :: post⟩ ⟨h', active, ahead, pre ++ post⟩ := by
  refine .one (places_queue h active ahead pre post p) ?_ hjob hwait hnodup
  rw [Station.places, inactive_finished hint hfin, Multiset.add_cons]
  rfl

theorem admit_sim {post : List PreparedGen} (seq : SeqId) (reused uid : ℕ) (hq : Quiet h h')
    (hmodel : ∀ j, (allow j).model cfg) (hnodup : (Station.ids ⟨h, active, noAhead, p :: post⟩).Nodup) :
    Sim env cfg allow ⟨h, active, noAhead, p :: post⟩
      ⟨h', active ++ [admitGen p seq reused uid], noAhead, post⟩ := by
  refine @Sim.one env cfg allow _ _ _ _ (.active cfg (admitGen p seq reused uid) [] false) _
    (places_queue h active noAhead [] post p) ?_ ?_ (fun j _ place => hq.waits j _ place) hnodup
  · rw [places_live (show (admitGen p seq reused uid).done = false from rfl), append_nil, Station.places,
      Station.inactive, hq.interrupted, hq.finished]
    rfl
  · exact .head (.admitted (h.view p.job.id (.queued p)) cfg p seq reused uid rfl (hmodel _)) (hq.waits _ _ _)

theorem dropClosedQueue_sim (l kept : List PreparedGen) (h : Host) (active : List ActiveGen)
    (ahead : SeqId → List Token) (hnodup : (Station.ids ⟨h, active, ahead, kept ++ l⟩).Nodup) :
    Sim env cfg allow ⟨h, active, ahead, kept ++ l⟩
      ⟨(dropClosedQueue env h l).1, active, ahead, kept ++ (dropClosedQueue env h l).2⟩ := by
  induction l generalizing h kept with
  | nil => exact .refl _
  | cons p rest ih =>
    simp only [dropClosedQueue]
    by_cases hc : env.closed p.job.id h.clock = true
    · rw [if_pos hc]
      have hend : Sim env cfg allow ⟨h, active, ahead, kept ++ p :: rest⟩
          ⟨h.tick.finish p.ending, active, ahead, kept ++ rest⟩ := by
        refine queueEnd_sim ?_ (fun j hj place => ?_) rfl rfl hnodup
        · rw [@view_finish p.job.id h.tick p.ending rfl]
          exact (JobStep.gone (h.view p.job.id (.queued p)) hc).ticked
        · rw [view_finish_other h.tick hj]
          exact view_tick h place
      exact hend.trans (ih kept _ (hend.nodup hnodup))
    · rw [if_neg hc]
      have htick : Sim env cfg allow ⟨h, active, ahead, kept ++ p :: rest⟩
          ⟨h.tick, active, ahead, kept ++ p :: rest⟩ :=
        (Quiet.tick h).sim
      have hrest := ih (kept ++ [p]) h.tick
      simp only [append_assoc, singleton_append] at hrest
      exact htick.trans (hrest hnodup)

theorem deliverTerminal_queued {a : Allow} (h : Host) (p : PreparedGen) (message : String) :
    JobSteps env p.job.id a (h.view p.job.id (.queued p))
      (((deliverTerminal env h p.job.id (.error message)).finish p.ending).view p.job.id .ended) := by
  have hev : EndsWith env (h.view p.job.id (.queued p)).place (.error message) := .sampler p message
  rw [@view_finish p.job.id _ p.ending rfl]
  rcases @deliverTerminal_view env p.job.id h (.error message) .ended with ⟨hc, hv⟩ | hv | hv <;> rw [hv]
  · exact (JobStep.gone (h.view p.job.id (.queued p)) hc).ticked
  · exact (JobStep.endParked _ p _ rfl hev).ticked
  · exact (JobStep.endSent _ _ hev).ticked

/-- **Admission** moves jobs from the queue to the active set, or ends them. -/
theorem admission_sim (l : List PreparedGen) {s : Loop} (hs : LoopOk cfg s) (hl : ∀ p ∈ l, PreparedOk p)
    (hout : Outcomes s.active) (hnodup : (Station.ids ⟨s.host, s.active, noAhead, l⟩).Nodup)
    (hmodel : ∀ j, (allow j).model cfg) :
    Sim env cfg allow ⟨s.host, s.active, noAhead, l⟩ (admission env cfg l s).station ∧
      Outcomes (admission env cfg l s).active := by
  induction l generalizing s with
  | nil => exact ⟨.refl _, hout⟩
  | cons p rest ih =>
    have hrest : ∀ q ∈ rest, PreparedOk q := fun q hq => hl q (by simp [hq])
    have htick : ∀ h : Host, SameSlots h h.tick := fun h => ⟨rfl, rfl, rfl, ⟨rfl, rfl⟩, rfl⟩
    simp only [admission]
    split
    case isTrue hlen =>
      rcases @admitFront_cases env cfg s hs p hlen with ⟨h₁, keep, hev, heq, -⟩ | ⟨h₁, e, hev, heq⟩ |
        ⟨h₁, reuse, h', seq, reused, hev, ht, hroom, heq⟩ <;> rw [heq]
      · exact ⟨hev.quiet.sim, hout⟩
      · have hs₁ := hs.evict hev
        have hquiet₁ : Sim env cfg allow ⟨s.host, s.active, noAhead, p :: rest⟩
            ⟨h₁.tick, s.active, noAhead, p :: rest⟩ := (hev.quiet.trans (.tick h₁)).sim
        have hfin := (@deliverTerminal_sends env h₁.tick p.job.id (.error e)).lists.2.2.1
        have hframe := @deliverTerminal_frame env h₁.tick p.job.id 0 (.error e)
        have hend : Sim env cfg allow ⟨h₁.tick, s.active, noAhead, [] ++ p :: rest⟩
            ⟨(deliverTerminal env h₁.tick p.job.id (.error e)).finish p.ending, s.active, noAhead, [] ++ rest⟩ := by
          refine queueEnd_sim (deliverTerminal_queued _ p e) (fun j hj place => ?_) hframe.interrupted ?_
            (hquiet₁.nodup hnodup)
          · rw [view_finish_other _ hj]
            exact hframe.view_waits hj place
          · simp [Host.finish, hfin, PreparedGen.ending]
        have hsim := hquiet₁.trans hend
        have hs₂ : LoopOk cfg { s with host := (deliverTerminal env h₁.tick p.job.id (.error e)).finish p.ending } :=
          hs₁.same (((htick h₁).trans (deliverTerminal_sends _ _ _).same).trans (.finish _ _)) hs.queue
        obtain ⟨h1, h2⟩ := ih hs₂ hrest hout (hsim.nodup hnodup)
        exact ⟨hsim.trans h1, h2⟩
      · have hs₂ : LoopOk cfg { s with host := h₁.tick } := (hs.evict hev).same (htick h₁) hs.queue
        have hsim : Sim env cfg allow ⟨s.host, s.active, noAhead, p :: rest⟩
            ⟨h', s.active ++ [admitGen p seq reused s.nextUid], noAhead, rest⟩ :=
          admit_sim seq reused s.nextUid ((hev.quiet.trans (.tick h₁)).trans ht.quiet) hmodel hnodup
        have hout' : Outcomes (s.active ++ [admitGen p seq reused s.nextUid]) := by
          intro g hg hlive
          rcases mem_append.mp hg with hg | hg
          · exact hout g hg hlive
          · rw [mem_singleton.mp hg]
            rfl
        obtain ⟨h1, h2⟩ := ih (hs₂.admitted (hl p (by simp)) ht hroom) hrest hout' (hsim.nodup hnodup)
        exact ⟨hsim.trans h1, h2⟩
    case isFalse => exact ⟨.refl _, hout⟩

theorem swept_sim (hs : LoopOk cfg s) (hj : JobsOk s) :
    Sim env cfg allow s.station (swept env s).station ∧ JobsOk (swept env s) := by
  have ht := sweepActive_turns (fun h g _ => @dropClosed_steps env cfg false h g) s.active [] s.host hs.live
  have h1 := hs.turns ht
  obtain ⟨hsim₁, hj₁⟩ := @sweep_sim env cfg false allow s _ _ hs hj ht
  simp only [swept]
  simp only [nil_append] at h1 hsim₁ hj₁
  generalize sweepActive (dropClosed env) s.host s.active = r at h1 hsim₁ hj₁ ⊢
  obtain ⟨hsame, hsub⟩ := @dropClosedQueue_ok env s.queue r.1
  have h2 := h1.same hsame fun p hp => hs.queue p (hsub.subset hp)
  have hsim₂ := hsim₁.trans (@dropClosedQueue_sim env cfg allow s.queue [] r.1 (retainActive r.2) noAhead hj₁.nodup)
  simp only [nil_append] at hsim₂
  generalize dropClosedQueue env r.1 s.queue = q at h2 hsim₂ ⊢
  have hj₂ : JobsOk { s with host := q.1, active := retainActive r.2, queue := q.2 } :=
    ⟨hj₁.outcome, hsim₂.nodup hj.nodup⟩
  split
  · have ht₃ := sweepActive_turns (fun h g _ => @reapStalled_steps env cfg false h g) (retainActive r.2) [] q.1 h2.live
    obtain ⟨hsim₃, hj₃⟩ := @sweep_sim env cfg false allow _ _ _ h2 hj₂ ht₃
    exact ⟨hsim₂.trans hsim₃, hj₃⟩
  · have hsim₃ := hsim₂.trans (.retain _)
    exact ⟨hsim₃, hj₂.outcome.retain, hsim₃.nodup hj.nodup⟩

theorem settleBlock_sim (hs : LoopOk cfg s) (hj : JobsOk s) (hmodel : ∀ j, (allow j).model cfg) :
    Sim env cfg allow s.station (settleBlock env cfg s).station ∧ JobsOk (settleBlock env cfg s) := by
  obtain ⟨hsim₁, hj₁⟩ := @swept_sim env cfg allow s hs hj
  have hok := @swept_ok env cfg s hs
  rw [settleBlock_eq]
  obtain ⟨hsim₂, hout⟩ := @admission_sim env cfg allow (swept env s).queue _ hok hok.queue hj₁.outcome hj₁.nodup hmodel
  have hsim := hsim₁.trans hsim₂
  exact ⟨hsim, hout, hsim.nodup hj.nodup⟩

/-! ### Steps -/

theorem batchCells_eq {h : Host} {batch : List BatchTok} (hg : GenOk cfg h g [])
    (hplaced : Placed h.kv batch) (hstep : g.steppable = true) :
    batchCells batch g.seq = (batchToks batch g.seq).zipIdx g.kvLen := by
  obtain ⟨-, hterm⟩ := ActiveGen.steppable_iff.mp hstep
  have hkv := (hg.mirror (by simp [hterm])).2
  rw [append_nil] at hkv
  have hcells := decoded_layout hplaced hkv
  rw [hkv, layout_append, append_right_inj] at hcells
  rw [hcells]
  congr 1
  have := hg.length_kv hstep
  rwa [hkv, length_layout] at this

theorem batchCells_eq_nil {batch : List BatchTok} {s : SeqId} (hb : ∀ b ∈ batch, b.seq ≠ s) :
    batchCells batch s = [] := by
  have : batch.filter (fun b => b.seq = s) = [] := by simpa [filter_eq_nil_iff] using hb
  simp [batchCells, this]

theorem logDecoded_self {active : List ActiveGen} (batch : List BatchTok) (decoded : JobId → List Cell)
    (hnodup : (active.map fun g => g.job.id).Nodup) (hg : g ∈ active) :
    logDecoded active batch decoded g.job.id = decoded g.job.id ++ batchCells batch g.seq := by
  have hfilter : active.filter (fun o => o.job.id = g.job.id) = [g] := by
    obtain ⟨pre, post, rfl⟩ := append_of_mem hg
    rw [map_append, map_cons, perm_middle.nodup_iff, nodup_cons, ← map_append] at hnodup
    have hnone : ∀ l : List ActiveGen, (∀ o ∈ l, o ∈ pre ++ post) →
        l.filter (fun o => decide (o.job.id = g.job.id)) = [] := by
      intro l hl
      rw [filter_eq_nil_iff]
      intro o ho heq
      exact hnodup.1 (mem_map.mpr ⟨o, hl o ho, by simpa using heq⟩)
    rw [filter_append, filter_cons, hnone pre fun o ho => by simp [ho],
      hnone post fun o ho => by simp [ho]]
    simp
  simp [logDecoded, hfilter]

theorem logDecoded_other {active : List ActiveGen} (batch : List BatchTok) (decoded : JobId → List Cell)
    (hj : ∀ g ∈ active, g.job.id ≠ j) : logDecoded active batch decoded j = decoded j := by
  have hfilter : active.filter (fun o => o.job.id = j) = [] := by simpa [filter_eq_nil_iff] using hj
  simp [logDecoded, hfilter]

/-- **A successful decode** runs the stepped jobs ahead. -/
theorem decode_sim (hm : MidOk cfg ⟨h, active, noAhead⟩) (hlive : ∀ g ∈ active, g.done = false)
    (hnodup : (Station.ids ⟨h, active, noAhead, queue⟩).Nodup) (hplaced : Placed h.kv batch)
    (howner : ∀ b ∈ batch, ∃ g ∈ active, g.seq = b.seq ∧ g.steppable = true) :
    Sim env cfg allow ⟨h, active, noAhead, queue⟩
      ⟨decodeOk h active batch, active, batchToks batch, queue⟩ := by
  have hseqs := nodup_seqs hm hlive
  have hids : (active.map fun g => g.job.id).Nodup := by
    have := (Multiset.nodup_add.mp hnodup).1
    rwa [retainActive_live hlive] at this
  rw [← Station.map_fst_places cfg] at hnodup
  refine Goes.some (by simp [ActiveGen.place, Function.comp_def]) (fun j p' hp' => ?_) (fun j hj p => ?_) hnodup
  · obtain ⟨g, hg, heq⟩ := Multiset.mem_map.mp hp'
    obtain ⟨rfl, rfl⟩ := Prod.mk.inj heq
    refine ⟨_, Multiset.mem_map_of_mem _ hg, ?_⟩
    obtain ⟨hg, hgl⟩ := mem_retainActive.mp (Multiset.mem_coe.mp hg)
    have hlog : (decodeOk h active batch).decoded g.job.id = h.decoded g.job.id ++ batchCells batch g.seq :=
      logDecoded_self batch h.decoded hids hg
    change JobSteps env g.job.id _ (h.view g.job.id (.active cfg g [] false))
      ((decodeOk h active batch).view g.job.id (.active cfg g (batchToks batch g.seq) false))
    by_cases hstep : g.steppable = true
    · have hdec : JobStep env g.job.id (allow g.job.id) (h.view g.job.id (.active cfg g [] false)) _ :=
        .decoded _ cfg g (batchToks batch g.seq) rfl hstep
      rw [← batchCells_eq (hm.gens g hg hgl) hplaced hstep] at hdec
      simp only [Host.view, hlog]
      exact hdec.ticked
    · have hne : ∀ b ∈ batch, b.seq ≠ g.seq := by
        intro b hb heq
        obtain ⟨g', hg', hseq, hstep'⟩ := howner b hb
        have hgg : g' = g := inj_on_of_nodup_map hseqs hg' hg (hseq.trans heq)
        exact hstep (hgg ▸ hstep')
      rw [batchToks_eq_nil hne]
      rw [batchCells_eq_nil hne, append_nil] at hlog
      exact view_waits _ (Nat.le_succ _) rfl rfl hlog .rfl rfl
  · -- a job that is not active is not charged
    refine view_waits p (Nat.le_succ _) rfl rfl (logDecoded_other batch h.decoded fun g hg hid => hj ?_) .rfl rfl
    rw [Multiset.map_map]
    exact Multiset.mem_map.mpr ⟨g, Multiset.mem_coe.mpr (mem_retainActive.mpr ⟨hg, hlive g hg⟩), hid⟩

theorem failSuspect_steps (h : Host) (g : ActiveGen) (message : String) (hlive : g.done = false)
    (hcause : Fault env cfg) :
    GenSteps env cfg false ⟨h, g, [], false⟩ (.of (failSeq env h { g with kvSuspect := true } message) [] false) := by
  have hnote : GenStep env cfg false ⟨h, g, [], false⟩ _ :=
    .note ⟨h, g, [], false⟩ g.stalledSince g.drafted g.accepted true (.inl rfl)
  simp only [Bool.or_true] at hnote
  exact .head hnote (failSeq_steps h { g with kvSuspect := true } message hlive hcause)

theorem failSuspect_job {a : Allow} (h : Host) (g : ActiveGen) (message : String) (hlive : g.done = false)
    (hok : ∃ h, GenOk cfg h g []) (hcause : Fault env cfg) :
    JobSteps env g.job.id a (h.view g.job.id (.active cfg g [] false))
      ((failSeq env h { g with kvSuspect := true } message).1.view g.job.id
        ((Focus.of (failSeq env h { g with kvSuspect := true } message) [] false).place cfg)) := by
  obtain ⟨h₀, hok⟩ := hok
  have hok' : GenOk cfg h₀ { g with kvSuspect := true } [] :=
    hok.congr rfl rfl rfl rfl rfl rfl rfl rfl rfl rfl rfl .inl (.inl rfl)
  have hnote : GenStep env cfg false ⟨h, g, [], false⟩ ⟨h, { g with kvSuspect := true }, [], false⟩ := by
    have := @GenStep.note env cfg false ⟨h, g, [], false⟩ g.stalledSince g.drafted g.accepted true (.inl rfl)
    simpa using this
  have hfirst : JobStep env g.job.id a (h.view g.job.id (.active cfg g [] false))
      (h.view g.job.id (.active cfg { g with kvSuspect := true } [] false)) := by
    have := @JobStep.gen env g.job.id a cfg false _ _ rfl hlive ⟨h₀, hok⟩ hnote
    simpa [Focus.place, hlive] using this
  refine .head hfirst ?_
  by_cases hheld : g.held = []
  · exact .single (@JobStep.gen env g.job.id a cfg false ⟨h, { g with kvSuspect := true }, [], false⟩ _ rfl hlive
      ⟨h₀, hok'⟩ (.fail _ { g with kvSuspect := true } message hlive (.refl _) rfl hheld hheld (by simp)
        (.inl hcause)))
  · rw [failSeq_held h g message hheld]
    have hplace : (Focus.of (h, g.suspect message) [] false).place cfg = .active cfg (g.suspect message) [] false := by
      simp [Focus.place, Focus.of, ActiveGen.suspect, hlive]
    rw [hplace]
    rcases Option.eq_none_or_eq_some g.terminalAfterDrain with hterm | ⟨t, hterm⟩
    · have hdefer : GenStep env cfg false ⟨h, { g with kvSuspect := true }, [], false⟩ _ :=
        .deferError _ message hheld rfl hterm rfl hcause
      have := @JobStep.gen env g.job.id a cfg false _ _ rfl hlive ⟨h₀, hok'⟩ hdefer
      refine .single ?_
      simpa [Focus.place, hlive, ActiveGen.suspect, hterm] using this
    · have hsame : g.suspect message = { g with kvSuspect := true } := by simp [ActiveGen.suspect, hterm]
      rw [hsame]

theorem failAll_sim (message : String) (queue : List PreparedGen) (l pre : List ActiveGen) (h : Host)
    (hl : ∀ g ∈ l, g.done = false) (hok : ∀ g ∈ l, ∃ h, GenOk cfg h g []) (hout : Outcomes (pre ++ l))
    (hnodup : (Station.ids ⟨h, pre ++ l, noAhead, queue⟩).Nodup) (hcause : Fault env cfg) :
    let r := sweepActive (fun h g => failSeq env h { g with kvSuspect := true } message) h l
    Sim env cfg allow ⟨h, pre ++ l, noAhead, queue⟩ ⟨r.1, pre ++ r.2, noAhead, queue⟩ ∧
      Outcomes (pre ++ r.2) := by
  induction l generalizing h pre with
  | nil => exact ⟨.refl _, hout⟩
  | cons g rest ih =>
    have hlive := hl g (by simp)
    have hsteps := @failSuspect_steps env cfg h g message hlive hcause
    obtain ⟨h1, h2⟩ := @focus_sim env cfg false allow h noAhead queue pre rest g _ hlive hsteps rfl
      (failSuspect_job h g message hlive (hok g (by simp)) hcause)
      (fun o _ _ => by simp [Focus.of]) hout hnodup
    simp only [Focus.of, update_noAhead] at h1 h2
    simp only [sweepActive]
    generalize failSeq env h { g with kvSuspect := true } message = r at h1 h2 ⊢
    have hsplit : pre ++ r.2 :: rest = (pre ++ [r.2]) ++ rest := by simp
    rw [hsplit] at h1 h2
    obtain ⟨h3, h4⟩ := ih (pre ++ [r.2]) r.1 (fun o ho => hl o (by simp [ho])) (fun o ho => hok o (by simp [ho]))
      h2 (h1.nodup hnodup)
    simp only [append_assoc, singleton_append] at h1 h3 h4
    exact ⟨h1.trans h3, h4⟩

theorem tornHost_quiet (h : Host) (batch : List BatchTok) : Quiet h (tornHost env h batch) :=
  ⟨Nat.le_succ _, rfl, rfl, rfl, rfl, rfl, rfl, rfl⟩

theorem clearRetained_quiet (h : Host) : Quiet h (clearRetained h) := by
  rw [clearRetained_eq]
  exact ⟨le_rfl, rfl, rfl, rfl, rfl, rfl, rfl, rfl⟩

theorem interruptAll_sim (message : String) (hdist : cfg.distributed = true) (hlive : ∀ g ∈ active, g.done = false)
    (hok : ∀ g ∈ active, ∃ h, GenOk cfg h g []) (hallow : ∀ g ∈ active, (allow g.job.id).interrupt g)
    (hwait : ∀ j p, JobSteps env j (allow j) (h.view j p) (h'.view j p)) (hfin : h'.finished = h.finished)
    (hint : h'.interrupted = h.interrupted ++ active.map fun g => interruptGen g message)
    (hfail : ∃ t, env.decodeFails t = some message) (hnodup : (Station.ids ⟨h, active, noAhead, queue⟩).Nodup) :
    Sim env cfg allow ⟨h, active, noAhead, queue⟩ ⟨h', [], noAhead, queue⟩ := by
  have hplaces : Station.places cfg ⟨h', [], noAhead, queue⟩ =
      (retainActive active : Multiset ActiveGen).map (fun g => (g.job.id, .interrupted (interruptGen g message))) +
        Station.inactive h queue := by
    have hnil : retainActive [] = [] := rfl
    simp only [Station.places, Station.inactive, hnil, hfin, hint, retainActive_live hlive, ← Multiset.coe_add,
      ← Multiset.map_coe, Multiset.map_add, Multiset.map_map, Multiset.coe_nil, Multiset.map_zero, Multiset.zero_add]
    rw [← Multiset.add_assoc, Multiset.add_comm (Multiset.map _ (queue : Multiset PreparedGen) + _), Multiset.add_assoc]
    rfl
  rw [← Station.map_fst_places cfg] at hnodup
  rw [Sim, hplaces]
  refine Goes.some (by simp [ActiveGen.place, Function.comp_def]) (fun j p' hp' => ?_) (fun j _ p => hwait j p) hnodup
  obtain ⟨g, hg, heq⟩ := Multiset.mem_map.mp hp'
  obtain ⟨rfl, rfl⟩ := Prod.mk.inj heq
  refine ⟨_, Multiset.mem_map_of_mem _ hg, ?_⟩
  have hmem := (mem_retainActive.mp (Multiset.mem_coe.mp hg)).1
  exact .head (.interrupted (h.view g.job.id (.active cfg g [] false)) cfg g message rfl hdist (hok g hmem)
    (hallow g hmem) hfail) (hwait _ _)

/-- **A failed decode** ends or interrupts the active jobs. -/
theorem decodeFailed_sim {s : Loop} {h₁ : Host} {batch : List BatchTok} (message : String)
    (hm : MidOk cfg ⟨h₁, s.active, noAhead⟩) (hlive : ∀ g ∈ s.active, g.done = false)
    (hout : Outcomes s.active) (hnodup : (Station.ids ⟨h₁, s.active, noAhead, s.queue⟩).Nodup)
    (hallow : cfg.distributed = true → ∀ g ∈ s.active, (allow g.job.id).interrupt g) {t : ℕ}
    (hfail : env.decodeFails t = some message) :
    Sim env cfg allow ⟨h₁, s.active, noAhead, s.queue⟩
        (decodeFailed env cfg { s with host := h₁ } batch message).station ∧
      Outcomes (decodeFailed env cfg { s with host := h₁ } batch message).active := by
  unfold decodeFailed
  cases hdist : cfg.distributed with
  | true =>
    have hall : s.active.filter ActiveGen.outcome = s.active :=
      filter_eq_self.mpr fun g hg => hout g hg (hlive g hg)
    simp only [if_true, hall]
    refine ⟨interruptAll_sim message hdist hlive (fun g hg => ⟨h₁, hm.gens g hg (hlive g hg)⟩) (hallow hdist)
      (fun j p => view_waits p (Nat.le_succ _) rfl rfl rfl .rfl rfl) rfl rfl ⟨t, hfail⟩ hnodup, ?_⟩
    intro g hg
    simp at hg
  | false =>
    simp only [Bool.false_eq_true, if_false]
    have hq : Quiet h₁ { clearRetained (tornHost env h₁ batch) with retained := [], synced := none } :=
      ((tornHost_quiet h₁ batch).trans (clearRetained_quiet _)).trans ⟨le_rfl, rfl, rfl, rfl, rfl, rfl, rfl, rfl⟩
    generalize { clearRetained (tornHost env h₁ batch) with retained := [], synced := none } = h₂ at hq ⊢
    have hsim₁ : Sim env cfg allow ⟨h₁, s.active, noAhead, s.queue⟩ ⟨h₂, s.active, noAhead, s.queue⟩ := hq.sim
    obtain ⟨h1, h2⟩ := @failAll_sim env cfg allow message s.queue s.active [] h₂ hlive
      (fun g hg => ⟨h₁, hm.gens g hg (hlive g hg)⟩) hout (hsim₁.nodup hnodup)
      (.decode t message hfail)
    simp only [nil_append] at h1 h2
    generalize sweepActive (fun h g => failSeq env h { g with kvSuspect := true } message) h₂ s.active = r at h1 h2 ⊢
    have hfree : Sim env cfg allow ⟨r.1, retainActive r.2, noAhead, s.queue⟩
        ⟨{ r.1 with free := freeSlots cfg (retainActive r.2) }, retainActive r.2, noAhead, s.queue⟩ :=
      Quiet.sim ⟨le_rfl, rfl, rfl, rfl, rfl, rfl, rfl, rfl⟩
    exact ⟨(hsim₁.trans h1).trans ((Sim.retain _).trans hfree), h2.retain⟩

theorem decoded_sim {s : Loop} {h₁ h' : Host} {batch : List BatchTok} {active' : List ActiveGen}
    (hm : MidOk cfg ⟨h₁, s.active, noAhead⟩) (hlive : ∀ g ∈ s.active, g.done = false)
    (hout : Outcomes s.active) (hnodup : (Station.ids ⟨h₁, s.active, noAhead, s.queue⟩).Nodup)
    (hplaced : Placed h₁.kv batch) (howner : ∀ b ∈ batch, ∃ g ∈ s.active, g.seq = b.seq ∧ g.steppable = true)
    (hmid : MidOk cfg ⟨decodeOk h₁ s.active batch, s.active, batchToks batch⟩)
    (ht : Turns env cfg drafting ⟨decodeOk h₁ s.active batch, s.active, batchToks batch⟩ ⟨h', active', noAhead⟩) :
    Sim env cfg allow ⟨h₁, s.active, noAhead, s.queue⟩ ⟨h', retainActive active', noAhead, s.queue⟩ ∧
      Outcomes (retainActive active') := by
  have h1 : Sim env cfg allow ⟨h₁, s.active, noAhead, s.queue⟩
      ⟨decodeOk h₁ s.active batch, s.active, batchToks batch, s.queue⟩ :=
    decode_sim hm hlive hnodup hplaced howner
  obtain ⟨h2, h3⟩ := @turns_sim env cfg drafting allow
    ⟨decodeOk h₁ s.active batch, s.active, batchToks batch, s.queue⟩ _
    ⟨hmid, hout, h1.nodup hnodup⟩ ht
  exact ⟨(h1.trans h2).trans (.retain _), h3.outcome.retain⟩

/-- A step that interrupts a generation is allowed to. -/
def InterruptAllowed (allow : JobId → Allow) (s s' : Loop) : Prop :=
  s'.host.interrupted ≠ s.host.interrupted → ∀ g ∈ s.active, (allow g.job.id).interrupt g

theorem interrupts_of_failed {s : Loop} {h₁ : Host} {batch : List BatchTok} {message : String}
    (hint : h₁.interrupted = s.host.interrupted) (hlive : ∀ g ∈ s.active, g.done = false)
    (hout : Outcomes s.active) (hdist : cfg.distributed = true) (hne : s.active ≠ []) :
    (decodeFailed env cfg { s with host := h₁ } batch message).host.interrupted ≠ s.host.interrupted := by
  have hall : s.active.filter ActiveGen.outcome = s.active :=
    filter_eq_self.mpr fun g hg => hout g hg (hlive g hg)
  simp only [decodeFailed, hdist, if_true, hall]
  intro heq
  have hlen := congrArg List.length heq
  simp only [tornHost, Host.tick, hint, length_append, length_map] at hlen
  exact hne (eq_nil_of_length_eq_zero (by omega))

theorem DraftOnly.quiet {h h' : Host} (hd : DraftOnly h h') : Quiet h h' := by
  obtain ⟨hclock, hchans, -, -, -, houtbox, hfin, hint, hreaped, hdec, hends⟩ := hd
  exact ⟨hclock, hchans, houtbox, hdec, hreaped, hends, hint, hfin⟩

/-- **A step of the loop.** -/
theorem stepBlock_sim (hs : LoopOk cfg s) (hj : JobsOk s) (hallow : InterruptAllowed allow s (stepBlock env cfg s).1) :
    Sim env cfg allow s.station (stepBlock env cfg s).1.station ∧ JobsOk (stepBlock env cfg s).1 := by
  have hmove := @stepBlock_moves env cfg s hs
  generalize (stepBlock env cfg s).1 = s' at hmove hallow
  suffices hsim : Sim env cfg allow s.station s'.station ∧ Outcomes s'.active from
    ⟨hsim.1, hsim.2, hsim.1.nodup hj.nodup⟩
  have hdraft : ∀ {h}, DraftOnly s.host h → Sim env cfg allow s.station ⟨h, s.active, noAhead, s.queue⟩ :=
    fun honly => honly.quiet.sim
  cases hmove with
  | rest => exact ⟨.refl _, hj.outcome⟩
  | pushFailed h active hturns =>
    obtain ⟨h1, h2⟩ := @sweep_sim env cfg false allow s _ _ hs hj hturns
    exact ⟨h1, h2.outcome⟩
  | draftFailed h honly => exact ⟨(hdraft honly).trans (Quiet.sim ⟨le_rfl, rfl, rfl, rfl, rfl, rfl, rfl, rfl⟩), hj.outcome⟩
  | decodeFailed h batch e honly howner hfail =>
    obtain ⟨h1, h2⟩ := @decodeFailed_sim env cfg allow s h batch e (hs.mid.draftOnly honly) hs.live hj.outcome
      ((hdraft honly).nodup hj.nodup)
      (fun hdist g hg => hallow (interrupts_of_failed honly.quiet.interrupted hs.live hj.outcome hdist
        (ne_nil_of_mem hg)) g hg) _ hfail
    exact ⟨(hdraft honly).trans h1, h2⟩
  | decoded drafting disabled h h' batch active honly hplaced howner hmid hturns hok =>
    obtain ⟨h1, h2⟩ := @decoded_sim env cfg drafting allow s h h' batch active (hs.mid.draftOnly honly) hs.live
      hj.outcome ((hdraft honly).nodup hj.nodup) hplaced howner hmid hturns
    exact ⟨(hdraft honly).trans h1, h2⟩

end OneBrain.Engine
