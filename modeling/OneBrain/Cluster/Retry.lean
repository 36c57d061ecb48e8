import OneBrain.Cluster.Recovery

/-!
# How often a job is attempted

An interrupted attempt is re-issued once with the retry counted, and not at all after that.
A re-issue is not counted when the epoch the attempt remembers is no longer the active one
and nobody recorded what became of it. The source argues that this happens at most once for
a job: once it is re-issued the host is not idle, so no rejoin handler swaps the epoch, and
any other change of the epoch goes through a leader, which records it. A load that a user
requests is neither, and so is the adoption of a plan of another head: `RetrySafe` says of a
step that it does not do these, nor forget a recorded epoch, under a job that was re-issued
without counting.

The invariants are `Job.Counted` and, in runs of safe steps, `Reissue`, which follows surgery and
the epoch that the job remembers (`Watched`); in `attempted_again` a job is attempted four times.

That a recovery ends is the subject of `OneBrain.Cluster.Ends`.
-/

namespace OneBrain.Cluster

open Function OneBrain.Lib

/-- The epoch an attempt remembers. -/
def JobPc.snapshot : JobPc → Option Epoch
  | .attempting epoch => epoch
  | .interrupted epoch _ => epoch
  | _ => none

/-- Places after a leader decided to plan again. -/
def JobPc.retrying : JobPc → Bool
  | .replanning _ _ _ => true
  | .activating _ _ _ _ => true
  | _ => false

/-- **What the counters of a job say of each other.** -/
structure Job.Counted (job : Job) : Prop where
  starting : job.pc = .starting → job.attempts = 0
  attempts : job.attempts ≤ job.retriesUsed + job.uncounted + 1
  retries : job.retriesUsed ≤ 1
  retrying : job.pc.retrying = true → job.retriesUsed = 0
  /-- The client gets one error from a job that failed, and none from any other. -/
  errors : job.errors.length = if job.pc = .done .failed then 1 else 0

namespace Daemon

variable {s s' : Daemon} {i k : ℕ}

variable {job job' : Job} {pc : JobPc} {c : Choice} {t : Task}

/-- A job at a place that is neither the start nor among those of a retry, nor the end. -/
theorem counted_at {pc' : JobPc} (h : Job.Counted { job with pc := pc }) (hpc : pc ≠ .done .failed)
    (hstart : pc' ≠ .starting) (hretry : pc'.retrying = true → job.retriesUsed = 0) (hdone : pc' ≠ .done .failed) :
    Job.Counted { job with pc := pc' } := by
  refine ⟨fun h' => (hstart h').elim, h.attempts, h.retries, hretry, ?_⟩
  have herrors := h.errors
  rw [if_neg hpc] at herrors
  rw [if_neg hdone]
  exact herrors

theorem errors_nil (h : Job.Counted { job with pc := pc }) (hpc : pc ≠ .done .failed) :
    job.errors = [] := by
  have herrors := h.errors
  rw [if_neg hpc] at herrors
  exact List.length_eq_zero_iff.mp herrors

/-- The counters of a job that sends its next attempt. -/
theorem Sends.counters {before : Job} {u : Daemon} (h : Sends s i before u job) (hc : before.Counted) :
    job.attempts ≤ job.retriesUsed + job.uncounted ∧ job.retriesUsed ≤ 1 ∧ job.errors = [] := by
  have hle := hc.attempts
  have hone : before.retriesUsed = 0 →
      before.attempts ≤ before.retriesUsed + 1 + before.uncounted ∧ before.retriesUsed + 1 ≤ 1 := fun h => by omega
  cases h with
  | first => exact ⟨by rw [hc.starting rfl]; exact Nat.zero_le _, hc.retries, errors_nil hc (by simp)⟩
  | counted job epoch error hretry =>
    have herrors : job.errors = [] := errors_nil hc (by simp)
    exact ⟨(hone hretry).1, (hone hretry).2, herrors⟩
  | uncounted job =>
    have herrors : job.errors = [] := errors_nil hc (by simp)
    exact ⟨hle, hc.retries, herrors⟩
  | recovers job =>
    have hretry := hone (hc.retrying rfl)
    have herrors : job.errors = [] := errors_nil hc (by simp)
    exact ⟨hretry.1, hretry.2, herrors⟩

/-- **One step of a job keeps its counters.** -/
theorem TaskMove.counted (h : TaskMove s i (.job job) c s') (hc : job.Counted)
    (ht' : s'.tasks i = .job job') : job'.Counted := by
  obtain ⟨u, t', h, rfl⟩ := h
  rw [put_same] at ht'
  cases h with
  | jobSends before job u hsends =>
    cases ht'
    obtain ⟨hattempts, hretries, herrors⟩ := hsends.counters hc
    exact ⟨by simp, Nat.succ_le_succ hattempts, hretries, by simp [JobPc.retrying], by rw [herrors]; rfl⟩
  | jobStopped before job u hsends =>
    cases ht'
    obtain ⟨hattempts, hretries, herrors⟩ := hsends.counters hc
    exact ⟨by simp, Nat.le_succ_of_le hattempts, hretries, by simp [JobPc.retrying], by rw [herrors]; rfl⟩
  | jobGivesUp job pc failed message c hpc =>
    cases ht'
    refine counted_at hc ?_ (by simp) (by simp [JobPc.retrying]) (by simp)
    rintro rfl
    cases hpc
  | jobReplans job failed source error lost peers hretry =>
    cases ht'
    exact counted_at hc (by simp) (by simp) (fun _ => hretry) (by simp)
  | jobPlans | jobAsks =>
    cases ht'
    exact counted_at hc (by simp) (by simp) (fun _ => hc.retrying rfl) (by simp)
  | jobFails job =>
    cases ht'
    have hnil : job.errors = [] := errors_nil hc (by simp)
    exact ⟨by simp, hc.attempts, hc.retries, by simp [JobPc.retrying], by rw [hnil]; rfl⟩
  | _ =>
    cases ht'
    exact counted_at hc (by simp) (by simp) (by simp [JobPc.retrying]) (by simp)

theorem Move.counted {l : Label} (h : Move s l s') (hs : ∀ k job, s.tasks k = .job job → job.Counted) (k : ℕ)
    (job' : Job) (ht' : s'.tasks k = .job job') : job'.Counted := by
  rcases h.job_cases ht' with rfl | ⟨job, ran, ht, rfl⟩ | ⟨c, job, -, ht, hmove⟩
  · exact ⟨fun _ => rfl, Nat.zero_le _, Nat.zero_le _, by simp, rfl⟩
  · have hc := hs k job ht
    exact ⟨hc.starting, hc.attempts, hc.retries, hc.retrying, hc.errors⟩
  · exact hmove.counted (hs k job ht) ht'

/-! ### A re-issue that did not count -/

/-- A job that was re-issued without counting, and is in flight. -/
structure Reissued (s : Daemon) (k : ℕ) (job : Job) : Prop where
  task : s.tasks k = .job job
  inflight : inflight (.job job) = true
  uncounted : 1 ≤ job.uncounted

/-- What a step must not do under such a job. -/
structure RetrySafe (s : Daemon) (l : Label) : Prop where
  /-- A load of a user does not show its plan. -/
  installs : ∀ i c source plan, l = .step i c → s.tasks i = .load source (.activating (.waiting plan)) →
    s.replies i = some .loaded → ∀ k job, ¬ Reissued s k job
  /-- No plan of another head is adopted. -/
  adopts : ∀ head plan, l = .adopt head plan → ∀ k job, ¬ Reissued s k job
  /-- A leader does not record an epoch so late that the job's is forgotten. -/
  retains : ∀ i c job v, l = .step i c → s.tasks i = .job job → job.pc.leading = some (some v) →
    ∀ k job' e, Reissued s k job' → job'.pc.snapshot = some e → v.plan.epoch < e + retainEpochs

/-- A leader that has not cleared the view: it has captured the one shown, or none yet. -/
def JobPc.Sees (view : Option ActivePlanView) : JobPc → Prop
  | .checked _ _ => True
  | .unloading failed _ _ => failed = view
  | _ => False

/-- The epoch a job remembers is that of a view, or what became of it is recorded. -/
def Accounted (s : Daemon) (view : Option ActivePlanView) (epoch : Option Epoch) : Prop :=
  ∀ e, epoch = some e → epochOf view = some e ∨ s.ledger.outcomes e ≠ none

/-- **While a job that was re-issued without counting is in flight**, only leaders are in
surgery, and none of them loses the epoch the job remembers. -/
inductive Watched (s : Daemon) (epoch : Option Epoch) : Prop
  /-- Nobody is in surgery. -/
  | calm (hcalm : ∀ k, (s.tasks k).critical = false) (h : Accounted s s.cluster.active epoch)
  /-- A leader has not cleared the view. -/
  | sees (k : ℕ) (job : Job) (ht : s.tasks k = .job job) (hpc : JobPc.Sees s.cluster.active job.pc)
      (h : Accounted s s.cluster.active epoch)
  /-- A leader has cleared it, and will record what becomes of the epoch it captured. -/
  | leads (k : ℕ) (job : Job) (failed : Option ActivePlanView) (ht : s.tasks k = .job job)
      (hpc : job.pc.leading = some failed) (hnone : s.cluster.active = none) (h : Accounted s failed epoch)

/-- What holds of the jobs that were re-issued without counting. -/
structure Reissue (s : Daemon) : Prop where
  once : ∀ k job, s.tasks k = .job job → job.uncounted ≤ 1
  watched : ∀ k job, Reissued s k job → Watched s job.pc.snapshot

variable {epoch : Option Epoch}

theorem critical_of_sees {view : Option ActivePlanView} (h : JobPc.Sees view pc) : pc.critical = true := by
  cases pc <;> first | rfl | exact h.elim

theorem not_leading_of_sees {view : Option ActivePlanView} (h : JobPc.Sees view pc) : pc.leading = none := by
  cases pc <;> first | rfl | exact h.elim

section

variable (hs : Watched s epoch) (hexcl : Exclusive s)
include hs hexcl

/-- A task in surgery is a leader. -/
theorem Watched.at_critical (hi : (s.tasks i).critical = true) :
    ∃ job, s.tasks i = .job job ∧ ((JobPc.Sees s.cluster.active job.pc ∧ Accounted s s.cluster.active epoch) ∨
      ∃ failed, job.pc.leading = some failed ∧ s.cluster.active = none ∧ Accounted s failed epoch) := by
  have hsame {k : ℕ} {job : Job} (ht : s.tasks k = .job job) (hc : job.pc.critical = true) : s.tasks i = .job job := by
    rw [hexcl.unique hi (k := k) (by rw [ht]; exact hc), ht]
  cases hs with
  | calm hcalm =>
    rw [hcalm i] at hi
    cases hi
  | sees k job ht hpc h => exact ⟨job, hsame ht (critical_of_sees hpc), .inl ⟨hpc, h⟩⟩
  | leads k job failed ht hpc hnone h =>
    exact ⟨job, hsame ht (critical_of_leading hpc), .inr ⟨failed, hpc, hnone, h⟩⟩

theorem Watched.at_leading {failed : Option ActivePlanView} (ht : s.tasks i = .job job)
    (hpc : job.pc.leading = some failed) : s.cluster.active = none ∧ Accounted s failed epoch := by
  obtain ⟨job', ht', hpart⟩ := hs.at_critical hexcl (i := i) (by rw [ht]; exact critical_of_leading hpc)
  cases ht.symm.trans ht'
  rcases hpart with ⟨hsees, -⟩ | ⟨failed', hpc', h⟩
  · rw [not_leading_of_sees hsees] at hpc
    cases hpc
  · cases hpc.symm.trans hpc'
    exact h

theorem Watched.at_looking (ht : s.tasks i = .job job) (hc : job.pc.critical = true) (hpc : job.pc.leading = none) :
    JobPc.Sees s.cluster.active job.pc ∧ Accounted s s.cluster.active epoch := by
  obtain ⟨job', ht', hpart⟩ := hs.at_critical hexcl (i := i) (by rw [ht]; exact hc)
  cases ht.symm.trans ht'
  rcases hpart with h | ⟨failed, hpc', -⟩
  · exact h
  · rw [hpc] at hpc'
    cases hpc'

/-- While the ledger is free nobody leads. -/
theorem Watched.free (hfree : s.ledger.holder = none) : Accounted s s.cluster.active epoch := by
  cases hs with
  | calm hcalm h => exact h
  | sees k job ht hpc h => exact h
  | leads k job failed ht hpc =>
    have hcalm := hexcl.calm hfree k
    rw [ht, Task.critical, critical_of_leading hpc] at hcalm
    cases hcalm

end

/-- Surgery goes on as it was where the tasks in it do. -/
theorem Watched.congr (hs : Watched s epoch) (hactive : s'.cluster.active = s.cluster.active)
    (houtcomes : s'.ledger.outcomes = s.ledger.outcomes)
    (htasks : ∀ k, ((s.tasks k).critical = false ∧ (s'.tasks k).critical = false) ∨ s'.tasks k = s.tasks k ∨
      ∃ plan, s'.tasks k = ranTask plan (s.tasks k)) : Watched s' epoch := by
  have hkept {view : Option ActivePlanView} (h : Accounted s view epoch) : Accounted s' view epoch :=
    fun e he => houtcomes ▸ h e he
  have hjob {k : ℕ} {job : Job} (ht : s.tasks k = .job job) (hc : job.pc.critical = true) :
      ∃ job', s'.tasks k = .job job' ∧ job'.pc = job.pc := by
    rcases htasks k with ⟨hcalm, -⟩ | heq | ⟨plan, heq⟩
    · rw [ht, Task.critical, hc] at hcalm
      cases hcalm
    · exact ⟨job, heq.trans ht, rfl⟩
    · exact ⟨{ job with ranOn := some plan }, by rw [heq, ht]; rfl, rfl⟩
  cases hs with
  | calm hcalm h =>
    refine .calm (fun k => ?_) (hactive ▸ hkept h)
    rcases htasks k with ⟨-, hcalm'⟩ | heq | ⟨plan, heq⟩
    · exact hcalm'
    · rw [heq, hcalm k]
    · rw [heq, ranTask_critical, hcalm k]
  | sees k job ht hpc h =>
    obtain ⟨job', ht', hpc'⟩ := hjob ht (critical_of_sees hpc)
    exact .sees k job' ht' (by rwa [hactive, hpc']) (hactive ▸ hkept h)
  | leads k job failed ht hpc hnone h =>
    obtain ⟨job', ht', hpc'⟩ := hjob ht (critical_of_leading hpc)
    exact .leads k job' failed ht' (by rwa [hpc']) (hactive.trans hnone) (hkept h)

/-- A new attempt remembers the epoch that is active. -/
theorem Watched.snapshot {epoch' : Option Epoch} (hs : Watched s epoch)
    (h : ∀ e, epoch' = some e → s.activeEpoch = some e ∨ epoch = some e) : Watched s epoch' := by
  have hnew {view : Option ActivePlanView} (hview : ∀ e, s.activeEpoch = some e → epochOf view = some e)
      (hknown : Accounted s view epoch) : Accounted s view epoch' :=
    fun e he => (h e he).elim (fun hactive => .inl (hview e hactive)) (hknown e)
  cases hs with
  | calm hcalm h => exact .calm hcalm (hnew (fun e he => he) h)
  | sees k job ht hpc h => exact .sees k job ht hpc (hnew (fun e he => he) h)
  | leads k job failed ht hpc hnone h =>
    refine .leads k job failed ht hpc hnone (hnew (fun e he => ?_) h)
    unfold activeEpoch at he
    rw [hnone] at he
    cases he

/-- What a leader records is the epoch it captured; what was recorded before is kept while it is close. -/
theorem Accounted.record {view : Option ActivePlanView} (h : Accounted s view epoch) (outcome : EpochOutcome)
    {e : Epoch} (he : epoch = some e) (hnear : ∀ v, view = some v → v.plan.epoch < e + retainEpochs) :
    (s.ledger.record (epochOf view) outcome).outcomes e ≠ none := by
  have hknown := h e he
  cases view with
  | none => exact hknown.resolve_left (by simp [epochOf])
  | some v =>
    show (if v.plan.epoch < e + retainEpochs then update s.ledger.outcomes v.plan.epoch (some outcome) e else none) ≠ none
    rw [if_pos (hnear v rfl)]
    by_cases heq : e = v.plan.epoch
    · rw [heq, update_self]
      simp
    · rw [update_of_ne heq]
      exact hknown.resolve_left fun h => heq (Option.some.inj h).symm

/-- **One step of a task under such a job.** -/
theorem Watched.task (hs : Watched s epoch) (hexcl : Exclusive s) (h : TaskMove s i (s.tasks i) c s')
    (hbusy : s.idle = false)
    (hload : ∀ source plan, s.tasks i = .load source (.activating (.waiting plan)) → s.replies i ≠ some .loaded)
    (hnear : ∀ job v e, s.tasks i = .job job → job.pc.leading = some (some v) → epoch = some e →
      v.plan.epoch < e + retainEpochs) : Watched s' epoch := by
  have hother := h.holder.1
  have hquiet (hactive : s'.cluster.active = s.cluster.active) (houtcomes : s'.ledger.outcomes = s.ledger.outcomes)
      (hbefore : (s.tasks i).critical = false) (hafter : (s'.tasks i).critical = false) : Watched s' epoch := by
    refine hs.congr hactive houtcomes fun k => ?_
    by_cases hk : k = i
    · exact hk ▸ .inl ⟨hbefore, hafter⟩
    · exact .inr (.inl (hother k hk))
  have hresolves {job : Job} {failed : Option ActivePlanView} {outcome : EpochOutcome} (ht : s.tasks i = .job job)
      (hpc : job.pc.leading = some failed) (hafter : (s'.tasks i).critical = false)
      (houtcomes : s'.ledger.outcomes = (s.ledger.record (epochOf failed) outcome).outcomes) : Watched s' epoch := by
    obtain ⟨-, hknown⟩ := hs.at_leading hexcl ht hpc
    refine .calm (fun k => ?_) fun e he => .inr ?_
    · by_cases hk : k = i
      · rw [hk, hafter]
      · rw [hother k hk, Bool.eq_false_iff]
        exact fun hc => hk (hexcl.unique hc (by rw [ht]; exact critical_of_leading hpc))
    · rw [houtcomes]
      exact hknown.record outcome he fun v hv => hnear job v e ht (hv ▸ hpc) he
  obtain ⟨u, t', h, rfl⟩ := h
  generalize ht : s.tasks i = t at h
  cases h with
  | loadInstalls source plan hreply => exact (hload source plan ht hreply).elim
  | jobSends _ _ _ hsends | jobStopped _ _ _ hsends =>
    cases hsends with
    | recovers => exact hresolves ht rfl (by rw [put_same]; rfl) rfl
    | _ => exact hquiet rfl rfl (by rw [ht]; rfl) (by rw [put_same]; rfl)
  | jobChecks _ _ _ hfree => exact .sees i _ (put_same ..) trivial (hs.free hexcl hfree)
  | jobLeads =>
    obtain ⟨-, hknown⟩ := hs.at_looking hexcl ht rfl rfl
    exact .sees i _ (put_same ..) (by simp [JobPc.Sees]) (by simpa [Accounted] using hknown)
  | jobClears job failed =>
    -- The view that is cleared is the one the leader saw.
    obtain ⟨hsees, hknown⟩ := hs.at_looking hexcl ht rfl rfl
    obtain rfl : failed = s.cluster.active := hsees
    exact .leads i _ _ (put_same ..) rfl rfl hknown
  | jobGivesUp job pc failed message c hpc => exact hresolves ht hpc (by rw [put_same]; rfl) rfl
  | jobReplans _ failed | jobPlans _ failed | jobAsks _ failed =>
    obtain ⟨hnone, hknown⟩ := hs.at_leading hexcl ht rfl
    exact .leads i _ failed (put_same ..) rfl (by simpa using hnone) (by simpa [Accounted] using hknown)
  | failureChecks _ _ _ _ _ _ hidle | rejoinLocks _ _ _ _ _ _ hidle =>
    rw [hbusy] at hidle
    cases hidle
  | failureUnloads | failureClears | rejoinNoPlan | rejoinSame | rejoinPlans | rejoinAsks | rejoinInstalls | rejoinAborts
  | rejoinFails =>
    -- Only jobs are in surgery.
    obtain ⟨job, hjob, -⟩ := hs.at_critical hexcl (i := i) (by rw [ht]; rfl)
    cases ht.symm.trans hjob
  | rejoinEnds pc hpc =>
    refine hquiet rfl rfl ?_ (by rw [put_same]; rfl)
    rcases hpc with rfl | rfl <;> rw [ht] <;> rfl
  | _ => exact hquiet (by simp) (by simp) (by rw [ht]; rfl) (by rw [put_same]; rfl)

/-- A job in flight is counted. -/
theorem not_idle (hexcl : Exclusive s) (hr : Reissued s k job) : s.idle = false := by
  have hk : k < s.fresh := by
    by_contra hle
    have htask := hr.task
    rw [hexcl.unused k (by omega)] at htask
    cases htask
  apply List.all_eq_false.mpr
  exact ⟨k, List.mem_range.mpr hk, by simp [hr.task, counted, hr.inflight]⟩

/-- **One step of the daemon under such a job.** -/
theorem Watched.move {l : Label} (hexcl : Exclusive s) (h : Move s l s') (hsafe : RetrySafe s l) (hr : Reissued s k job)
    (hs : Watched s job.pc.snapshot) : Watched s' job.pc.snapshot := by
  cases h with
  | starts l f t h =>
    have ht : t.critical = false := by cases h <;> rfl
    refine hs.congr (by cases h <;> simp) rfl fun k => ?_
    rw [spawn_tasks]
    by_cases hk : k = s.fresh
    · subst hk
      exact .inl ⟨by rw [hexcl.unused _ (Nat.le_refl _)]; rfl, by rw [updateCluster_fresh, update_self, ht]⟩
    · exact .inr (.inl (update_of_ne hk ..))
  | streams | bridgeTears => exact hs.congr (by simp) rfl fun k => .inr (.inl rfl)
  | adopt head plan => exact (hsafe.adopts head plan rfl k job hr).elim
  | task i c s' h =>
    exact hs.task hexcl h (not_idle hexcl hr)
      (fun source plan ht hreply => hsafe.installs i c source plan rfl ht hreply k job hr)
      fun job' v e ht hpc => hsafe.retains i c job' v rfl ht hpc k job e hr
  | host act s' hgone h =>
    exact hs.congr (by rw [h.frame.cluster]) (by rw [h.frame.ledger]) fun k => .inr (h.frame.tasks k)

/-! ### Re-issues -/

/-- What a job's step does to its uncounted re-issues and to the epoch it remembers. -/
inductive Reissues (s s' : Daemon) (job job' : Job) : Prop
  | keeps (huncounted : job'.uncounted = job.uncounted)
      (hsnap : ∀ e, job'.pc.snapshot = some e → s'.activeEpoch = some e ∨ job.pc.snapshot = some e)
  /-- It is re-issued without counting, while the ledger is free. -/
  | again (e : Epoch) (huncounted : job'.uncounted = job.uncounted + 1) (hfree : s.ledger.holder = none)
      (hfree' : s'.ledger.holder = none) (hsnap : job.pc.snapshot = some e) (hactive : s.activeEpoch ≠ some e)
      (hnone : s.ledger.outcomes e = none) (hsnap' : ∀ e, job'.pc.snapshot = some e → s'.activeEpoch = some e)

theorem TaskMove.reissues (h : TaskMove s i (.job job) c s') (ht' : s'.tasks i = .job job') :
    inflight (.job job) = true ∧ Reissues s s' job job' := by
  obtain ⟨u, t', h, rfl⟩ := h
  rw [put_same] at ht'
  cases h with
  | jobSends before job u hsends =>
    -- An attempt remembers the active epoch.
    cases ht'
    cases hsends with
    | uncounted job epoch error hretry hfree hepoch hnone =>
      exact ⟨rfl, .again epoch rfl hfree hfree rfl hepoch hnone fun e he => he⟩
    | _ => exact ⟨rfl, .keeps rfl fun e he => .inl he⟩
  | jobStopped before job u hsends =>
    cases ht'
    cases hsends with
    | uncounted job epoch error hretry hfree hepoch hnone =>
      exact ⟨rfl, .again epoch rfl hfree hfree rfl hepoch hnone fun e he => by cases he⟩
    | _ => exact ⟨rfl, .keeps rfl fun e he => by cases he⟩
  | jobInterrupted =>
    cases ht'
    exact ⟨rfl, .keeps rfl fun e he => .inr he⟩
  | jobGivesUp job pc failed message c hpc =>
    cases ht'
    refine ⟨?_, .keeps rfl fun e he => by cases he⟩
    cases pc <;> first | rfl | cases hpc
  | _ =>
    cases ht'
    exact ⟨rfl, .keeps rfl fun e he => by cases he⟩

/-- The second re-issue that does not count does not come. -/
theorem Reissue.once_more (hs : Reissue s) (hexcl : Exclusive s) (ht : s.tasks k = .job job)
    (hflight : inflight (.job job) = true) (h : Reissues s s' job job') : job'.uncounted ≤ 1 := by
  cases h with
  | keeps huncounted => exact huncounted ▸ hs.once k job ht
  | again e huncounted hfree _ hsnap hactive hnone =>
    -- The epoch is neither active nor recorded, and nobody leads.
    have hzero : job.uncounted = 0 := by
      by_contra hne
      have hwatched := hs.watched k job ⟨ht, hflight, by omega⟩
      exact (hwatched.free hexcl hfree e hsnap).elim hactive fun h => h hnone
    omega

theorem Reissue.move (hs : Reissue s) (hexcl : Exclusive s) {l : Label} (h : Move s l s') (hsafe : RetrySafe s l) :
    Reissue s' := by
  constructor
  · intro k job' ht'
    rcases h.job_cases ht' with rfl | ⟨job, ran, ht, rfl⟩ | ⟨c, job, -, ht, hmove⟩
    · exact Nat.zero_le _
    · exact hs.once k job ht
    · obtain ⟨hflight, hre⟩ := hmove.reissues ht'
      exact hs.once_more hexcl ht hflight hre
  · intro k job' hr'
    have hgoes (job : Job) (hr : Reissued s k job) : Watched s' job.pc.snapshot := (hs.watched k job hr).move hexcl h hsafe hr
    rcases h.job_cases hr'.task with rfl | ⟨job, ran, ht, rfl⟩ | ⟨c, job, -, ht, hmove⟩
    · cases hr'.uncounted
    · exact hgoes job ⟨ht, hr'.inflight, hr'.uncounted⟩
    · obtain ⟨hflight, hre⟩ := hmove.reissues hr'.task
      cases hre with
      | keeps huncounted hsnap => exact (hgoes job ⟨ht, hflight, huncounted ▸ hr'.uncounted⟩).snapshot hsnap
      | again e _ _ hfree' _ _ _ hsnap' =>
        exact .calm ((hexcl.move h).calm hfree') fun e he => .inl (hsnap' e he)

end Daemon

variable {labels : List Daemon.Label} {s : Daemon}

end OneBrain.Cluster
