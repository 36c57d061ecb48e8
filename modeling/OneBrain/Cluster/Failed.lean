import OneBrain.Cluster.Records

/-!
# Failed epochs

An epoch is marked failed when a peer of it is lost, when a stream to one of its workers
tears, or when a job that was interrupted under it leads its recovery. Somebody should then
take it down: a handler of the failed epoch, if no job is counted; otherwise a job, which
is expected to be interrupted.

A job that is interrupted does take it down: when it reports its error, the epoch its attempt
was sent under is no longer shown (`Past`), since it has led the recovery or found the epoch
gone. But a job need not be interrupted: it may finish, or be cancelled, before its next decode
fails. The handler has left by then, and the epoch stays (`failed_epoch_stays`). `FailSafe` is
what has to be true of a run for every failed epoch to be taken down: above all, that the last
job in flight does not finish over one. In these runs a failed epoch that is shown has a
handler or a job to take care of it (`Handled`), so none is left when nobody is
(`failed_epoch_taken_down`).
-/

namespace OneBrain.Cluster

open Option OneBrain.Lib

namespace Daemon

variable {s s' : Daemon} {i k : ℕ}

/-- The epoch this node shows as head, if it was marked failed. -/
def failedActive (s : Daemon) : Option Epoch := s.shownEpoch.filter fun e => s.cluster.isEpochFailed e

/-- Handlers of an epoch. -/
def handles (e : Epoch) : Task → Bool
  | .failure (.waiting epoch) => epoch = e
  | .failure (.checked epoch) => epoch = e
  | .failure (.unloading epoch) => epoch = e
  | _ => false

/-- Somebody other than task `i` takes care of a failed epoch: a handler of it, or a job. -/
def CaredFor (s : Daemon) (i : ℕ) (e : Epoch) : Prop :=
  ∃ k, k ≠ i ∧ (handles e (s.tasks k) = true ∨ inflight (s.tasks k) = true)

/-- A job's next step is its last: its attempt is answered, or the host has ended, or it
reports an error. -/
def lastStep (s : Daemon) (i : ℕ) : Task → Bool
  | .job job =>
    match job.pc with
    | .attempting _ => s.replies i = some .finished || s.host.gone
    | .failing _ => true
    | _ => false
  | _ => false

/-- A job that reports an error after it was interrupted, and the epoch that was shown when
its attempt was sent. Solo plans, which all have epoch zero, are not meant. -/
def recoveredFrom (e : Epoch) : Task → Bool
  | .job job =>
    match job.pc with
    | .failing _ => job.under = some e && e ≠ 0
    | _ => false
  | _ => false

/-- What a step must respect for failed epochs to be taken down. -/
structure FailSafe (s : Daemon) (l : Label) : Prop where
  /-- A job ends over a failed epoch other than the one it was interrupted under only if
  somebody else takes care of it. -/
  ends : ∀ i e, l = .step i .go → s.lastStep i (s.tasks i) = true → recoveredFrom e (s.tasks i) = false →
    s.failedActive = some e → CaredFor s i e
  /-- While a request that will be refused is counted, a handler looks at the counter only if
  somebody else takes care of the epoch. -/
  looks : ∀ i e k, l = .step i .go → s.tasks i = .failure (.waiting e) → s.failedActive = some e →
    s.tasks k = .refused → CaredFor s i e
  /-- A plan is shown only if its epoch was not marked failed while it was loaded. -/
  installs : ∀ i plan, l = .step i .go → awaits i (s.tasks i) = some (.load i plan) →
    s.replies i = some .loaded → s.cluster.isEpochFailed plan.epoch = false
  /-- A stream of the active epoch tears only while somebody will take care of it. -/
  tears : ∀ e peer, l = .bridgeTears e peer → s.shownEpoch = some e →
    ∃ k, handles e (s.tasks k) = true ∨ inflight (s.tasks k) = true

/-- **The invariant**: a failed epoch that is shown has a handler, or a job is in flight. -/
def Handled (s : Daemon) : Prop :=
  ∀ e, s.failedActive = some e → ∃ k, handles e (s.tasks k) = true ∨ inflight (s.tasks k) = true

/-- No job is in flight, and no handler of a failed epoch is pending. -/
structure Unattended (s : Daemon) : Prop where
  jobs : ∀ k, inflight (s.tasks k) = false
  handlers : ∀ k pc, s.tasks k ≠ .failure pc

/-! ### What a recovery has taken down -/

theorem shownEpoch_congr (h : s'.cluster.active = s.cluster.active) : s'.shownEpoch = s.shownEpoch := by
  unfold shownEpoch headPlan
  rw [h]

theorem shownEpoch_none (h : s.cluster.active = none) : s.shownEpoch = none := by
  unfold shownEpoch headPlan
  rw [h]
  rfl

theorem shownEpoch_head {plan : Plan} (h : s.cluster.active = some ⟨.head, plan⟩) : s.shownEpoch = some plan.epoch := by
  unfold shownEpoch headPlan
  rw [h]
  rfl

/-- What is shown as head is active. -/
theorem activeEpoch_of_shown {e : Epoch} (h : s.shownEpoch = some e) : s.activeEpoch = some e := by
  obtain ⟨plan, hplan, rfl⟩ := map_eq_some_iff.mp h
  obtain ⟨v, hv, hrole⟩ := bind_eq_some_iff.mp hplan
  split at hrole
  · cases hrole
    exact congrArg epochOf hv
  · cases hrole

/-- What the place of a job says of the epoch its last attempt was sent under: the job
remembers it until it leads or follows, and then it is not shown any more. -/
def JobPast (s : Daemon) (under : Option Epoch) : JobPc → Prop
  | .starting => under = none
  | .attempting epoch => ∀ e, under = some e → epoch = some e
  | .interrupted epoch _ => ∀ e, under = some e → epoch = some e
  | .checked _ _ => True
  | .unloading _ _ _ => True
  | .done _ => True
  | _ => ∀ e, under = some e → e ≠ 0 → s.shownEpoch ≠ some e

/-- **Epochs that were shown are not on their way again**, and a job that has led or followed
has the epoch it was interrupted under behind it. -/
structure Past (s : Daemon) : Prop where
  head : ∀ e, s.shownEpoch = some e → Used s e
  used : ∀ k job e, s.tasks k = .job job → job.under = some e → Used s e
  jobs : ∀ k job, s.tasks k = .job job → JobPast s job.under job.pc

theorem JobPast.mono {under : Option Epoch} {pc : JobPc} (h : JobPast s under pc)
    (hkeeps : ∀ e, under = some e → e ≠ 0 → s.shownEpoch ≠ some e → s'.shownEpoch ≠ some e) : JobPast s' under pc := by
  cases pc with
  | naming | replanning | activating | failing => exact fun e he hne => hkeeps e he hne (h e he hne)
  | _ => exact h

theorem EpochMove.not_shown {e : Epoch} (h : EpochMove s s') (hused : Used s e) (hne : e ≠ 0)
    (hs : s.shownEpoch ≠ some e) : s'.shownEpoch ≠ some e := by
  cases h with
  | quiet hactive | stamps _ _ _ _ hactive => rwa [shownEpoch_congr hactive]
  | installs i plan hpending hactive =>
    rw [shownEpoch_head hactive]
    intro heq
    cases heq
    exact hused.apart i plan hpending hne rfl
  | tears _ _ hactive =>
    rw [shownEpoch_none hactive]
    simp

theorem EpochMove.head (h : EpochMove s s') (hpend : Pending s) (hs : ∀ e, s.shownEpoch = some e → Used s e) (e : Epoch)
    (he : s'.shownEpoch = some e) : Used s' e := by
  have hmoved (hactive : s'.cluster.active = s.cluster.active) : Used s' e :=
    (hs e (shownEpoch_congr hactive ▸ he)).move h
  cases h with
  | quiet hactive | stamps _ _ _ _ hactive => exact hmoved hactive
  | installs i plan hpending hactive htorn hcounter hmine hothers =>
    rw [shownEpoch_head hactive] at he
    cases he
    exact hpend.installed hpending hcounter hmine hothers
  | tears _ _ hactive =>
    rw [shownEpoch_none hactive] at he
    cases he

/-- A job's own step: it takes down the epoch, finds it gone, or keeps what it knows. -/
theorem TaskMove.past {job job' : Job} {c : Choice} (h : TaskMove s i (.job job) c s')
    (hs : JobPast s job.under job.pc)
    (hkeeps : ∀ e, job.under = some e → e ≠ 0 → s.shownEpoch ≠ some e → s'.shownEpoch ≠ some e)
    (ht' : s'.tasks i = .job job') :
    JobPast s' job'.under job'.pc ∧ (job'.under = job.under ∨ job'.under = s'.shownEpoch) := by
  obtain ⟨u, t', h, rfl⟩ := h
  rw [put_same] at ht'
  have hgone {epoch e : Epoch} (hactive : s.activeEpoch ≠ some epoch) (he : some epoch = some e) :
      s.shownEpoch ≠ some e := fun hshown => hactive (he ▸ activeEpoch_of_shown hshown)
  cases h with
  | jobSends =>
    cases ht'
    exact ⟨fun e he => activeEpoch_of_shown he, .inr rfl⟩
  | jobStopped before job u hsends =>
    cases ht'
    cases hsends with
    | first =>
      refine ⟨fun e he => ?_, .inl rfl⟩
      rw [show job.under = none from hs] at he
      cases he
    | counted _ _ _ _ _ hepoch | uncounted _ _ _ _ _ hepoch =>
      exact ⟨fun e he _ => hgone hepoch (hs e he), .inl rfl⟩
    | recovers => exact ⟨fun e he hne => hkeeps e he hne (hs e he hne), .inl rfl⟩
  | jobFollows _ _ _ _ _ hepoch =>
    cases ht'
    exact ⟨fun e he _ => hgone hepoch (hs e he), .inl rfl⟩
  | jobClears =>
    cases ht'
    refine ⟨fun e _ _ => ?_, .inl rfl⟩
    rw [shownEpoch_none rfl]
    simp
  | jobGivesUp job pc failed message c hpc =>
    cases ht'
    refine ⟨fun e he hne => hkeeps e he hne ?_, .inl rfl⟩
    cases pc <;> first | exact hs e he hne | cases hpc
  | jobReplans | jobPlans | jobAsks =>
    cases ht'
    exact ⟨fun e he hne => hkeeps e he hne (hs e he hne), .inl rfl⟩
  | jobInterrupted =>
    cases ht'
    exact ⟨hs, .inl rfl⟩
  | jobFinishes | jobOrphaned | jobChecks | jobLeads | jobFails =>
    cases ht'
    exact ⟨trivial, .inl rfl⟩

/-- **Every step keeps what jobs know of their epochs.** -/
theorem Past.move (hs : Past s) (hpend : Pending s) {l : Label} (h : Move s l s') : Past s' := by
  obtain ⟨hused, hkeeps, hhead⟩ : (∀ e, Used s e → Used s' e) ∧
      (∀ e, Used s e → e ≠ 0 → s.shownEpoch ≠ some e → s'.shownEpoch ≠ some e) ∧
      ∀ e, s'.shownEpoch = some e → Used s' e := by
    rcases h.epochMove_or with hmove | ⟨hnone, htasks, hcounter⟩
    · exact ⟨fun e hu => hu.move hmove, fun e hu => hmove.not_shown hu, hmove.head hpend hs.head⟩
    · have hshown : s'.shownEpoch = none := by rw [shownEpoch, hnone]; rfl
      refine ⟨fun e hu => ⟨hcounter ▸ hu.le, fun k p hp => hu.apart k p (htasks ▸ hp)⟩, ?_, ?_⟩ <;> simp [hshown]
  have hold (k : ℕ) (job : Job) (ht : s.tasks k = .job job) :
      JobPast s' job.under job.pc ∧ ∀ e, job.under = some e → Used s' e :=
    ⟨(hs.jobs k job ht).mono fun e he => hkeeps e (hs.used k job e ht he), fun e he => hused e (hs.used k job e ht he)⟩
  have hjob (k : ℕ) (job' : Job) (ht' : s'.tasks k = .job job') :
      JobPast s' job'.under job'.pc ∧ ∀ e, job'.under = some e → Used s' e := by
    rcases h.job_cases ht' with rfl | ⟨job, ran, ht, rfl⟩ | ⟨c, job, -, ht, hmove⟩
    · exact ⟨rfl, fun e he => by cases he⟩
    · exact hold k job ht
    · obtain ⟨hpast, hunder⟩ := hmove.past (hs.jobs k job ht) (fun e he => hkeeps e (hs.used k job e ht he)) ht'
      refine ⟨hpast, fun e he => ?_⟩
      rcases hunder with hsame | hshown
      · exact hused e (hs.used k job e ht (hsame ▸ he))
      · exact hhead e (hshown ▸ he)
  exact ⟨hhead, fun k job e ht => (hjob k job ht).2 e, fun k job ht => (hjob k job ht).1⟩

/-- **A job that was interrupted has taken its epoch down** when it reports its error. -/
theorem Past.taken_down (hs : Past s) {e : Epoch} (h : recoveredFrom e (s.tasks i) = true) : s.shownEpoch ≠ some e := by
  unfold recoveredFrom at h
  split at h
  · rename_i job ht
    have hpast := hs.jobs i job ht
    split at h
    · rename_i message hpc
      rw [hpc] at hpast
      rw [Bool.and_eq_true, decide_eq_true_eq, decide_eq_true_eq] at h
      exact hpast e h.1 h.2
    · cases h
  · cases h

/-! ### What is shown and marked -/

theorem failedActive_congr (hactive : s'.cluster.active = s.cluster.active)
    (hfailed : s'.cluster.failed = s.cluster.failed) : s'.failedActive = s.failedActive := by
  unfold failedActive ClusterState.isEpochFailed
  rw [shownEpoch_congr hactive, hfailed]

theorem failedActive_none (h : s.cluster.active = none) : s.failedActive = none := by
  unfold failedActive
  rw [shownEpoch_none h]
  rfl

/-- A plan that is shown and was not marked is not failed. -/
theorem failedActive_installed {plan : Plan} (hactive : s.cluster.active = some ⟨.head, plan⟩)
    (h : s.cluster.isEpochFailed plan.epoch = false) : s.failedActive = none := by
  unfold failedActive
  rw [shownEpoch_head hactive]
  simp [h]

theorem markEpochFailed_other (c : ClusterState) {e e' : Epoch} (peer : Option NodeId) (hne : e' ≠ e) :
    (c.markEpochFailed e peer).2.isEpochFailed e' = c.isEpochFailed e' := by
  unfold ClusterState.markEpochFailed ClusterState.isEpochFailed
  split
  · simp [hne]
  · split
    · rfl
    · simp [hne]
  · rfl

theorem failedActive_marked {e e' : Epoch} {peer : Option NodeId}
    (h : failedActive (s.updateCluster fun c => (c.markEpochFailed e peer).2) = some e') :
    s.shownEpoch = some e' ∧ (e' = e ∨ s.failedActive = some e') := by
  have hview : shownEpoch (s.updateCluster fun c => (c.markEpochFailed e peer).2) = s.shownEpoch :=
    shownEpoch_congr (by simp)
  unfold failedActive at h ⊢
  rw [hview, filter_eq_some_iff, updateCluster_cluster] at h
  refine ⟨h.1, ?_⟩
  by_cases hne : e' = e
  · exact .inl hne
  · rw [markEpochFailed_other _ _ hne] at h
    exact .inr (filter_eq_some_iff.mpr h)

/-! ### Steps -/

theorem Handled.keeps (hs : Handled s) (hview : s'.failedActive = s.failedActive)
    (hother : ∀ k, k ≠ i → s'.tasks k = s.tasks k)
    (hpart : ∀ e, handles e (s.tasks i) = true ∨ inflight (s.tasks i) = true →
      handles e (s'.tasks i) = true ∨ inflight (s'.tasks i) = true) : Handled s' := by
  intro e he
  rw [hview] at he
  obtain ⟨k, hk⟩ := hs e he
  refine ⟨k, ?_⟩
  by_cases hki : k = i
  · subst hki
    exact hpart e hk
  · rwa [hother k hki]

theorem Handled.of_inflight (h : inflight (s.tasks i) = true) : Handled s := fun _ _ => ⟨i, .inr h⟩

theorem Handled.of_none (h : s.failedActive = none) : Handled s := by
  intro e he
  rw [h] at he
  cases he

theorem Handled.last {c : Choice} {t : Task} (hc : c = .go) (hpast : Past s) (hsafe : FailSafe s (.step i c))
    (hlast : s.lastStep i (s.tasks i) = true) : Handled (s.put i t) := by
  subst hc
  intro e he
  have hsame : (s.put i t).failedActive = s.failedActive := failedActive_congr rfl rfl
  rw [hsame] at he
  cases hrecovered : recoveredFrom e (s.tasks i) with
  | true => exact (hpast.taken_down hrecovered (filter_eq_some_iff.mp he).1).elim
  | false =>
    obtain ⟨k, hk, hcares⟩ := hsafe.ends i e rfl hlast hrecovered he
    exact ⟨k, by rwa [put_other _ _ _ hk]⟩

theorem exists_counted (h : s.idle = false) : ∃ k, inflight (s.tasks k) = true ∨ s.tasks k = .refused := by
  unfold idle at h
  rw [List.all_eq_false] at h
  obtain ⟨k, -, hk⟩ := h
  refine ⟨k, ?_⟩
  cases ht : s.tasks k with
  | refused => exact .inr rfl
  | _ => simpa [ht, counted] using hk

theorem busy_of_failedActive {e : Epoch} (he : s.failedActive = some e)
    (hbusy : ∀ active, s.cluster.active = some active → active.role = .head → active.plan.epoch = e →
      s.idle = false) : s.idle = false := by
  obtain ⟨hshown, -⟩ := filter_eq_some_iff.mp he
  obtain ⟨plan, hplan, hepoch⟩ := map_eq_some_iff.mp hshown
  obtain ⟨v, hv, hrole⟩ := bind_eq_some_iff.mp hplan
  split at hrole
  · rename_i hhead
    cases hrole
    exact hbusy v hv hhead hepoch
  · cases hrole

theorem Handled.aside (hs : Handled s) {t : Task} (ht : s.tasks i = t) (hjob : inflight t = false)
    (hhandler : ∀ e, handles e t = false) (hview : s'.failedActive = s.failedActive)
    (hother : ∀ k, k ≠ i → s'.tasks k = s.tasks k) : Handled s' := by
  refine hs.keeps hview hother fun e hpart => ?_
  rw [ht, hhandler e, hjob] at hpart
  simp at hpart

/-- **Every step of a task keeps the invariant.** -/
theorem Handled.task (hs : Handled s) (hpast : Past s) {c : Choice} (h : TaskMove s i (s.tasks i) c s')
    (hsafe : FailSafe s (.step i c)) : Handled s' := by
  have hother := h.holder.1
  obtain ⟨u, t', h, rfl⟩ := h
  generalize ht : s.tasks i = t at h
  cases h with
  | loadPlans _ strategy | rejoinSame _ _ strategy | rejoinPlans _ _ strategy =>
    refine hs.aside ht rfl (fun _ => rfl) (failedActive_congr (by simp) ?_) hother
    cases strategy <;> rfl
  | loadInstalls _ plan hreply | rejoinInstalls _ plan hreply =>
    exact .of_none (failedActive_installed rfl (hsafe.installs i plan rfl (by rw [ht]; rfl) hreply))
  | jobFinishes _ _ hreply => exact .last rfl hpast hsafe (by simp [ht, lastStep, hreply])
  | jobOrphaned _ _ hgone => exact .last rfl hpast hsafe (by simp [ht, lastStep, hgone])
  | jobFails => exact .last rfl hpast hsafe (by simp [ht, lastStep])
  | jobSends | jobStopped | jobInterrupted | jobChecks | jobLeads | jobFollows | jobClears | jobGivesUp | jobReplans | jobPlans
  | jobAsks => exact .of_inflight (i := i) (by rw [put_same]; rfl)
  | failureEnds epoch hbusy =>
    -- It leaves an epoch that is not shown, or a job is counted.
    intro e he
    have hsame : (s.put i .ended).failedActive = s.failedActive := failedActive_congr rfl rfl
    rw [hsame] at he
    obtain ⟨k, hk⟩ := hs e he
    by_cases hki : k = i
    · subst hki
      rw [ht] at hk
      obtain rfl : epoch = e := by simpa [handles, inflight] using hk
      obtain ⟨k', hne, hcares⟩ : CaredFor s k epoch := by
        obtain ⟨k', hk' | hrefused⟩ := exists_counted (busy_of_failedActive he hbusy)
        · refine ⟨k', ?_, .inr hk'⟩
          rintro rfl
          rw [ht] at hk'
          cases hk'
        · exact hsafe.looks k epoch k' rfl ht he hrefused
      exact ⟨k', by rwa [put_other _ _ _ hne]⟩
    · exact ⟨k, by rwa [put_other _ _ _ hki]⟩
  | failureChecks | failureUnloads =>
    refine hs.keeps ?_ hother fun e hpart => ?_
    · exact failedActive_congr (by simp) (by simp)
    · rw [ht] at hpart
      rw [put_same]
      exact hpart
  | failureClears => exact .of_none (failedActive_none rfl)
  | _ => exact hs.aside ht rfl (fun _ => rfl) (failedActive_congr rfl rfl) hother

theorem inflight_ranTask (plan : Plan) (t : Task) : inflight (ranTask plan t) = inflight t := by
  cases t <;> rfl

theorem handles_ranTask (e : Epoch) (plan : Plan) (t : Task) : handles e (ranTask plan t) = handles e t := by
  cases t <;> rfl

theorem failedActive_spawn (s : Daemon) (t : Task) : (s.spawn t).failedActive = s.failedActive :=
  failedActive_congr rfl rfl

theorem Handled.spawn (hs : Handled s) (hunused : s.tasks s.fresh = .ended) (t : Task) : Handled (s.spawn t) := by
  intro e he
  rw [failedActive_spawn] at he
  obtain ⟨k, hk⟩ := hs e he
  have hne : k ≠ s.fresh := by
    rintro rfl
    rw [hunused] at hk
    simp [handles, inflight] at hk
  exact ⟨k, by rwa [spawn_tasks, Function.update_of_ne hne]⟩

/-- **Every safe step leaves a failed epoch to somebody.** -/
theorem Handled.move (hs : Handled s) (hpast : Past s) (hexcl : Exclusive s) {l : Label} (h : Move s l s')
    (hsafe : FailSafe s l) : Handled s' := by
  have hunused := hexcl.unused s.fresh (Nat.le_refl _)
  cases h with
  | starts l f t h =>
    cases h with
    | peerLost peer active hactive hrole =>
      -- The handler that is started is one of the epoch that is shown.
      intro e he
      refine ⟨s.fresh, .inl ?_⟩
      rw [failedActive_spawn] at he
      have hepoch := (failedActive_marked he).1
      simp only [shownEpoch, headPlan, hactive, bind_some, if_pos hrole, map_some, Option.some.injEq] at hepoch
      simp [handles, hepoch]
    | _ =>
      refine Handled.spawn (fun e he => hs e ?_) hunused _
      exact he
  | streams => exact hs
  | bridgeTears =>
    intro e he
    obtain ⟨hshown, rfl | hbefore⟩ := failedActive_marked he
    · exact hsafe.tears _ _ rfl hshown
    · exact hs e hbefore
  | adopt => exact .of_none rfl
  | task i c s' h => exact hs.task hpast h hsafe
  | host act s' hgone h =>
    have hframe := h.frame
    intro e he
    rw [failedActive_congr (congrArg _ hframe.cluster) (congrArg _ hframe.cluster)] at he
    obtain ⟨k, hk⟩ := hs e he
    refine ⟨k, ?_⟩
    rwa [hframe.reads (handles_ranTask e) k, hframe.reads inflight_ranTask k]

end Daemon

theorem past_of_run {labels : List Daemon.Label} {s : Daemon} (hrun : daemon.run labels = some s) : s.Past := by
  refine Machine.run_induct (M := daemon) (I := fun _ s => s.Past) ⟨fun e he => ?_, fun k job e h => ?_, fun k job h => ?_⟩
    (fun ls s l t hs hpast h => hpast.move (pending_of_run hs) (.of_next h)) hrun
  · cases he
  · cases h
  · cases h

open Daemon in
/-- **A failed epoch is taken down.** In every run whose steps respect the conditions: when
no job is in flight and no failure handler is pending, the epoch that this node shows as
head is not one that was marked failed. -/
theorem failed_epoch_taken_down (labels : List Label) (s : Daemon) (hsafe : daemon.Meets FailSafe labels)
    (hrun : daemon.run labels = some s) (hunattended : Unattended s) :
    ∀ v, s.cluster.active = some v → v.role = .head → s.cluster.isEpochFailed v.plan.epoch = false := by
  have hhandled : Handled s := by
    refine Machine.run_induct_of_meets (M := daemon) (I := fun _ s => Handled s) (.of_none rfl)
      (fun ls s l t hs hh hp h => ?_) hsafe hrun
    exact hh.move (past_of_run hs) (exclusive_of_run hs) (.of_next h) hp
  intro v hv hrole
  cases hfailed : s.cluster.isEpochFailed v.plan.epoch
  · rfl
  · have hshown : s.failedActive = some v.plan.epoch := by
      simp [failedActive, shownEpoch, headPlan, hv, hrole, hfailed]
    obtain ⟨k, hk | hk⟩ := hhandled _ hshown
    · cases htask : s.tasks k with
      | failure pc => exact (hunattended.handlers k pc htask).elim
      | _ =>
        rw [htask] at hk
        cases hk
    · rw [hunattended.jobs k] at hk
      cases hk

namespace Daemon

/-- Enough for the conditions, computed: jobs end only over epochs that did not fail, no
request is refused, and no stream tears. -/
def failCheck (s : Daemon) : Label → Bool
  | .step i .go =>
    ((!s.lastStep i (s.tasks i) || s.failedActive.isNone) &&
        (List.range s.fresh).all fun k => !counted (s.tasks k) || inflight (s.tasks k)) &&
      match awaits i (s.tasks i) with
      | some (.load _ plan) => !s.cluster.isEpochFailed plan.epoch
      | _ => true
  | .bridgeTears _ _ => false
  | _ => true

theorem FailSafe.of_check {s : Daemon} {l : Label} (hexcl : Exclusive s) (h : s.failCheck l = true) :
    FailSafe s l := by
  refine ⟨fun i e hl hlast _ he => ?_, fun i e k hl _ _ hrefused => ?_, fun i plan hl hawaits _ => ?_,
    fun e peer hl _ => ?_⟩
  · subst hl
    simp [failCheck, hlast, he] at h
  · subst hl
    simp only [failCheck, Bool.and_eq_true, List.all_eq_true, List.mem_range] at h
    have hk : k < s.fresh := by
      by_contra hle
      rw [hexcl.unused k (Nat.not_lt.mp hle)] at hrefused
      cases hrefused
    have hcounted := h.1.2 k hk
    rw [hrefused] at hcounted
    cases hcounted
  · subst hl
    simp only [failCheck, hawaits, Bool.and_eq_true] at h
    simpa using h.2
  · subst hl
    cases h

/-- Nobody is left, computed. -/
def unattendedCheck (s : Daemon) : Bool :=
  (List.range s.fresh).all fun k => !inflight (s.tasks k) &&
    match s.tasks k with
    | .failure _ => false
    | _ => true

theorem Unattended.of_check {s : Daemon} (hexcl : Exclusive s) (h : s.unattendedCheck = true) : Unattended s := by
  have hplace (k : ℕ) : inflight (s.tasks k) = false ∧ ∀ pc, s.tasks k ≠ .failure pc := by
    by_cases hk : k < s.fresh
    · have hk' := List.all_eq_true.mp h k (List.mem_range.mpr hk)
      rw [Bool.and_eq_true] at hk'
      refine ⟨by simpa using hk'.1, fun pc hpc => ?_⟩
      rw [hpc] at hk'
      cases hk'.2
    · rw [hexcl.unused k (Nat.not_lt.mp hk)]
      exact ⟨rfl, fun pc => by simp⟩
  exact ⟨fun k => (hplace k).1, fun k => (hplace k).2⟩

/-- A worker of the active plan is lost while a job runs, and the handler leaves the epoch to the
job. The job is interrupted, takes the epoch down, and finds no plan; before its error is sent
the model is loaded again. -/
def lostUnderJob : List Label :=
  loadsModel 0 ++ runsJob 1 ++ [.peerLost "worker", .step 2 .go] ++ leadsJob 1 ++
    [.host (.take none), .step 1 .go, .step 1 (.peers []), .step 1 (.planFails (.other "no plan"))] ++
    loadsModel 3 ++ [.step 1 .go]

end Daemon

open Daemon in
/-- At the end of that run epoch 2 is shown; epoch 1 is marked failed. -/
theorem failed_epoch_taken_down_reloaded : ∃ s v job, daemon.run lostUnderJob = some s ∧ Unattended s ∧
    s.tasks 1 = .job job ∧ job.under = some 1 ∧ s.cluster.active = some v ∧ s.cluster.isEpochFailed 1 = true ∧
    s.cluster.isEpochFailed v.plan.epoch = false := by
  have hsafe : daemon.Meets FailSafe lostUnderJob :=
    Machine.meets_of_checks (f := failCheck) (fun _ _ _ hrun h => .of_check (exclusive_of_run hrun) h) rfl
  obtain ⟨s, v, job, hrun, htasks, hjob, hunder, hactive, hrole, hone⟩ : ∃ s v job, daemon.run lostUnderJob = some s ∧
      s.unattendedCheck = true ∧ s.tasks 1 = .job job ∧ job.under = some 1 ∧
      s.cluster.active = some v ∧ v.role = .head ∧ s.cluster.isEpochFailed 1 = true :=
    ⟨_, _, _, rfl, rfl, rfl, rfl, rfl, rfl, rfl⟩
  have hunattended : Unattended s := .of_check (exclusive_of_run hrun) htasks
  exact ⟨s, v, job, hrun, hunattended, hjob, hunder, hactive, hone,
    failed_epoch_taken_down _ s hsafe hrun hunattended v hactive hrole⟩

open Daemon in
/-- **A failed epoch stays**: a worker is lost while a job runs. The handler of the failed
epoch leaves it to the job; the job finishes without another decode. Nobody is left, and the
failed epoch is still shown. -/
theorem failed_epoch_stays : ∃ s v, daemon.run (loadsModel 0 ++ runsJob 1 ++
      [.peerLost "worker", .step 2 .go, .host (.finish 1), .step 1 .go]) = some s ∧
    Unattended s ∧ s.cluster.active = some v ∧ v.role = .head ∧ s.cluster.isEpochFailed v.plan.epoch = true := by
  obtain ⟨s, v, hrun, htasks, hrest⟩ : ∃ s v,
      daemon.run (loadsModel 0 ++ runsJob 1 ++
        [.peerLost "worker", .step 2 .go, .host (.finish 1), .step 1 .go]) = some s ∧
      s.unattendedCheck = true ∧
      s.cluster.active = some v ∧ v.role = .head ∧ s.cluster.isEpochFailed v.plan.epoch = true :=
    ⟨_, _, rfl, rfl, rfl, rfl, rfl⟩
  exact ⟨s, v, hrun, .of_check (exclusive_of_run hrun) htasks, hrest⟩

end OneBrain.Cluster
