import OneBrain.Cluster.Daemon

/-!
# What a step of the daemon can do

The step function of `Daemon` unfolded once: `TaskMove` has one constructor for each exit
of each piece of a task, `Move` adds the host and what comes from outside. Every invariant
of the daemon is a case analysis over these (`Move.of_next`), and never unfolds the step
function again.
-/

namespace OneBrain.Cluster

open OneBrain.Lib

/-- The captured view of a leader that has cleared the active one. -/
def JobPc.leading : JobPc → Option (Option ActivePlanView)
  | .naming failed _ _ => some failed
  | .replanning failed _ _ => some failed
  | .activating failed _ _ _ => some failed
  | _ => none

section cluster

variable (c : ClusterState) (e : Epoch) (peer : Option NodeId)

@[simp] theorem markEpochFailed_active : (c.markEpochFailed e peer).2.active = c.active := by
  unfold ClusterState.markEpochFailed
  split
  · rfl
  · split <;> rfl
  · rfl

@[simp] theorem markEpochFailed_source : (c.markEpochFailed e peer).2.loadedSource = c.loadedSource := by
  unfold ClusterState.markEpochFailed
  split
  · rfl
  · split <;> rfl
  · rfl

@[simp] theorem markEpochFailed_counter : (c.markEpochFailed e peer).2.epochCounter = c.epochCounter := by
  unfold ClusterState.markEpochFailed
  split
  · rfl
  · split <;> rfl
  · rfl

@[simp] theorem markActiveFailed_active : c.markActiveFailed.active = c.active := by
  unfold ClusterState.markActiveFailed
  split <;> simp

@[simp] theorem markActiveFailed_counter : c.markActiveFailed.epochCounter = c.epochCounter := by
  unfold ClusterState.markActiveFailed
  split <;> simp

end cluster

namespace Daemon

variable {s s' : Daemon} {i k : ℕ}

/-! ### Parts of the state after the operations -/

section fields

variable (s : Daemon) (i : ℕ) (t : Task)

@[simp] theorem put_same : (s.put i t).tasks i = t := Function.update_self ..

@[simp] theorem put_other {k : ℕ} (h : k ≠ i) : (s.put i t).tasks k = s.tasks k :=
  Function.update_of_ne h ..

@[simp] theorem spawn_cluster : (s.spawn t).cluster = s.cluster := rfl
@[simp] theorem spawn_fresh : (s.spawn t).fresh = s.fresh + 1 := rfl
@[simp] theorem spawn_replies : (s.spawn t).replies = s.replies := rfl
@[simp] theorem spawn_tasks : (s.spawn t).tasks = Function.update s.tasks s.fresh t := rfl

attribute [simp] install ClusterState.requestRejoinReplan ClusterState.clearLoaded ClusterState.takeRejoinRequest

variable (model : String) (strategy : Strategy) (assignments : List Assignment)

/-- The state with the epoch taken. -/
abbrev stamped : Daemon := (s.stamp model strategy assignments).2

/-- The plan with its epoch. -/
abbrev stampedPlan : Plan := (s.stamp model strategy assignments).1

@[simp] theorem stamped_host : (s.stamped model strategy assignments).host = s.host := by
  cases strategy <;> rfl

@[simp] theorem stamped_tasks : (s.stamped model strategy assignments).tasks = s.tasks := by
  cases strategy <;> rfl

@[simp] theorem stamped_replies : (s.stamped model strategy assignments).replies = s.replies := by
  cases strategy <;> rfl

@[simp] theorem stamped_torn : (s.stamped model strategy assignments).torn = s.torn := by
  cases strategy <;> rfl

@[simp] theorem stamped_active : (s.stamped model strategy assignments).cluster.active = s.cluster.active := by
  cases strategy <;> rfl

@[simp] theorem stamped_same : (s.stamped model strategy assignments).ledger = s.ledger ∧
    (s.stamped model strategy assignments).fresh = s.fresh ∧
    (s.stamped model strategy assignments).replanned = s.replanned ∧
    (s.stamped model strategy assignments).cluster.loadedSource = s.cluster.loadedSource := by
  cases strategy <;> exact ⟨rfl, rfl, rfl, rfl⟩

end fields

/-! ### Tasks -/

/-- Tell the host to unload. -/
def tell (s : Daemon) (i : ℕ) : Daemon := if s.host.gone then s else s.send i (.unload i)

section tell

variable (s : Daemon) (i : ℕ)

theorem tell_cases : (s.host.gone = true ∧ s.tell i = s) ∨ s.host.gone = false ∧ s.tell i = s.send i (.unload i) := by
  unfold tell
  cases hgone : s.host.gone
  · exact .inr ⟨rfl, rfl⟩
  · exact .inl ⟨rfl, rfl⟩

@[simp] theorem tell_cluster : (s.tell i).cluster = s.cluster := by unfold tell; split <;> rfl
@[simp] theorem tell_ledger : (s.tell i).ledger = s.ledger := by unfold tell; split <;> rfl
@[simp] theorem tell_tasks : (s.tell i).tasks = s.tasks := by unfold tell; split <;> rfl
@[simp] theorem tell_same : (s.tell i).fresh = s.fresh ∧ (s.tell i).torn = s.torn ∧
    (s.tell i).replanned = s.replanned ∧ (s.tell i).host.model = s.host.model ∧
    (s.tell i).host.running = s.host.running := by
  unfold tell
  split <;> exact ⟨rfl, rfl, rfl, rfl, rfl⟩

@[simp] theorem tell_replies {k : ℕ} (h : k ≠ i) : (s.tell i).replies k = s.replies k := by
  unfold tell
  split
  · rfl
  · simp [h]

end tell

/-- How a job comes to send an attempt: what it was, the state the attempt is sent from, and
the job with its counters as they are then. -/
inductive Sends (s : Daemon) (i : ℕ) : Job → Daemon → Job → Prop
  | first (job : Job) : Sends s i { job with pc := .starting } s job
  /-- It follows a recovery that was recorded. -/
  | counted (job : Job) (epoch : Epoch) (error : String) (hretry : job.retriesUsed = 0)
      (hfree : s.ledger.holder = none) (hepoch : s.activeEpoch ≠ some epoch)
      (hrecorded : s.ledger.outcomes epoch ≠ none) :
    Sends s i { job with pc := .interrupted (some epoch) error } s { job with retriesUsed := job.retriesUsed + 1 }
  /-- Nobody recorded what became of the epoch. -/
  | uncounted (job : Job) (epoch : Epoch) (error : String) (hretry : job.retriesUsed = 0)
      (hfree : s.ledger.holder = none) (hepoch : s.activeEpoch ≠ some epoch)
      (hnone : s.ledger.outcomes epoch = none) (hsource : s.cluster.loadedSource.isSome = true) :
    Sends s i { job with pc := .interrupted (some epoch) error } s { job with uncounted := job.uncounted + 1 }
  | recovers (job : Job) (failed : Option ActivePlanView) (source : LoadedSource) (lost : String) (plan : Plan)
      (hreply : s.replies i = some .loaded) :
    Sends s i { job with pc := .activating failed source lost (.waiting plan) }
      ((s.install plan source).record (epochOf failed) (.reloaded lost)).unlock
      { job with retriesUsed := job.retriesUsed + 1 }

/-- One piece of a task, by what it was and what was chosen: what becomes of the state it
shares with the others, and of itself. -/
inductive Piece (s : Daemon) (i : ℕ) : Task → Choice → Daemon → Task → Prop
  /-- A load ends before the host is asked. -/
  | loadEnds (source : LoadedSource) (pc : LoadPc) (c : Choice) (hpc : ∀ plan, pc ≠ .activating (.waiting plan)) :
    Piece s i (.load source pc) c s .ended
  | loadPlans (source : LoadedSource) (strategy : Strategy) (assignments : List Assignment) :
    Piece s i (.load source .planning) (.plans strategy assignments) (s.stamped source.name strategy assignments)
      (.load source (.planned (s.stampedPlan source.name strategy assignments)))
  | loadStarts (source : LoadedSource) (plan : Plan) :
    Piece s i (.load source (.planned plan)) .go s (.load source (.activating (.starting plan)))
  | loadAsks (source : LoadedSource) (plan : Plan) (hgone : s.host.gone = false) :
    Piece s i (.load source (.activating (.starting plan))) .go (s.send i (.load i plan))
      (.load source (.activating (.waiting plan)))
  | loadInstalls (source : LoadedSource) (plan : Plan) (hreply : s.replies i = some .loaded) :
    Piece s i (.load source (.activating (.waiting plan))) .go (s.install plan source) .ended
  | loadFails (source : LoadedSource) (plan : Plan)
      (hfail : (∃ message, s.replies i = some (.loadFailed message)) ∨ s.host.gone = true) :
    Piece s i (.load source (.activating (.waiting plan))) .go (s.updateCluster ClusterState.clearLoaded) .ended
  | jobSends (before job : Job) (u : Daemon) (hsends : Sends s i before u job) (hgone : u.host.gone = false) :
    Piece s i (.job before) .go (u.send i (.generate i))
      (.job { job with
        pc := .attempting u.activeEpoch, attempts := job.attempts + 1
        under := u.shownEpoch, ranOn := none })
  | jobStopped (before job : Job) (u : Daemon) (hsends : Sends s i before u job) (hgone : u.host.gone = true) :
    Piece s i (.job before) .go u (.job { job with pc := .failing shuttingDown })
  | jobFinishes (job : Job) (epoch : Option Epoch) (hreply : s.replies i = some .finished) :
    Piece s i (.job { job with pc := .attempting epoch }) .go s (.job { job with pc := .done .finished })
  | jobInterrupted (job : Job) (epoch : Option Epoch) (error : String)
      (hreply : s.replies i = some (.interrupted error)) :
    Piece s i (.job { job with pc := .attempting epoch }) .go s (.job { job with pc := .interrupted epoch error })
  | jobOrphaned (job : Job) (epoch : Option Epoch) (hgone : s.host.gone = true) :
    Piece s i (.job { job with pc := .attempting epoch }) .go s (.job { job with pc := .done .hostGone })
  | jobChecks (job : Job) (epoch : Option Epoch) (error : String) (hfree : s.ledger.holder = none)
      (hepoch : ∀ e, epoch = some e → s.activeEpoch = some e) :
    Piece s i (.job { job with pc := .interrupted epoch error }) .go (s.lock i)
      (.job { job with pc := .checked epoch error })
  | jobLeads (job : Job) (epoch : Option Epoch) (error : String) :
    Piece s i (.job { job with pc := .checked epoch error }) .go
      ((s.updateCluster ClusterState.markActiveFailed).tell i)
      (.job { job with pc := .unloading s.cluster.active s.cluster.loadedSource error })
  /-- A follower of a recovery that failed, or that has no retry left. -/
  | jobFollows (job : Job) (epoch : Epoch) (error message : String) (hfree : s.ledger.holder = none)
      (hepoch : s.activeEpoch ≠ some epoch) :
    Piece s i (.job { job with pc := .interrupted (some epoch) error }) .go s (.job { job with pc := .failing message })
  | jobClears (job : Job) (failed : Option ActivePlanView) (source : Option LoadedSource) (error : String)
      (c : Choice) (hconfirmed : c = .timeout ∨ s.replies i = some .unloaded ∨ s.host.gone = true) :
    Piece s i (.job { job with pc := .unloading failed source error }) c
      ((s.updateCluster fun c => c.setActive none).tear (epochOf failed))
      (.job { job with pc := .naming failed source error })
  /-- While it waits for the host, a leader gives up only when the host failed. -/
  | jobGivesUp (job : Job) (pc : JobPc) (failed : Option ActivePlanView) (message : String) (c : Choice)
      (hpc : pc.leading = some failed)
      (hwaits : ∀ v source lost plan, pc = .activating v source lost (.waiting plan) →
        (∃ m, s.replies i = some (.loadFailed m)) ∨ s.host.gone = true) :
    Piece s i (.job { job with pc := pc }) c
      ((s.updateCluster ClusterState.clearLoaded).record (epochOf failed) (.failed message)).unlock
      (.job { job with pc := .failing message })
  | jobReplans (job : Job) (failed : Option ActivePlanView) (source : LoadedSource) (error lost : String)
      (peers : List PeerStatus) (hretry : job.retriesUsed = 0) :
    Piece s i (.job { job with pc := .naming failed (some source) error }) (.peers peers)
      { s with replanned := s.replanned ++ (epochOf failed).toList }
      (.job { job with pc := .replanning failed source lost })
  | jobPlans (job : Job) (failed : Option ActivePlanView) (source : LoadedSource) (lost : String)
      (strategy : Strategy) (assignments : List Assignment) :
    Piece s i (.job { job with pc := .replanning failed source lost }) (.plans strategy assignments)
      (s.stamped source.name strategy assignments)
      (.job { job with
        pc := .activating failed source lost (.starting (s.stampedPlan source.name strategy assignments)) })
  | jobAsks (job : Job) (failed : Option ActivePlanView) (source : LoadedSource) (lost : String) (plan : Plan)
      (hgone : s.host.gone = false) :
    Piece s i (.job { job with pc := .activating failed source lost (.starting plan) }) .go
      (s.send i (.load i plan)) (.job { job with pc := .activating failed source lost (.waiting plan) })
  | jobFails (job : Job) (message : String) (hroom : s.full i = false) :
    Piece s i (.job { job with pc := .failing message }) .go s
      (.job { job with pc := .done .failed, errors := job.errors ++ [message] })
  | refusedEnds : Piece s i .refused .go s .ended
  /-- The failed epoch is no longer the active one, or a job is counted. -/
  | failureEnds (epoch : Epoch)
      (hbusy : ∀ active, s.cluster.active = some active → active.role = .head → active.plan.epoch = epoch →
        s.idle = false) :
    Piece s i (.failure (.waiting epoch)) .go s .ended
  | failureChecks (epoch : Epoch) (active : ActivePlanView) (hfree : s.ledger.holder = none)
      (hactive : s.cluster.active = some active) (hrole : active.role = .head)
      (hepoch : active.plan.epoch = epoch) (hidle : s.idle = true) :
    Piece s i (.failure (.waiting epoch)) .go (s.lock i) (.failure (.checked epoch))
  | failureUnloads (epoch : Epoch) :
    Piece s i (.failure (.checked epoch)) .go (s.tell i) (.failure (.unloading epoch))
  | failureClears (epoch : Epoch) (c : Choice)
      (hconfirmed : c = .timeout ∨ s.replies i = some .unloaded ∨ s.host.gone = true) :
    Piece s i (.failure (.unloading epoch)) c
      ((s.updateCluster fun c => (c.setActive none).clearLoaded).tear (some epoch)).unlock .ended
  | rejoinEnds (pc : RejoinPc) (hpc : pc = .starting ∨ pc = .waiting) : Piece s i (.rejoin pc) .go s .ended
  | rejoinTakes (hrequest : s.cluster.rejoinRequested = true) :
    Piece s i (.rejoin .starting) .go (s.updateCluster fun c => c.takeRejoinRequest.2) (.rejoin .waiting)
  | rejoinDefers (hbusy : s.idle = false) :
    Piece s i (.rejoin .waiting) .go (s.updateCluster ClusterState.requestRejoinReplan) .ended
  | rejoinLocks (source : LoadedSource) (active : ActivePlanView) (hfree : s.ledger.holder = none)
      (hsource : s.cluster.loadedSource = some source) (hactive : s.cluster.active = some active)
      (hrole : active.role = .head) (hidle : s.idle = true) :
    Piece s i (.rejoin .waiting) .go (s.lock i) (.rejoin (.planning source active))
  | rejoinNoPlan (source : LoadedSource) (active : ActivePlanView) (e : PlanLoadError) :
    Piece s i (.rejoin (.planning source active)) (.planFails e) s.unlock .ended
  | rejoinSame (source : LoadedSource) (active : ActivePlanView) (strategy : Strategy)
      (assignments : List Assignment) :
    Piece s i (.rejoin (.planning source active)) (.plans strategy assignments)
      (s.stamped source.name strategy assignments).unlock .ended
  | rejoinPlans (source : LoadedSource) (active : ActivePlanView) (strategy : Strategy)
      (assignments : List Assignment) :
    Piece s i (.rejoin (.planning source active)) (.plans strategy assignments)
      (s.stamped source.name strategy assignments)
      (.rejoin (.activating source (.starting (s.stampedPlan source.name strategy assignments))))
  | rejoinAsks (source : LoadedSource) (plan : Plan) (hgone : s.host.gone = false) :
    Piece s i (.rejoin (.activating source (.starting plan))) .go (s.send i (.load i plan))
      (.rejoin (.activating source (.waiting plan)))
  | rejoinInstalls (source : LoadedSource) (plan : Plan) (hreply : s.replies i = some .loaded) :
    Piece s i (.rejoin (.activating source (.waiting plan))) .go (s.install plan source).unlock .ended
  /-- A proposal, an ack or a bridge failed, or the host is gone: the source is forgotten
  though the host was not asked. -/
  | rejoinAborts (source : LoadedSource) (plan : Plan) (c : Choice)
      (hfail : (∃ message, c = .fails message) ∨ s.host.gone = true) :
    Piece s i (.rejoin (.activating source (.starting plan))) c (s.updateCluster ClusterState.clearLoaded).unlock .ended
  | rejoinFails (source : LoadedSource) (plan : Plan)
      (hfail : (∃ message, s.replies i = some (.loadFailed message)) ∨ s.host.gone = true) :
    Piece s i (.rejoin (.activating source (.waiting plan))) .go (s.updateCluster ClusterState.clearLoaded).unlock .ended

/-- One step of a task: a piece, whose outcome is put in its place. -/
def TaskMove (s : Daemon) (i : ℕ) (t : Task) (c : Choice) (s' : Daemon) : Prop :=
  ∃ u t', Piece s i t c u t' ∧ s' = u.put i t'

/-! ### The step function makes these moves -/

/-- A step of an activation: it fails before the host is asked, asks, succeeds, or fails. -/
inductive Activates (s : Daemon) (i : ℕ) (source : LoadedSource) : Activation → Choice → Activated → Daemon → Prop
  | early (plan : Plan) (c : Choice) (message : String) (hfail : (∃ m, c = .fails m) ∨ s.host.gone = true) :
    Activates s i source (.starting plan) c (.failed message) s
  | asks (plan : Plan) (hgone : s.host.gone = false) :
    Activates s i source (.starting plan) .go .asked (s.send i (.load i plan))
  | installs (plan : Plan) (hreply : s.replies i = some .loaded) :
    Activates s i source (.waiting plan) .go .ready (s.install plan source)
  | fails (plan : Plan) (message : String)
      (hfail : (∃ m, s.replies i = some (.loadFailed m)) ∨ s.host.gone = true) :
    Activates s i source (.waiting plan) .go (.failed message) (s.updateCluster ClusterState.clearLoaded)

variable {c : Choice} {job : Job} {u : Daemon}

theorem Activates.of_step {source : LoadedSource} {a : Activation} {result : Activated}
    (h : s.activate i source a c = some (result, s')) : Activates s i source a c result s' := by
  unfold activate at h
  split at h
  · split at h
    · cases h
    · cases h
      exact .early _ _ _ (.inl ⟨_, rfl⟩)
  · split at h
    · rename_i hgone
      cases h
      exact .early _ _ _ (.inr hgone)
    · rename_i hgone
      cases h
      exact .asks _ (by simpa using hgone)
  · split at h
    · rename_i hreply
      cases h
      exact .installs _ hreply
    · rename_i message hreply
      cases h
      exact .fails _ _ (.inl ⟨_, hreply⟩)
    · split at h
      · rename_i hgone
        cases h
        exact .fails _ _ (.inr hgone)
      · cases h
  · cases h

theorem TaskMove.of_load {source : LoadedSource} {pc : LoadPc}
    (h : s.loadStep i source pc c = some s') : TaskMove s i (.load source pc) c s' := by
  unfold loadStep at h
  split at h
  · cases h
    exact ⟨_, _, .loadEnds _ _ _ (by simp), rfl⟩
  · cases h
    exact ⟨_, _, .loadPlans .., rfl⟩
  · cases h
    exact ⟨_, _, .loadEnds _ _ _ (by simp), rfl⟩
  · cases h
    exact ⟨_, _, .loadStarts .., rfl⟩
  · split at h
    · cases h
    all_goals
      rename_i hact
      cases h
      cases Activates.of_step hact
    · exact ⟨_, _, .loadAsks source _ ‹_›, rfl⟩
    · exact ⟨_, _, .loadInstalls source _ ‹_›, rfl⟩
    · exact ⟨_, _, .loadEnds _ _ _ (by simp), rfl⟩
    · exact ⟨_, _, .loadFails source _ ‹_›, rfl⟩
  · cases h

theorem TaskMove.of_pc {pc : JobPc} {t' : Task} (hpc : job.pc = pc)
    (h : Piece s i (.job { job with pc := pc }) c u t') : TaskMove s i (.job job) c (u.put i t') := by
  subst hpc
  exact ⟨u, t', h, rfl⟩

theorem Sends.move {before : Job} (h : Sends s i before u job) :
    TaskMove s i (.job before) .go (u.startAttempt i job) := by
  unfold startAttempt
  cases hgone : u.host.gone
  · exact ⟨_, _, .jobSends _ _ _ h hgone, rfl⟩
  · exact ⟨_, _, .jobStopped _ _ _ h hgone, rfl⟩

theorem TaskMove.of_sends {before : Job} {pc : JobPc} (hpc : before.pc = pc)
    (h : Sends s i { before with pc := pc } u job) : TaskMove s i (.job before) .go (u.startAttempt i job) := by
  subst hpc
  exact h.move

theorem retries_of_retryOnce {n : ℕ} (h : decideInterrupted n = .retryOnce) : n = 0 := by
  unfold decideInterrupted at h
  split at h
  · assumption
  · cases h

/-- What a follower does: it fails, or it is re-issued, counted or not. -/
theorem TaskMove.of_follow {epoch : Epoch} {error : String}
    (hpc : job.pc = .interrupted (some epoch) error) (hfree : s.ledger.holder = none)
    (hepoch : s.activeEpoch ≠ some epoch) : TaskMove s i (.job job) .go (s.follow i job epoch error) := by
  have hfails (message : String) :
      TaskMove s i (.job job) .go (s.put i (.job { job with pc := .failing message })) :=
    .of_pc hpc (.jobFollows job epoch error message hfree hepoch)
  unfold follow
  split
  · rename_i lost houtcome
    split
    · exact hfails _
    · rename_i hretry
      exact .of_sends hpc (.counted job epoch error (retries_of_retryOnce hretry) hfree hepoch (by rw [houtcome]; simp))
  · exact hfails _
  · rename_i houtcome
    split
    · rename_i hreissue
      exact .of_sends hpc (.uncounted job epoch error (retries_of_retryOnce hreissue.1) hfree hepoch houtcome hreissue.2)
    · exact hfails _

theorem TaskMove.of_job (h : s.jobStep i job c = some s') : TaskMove s i (.job job) c s' := by
  unfold jobStep at h
  split at h
  · rename_i hpc
    cases h
    exact .of_sends hpc (.first job)
  · rename_i epoch hpc
    split at h
    · rename_i hreply
      cases h
      exact .of_pc hpc (.jobFinishes job epoch hreply)
    · rename_i error hreply
      cases h
      exact .of_pc hpc (.jobInterrupted job epoch error hreply)
    · split at h
      · rename_i hgone
        cases h
        exact .of_pc hpc (.jobOrphaned job epoch hgone)
      · cases h
  · rename_i epoch error hpc
    split at h
    · cases h
    · rename_i hfree
      rw [not_not] at hfree
      split at h
      · rename_i e
        cases h
        split
        · rename_i hactive
          exact .of_pc hpc (.jobChecks job _ error hfree (fun e' he => by cases he; exact hactive))
        · rename_i hactive
          exact .of_follow hpc hfree hactive
      · cases h
        exact .of_pc hpc (.jobChecks job _ error hfree (fun e he => by cases he))
  · rename_i epoch error hpc
    cases h
    exact .of_pc hpc (.jobLeads job epoch error)
  · rename_i failed source error hpc
    dsimp only at h
    split at h
    · cases h
      exact .of_pc hpc (.jobClears job failed source error _ (.inl rfl))
    · split at h
      · rename_i hconfirmed
        cases h
        exact .of_pc hpc (.jobClears job failed source error _ (.inr hconfirmed))
      · cases h
    · cases h
  · rename_i failed source error peers hpc
    dsimp only at h
    split at h
    · cases h
      exact .of_pc hpc (.jobGivesUp job _ failed _ _ rfl (by simp))
    · cases h
      exact .of_pc hpc (.jobGivesUp job _ failed _ _ rfl (by simp))
    · rename_i hretry
      cases h
      exact .of_pc hpc (.jobReplans job failed _ error _ peers (retries_of_retryOnce hretry))
  · rename_i failed source lost e hpc
    cases h
    exact .of_pc hpc (.jobGivesUp job _ failed _ _ rfl (by simp))
  · rename_i failed source lost strategy assignments hpc
    cases h
    exact .of_pc hpc (.jobPlans job failed source lost strategy assignments)
  · rename_i failed source lost a hpc
    split at h
    · cases h
    all_goals
      rename_i hact
      cases h
      cases Activates.of_step hact
    · exact .of_pc hpc (.jobAsks job failed source lost _ ‹_›)
    · exact .of_sends hpc (.recovers job failed source lost _ ‹_›)
    · exact .of_pc hpc (.jobGivesUp job _ failed _ _ rfl (by simp))
    · -- Forgetting the source twice is forgetting it once.
      rename_i hfail
      exact .of_pc hpc (.jobGivesUp job _ failed _ _ rfl fun _ _ _ _ _ => hfail)
  · rename_i message hpc
    split at h
    · cases h
    · rename_i hroom
      cases h
      exact .of_pc hpc (.jobFails job message (by simpa using hroom))
  · cases h

theorem TaskMove.of_failure {pc : FailurePc} (h : s.failureStep i pc c = some s') :
    TaskMove s i (.failure pc) c s' := by
  unfold failureStep at h
  split at h
  · rename_i epoch
    split at h
    · cases h
    · rename_i hfree
      split at h
      · rename_i hnone
        cases h
        refine ⟨_, _, .failureEnds epoch fun active hactive => ?_, rfl⟩
        rw [hnone] at hactive
        cases hactive
      · rename_i active hactive
        split at h
        · rename_i hother
          cases h
          refine ⟨_, _, .failureEnds epoch fun active' hactive' hrole hepoch => ?_, rfl⟩
          cases hactive.symm.trans hactive'
          rcases hother with hne | hne
          · exact (hne hrole).elim
          · exact (hne hepoch).elim
        · rename_i hsame
          rw [not_or, not_not, not_not] at hsame
          split at h
          · rename_i hbusy
            cases h
            exact ⟨_, _, .failureEnds epoch fun _ _ _ _ => by simpa using hbusy, rfl⟩
          · rename_i hidle
            cases h
            exact ⟨_, _, .failureChecks epoch active (not_not.mp hfree) hactive hsame.1 hsame.2
              (by simpa using hidle), rfl⟩
  · cases h
    exact ⟨_, _, .failureUnloads _, rfl⟩
  · rename_i epoch
    dsimp only at h
    split at h
    · cases h
      exact ⟨_, _, .failureClears epoch _ (.inl rfl), rfl⟩
    · split at h
      · rename_i hconfirmed
        cases h
        exact ⟨_, _, .failureClears epoch _ (.inr hconfirmed), rfl⟩
      · cases h
    · cases h
  · cases h

theorem TaskMove.of_rejoin {pc : RejoinPc} (h : s.rejoinStep i pc c = some s') :
    TaskMove s i (.rejoin pc) c s' := by
  unfold rejoinStep at h
  split at h
  · split at h
    · rename_i hrequest
      cases h
      exact ⟨_, _, .rejoinTakes hrequest, rfl⟩
    · cases h
      exact ⟨_, _, .rejoinEnds _ (.inl rfl), rfl⟩
  · split at h
    · cases h
    · rename_i hfree
      split at h
      · rename_i source active hsource hactive
        split at h
        · cases h
          exact ⟨_, _, .rejoinEnds _ (.inr rfl), rfl⟩
        · rename_i hrole
          split at h
          · rename_i hidle
            cases h
            exact ⟨_, _, .rejoinDefers (by simpa using hidle), rfl⟩
          · rename_i hidle
            cases h
            exact ⟨_, _, .rejoinLocks source active (not_not.mp hfree) hsource hactive (not_not.mp hrole)
              (by simpa using hidle), rfl⟩
      · cases h
        exact ⟨_, _, .rejoinEnds _ (.inr rfl), rfl⟩
  · cases h
    exact ⟨_, _, .rejoinNoPlan .., rfl⟩
  · dsimp only at h
    split at h
    · cases h
      exact ⟨_, _, .rejoinSame .., rfl⟩
    · cases h
      exact ⟨_, _, .rejoinPlans .., rfl⟩
  · split at h
    · cases h
    all_goals
      rename_i hact
      cases h
      cases Activates.of_step hact
    · exact ⟨_, _, .rejoinAsks _ _ ‹_›, rfl⟩
    · exact ⟨_, _, .rejoinInstalls _ _ ‹_›, rfl⟩
    · exact ⟨_, _, .rejoinAborts _ _ _ ‹_›, rfl⟩
    · exact ⟨_, _, .rejoinFails _ _ ‹_›, rfl⟩
  · cases h

theorem TaskMove.of_step (h : s.taskStep i c = some s') : TaskMove s i (s.tasks i) c s' := by
  unfold taskStep at h
  split at h
  · cases h
  all_goals
    rename_i htask
    rw [htask]
  · exact .of_load h
  · exact .of_job h
  · split at h
    · cases h
      exact ⟨_, _, .refusedEnds, rfl⟩
    · cases h
  · exact .of_failure h
  · exact .of_rejoin h

/-! ### The host -/

/-- What the host can do. -/
inductive HostMove (s : Daemon) : HostAct → Daemon → Prop
  /-- Without a model an attempt is over at once. -/
  | refuses (i : ℕ) (rest : List HostMsg) (failure : Option String)
      (hinbox : s.host.inbox = .generate i :: rest) (hmodel : s.host.model = none) :
    HostMove s (.take failure) ({ s with host := { s.host with inbox := rest } }.reply i .finished)
  | runs (i : ℕ) (rest : List HostMsg) (failure : Option String) (plan : Plan)
      (hinbox : s.host.inbox = .generate i :: rest) (hmodel : s.host.model = some plan) :
    HostMove s (.take failure)
      ({ s with host := { s.host with inbox := rest, running := s.host.running ++ [i] } }.put i
        (ranTask plan (s.tasks i)))
  | loadFails (i : ℕ) (plan : Plan) (rest : List HostMsg) (message : String)
      (hinbox : s.host.inbox = .load i plan :: rest) (hbarrier : s.host.running = []) :
    HostMove s (.take (some message))
      ({ s with host := { s.host with inbox := rest, model := none } }.reply i (.loadFailed message))
  | loads (i : ℕ) (plan : Plan) (rest : List HostMsg)
      (hinbox : s.host.inbox = .load i plan :: rest) (hbarrier : s.host.running = []) :
    HostMove s (.take none)
      ({ s with host := { s.host with inbox := rest, model := some plan } }.reply i .loaded)
  | unloads (i : ℕ) (rest : List HostMsg) (failure : Option String)
      (hinbox : s.host.inbox = .unload i :: rest) (hbarrier : s.host.running = []) :
    HostMove s (.take failure)
      ({ s with host := { s.host with inbox := rest, model := none } }.reply i .unloaded)
  | serves (epoch : Epoch) (rest : List HostMsg) (failure : Option String)
      (hinbox : s.host.inbox = .serveShard epoch :: rest) (hbarrier : s.host.running = []) :
    HostMove s (.take failure) { s with host := { s.host with inbox := rest, model := none } }
  | finishes (i : ℕ) (hmem : i ∈ s.host.running) :
    HostMove s (.finish i)
      ({ s with host := { s.host with running := s.host.running.erase i } }.reply i .finished)
  | interrupts (i : ℕ) (error : String) (plan : Plan) (hmem : i ∈ s.host.running)
      (hmodel : s.host.model = some plan) (hdistributed : plan.strategy ≠ .solo) :
    HostMove s (.interrupt i error)
      ({ s with host := { s.host with running := s.host.running.erase i } }.reply i (.interrupted error))
  | exits : HostMove s .exit { s with host := { model := none, inbox := [], running := [], gone := true } }

theorem HostMove.of_takes {msg : HostMsg} {rest : List HostMsg} {failure : Option String}
    (hinbox : s.host.inbox = msg :: rest) (h : s.hostTakes msg rest failure = some s') :
    HostMove s (.take failure) s' := by
  unfold hostTakes at h
  split at h
  · rename_i i
    split at h
    · rename_i hmodel
      cases h
      exact .refuses i rest failure hinbox hmodel
    · rename_i plan hmodel
      cases h
      exact .runs i rest failure plan hinbox hmodel
  · rename_i i plan
    split at h
    · cases h
    · rename_i hbarrier
      rw [not_not] at hbarrier
      split at h
      · cases h
        exact .loadFails i plan rest _ hinbox hbarrier
      · cases h
        exact .loads i plan rest hinbox hbarrier
  · rename_i i
    split at h
    · cases h
    · rename_i hbarrier
      cases h
      exact .unloads i rest failure hinbox (not_not.mp hbarrier)
  · rename_i epoch
    split at h
    · cases h
    · rename_i hbarrier
      cases h
      exact .serves epoch rest failure hinbox (not_not.mp hbarrier)

theorem HostMove.of_step {act : HostAct} (h : s.hostStep act = some s') :
    s.host.gone = false ∧ HostMove s act s' := by
  unfold hostStep at h
  split at h
  · cases h
  rename_i hgone
  refine ⟨by simpa using hgone, ?_⟩
  split at h
  · split at h
    · cases h
    · rename_i hinbox
      exact .of_takes hinbox h
  · split at h
    · rename_i hmem
      cases h
      exact .finishes _ hmem
    · cases h
  · split at h
    · rename_i hcond
      cases h
      obtain ⟨plan, hmodel, hdist⟩ := (Option.any_eq_true _ _).mp hcond.2
      exact .interrupts _ _ plan hcond.1 hmodel (by simpa using hdist)
    · cases h
  · cases h
    exact .exits

/-! ### The daemon -/

/-- What starts a task. -/
inductive Starts (s : Daemon) : Label → (ClusterState → ClusterState) → Task → Prop
  | submit : Starts s .submit id (.job {})
  | overload : Starts s .overload id .refused
  | load (source : LoadedSource) : Starts s (.load source) id (.load source .planning)
  | peerLost (peer : NodeId) (active : ActivePlanView) (hactive : s.cluster.active = some active)
      (hrole : active.role = .head) (hdistributed : active.plan.strategy ≠ .solo) :
    Starts s (.peerLost peer) (fun c => (c.markEpochFailed active.plan.epoch (some peer)).2)
      (.failure (.waiting active.plan.epoch))
  | peerBack : Starts s .peerBack ClusterState.requestRejoinReplan (.rejoin .starting)
  | rejoinCheck : Starts s .rejoinCheck id (.rejoin .starting)

/-- What one step can do. -/
inductive Move (s : Daemon) : Label → Daemon → Prop
  | starts (l : Label) (f : ClusterState → ClusterState) (t : Task) (h : Starts s l f t) :
    Move s l ((s.updateCluster f).spawn t)
  /-- The channel to a client is filled or drained. -/
  | streams (l : Label) (i : ℕ) (b : Bool) (hl : l = .fills i ∧ b = true ∨ l = .drains i ∧ b = false) :
    Move s l { s with full := Function.update s.full i b }
  | bridgeTears (epoch : Epoch) (peer : NodeId) :
    Move s (.bridgeTears epoch peer) (s.updateCluster fun c => (c.markEpochFailed epoch (some peer)).2)
  | adopt (head : NodeId) (plan : Plan) :
    Move s (.adopt head plan)
      ({ s with host := { s.host with inbox := s.host.inbox ++ [HostMsg.serveShard plan.epoch] } }.updateCluster
        fun c => (c.setActive (some { role := .worker, plan })).setWorkerShard (some (plan.epoch, head)))
  | task (i : ℕ) (c : Choice) (s' : Daemon) (h : TaskMove s i (s.tasks i) c s') : Move s (.step i c) s'
  | host (act : HostAct) (s' : Daemon) (hgone : s.host.gone = false) (h : HostMove s act s') :
    Move s (.host act) s'

/-- **Every step is one of these moves.** -/
theorem Move.of_next {l : Label} (h : s.next l = some s') : Move s l s' := by
  unfold next at h
  split at h
  · cases h
    exact .starts _ _ _ .submit
  · cases h
    exact .starts _ _ _ .overload
  · split at h
    · cases h
      exact .streams _ _ true (.inl ⟨rfl, rfl⟩)
    · cases h
  · cases h
    exact .streams _ _ false (.inr ⟨rfl, rfl⟩)
  · cases h
    exact .starts _ _ _ (.load _)
  · split at h
    · cases h
    · rename_i active hactive
      split at h
      · cases h
      · rename_i hrole
        rw [not_or, not_not] at hrole
        split at h
        · cases h
        · cases h
          exact .starts _ _ _ (.peerLost _ active hactive hrole.1 hrole.2)
  · cases h
    exact .bridgeTears ..
  · split at h
    · cases h
      exact .starts _ _ _ .peerBack
    · cases h
  · cases h
    exact .starts _ _ _ .rejoinCheck
  · cases h
    exact .adopt ..
  · exact .task _ _ _ (.of_step h)
  · obtain ⟨hgone, hmove⟩ := HostMove.of_step h
    exact .host _ _ hgone hmove

end Daemon

end OneBrain.Cluster
