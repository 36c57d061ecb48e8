import OneBrain.Cluster.Epochs

/-!
# What a recovery tears down

A recovery that leads tells the host to unload and then clears the active view. Whether
that is the epoch its attempt ran on rests on things the code does not enforce: that the
epoch it remembered when it sent the attempt is the one the attempt ran on; that no load a
user requested shows its plan between the leader's check and its clearing of the view; that
the host confirms the unload before the leader stops waiting, since it is carried out late
otherwise; and that epochs of other heads do not get into the comparison. `RecoverySafe`
says of a step that it respects these.

In every run of such steps the recovery tears down only the epoch its attempt ran on, and
each failed epoch is torn down, and planned again, at most once (`recovery_exact`). Without
them it does not: `load_torn_down` is a run in which the host unloads, and a leader clears
the view of, a plan that a user loaded meanwhile.

The proof carries four invariants: `Epochs`, `Attempts`, `Replans` and `Unloads`.
-/

namespace OneBrain.Cluster

open Function List OneBrain.Lib

/-- Leaders that have told the host to unload and are about to clear the view. -/
def JobPc.tearing : JobPc → Bool
  | .unloading _ _ _ => true
  | _ => false

/-- Leaders from their look at the active epoch to the clearing of the view. -/
def JobPc.leads : JobPc → Bool
  | .checked _ _ => true
  | pc => pc.tearing

theorem leads_of_tearing {pc : JobPc} (h : pc.tearing = true) : pc.leads = true := by
  cases pc <;> first | rfl | cases h

/-- Tasks from their look at the active epoch to the clearing of the view. -/
def tearing : Task → Bool
  | .job job => job.pc.leads
  | .failure (.checked _) => true
  | .failure (.unloading _) => true
  | _ => false

/-- The failed epoch of a leader that has cleared the view and not planned again. -/
def JobPc.named : JobPc → Option Epoch
  | .naming failed _ _ => epochOf failed
  | _ => none

/-- The failed epoch of a task that has cleared the view and not planned again. -/
def named : Task → Option Epoch
  | .job job => job.pc.named
  | _ => none

namespace Daemon

variable {s s' : Daemon} {i k : ℕ}

/-- What a step must respect for recoveries to be exact. -/
structure RecoverySafe (s : Daemon) (l : Label) : Prop where
  /-- An attempt is run on the model of the epoch it remembers. -/
  runs : ∀ failure i rest plan, l = .host (.take failure) → s.host.inbox = .generate i :: rest →
    s.host.model = some plan → plan.strategy ≠ .solo →
      ∃ job, s.tasks i = .job job ∧ job.pc = .attempting (some plan.epoch)
  /-- A load of a user does not show its plan while an epoch is torn down. -/
  installs : ∀ i c source plan, l = .step i c → s.tasks i = .load source (.activating (.waiting plan)) →
    s.replies i = some .loaded → ∀ k, tearing (s.tasks k) = false
  /-- A leader waits for the host to confirm that it unloaded. -/
  waits : ∀ i job, l = .step i .timeout → s.tasks i ≠ .job job
  /-- No plan of another head is adopted. -/
  adopts : ∀ head plan, l ≠ .adopt head plan

/-! ### What an attempt ran on -/

/-- The attempt ran on the plan of an epoch. -/
def RanOn (job : Job) (epoch : Option Epoch) : Prop :=
  ∃ plan, job.ranOn = some plan ∧ epoch = some plan.epoch ∧ plan.epoch ≠ 0

/-- What a job knows of the epoch it is about to tear down. -/
def JobSound (active : Option ActivePlanView) (reply : Option Reply) (job : Job) : JobPc → Prop
  | .attempting epoch => ∀ error, reply = some (.interrupted error) → RanOn job epoch
  | .interrupted epoch _ => RanOn job epoch
  | .checked _ _ => ∃ v, active = some v ∧ RanOn job (some v.plan.epoch)
  | .unloading failed _ _ => ∃ v, active = some v ∧ failed = some v ∧ RanOn job (some v.plan.epoch)
  | _ => True

/-- What a task knows of the epoch it is about to tear down. -/
def Sound (active : Option ActivePlanView) (reply : Option Reply) : Task → Prop
  | .job job => JobSound active reply job job.pc
  | .failure (.waiting epoch) => epoch ≠ 0
  | .failure (.checked epoch) => epoch ≠ 0 ∧ ∃ v, active = some v ∧ v.plan.epoch = epoch
  | .failure (.unloading epoch) => epoch ≠ 0 ∧ ∃ v, active = some v ∧ v.plan.epoch = epoch
  | _ => True

variable {a : Option ActivePlanView} {r : Option Reply} {t : Task} {job : Job} {c : Choice}
  {l : Label}

/-- A task that is not about to clear the view does not depend on it. -/
theorem Sound.active {a' : Option ActivePlanView} (h : Sound a r t) (ht : tearing t = false) : Sound a' r t := by
  cases t with
  | job job =>
    change JobSound a r job job.pc at h
    change JobSound a' r job job.pc
    change job.pc.leads = false at ht
    cases hpc : job.pc <;> rw [hpc] at h ht <;> first | exact h | cases ht
  | failure pc =>
    cases pc with
    | waiting => exact h
    | checked | unloading => cases ht
  | _ => trivial

theorem tearing_critical (h : t.critical = false) : tearing t = false := by
  cases t with
  | job job =>
    change job.pc.critical = false at h
    change job.pc.leads = false
    cases hpc : job.pc <;> rw [hpc] at h <;> first | rfl | cases h
  | failure pc => cases pc <;> first | rfl | cases h
  | _ => rfl

theorem sound_job {pc : JobPc} (hpc : job.pc = pc) (h : JobSound a r job pc) : Sound a r (.job job) := by
  subst hpc
  exact h

/-- **What the recoveries know**: each task of the epoch it is about to tear down, and the
running attempts of a distributed model of the epoch they run on. -/
structure Attempts (s : Daemon) : Prop where
  tasks : ∀ k, Sound s.cluster.active (s.replies k) (s.tasks k)
  running : ∀ k plan, k ∈ s.host.running → s.host.model = some plan → plan.strategy ≠ .solo →
    ∃ job, s.tasks k = .job job ∧ job.pc = .attempting (some plan.epoch) ∧ job.ranOn = some plan

/-! ### What a task's step reaches -/

/-- A task's step leaves the host but its mailbox and the answers of other tasks alone, and
changes the view only in surgery or when a load succeeds. -/
structure TaskFrame (s : Daemon) (i : ℕ) (s' : Daemon) : Prop where
  model : s'.host.model = s.host.model
  running : s'.host.running = s.host.running
  replies : ∀ k, k ≠ i → s'.replies k = s.replies k
  active : s'.cluster.active = s.cluster.active ∨ (s.tasks i).critical = true ∨
    ∃ source plan, s.tasks i = .load source (.activating (.waiting plan)) ∧ s.replies i = some .loaded

variable (h : TaskMove s i (s.tasks i) c s')
include h

theorem TaskMove.frame : TaskFrame s i s' := by
  obtain ⟨u, t', h, rfl⟩ := h
  generalize ht : s.tasks i = t at h
  cases h with
  | loadInstalls source plan hreply => exact ⟨rfl, rfl, fun k hk => rfl, .inr (.inr ⟨source, plan, ht, hreply⟩)⟩
  | jobSends _ _ _ hsends | jobStopped _ _ _ hsends =>
    cases hsends with
    | recovers => exact ⟨rfl, rfl, fun k hk => by simp [hk], .inr (.inl (by rw [ht]; rfl))⟩
    | _ => exact ⟨rfl, rfl, fun k hk => by simp [hk], .inl rfl⟩
  | jobClears | failureClears | rejoinInstalls =>
    exact ⟨rfl, rfl, fun k hk => rfl, .inr (.inl (by rw [ht]; rfl))⟩
  | _ => exact ⟨by simp, by simp, fun k hk => by simp [hk], .inl (by simp)⟩

/-- A task's step leaves its own task knowing what it must. -/
theorem TaskMove.sound (hs : Sound s.cluster.active (s.replies i) (s.tasks i)) :
    Sound s'.cluster.active (s'.replies i) (s'.tasks i) := by
  obtain ⟨u, t', h, rfl⟩ := h
  rw [put_same]
  generalize s.tasks i = t at h hs
  cases h with
  | jobSends =>
    -- An attempt that was just sent has no answer.
    intro error herror
    rw [put_replies, send_replies, update_self] at herror
    cases herror
  | jobInterrupted job epoch error hreply => exact hs error hreply
  | jobChecks job epoch error hfree hepoch =>
    obtain ⟨plan, hran, rfl, hne⟩ := hs
    obtain ⟨v, hv, hve⟩ := Option.map_eq_some_iff.mp (hepoch _ rfl)
    exact ⟨v, hv, plan, hran, congrArg some hve, hne⟩
  | jobLeads =>
    obtain ⟨v, hv, hran⟩ := hs
    rw [put_cluster, tell_cluster, updateCluster_cluster, markActiveFailed_active]
    exact ⟨v, hv, hv, hran⟩
  | failureChecks epoch active hfree hactive hrole hepoch => exact ⟨hs, active, hactive, hepoch⟩
  | failureUnloads =>
    rw [put_cluster, tell_cluster]
    exact hs
  | _ => trivial

/-- A task does not step while its attempt runs. -/
theorem TaskMove.not_running (htokens : Tokens s) :
    i ∉ s.host.running := by
  intro hmem
  have hpos := count_pos_iff.mpr hmem
  have hwith : s.withHost i ≠ 0 := by
    unfold withHost
    omega
  obtain ⟨hwaits, -, hout⟩ := htokens.waits hwith
  have hgone : s.host.gone = false := by
    cases hg : s.host.gone
    · rfl
    · exact (hwith (htokens.gone hg i)).elim
  obtain ⟨u, t', h, rfl⟩ := h
  generalize s.tasks i = t at h hwaits
  cases h with
  | jobSends _ _ _ hsends | jobStopped _ _ _ hsends => cases hsends <;> cases hwaits
  | jobFinishes _ _ hreply | jobInterrupted _ _ _ hreply =>
    rw [hreply] at hout
    cases hout
  | jobOrphaned job epoch hg =>
    rw [hgone] at hg
    cases hg
  | jobGivesUp job pc failed message c hpc => cases (not_awaiting_of_leading hpc).symm.trans hwaits
  | _ => cases hwaits

omit h

theorem Attempts.task (hs : Attempts s) (hexcl : Exclusive s) (htokens : Tokens s)
    (h : TaskMove s i (s.tasks i) c s') (hsafe : RecoverySafe s (.step i c)) : Attempts s' := by
  have hframe := h.frame
  have hother := h.holder.1
  constructor
  · intro k
    by_cases hk : k = i
    · subst hk
      exact h.sound (hs.tasks k)
    rw [hother k hk, hframe.replies k hk]
    rcases hframe.active with hsame | hcritical | ⟨source, plan, htask, hreply⟩
    · rw [hsame]
      exact hs.tasks k
    · -- The task in surgery is the only one.
      refine (hs.tasks k).active (tearing_critical ?_)
      cases hkc : (s.tasks k).critical
      · rfl
      · exact (hk (hexcl.unique hkc hcritical)).elim
    · exact (hs.tasks k).active (hsafe.installs i c source plan rfl htask hreply k)
  · intro k plan hmem hmodel hdist
    rw [hframe.running] at hmem
    rw [hframe.model] at hmodel
    have hk : k ≠ i := by
      rintro rfl
      exact h.not_running htokens hmem
    rw [hother k hk]
    exact hs.running k plan hmem hmodel hdist

/-! ### What the host and the outside change -/

theorem Sound.reply {r' : Option Reply} (h : Sound a r t)
    (hr : ∀ error, r' = some (.interrupted error) → r = some (.interrupted error)) : Sound a r' t := by
  cases t with
  | job job =>
    change JobSound a r job job.pc at h
    change JobSound a r' job job.pc
    cases hpc : job.pc <;> rw [hpc] at h <;> first | exact h | exact fun error he => h error (hr error he)
  | failure pc => cases pc <;> exact h
  | _ => trivial

theorem Attempts.answered (hs : Attempts s) {r : Reply} (hcluster : s'.cluster = s.cluster)
    (htasks : s'.tasks = s.tasks) (hreplies : s'.replies = Function.update s.replies i (some r))
    (hrunning : ∀ k ∈ s'.host.running, k ∈ s.host.running ∧ s'.host.model = s.host.model)
    (hr : Sound s.cluster.active (some r) (s.tasks i)) : Attempts s' := by
  constructor
  · intro k
    rw [hcluster, htasks, hreplies]
    by_cases hk : k = i
    · subst hk
      rw [update_self]
      exact hr
    · rw [update_of_ne hk]
      exact hs.tasks k
  · intro k plan hmem hmodel hdist
    obtain ⟨hold, hsame⟩ := hrunning k hmem
    rw [htasks]
    exact hs.running k plan hold (hsame ▸ hmodel) hdist

theorem awaiting_cases (h : awaitsOutcome t = true) :
    ∃ job epoch, t = .job job ∧ job.pc = .attempting epoch := by
  cases t with
  | job job =>
    change job.pc.awaiting = true at h
    cases hpc : job.pc <;> rw [hpc] at h <;> first | exact ⟨job, _, rfl, hpc⟩ | cases h
  | _ => cases h

section

variable (hs : Attempts s)
include hs

theorem Attempts.host (hepochs : Epochs s) (htokens : Tokens s) {act : HostAct}
    (h : HostMove s act s') (hsafe : RecoverySafe s (.host act)) : Attempts s' := by
  have hquiet {r : Reply} (hr : ∀ error, r ≠ .interrupted error) (k : ℕ) :
      Sound s.cluster.active (some r) (s.tasks k) :=
    (hs.tasks k).reply fun error he => (hr error (Option.some.inj he)).elim
  cases h with
  | refuses i =>
    exact hs.answered rfl rfl rfl (fun k hk => ⟨hk, rfl⟩) (hquiet (by simp) i)
  | loadFails i _ _ _ _ hbarrier | loads i _ _ _ hbarrier | unloads i _ _ _ hbarrier =>
    refine hs.answered rfl rfl rfl (fun k hk => ?_) (hquiet (by simp) i)
    rw [reply_host, hbarrier] at hk
    cases hk
  | finishes i =>
    exact hs.answered rfl rfl rfl (fun k hk => ⟨mem_of_mem_erase hk, rfl⟩) (hquiet (by simp) i)
  | interrupts i error plan hmem hmodel hdistributed =>
    refine hs.answered rfl rfl rfl (fun k hk => ⟨mem_of_mem_erase hk, rfl⟩) ?_
    obtain ⟨job, htask, hpc, hran⟩ := hs.running i plan hmem hmodel hdistributed
    have hne : plan.epoch ≠ 0 := fun h0 => hdistributed ((hepochs.known plan (.loaded hmodel)).1.mp h0)
    rw [htask]
    exact sound_job hpc fun _ _ => ⟨plan, hran, rfl, hne⟩
  | serves | exits =>
    refine ⟨hs.tasks, fun k plan hmem hmodel hdist => ?_⟩
    cases hmodel
  | runs i rest failure plan hinbox hmodel =>
    have hwith : s.withHost i ≠ 0 := by simp [withHost, hinbox]
    obtain ⟨hwaits, -, hout⟩ := htokens.waits hwith
    constructor
    · intro k
      by_cases hk : k = i
      · subst hk
        obtain ⟨job, epoch, htask, hpc⟩ := awaiting_cases hwaits
        rw [put_same, htask]
        refine sound_job hpc (show ∀ error, _ from fun error herror => ?_)
        change s.replies k = _ at herror
        rw [herror] at hout
        cases hout
      · rw [put_other _ _ _ hk]
        exact hs.tasks k
    · intro k p hmem hmodel' hdist
      rw [put_host, hmodel] at hmodel'
      cases hmodel'
      by_cases hk : k = i
      · subst hk
        obtain ⟨job, htask, hpc⟩ := hsafe.runs failure k rest plan rfl hinbox hmodel hdist
        exact ⟨{ job with ranOn := some plan }, by rw [put_same, htask]; rfl, hpc, rfl⟩
      · rw [put_other _ _ _ hk]
        apply hs.running k plan ?_ hmodel hdist
        rcases mem_append.mp hmem with hold | hnew
        · exact hold
        · exact (hk (mem_singleton.mp hnew)).elim

theorem Attempts.spawn (hexcl : Exclusive s)
    (ht : Sound s.cluster.active (s.replies s.fresh) t) : Attempts (s.spawn t) := by
  constructor
  · intro k
    rw [spawn_tasks, spawn_cluster, spawn_replies]
    by_cases hk : k = s.fresh
    · subst hk
      rw [update_self]
      exact ht
    · rw [update_of_ne hk]
      exact hs.tasks k
  · intro k plan hmem hmodel hdist
    obtain ⟨job, htask, h⟩ := hs.running k plan hmem hmodel hdist
    have hk : k ≠ s.fresh := by
      rintro rfl
      rw [hexcl.unused _ (Nat.le_refl _)] at htask
      cases htask
    refine ⟨job, ?_, h⟩
    rw [spawn_tasks, update_of_ne hk, htask]

theorem Attempts.updateCluster {f : ClusterState → ClusterState}
    (hf : (f s.cluster).active = s.cluster.active) : Attempts (s.updateCluster f) := by
  refine ⟨fun k => ?_, hs.running⟩
  rw [updateCluster_cluster, hf]
  exact hs.tasks k

/-- **Every safe step keeps what the recoveries know.** -/
theorem Attempts.move (hepochs : Epochs s) (hexcl : Exclusive s) (htokens : Tokens s)
    (h : Move s l s') (hsafe : RecoverySafe s l) : Attempts s' := by
  cases h with
  | starts l f t h =>
    cases h with
    | peerLost peer active hactive hrole hdistributed =>
      refine (hs.updateCluster (by simp)).spawn ⟨hexcl.unused, hexcl.holder⟩ ?_
      exact fun h0 => hdistributed ((hepochs.known _ (.active active hactive rfl)).1.mp h0)
    | _ => exact (hs.updateCluster rfl).spawn ⟨hexcl.unused, hexcl.holder⟩ trivial
  | streams => exact ⟨hs.tasks, hs.running⟩
  | bridgeTears => exact hs.updateCluster (by simp)
  | adopt head plan => exact (hsafe.adopts head plan rfl).elim
  | task i c s' h => exact hs.task hexcl htokens h hsafe
  | host act s' hgone h => exact hs.host hepochs htokens h hsafe

/-- A leader's attempt ran on the active epoch. -/
theorem Attempts.leads (htask : s.tasks i = .job job) (hpc : job.pc.leads = true) :
    ∃ v, s.cluster.active = some v ∧ RanOn job (some v.plan.epoch) := by
  have hsound := hs.tasks i
  rw [htask] at hsound
  change JobSound _ _ job job.pc at hsound
  cases hj : job.pc <;> rw [hj] at hpc hsound <;> try cases hpc
  · exact hsound
  · obtain ⟨v, hv, -, hran⟩ := hsound
    exact ⟨v, hv, hran⟩

/-- What a leader is about to clear is what its attempt ran on. -/
theorem Attempts.tears {failed : Option ActivePlanView}
    {source : Option LoadedSource} {error : String} (htask : s.tasks i = .job job)
    (hpc : job.pc = .unloading failed source error) :
    ∃ v plan, s.cluster.active = some v ∧ failed = some v ∧ job.ranOn = some plan ∧
      v.plan.epoch = plan.epoch ∧ v.plan.epoch ≠ 0 := by
  have hsound := hs.tasks i
  rw [htask] at hsound
  change JobSound _ _ job job.pc at hsound
  rw [hpc] at hsound
  obtain ⟨v, hv, hfailed, plan, hran, hepoch, hne⟩ := hsound
  have heq : v.plan.epoch = plan.epoch := Option.some.inj hepoch
  exact ⟨v, plan, hv, hfailed, hran, heq, heq ▸ hne⟩

theorem Attempts.fails {epoch : Epoch} (htask : s.tasks i = .failure (.unloading epoch)) :
    epoch ≠ 0 ∧ ∃ v, s.cluster.active = some v ∧ v.plan.epoch = epoch := by
  have hsound := hs.tasks i
  rw [htask] at hsound
  exact hsound

end

/-! ### Planning again -/

theorem named_critical {e : Epoch} (h : named t = some e) : t.critical = true := by
  cases t with
  | job job =>
    change job.pc.named = some e at h
    change job.pc.critical = true
    cases hpc : job.pc <;> rw [hpc] at h <;> first | rfl | cases h
  | _ => cases h

/-- What a step does to the epochs that are planned again. -/
theorem TaskMove.replans (h : TaskMove s i (s.tasks i) c s') :
    (s'.replanned = s.replanned ∧ named (s'.tasks i) = none) ∨
    (∃ job failed source error, s.tasks i = .job job ∧ job.pc = .unloading failed source error ∧
      s'.replanned = s.replanned ∧ s'.torn = s.torn ++ (epochOf failed).toList ∧
      named (s'.tasks i) = epochOf failed) ∨
    ∃ e, named (s.tasks i) = some e ∧ s'.replanned = s.replanned ++ [e] ∧ named (s'.tasks i) = none := by
  obtain ⟨u, t', h, rfl⟩ := h
  rw [put_same]
  generalize s.tasks i = t at h
  cases h with
  | jobSends _ _ _ hsends | jobStopped _ _ _ hsends => cases hsends <;> exact .inl ⟨rfl, rfl⟩
  | jobClears job failed source error =>
    exact .inr (.inl ⟨_, failed, source, error, rfl, rfl, rfl, rfl, rfl⟩)
  | jobReplans job failed =>
    cases failed with
    | none => exact .inl ⟨append_nil _, rfl⟩
    | some v => exact .inr (.inr ⟨v.plan.epoch, rfl, rfl, rfl⟩)
  | _ => exact .inl ⟨by simp, rfl⟩

/-- **An epoch is planned again after it was torn down, once.** -/
structure Replans (s : Daemon) : Prop where
  torn : ∀ e ∈ s.replanned, e ∈ s.torn
  nodup : s.replanned.Nodup
  fresh : ∀ k e, named (s.tasks k) = some e → e ∈ s.torn ∧ e ∉ s.replanned

theorem named_ranTask (plan : Plan) (t : Task) : named (ranTask plan t) = named t := by
  cases t <;> rfl

theorem EpochMove.torn_mono (h : EpochMove s s') : ∀ e ∈ s.torn, e ∈ s'.torn := by
  intro e he
  cases h with
  | quiet _ htorn | stamps _ _ _ _ _ htorn | installs _ _ _ _ htorn => rwa [htorn]
  | tears i failed hactive htearing htorn =>
    rw [htorn]
    exact mem_append_left _ he

theorem Replans.task (hs : Replans s) (hepochs : Epochs s) (hattempts : Attempts s) (hexcl : Exclusive s)
    (h : TaskMove s i (s.tasks i) c s') : Replans s' := by
  have hmono := h.epochMove.torn_mono
  have hother := h.holder.1
  have hothers (k : ℕ) (e : Epoch) (hki : k ≠ i) (hk : named (s'.tasks k) = some e) :
      e ∈ s'.torn ∧ e ∉ s.replanned := by
    rw [hother k hki] at hk
    exact ⟨hmono e (hs.fresh k e hk).1, (hs.fresh k e hk).2⟩
  have hne {k : ℕ} {e : Epoch} (hmine : named (s'.tasks i) = none) (hk : named (s'.tasks k) = some e) : k ≠ i := by
    rintro rfl
    rw [hmine] at hk
    cases hk
  rcases h.replans with ⟨hsame, hmine⟩ | ⟨job, failed, source, error, htask, hpc, hsame, htorn, hmine⟩ |
    ⟨e, hname, hnew, hmine⟩
  · refine ⟨fun e he => hmono e (hs.torn e (hsame ▸ he)), hsame ▸ hs.nodup, fun k e hk => ?_⟩
    rw [hsame]
    exact hothers k e (hne hmine hk) hk
  · -- The epoch was the active one, so it was not torn down, nor planned again.
    refine ⟨fun e he => hmono e (hs.torn e (hsame ▸ he)), hsame ▸ hs.nodup, fun k e hk => ?_⟩
    rw [hsame]
    by_cases hki : k = i
    · subst hki
      rw [hmine] at hk
      obtain ⟨v, plan, hv, rfl, -, -, -⟩ := hattempts.tears htask hpc
      cases hk
      exact ⟨by rw [htorn]; simp [epochOf], fun hin => hepochs.active v hv (hs.torn _ hin)⟩
    · exact hothers k e hki hk
  · obtain ⟨hin, hout⟩ := hs.fresh i e hname
    refine ⟨?_, ?_, fun k e' hk => ?_⟩
    · intro e' he'
      rw [hnew, mem_append, mem_singleton] at he'
      rcases he' with hold | rfl
      · exact hmono e' (hs.torn e' hold)
      · exact hmono e' hin
    · rw [hnew]
      refine nodup_append.mpr ⟨hs.nodup, by simp, ?_⟩
      rintro a ha b hb rfl
      rw [mem_singleton] at hb
      exact hout (hb ▸ ha)
    · -- Nobody else is in surgery.
      have hki := hne hmine hk
      rw [hother k hki] at hk
      exact (hki (hexcl.unique (named_critical hk) (named_critical hname))).elim

theorem Replans.congr (hs : Replans s) (htorn : s'.torn = s.torn) (hsame : s'.replanned = s.replanned)
    (hnamed : ∀ k e, named (s'.tasks k) = some e → named (s.tasks k) = some e) : Replans s' := by
  refine ⟨?_, hsame ▸ hs.nodup, fun k e hk => ?_⟩
  · rw [htorn, hsame]
    exact hs.torn
  · rw [htorn, hsame]
    exact hs.fresh k e (hnamed k e hk)

theorem named_spawn (ht : named t = none) {e : Epoch} (h : named ((s.spawn t).tasks k) = some e) :
    named (s.tasks k) = some e := by
  rw [spawn_tasks] at h
  by_cases hk : k = s.fresh
  · subst hk
    rw [update_self, ht] at h
    cases h
  · rwa [update_of_ne hk] at h

theorem Replans.move (hs : Replans s) (hepochs : Epochs s) (hattempts : Attempts s) (hexcl : Exclusive s)
    (h : Move s l s') : Replans s' := by
  cases h with
  | starts l f t h =>
    refine hs.congr rfl rfl (fun k e hk => named_spawn (s := s.updateCluster f) ?_ hk)
    cases h <;> rfl
  | streams | bridgeTears | adopt => exact hs.congr rfl rfl (fun k e hk => hk)
  | task i c s' h => exact hs.task hepochs hattempts hexcl h
  | host act s' hgone h =>
    have hframe := h.frame
    refine hs.congr hframe.torn hframe.replanned (fun k e hk => ?_)
    rwa [hframe.reads named_ranTask k] at hk

/-! ### Where an unload is -/

/-- The unloads of a task in the mailbox. -/
def unloads (s : Daemon) (k : ℕ) : ℕ := s.host.inbox.count (.unload k)

/-- **An unload that a leader asked for is waited for**: a leader has at most one in the
host's mailbox, and none once it was confirmed; any other job has none. -/
structure Unloads (s : Daemon) : Prop where
  jobs : ∀ k job, s.tasks k = .job job →
    s.unloads k = 0 ∨ job.pc.tearing = true ∧ s.unloads k ≤ 1 ∧ s.replies k ≠ some .unloaded
  unused : ∀ k, s.fresh ≤ k → s.unloads k = 0
  gone : s.host.gone = true → ∀ k, s.unloads k = 0

theorem not_tearing_of_leading {pc : JobPc} {failed : Option ActivePlanView} (h : pc.leading = some failed) :
    pc.tearing = false := by
  cases pc <;> first | rfl | cases h

/-- The task that gets the answer to a message. -/
def addressee : HostMsg → Option ℕ
  | .load i _ => some i
  | .unload i => some i
  | .serveShard _ => none
  | .generate i => some i

/-- What a task's step does to the host: nothing, or one message more. -/
inductive Mail (s : Daemon) (i : ℕ) (s' : Daemon) : Prop
  | quiet (hhost : s'.host = s.host)
  | sends (msg : HostMsg) (hmsg : ∀ k, msg ≠ .unload k) (hto : addressee msg = some i) (hgone : s.host.gone = false)
      (hhost : s'.host = { s.host with inbox := s.host.inbox ++ [msg] })
  | unloads (hgone : s.host.gone = false)
      (hhost : s'.host = { s.host with inbox := s.host.inbox ++ [HostMsg.unload i] })
      (hreply : s'.replies i = none)

theorem Sends.host {before : Job} {u : Daemon} (h : Sends s i before u job) : u.host = s.host := by
  cases h <;> rfl

theorem Mail.tell {u : Daemon} (hu : u.host = s.host) (t : Task) : Mail s i ((u.tell i).put i t) := by
  rcases u.tell_cases i with ⟨-, h⟩ | ⟨hgone, h⟩
  · rw [h]
    exact .quiet hu
  · rw [h]
    refine .unloads (hu ▸ hgone) ?_ (by simp)
    rw [put_host, ← hu]
    rfl

/-- Every step of a task sends at most one message. -/
theorem TaskMove.mail (h : TaskMove s i t c s') : Mail s i s' := by
  obtain ⟨u, t', h, rfl⟩ := h
  cases h with
  | jobSends before job u hsends hgone =>
    refine .sends (.generate i) (by simp) rfl (hsends.host ▸ hgone) ?_
    rw [put_host, ← hsends.host]
    rfl
  | jobStopped before job u hsends => exact .quiet hsends.host
  | jobLeads | failureUnloads =>
    apply Mail.tell
    rfl
  | loadAsks _ _ hgone | jobAsks _ _ _ _ _ hgone | rejoinAsks _ _ hgone => exact .sends _ (by simp) rfl hgone rfl
  | loadPlans | jobPlans | rejoinPlans | rejoinSame => exact .quiet (stamped_host ..)
  | _ => exact .quiet rfl

theorem unloads_congr (h : s'.host.inbox = s.host.inbox) (k : ℕ) : s'.unloads k = s.unloads k := by
  unfold unloads
  rw [h]

theorem unloads_sends {m : HostMsg} (h : s'.host.inbox = s.host.inbox ++ [m]) (hmsg : ∀ k, m ≠ .unload k)
    (k : ℕ) : s'.unloads k = s.unloads k := by
  unfold unloads
  rw [h, count_append, count_singleton, if_neg (by simpa using hmsg k), Nat.add_zero]

theorem Mail.count (h : Mail s i s') :
    s'.host.gone = s.host.gone ∧ (∀ k, k ≠ i → s'.unloads k = s.unloads k) ∧ (s'.unloads i = s.unloads i ∨
        s.host.gone = false ∧ s'.unloads i = s.unloads i + 1 ∧ s'.replies i = none) := by
  cases h with
  | quiet hhost =>
    have hsame := unloads_congr (congrArg Host.inbox hhost)
    exact ⟨by rw [hhost], fun k _ => hsame k, .inl (hsame i)⟩
  | sends msg hmsg hto hgone hhost =>
    have hsame := unloads_sends (congrArg Host.inbox hhost) hmsg
    exact ⟨by rw [hhost], fun k _ => hsame k, .inl (hsame i)⟩
  | unloads hgone hhost hreply =>
    have hinbox : s'.host.inbox = s.host.inbox ++ [HostMsg.unload i] := congrArg Host.inbox hhost
    refine ⟨by rw [hhost], fun k hk => ?_, .inr ⟨hgone, ?_, hreply⟩⟩
    · unfold Daemon.unloads
      rw [hinbox, count_append, count_singleton, if_neg, Nat.add_zero]
      simpa using fun h : i = k => hk h.symm
    · unfold Daemon.unloads
      rw [hinbox, count_append, count_singleton_self]

theorem Unloads.calm (hs : Unloads s) (ht : s.tasks k = .job job) (hpc : job.pc.tearing = false) : s.unloads k = 0 := by
  rcases hs.jobs k job ht with hzero | ⟨htears, -⟩
  · exact hzero
  · cases hpc.symm.trans htears

/-- A job that steps has no unload in the mailbox, or has just asked for its only one. -/
theorem Unloads.own (hs : Unloads s) (h : TaskMove s i (s.tasks i) c s')
    (hwaits : ∀ job, c = .timeout → s.tasks i ≠ .job job) {job' : Job} (ht' : s'.tasks i = .job job') :
    s'.unloads i = 0 ∨ job'.pc.tearing = true ∧ s'.unloads i ≤ 1 ∧ s'.replies i ≠ some .unloaded := by
  obtain ⟨-, -, hcount⟩ := h.mail.count
  obtain ⟨u, t', h, rfl⟩ := h
  rw [put_same] at ht'
  generalize ht : s.tasks i = t at h hwaits
  have hcalm {job : Job} (hj : t = .job job) (hpc : job.pc.tearing = false) : s.unloads i = 0 :=
    hs.calm (ht.trans hj) hpc
  cases h with
  | jobSends before job u hsends =>
    refine .inl ((unloads_sends (m := .generate i) ?_ (by simp) i).trans (hcalm rfl ?_))
    · rw [put_host, send_host_inbox, hsends.host]
    · cases hsends <;> rfl
  | jobStopped before job u hsends =>
    refine .inl ((unloads_congr (congrArg Host.inbox hsends.host) i).trans (hcalm rfl ?_))
    cases hsends <;> rfl
  | jobLeads =>
    cases ht'
    rw [hcalm rfl rfl] at hcount
    rcases hcount with hsame | ⟨-, hone, hreply⟩
    · exact .inl hsame
    · exact .inr ⟨rfl, Nat.le_of_eq hone, fun h => by cases hreply.symm.trans h⟩
  | jobClears job failed source error c hconfirmed =>
    refine .inl (show s.unloads i = 0 from ?_)
    rcases hconfirmed with htimeout | hreply | hgone
    · exact (hwaits _ htimeout rfl).elim
    · exact (hs.jobs i _ ht).resolve_right fun h => h.2.2 hreply
    · exact hs.gone hgone i
  | jobGivesUp job pc failed message c hpc => exact .inl (hcalm rfl (not_tearing_of_leading hpc))
  | jobAsks => exact .inl ((unloads_sends rfl (by simp) i).trans (hcalm rfl rfl))
  | jobPlans => exact .inl ((unloads_congr (congrArg Host.inbox (stamped_host ..)) i).trans (hcalm rfl rfl))
  | jobFinishes | jobInterrupted | jobOrphaned | jobChecks | jobFollows | jobReplans | jobFails =>
    exact .inl (hcalm rfl rfl)
  | _ => cases ht'

theorem Unloads.task (hs : Unloads s) (hexcl : Exclusive s) (h : TaskMove s i (s.tasks i) c s')
    (hwaits : ∀ job, c = .timeout → s.tasks i ≠ .job job) : Unloads s' := by
  obtain ⟨hgone, hcount, hmine⟩ := h.mail.count
  obtain ⟨hother, hfresh, -⟩ := h.holder
  have hreplies := h.frame.replies
  have hi : i < s.fresh := by
    by_contra hle
    exact h.ne_ended (hexcl.unused i (by omega))
  refine ⟨fun k job ht => ?_, fun k hk => ?_, fun hg k => ?_⟩
  · by_cases hk : k = i
    · subst hk
      exact hs.own h hwaits ht
    · rw [hcount k hk, hreplies k hk]
      exact hs.jobs k job (hother k hk ▸ ht)
  · rw [hfresh] at hk
    rw [hcount k (by omega)]
    exact hs.unused k hk
  · rw [hgone] at hg
    by_cases hk : k = i
    · subst hk
      rcases hmine with hsame | ⟨hg', -, -⟩
      · rw [hsame, hs.gone hg]
      · rw [hg] at hg'
        cases hg'
    · rw [hcount k hk, hs.gone hg]

/-- Unloads only get fewer. -/
theorem Unloads.congr (hs : Unloads s)
    (htasks : ∀ k job, s'.tasks k = .job job → (∃ job₀, s.tasks k = .job job₀ ∧ job₀.pc = job.pc) ∨ s.fresh ≤ k)
    (hcount : ∀ k, s'.unloads k ≤ s.unloads k)
    (hreplies : ∀ k job, s'.tasks k = .job job → s'.replies k = some .unloaded →
      s.replies k = some .unloaded ∨ s'.unloads k = 0)
    (hfresh : s.fresh ≤ s'.fresh) (hgone : s'.host.gone = true → s.host.gone = true ∨ ∀ k, s'.unloads k = 0) :
    Unloads s' := by
  have hzero (k : ℕ) (h : s.unloads k = 0) : s'.unloads k = 0 := by
    have := hcount k
    omega
  refine ⟨fun k job ht => ?_, fun k hk => ?_, fun hg k => ?_⟩
  · rcases htasks k job ht with ⟨job₀, ht₀, hpc⟩ | hk
    · rcases hs.jobs k job₀ ht₀ with hnone | ⟨htears, hone, hreply⟩
      · exact .inl (hzero k hnone)
      · by_cases hreply' : s'.replies k = some .unloaded
        · exact .inl ((hreplies k job ht hreply').resolve_left hreply)
        · exact .inr ⟨hpc ▸ htears, Nat.le_trans (hcount k) hone, hreply'⟩
    · exact .inl (hzero k (hs.unused k hk))
  · exact hzero k (hs.unused k (Nat.le_trans hfresh hk))
  · rcases hgone hg with hold | hnone
    · exact hzero k (hs.gone hold k)
    · exact hnone k

theorem job_of_same (htasks : s'.tasks = s.tasks) (k : ℕ) (job : Job) (h : s'.tasks k = .job job) :
    (∃ job₀, s.tasks k = .job job₀ ∧ job₀.pc = job.pc) ∨ s.fresh ≤ k :=
  .inl ⟨job, htasks ▸ h, rfl⟩

variable (hs : Unloads s)
include hs

theorem Unloads.takes {r : Reply} {msg : HostMsg} (hr : r ≠ .unloaded)
    (hinbox : s.host.inbox = msg :: s'.host.inbox) (htasks : s'.tasks = s.tasks)
    (hreplies : s'.replies = Function.update s.replies i (some r)) (hfresh : s'.fresh = s.fresh)
    (hgone : s'.host.gone = s.host.gone) : Unloads s' := by
  refine hs.congr (job_of_same htasks) (fun k => ?_) (fun k job _ h => .inl ?_) (Nat.le_of_eq hfresh.symm)
    (fun hg => .inl (hgone ▸ hg))
  · unfold unloads
    rw [hinbox]
    exact count_le_count_cons
  · rw [hreplies] at h
    by_cases hk : k = i
    · subst hk
      rw [update_self] at h
      exact (hr (Option.some.inj h)).elim
    · rwa [update_of_ne hk] at h

theorem Unloads.ends {r : Reply} {running : List ℕ} (hr : r ≠ .unloaded) :
    Unloads ({ s with host := { s.host with running := running } }.reply i r) := by
  refine hs.congr (job_of_same rfl) (fun k => Nat.le_refl _) (fun k job _ h => .inl ?_) (Nat.le_refl _)
    (fun hg => .inl hg)
  rw [reply_replies] at h
  by_cases hk : k = i
  · subst hk
    rw [update_self] at h
    exact (hr (Option.some.inj h)).elim
  · rwa [update_of_ne hk] at h

theorem Unloads.host {act : HostAct} (h : HostMove s act s') : Unloads s' := by
  cases h with
  | refuses _ _ _ hinbox | loadFails _ _ _ _ hinbox | loads _ _ _ hinbox =>
    exact hs.takes (by simp) hinbox rfl rfl rfl rfl
  | finishes | interrupts => exact hs.ends (by simp)
  | runs i rest failure plan hinbox =>
    refine hs.congr (fun k job ht => .inl ?_) (fun k => ?_) (fun k job _ h => .inl h) (Nat.le_refl _)
      (fun hg => .inl hg)
    · by_cases hk : k = i
      · subst hk
        rw [put_same] at ht
        cases htask : s.tasks k <;> rw [htask] at ht <;> cases ht
        exact ⟨_, rfl, rfl⟩
      · rw [put_other _ _ _ hk] at ht
        exact ⟨job, ht, rfl⟩
    · unfold unloads
      rw [hinbox]
      exact count_le_count_cons
  | unloads i rest failure hinbox =>
    refine hs.congr (job_of_same rfl) (fun k => ?_) (fun k job ht h => ?_) (Nat.le_refl _) (fun hg => .inl hg)
    · unfold unloads
      rw [hinbox]
      exact count_le_count_cons
    · by_cases hk : k = i
      · subst hk
        have hle : s.unloads k ≤ 1 := by
          rcases hs.jobs k job ht with hnone | ⟨-, hone, -⟩ <;> omega
        unfold unloads at hle
        rw [hinbox, count_cons_self] at hle
        refine .inr ?_
        show rest.count _ = 0
        omega
      · rw [reply_replies, update_of_ne hk] at h
        exact .inl h
  | serves epoch rest failure hinbox =>
    refine hs.congr (job_of_same rfl) (fun k => ?_) (fun k job _ h => .inl h) (Nat.le_refl _) (fun hg => .inl hg)
    unfold unloads
    rw [hinbox]
    exact count_le_count_cons
  | exits =>
    exact hs.congr (job_of_same rfl) (fun k => Nat.zero_le _) (fun k job _ h => .inl h) (Nat.le_refl _)
      (fun _ => .inr fun k => rfl)

theorem Unloads.spawn (t : Task) : Unloads (s.spawn t) := by
  refine hs.congr (fun k job ht => ?_) (fun k => Nat.le_refl _) (fun k job _ h => .inl h) (Nat.le_succ _)
    (fun hg => .inl hg)
  rw [spawn_tasks] at ht
  by_cases hk : k = s.fresh
  · exact .inr (Nat.le_of_eq hk.symm)
  · rw [update_of_ne hk] at ht
    exact .inl ⟨job, ht, rfl⟩

theorem Unloads.updateCluster (f : ClusterState → ClusterState) : Unloads (s.updateCluster f) :=
  ⟨hs.jobs, hs.unused, hs.gone⟩

theorem Unloads.move (hexcl : Exclusive s) (h : Move s l s') (hsafe : RecoverySafe s l) : Unloads s' := by
  cases h with
  | starts l f t => exact (hs.updateCluster f).spawn t
  | streams => exact ⟨hs.jobs, hs.unused, hs.gone⟩
  | bridgeTears => exact hs.updateCluster _
  | adopt head plan => exact (hsafe.adopts head plan rfl).elim
  | task i c s' h => exact hs.task hexcl h (fun job hc => hsafe.waits i job (by rw [hc]))
  | host act s' hgone h => exact hs.host h

end Daemon

/-- All four in every run of safe steps. -/
theorem recovery_invariants {labels : List Daemon.Label} {s : Daemon}
    (hsafe : daemon.Meets Daemon.RecoverySafe labels) (hrun : daemon.run labels = some s) :
    s.Epochs ∧ s.Attempts ∧ s.Replans ∧ s.Unloads := by
  refine Machine.run_induct_of_meets (M := daemon)
    (I := fun _ s => s.Epochs ∧ s.Attempts ∧ s.Replans ∧ s.Unloads) ?_ ?_ hsafe hrun
  · refine ⟨⟨?_, ?_, nodup_nil, ?_, ?_⟩, ⟨fun k => trivial, fun k plan h => ?_⟩,
      ⟨fun e h => ?_, nodup_nil, fun k e h => ?_⟩, ⟨fun k job h => ?_, fun k _ => rfl, fun _ k => rfl⟩⟩
    · intro p hp
      cases hp with
      | active _ h | pending _ h | asked _ h | loaded h => cases h
    · intro e he
      cases he
    · intro v hv
      cases hv
    · intro v hv
      cases hv
    · cases h
    · cases h
    · cases h
    · cases h
  · rintro ls s l t hs ⟨hepochs, hattempts, hreplans, hunloads⟩ hsafe hstep
    have hmove := Daemon.Move.of_next hstep
    have hexcl := exclusive_of_run hs
    refine ⟨hepochs.move (pending_of_run hs) (hmove.epochMove hsafe.adopts) (fun p => hmove.known hsafe.adopts) ?_ ?_,
      hattempts.move hepochs hexcl (tokens_of_run hs) hmove hsafe, hreplans.move hepochs hattempts hexcl hmove,
      hunloads.move hexcl hmove hsafe⟩
    · intro i job failed source error htask hpc
      obtain ⟨v, plan, hv, hfailed, -, -, hne⟩ := hattempts.tears htask hpc
      exact ⟨v, hv, hfailed, hne⟩
    · intro i epoch htask
      exact hattempts.fails htask

/-- **Recovery tears down only what failed.** In every run of steps that respect the
conditions: whenever the host is about to unload for a job, or a job is anywhere from its look
at the active epoch to the clearing of the view, the active epoch is the one the job's attempt
ran on; and no failed epoch is torn down, or planned again, twice. -/
theorem recovery_exact (labels : List Daemon.Label) (s : Daemon)
    (hsafe : daemon.Meets Daemon.RecoverySafe labels) (hrun : daemon.run labels = some s) :
    (∀ i job, s.tasks i = .job job → s.host.inbox.head? = some (.unload i) ∨ job.pc.leads = true →
      ∃ v p, s.cluster.active = some v ∧ job.ranOn = some p ∧ v.plan.epoch = p.epoch) ∧
    s.torn.Nodup ∧ s.replanned.Nodup := by
  obtain ⟨hepochs, hattempts, hreplans, hunloads⟩ := recovery_invariants hsafe hrun
  refine ⟨fun i job htask habout => ?_, hepochs.nodup, hreplans.nodup⟩
  have hleads : job.pc.leads = true := by
    rcases habout with hhead | hleads
    · -- An unload in the mailbox belongs to a job that waits for it.
      cases hpc : job.pc.tearing
      · have hzero := hunloads.calm htask hpc
        obtain ⟨rest, hinbox⟩ := List.head?_eq_some_iff.mp hhead
        unfold Daemon.unloads at hzero
        rw [hinbox, count_cons_self] at hzero
        cases hzero
      · exact leads_of_tearing hpc
    · exact hleads
  obtain ⟨v, hv, plan, hran, heq, -⟩ := hattempts.leads htask hleads
  exact ⟨v, plan, hv, hran, Option.some.inj heq⟩

/-! ### Runs -/

namespace Daemon

/-- The conditions, computed. -/
def recoveryCheck (s : Daemon) : Label → Bool
  | .adopt _ _ => false
  | .step i c =>
    match s.tasks i, c with
    | .load _ (.activating (.waiting _)), _ => (List.range s.fresh).all fun k => !tearing (s.tasks k)
    | .job _, .timeout => false
    | _, _ => true
  | .host (.take _) =>
    match s.host.inbox, s.host.model with
    | .generate i :: _, some plan =>
      match s.tasks i with
      | .job job => plan.strategy = .solo || job.pc = .attempting (some plan.epoch)
      | _ => plan.strategy = .solo
    | _, _ => true
  | _ => true

theorem RecoverySafe.of_check {s : Daemon} {l : Label} (hexcl : Exclusive s) (h : s.recoveryCheck l = true) :
    RecoverySafe s l := by
  refine ⟨fun failure i rest plan hl hinbox hmodel hdist => ?_, fun i c source plan hl htask _ k => ?_,
    fun i job hl htask => ?_, fun head plan hl => ?_⟩
  · subst hl
    simp only [recoveryCheck, hinbox, hmodel] at h
    cases htask : s.tasks i <;> simp [htask, hdist] at h
    exact ⟨_, rfl, h⟩
  · subst hl
    simp only [recoveryCheck, htask, all_eq_true, mem_range] at h
    by_cases hk : k < s.fresh
    · simpa using h k hk
    · rw [hexcl.unused k (by omega)]
      rfl
  · subst hl
    simp [recoveryCheck, htask] at h
  · subst hl
    cases h

/-- A model. -/
def modelFile : LoadedSource :=
  { reference := "m.gguf", name := "m", paths := ["m.gguf"], sizeBytes := 100, draftReference := none }

/-- Its two layers on two nodes. -/
def shards : List Assignment := [⟨"head", ⟨0, 1⟩, 0⟩, ⟨"worker", ⟨1, 2⟩, 1⟩]

/-- A load of the file on two nodes, up to the request to the host. -/
def asksLoad (i : ℕ) : List Label :=
  [.load modelFile, .step i (.plans .pipelineParallel shards), .step i .go, .step i .go]

/-- A load of the file on two nodes. -/
def loadsModel (i : ℕ) : List Label := asksLoad i ++ [.host (.take none), .step i .go]

/-- A job is submitted and started. -/
def runsJob (i : ℕ) : List Label := [.submit, .step i .go, .host (.take none)]

/-- Its attempt is interrupted, and it leads the recovery. -/
def leadsJob (i : ℕ) : List Label :=
  [.host (.interrupt i "decode failed"), .step i .go, .step i .go, .step i .go]

end Daemon

open Daemon in
theorem recovery_exact_one_job : ∃ s job v p,
    daemon.run (loadsModel 0 ++ runsJob 1 ++ leadsJob 1) = some s ∧ s.tasks 1 = .job job ∧
    s.cluster.active = some v ∧ job.ranOn = some p ∧ p.epoch = 1 ∧ v.plan.epoch = p.epoch := by
  have hsafe : daemon.Meets RecoverySafe (loadsModel 0 ++ runsJob 1 ++ leadsJob 1) :=
    Machine.meets_of_checks (f := recoveryCheck)
      (fun _ _ _ hrun h => .of_check (exclusive_of_run hrun) h) rfl
  obtain ⟨hexact, -, -⟩ := recovery_exact _ _ hsafe rfl
  obtain ⟨v, p, hv, hp, heq⟩ := hexact 1 _ rfl (.inl rfl)
  refine ⟨_, _, v, p, rfl, rfl, hv, hp, ?_, heq⟩
  cases hp
  rfl

open Daemon in
/-- **A load that lands in a recovery is torn down**: a user's load waits in the host's
mailbox while a job runs on epoch 1. The job's attempt is interrupted and it leads; then
the load succeeds and epoch 2 is shown. The host unloads epoch 2 and the leader clears its
view, while what it records is epoch 1. -/
theorem load_torn_down : ∃ s job t, daemon.run (loadsModel 0 ++ runsJob 1 ++ asksLoad 2 ++ leadsJob 1 ++
      [.host (.take none), .step 2 .go]) = some s ∧
    s.tasks 1 = .job job ∧ s.host.inbox.head? = some (.unload 1) ∧ job.pc.tearing = true ∧
    job.ranOn.map Plan.epoch = some 1 ∧ s.activeEpoch = some 2 ∧ s.host.model.map Plan.epoch = some 2 ∧
    daemon.runFrom s [.host (.take none), .step 1 .go] = some t ∧
    t.activeEpoch = none ∧ t.host.model = none ∧ t.torn = [1] :=
  ⟨_, _, _, rfl, rfl, rfl, rfl, rfl, rfl, rfl, rfl, rfl, rfl, rfl⟩

end OneBrain.Cluster
