import OneBrain.Cluster.Tasks

/-!
# Epochs of a daemon

The plans a daemon has somewhere, shown, being activated or with its host, and what their
epochs say of them.

* `Known` — the plans the daemon has somewhere. A step adds only a freshly stamped one, or
  one it adopts (`Move.known`).
* `EpochMove` — the ways a step touches these (`Move.epochMove`).
* `Pending`, `Used` — a plan on its way has an epoch of its own, in every run; an epoch that
  no plan on its way has stays so (`Used.move`).
* `Epochs` — while no plan of another head is adopted; it is kept by every step that tears
  down no epoch but the active one (`Epochs.move`).
-/

namespace OneBrain.Cluster

open OneBrain.Lib

/-- The plan a job activates. -/
def JobPc.pending : JobPc → Option Plan
  | .activating _ _ _ a => some a.plan
  | _ => none

/-- The plan a task activates. -/
def pendingPlan : Task → Option Plan
  | .load _ (.planned plan) => some plan
  | .load _ (.activating a) => some a.plan
  | .job job => job.pc.pending
  | .rejoin (.activating _ a) => some a.plan
  | _ => none

namespace Daemon

variable {s s' : Daemon} {i k : ℕ}

/-! ### The plans of the daemon -/

/-- A plan that is shown, on its way or loaded. -/
inductive Known (s : Daemon) (p : Plan) : Prop
  | active (v : ActivePlanView) (h : s.cluster.active = some v) (hp : v.plan = p)
  | pending (k : ℕ) (h : pendingPlan (s.tasks k) = some p)
  | asked (k : ℕ) (h : .load k p ∈ s.host.inbox)
  | loaded (h : s.host.model = some p)

/-- A plan stamped in this step. -/
def FreshPlan (s s' : Daemon) (p : Plan) : Prop :=
  ∃ model strategy assignments, p = s.stampedPlan model strategy assignments ∧
    s'.cluster.epochCounter = (s.stamped model strategy assignments).cluster.epochCounter

variable {t : Task} {p : Plan} {u : Daemon}

theorem known_put (h : Known (s.put i t) p) : Known s p ∨ pendingPlan t = some p := by
  cases h with
  | active v h hp => exact .inl (.active v h hp)
  | pending k h =>
    by_cases hk : k = i
    · subst hk
      rw [put_same] at h
      exact .inr h
    · rw [put_other _ _ _ hk] at h
      exact .inl (.pending k h)
  | asked k h => exact .inl (.asked k h)
  | loaded h => exact .inl (.loaded h)

theorem known_put_none (h : Known (s.put i t) p) (ht : pendingPlan t = none) : Known s p := by
  refine (known_put h).resolve_right ?_
  rw [ht]
  simp

theorem known_send {msg : HostMsg} (h : Known (s.send i msg) p) : Known s p ∨ ∃ k, msg = .load k p := by
  cases h with
  | active v h hp => exact .inl (.active v h hp)
  | pending k h => exact .inl (.pending k h)
  | asked k h =>
    rw [send_host_inbox, List.mem_append, List.mem_singleton] at h
    rcases h with h | h
    · exact .inl (.asked k h)
    · exact .inr ⟨k, h.symm⟩
  | loaded h => exact .inl (.loaded h)

theorem Known.view (h : Known s' p) (hactive : ∀ v, s'.cluster.active = some v → Known s v.plan)
    (htasks : s'.tasks = s.tasks) (hhost : s'.host = s.host) : Known s p := by
  cases h with
  | active v h hp => exact hp ▸ hactive v h
  | pending k h => exact .pending k (htasks ▸ h)
  | asked k h => exact .asked k (hhost ▸ h)
  | loaded h => exact .loaded (hhost ▸ h)

theorem Known.mono (h : Known s' p) (hactive : s'.cluster.active = s.cluster.active ∨ s'.cluster.active = none)
    (htasks : s'.tasks = s.tasks) (hhost : s'.host = s.host) : Known s p := by
  refine h.view (fun v hv => ?_) htasks hhost
  rcases hactive with hsame | hnone
  · exact .active v (hsame ▸ hv) rfl
  · rw [hnone] at hv
    cases hv

theorem known_tell (h : Known (s.tell i) p) : Known s p := by
  rcases s.tell_cases i with ⟨-, heq⟩ | ⟨-, heq⟩
  · rwa [heq] at h
  · rw [heq] at h
    exact (known_send h).resolve_right (by simp)

theorem Known.shown {plan : Plan} (h : Known s' p) (hactive : s'.cluster.active = some ⟨.head, plan⟩)
    (htasks : s'.tasks = s.tasks) (hhost : s'.host = s.host) (hplan : Known s plan) : Known s p := by
  refine h.view (fun v hv => ?_) htasks hhost
  cases hactive.symm.trans hv
  exact hplan

theorem Sends.known {before job : Job} (h : Sends s i before u job)
    (ht : s.tasks i = .job before) (hp : Known u p) : Known s p := by
  cases h with
  | recovers => exact hp.shown rfl rfl rfl (.pending i (by rw [ht]; rfl))
  | _ => exact hp

/-- A step of a task brings in no plan but one it stamps. -/
theorem TaskMove.known {c : Choice} (h : TaskMove s i (s.tasks i) c s') (hp : Known s' p) :
    Known s p ∨ FreshPlan s s' p := by
  obtain ⟨u, t', h, rfl⟩ := h
  generalize ht : s.tasks i = t at h
  have hmine (q : Plan) (hq : pendingPlan t = some q) : Known s q := .pending i (ht ▸ hq)
  cases h with
  | loadPlans | jobPlans | rejoinPlans =>
    rcases known_put hp with h | h
    · exact .inl (h.mono (.inl (by simp)) (by simp) (by simp))
    · exact .inr ⟨_, _, _, (Option.some.inj h).symm, rfl⟩
  | loadStarts =>
    rcases known_put hp with h | h
    · exact .inl h
    · exact .inl (hmine p h)
  | loadAsks | jobAsks | rejoinAsks =>
    rcases known_put hp with h | h
    · rcases known_send h with h | ⟨k, h⟩
      · exact .inl h
      · cases h
        exact .inl (hmine p rfl)
    · exact .inl (hmine p h)
  | loadInstalls | rejoinInstalls => exact .inl ((known_put_none hp rfl).shown rfl rfl rfl (hmine _ rfl))
  | jobSends before job u hsends =>
    exact .inl (hsends.known ht ((known_send (known_put_none hp rfl)).resolve_right (by simp)))
  | jobStopped before job u hsends => exact .inl (hsends.known ht (known_put_none hp rfl))
  | jobLeads | failureUnloads =>
    exact .inl ((known_tell (known_put_none hp rfl)).mono (.inl (by simp)) rfl rfl)
  | jobClears | failureClears => exact .inl ((known_put_none hp rfl).mono (.inr rfl) rfl rfl)
  | rejoinSame => exact .inl ((known_put_none hp rfl).mono (.inl (by simp)) (stamped_tasks ..) (stamped_host ..))
  | _ => exact .inl ((known_put_none hp rfl).mono (.inl rfl) rfl rfl)

theorem pendingPlan_ranTask (plan : Plan) (t : Task) : pendingPlan (ranTask plan t) = pendingPlan t := by
  cases t <;> rfl

theorem HostMove.known {act : HostAct} (h : HostMove s act s') (hp : Known s' p) : Known s p := by
  have hframe := h.frame
  cases hp with
  | active v hv hvp => exact .active v (hframe.cluster ▸ hv) hvp
  | pending k hk =>
    rw [hframe.reads pendingPlan_ranTask k] at hk
    exact .pending k hk
  | asked k hk =>
    cases h with
    | refuses _ _ _ hinbox | runs _ _ _ _ hinbox | loadFails _ _ _ _ hinbox | loads _ _ _ hinbox
    | unloads _ _ _ hinbox | serves _ _ _ hinbox => exact .asked k (hinbox ▸ List.mem_cons_of_mem _ hk)
    | finishes | interrupts => exact .asked k hk
    | exits => cases hk
  | loaded hk =>
    cases h with
    | loads i plan rest hinbox =>
      cases hk
      exact .asked i (hinbox ▸ List.mem_cons_self ..)
    | loadFails | unloads | serves | exits => cases hk
    | _ => exact .loaded hk

theorem known_spawn (ht : pendingPlan t = none) (h : Known (s.spawn t) p) : Known s p :=
  known_put_none (h.mono (s := s.put s.fresh t) (.inl rfl) rfl rfl) ht

theorem Move.known {l : Label} (h : Move s l s') (hadopt : ∀ head plan, l ≠ .adopt head plan)
    (hp : Known s' p) : Known s p ∨ FreshPlan s s' p := by
  cases h with
  | starts l f t h => cases h <;> exact .inl ((known_spawn rfl hp).mono (.inl (by simp)) rfl rfl)
  | streams => exact .inl (hp.mono (.inl rfl) rfl rfl)
  | bridgeTears => exact .inl (hp.mono (.inl (by simp)) rfl rfl)
  | adopt head plan => exact (hadopt head plan rfl).elim
  | task i c s' h => exact h.known hp
  | host act s' hgone h => exact .inl (h.known hp)

/-! ### What a step does to epochs -/

/-- The ways a step can touch the active view, the torn epochs and the pending plans. -/
inductive EpochMove (s : Daemon) (s' : Daemon) : Prop
  | quiet (hactive : s'.cluster.active = s.cluster.active) (htorn : s'.torn = s.torn)
      (hcounter : s.cluster.epochCounter ≤ s'.cluster.epochCounter)
      (hpending : ∀ k p, pendingPlan (s'.tasks k) = some p → pendingPlan (s.tasks k) = some p)
  | stamps (i : ℕ) (model : String) (strategy : Strategy) (assignments : List Assignment)
      (hactive : s'.cluster.active = s.cluster.active) (htorn : s'.torn = s.torn)
      (hcounter : s'.cluster.epochCounter = (s.stamped model strategy assignments).cluster.epochCounter)
      (hmine : pendingPlan (s'.tasks i) = some (s.stampedPlan model strategy assignments))
      (hothers : ∀ k, k ≠ i → pendingPlan (s'.tasks k) = pendingPlan (s.tasks k))
  | installs (i : ℕ) (plan : Plan) (hpending : pendingPlan (s.tasks i) = some plan)
      (hactive : s'.cluster.active = some ⟨.head, plan⟩) (htorn : s'.torn = s.torn)
      (hcounter : s'.cluster.epochCounter = s.cluster.epochCounter)
      (hmine : pendingPlan (s'.tasks i) = none)
      (hothers : ∀ k, k ≠ i → pendingPlan (s'.tasks k) = pendingPlan (s.tasks k))
  /-- The view is cleared for a failed epoch. -/
  | tears (i : ℕ) (failed : Option Epoch) (hactive : s'.cluster.active = none)
      (htearing : (∃ job view source error, s.tasks i = .job job ∧ job.pc = .unloading view source error ∧
          failed = epochOf view) ∨ ∃ epoch, s.tasks i = .failure (.unloading epoch) ∧ failed = some epoch)
      (htorn : s'.torn = s.torn ++ failed.toList)
      (hcounter : s'.cluster.epochCounter = s.cluster.epochCounter)
      (hpending : ∀ k p, pendingPlan (s'.tasks k) = some p → pendingPlan (s.tasks k) = some p)

/-- A change of one place that has no plan pending, or the one it had. -/
theorem pendingPlan_put (ht : pendingPlan t = none ∨ pendingPlan t = pendingPlan (s.tasks i)) :
    ∀ k p, pendingPlan ((s.put i t).tasks k) = some p → pendingPlan (s.tasks k) = some p := by
  intro k p h
  by_cases hk : k = i
  · subst hk
    rw [put_same] at h
    rcases ht with hnone | hsame
    · rw [hnone] at h
      cases h
    · rwa [hsame] at h
  · rwa [put_other _ _ _ hk] at h

theorem EpochMove.via (hactive : u.cluster.active = s.cluster.active)
    (htorn : u.torn = s.torn) (hcounter : s.cluster.epochCounter ≤ u.cluster.epochCounter)
    (htasks : u.tasks = s.tasks) (ht : pendingPlan t = none ∨ pendingPlan t = pendingPlan (s.tasks i)) :
    EpochMove s (u.put i t) := by
  refine .quiet hactive htorn hcounter (fun k p h => ?_)
  rw [← htasks] at ht ⊢
  exact pendingPlan_put ht k p h

theorem le_stamped_counter (s : Daemon) (model : String) (strategy : Strategy) (assignments : List Assignment) :
    s.cluster.epochCounter ≤ (s.stamped model strategy assignments).cluster.epochCounter := by
  cases strategy
  · exact Nat.le_refl _
  · exact Nat.le_succ _

theorem EpochMove.stamp {model : String} {strategy : Strategy} {assignments : List Assignment}
    (ht : pendingPlan t = some (s.stampedPlan model strategy assignments)) :
    EpochMove s ((s.stamped model strategy assignments).put i t) := by
  refine .stamps i model strategy assignments (stamped_active ..) (stamped_torn ..) rfl ?_ (fun k hk => ?_)
  · rw [put_same, ht]
  · rw [put_other _ _ _ hk, stamped_tasks]

theorem EpochMove.install {plan : Plan} (hpending : pendingPlan (s.tasks i) = some plan)
    (hactive : u.cluster.active = some ⟨.head, plan⟩) (htorn : u.torn = s.torn)
    (hcounter : u.cluster.epochCounter = s.cluster.epochCounter) (htasks : u.tasks = s.tasks)
    (ht : pendingPlan t = none) : EpochMove s (u.put i t) := by
  refine .installs i plan hpending hactive htorn hcounter ?_ (fun k hk => ?_)
  · rw [put_same, ht]
  · rw [put_other _ _ _ hk, htasks]

theorem TaskMove.epochMove {c : Choice} (h : TaskMove s i (s.tasks i) c s') : EpochMove s s' := by
  obtain ⟨u, t', h, rfl⟩ := h
  generalize ht : s.tasks i = t at h
  cases h with
  | loadPlans | jobPlans | rejoinPlans => exact .stamp rfl
  | loadStarts | loadAsks | jobAsks | rejoinAsks => exact .via rfl rfl (Nat.le_refl _) rfl (.inr (by rw [ht]; rfl))
  | loadInstalls | rejoinInstalls => exact .install (by rw [ht]; rfl) rfl rfl rfl rfl rfl
  | jobSends _ _ _ hsends | jobStopped _ _ _ hsends =>
    cases hsends with
    | recovers => exact .install (by rw [ht]; rfl) rfl rfl rfl rfl rfl
    | _ => exact .via rfl rfl (Nat.le_refl _) rfl (.inl rfl)
  | jobLeads | failureUnloads => exact .via (by simp) (by simp) (by simp) (tell_tasks ..) (.inl rfl)
  | jobClears job failed source error =>
    exact .tears i (epochOf failed) rfl (.inl ⟨_, failed, source, error, ht, rfl, rfl⟩) rfl rfl
      (pendingPlan_put (s := (s.updateCluster _).tear _) (.inl rfl))
  | failureClears epoch =>
    exact .tears i (some epoch) rfl (.inr ⟨epoch, ht, rfl⟩) rfl rfl
      (pendingPlan_put (s := ((s.updateCluster _).tear _).unlock) (.inl rfl))
  | rejoinSame =>
    exact .via (stamped_active ..) (stamped_torn ..) (le_stamped_counter ..) (stamped_tasks ..) (.inl rfl)
  | _ => exact .via rfl rfl (Nat.le_refl _) rfl (.inl rfl)

theorem EpochMove.spawn (hactive : u.cluster.active = s.cluster.active)
    (htorn : u.torn = s.torn) (hcounter : s.cluster.epochCounter ≤ u.cluster.epochCounter)
    (htasks : u.tasks = s.tasks) (ht : pendingPlan t = none) : EpochMove s (u.spawn t) := by
  refine .quiet hactive htorn hcounter (fun k p h => ?_)
  rw [← htasks]
  exact pendingPlan_put (i := u.fresh) (.inl ht) k p h

theorem Move.epochMove {l : Label} (h : Move s l s') (hadopt : ∀ head plan, l ≠ .adopt head plan) :
    EpochMove s s' := by
  cases h with
  | starts l f t h => cases h <;> exact .spawn (by simp) rfl (by simp) rfl rfl
  | streams => exact .quiet rfl rfl (Nat.le_refl _) (fun _ _ h => h)
  | bridgeTears => exact .quiet (by simp) rfl (by simp) (fun _ _ h => h)
  | adopt head plan => exact (hadopt head plan rfl).elim
  | task i c s' h => exact h.epochMove
  | host act s' hgone h =>
    have hframe := h.frame
    refine .quiet (by rw [hframe.cluster]) hframe.torn (Nat.le_of_eq (by rw [hframe.cluster])) (fun k p hp => ?_)
    rwa [hframe.reads pendingPlan_ranTask k] at hp

/-! ### The invariants -/

/-- **Plans on their way have epochs of their own**: at most the counter, and no two of them
the same but for solo plans. -/
structure Pending (s : Daemon) : Prop where
  le : ∀ k p, pendingPlan (s.tasks k) = some p → p.epoch ≤ s.cluster.epochCounter
  distinct : ∀ k j p q, k ≠ j → pendingPlan (s.tasks k) = some p → pendingPlan (s.tasks j) = some q →
    p.epoch ≠ 0 → p.epoch ≠ q.epoch

/-- An epoch that was stamped and that no plan on its way has. -/
structure Used (s : Daemon) (e : Epoch) : Prop where
  le : e ≤ s.cluster.epochCounter
  apart : ∀ k p, pendingPlan (s.tasks k) = some p → p.epoch ≠ 0 → p.epoch ≠ e

/-- **Epochs tell plans apart**: zero is the solo plans', and a torn epoch is neither shown
nor on its way. -/
structure Epochs (s : Daemon) : Prop where
  known : ∀ p, Known s p → (p.epoch = 0 ↔ p.strategy = .solo) ∧ p.epoch ≤ s.cluster.epochCounter
  torn : ∀ e ∈ s.torn, e ≠ 0 ∧ Used s e
  nodup : s.torn.Nodup
  active : ∀ v, s.cluster.active = some v → v.plan.epoch ∉ s.torn
  apart : ∀ v, s.cluster.active = some v → Used s v.plan.epoch

theorem Epochs.pending (hs : Epochs s) (hp : pendingPlan (s.tasks k) = some p) : p.epoch ∉ s.torn := by
  intro hmem
  obtain ⟨hne, hused⟩ := hs.torn _ hmem
  exact hused.apart k p hp hne rfl

theorem stampedPlan_epoch (s : Daemon) (model : String) (strategy : Strategy) (assignments : List Assignment) :
    ((s.stampedPlan model strategy assignments).epoch = 0 ↔
        (s.stampedPlan model strategy assignments).strategy = .solo) ∧
      (s.stampedPlan model strategy assignments).epoch ≤ (s.stamped model strategy assignments).cluster.epochCounter ∧
      ((s.stampedPlan model strategy assignments).epoch ≠ 0 →
        s.cluster.epochCounter < (s.stampedPlan model strategy assignments).epoch) := by
  cases strategy
  · exact ⟨⟨fun _ => rfl, fun _ => rfl⟩, Nat.zero_le _, fun h => (h rfl).elim⟩
  · exact ⟨⟨fun h => (by cases h), fun h => (by cases h)⟩, Nat.le_refl _, fun _ => Nat.lt_succ_self _⟩

theorem EpochMove.counter_le (h : EpochMove s s') : s.cluster.epochCounter ≤ s'.cluster.epochCounter := by
  cases h with
  | quiet _ _ hcounter => exact hcounter
  | stamps _ _ _ _ _ _ hcounter => exact hcounter ▸ le_stamped_counter ..
  | installs _ _ _ _ _ hcounter | tears _ _ _ _ _ hcounter => exact Nat.le_of_eq hcounter.symm

/-- A plan on its way was so before, or its epoch is above the counter. -/
theorem EpochMove.pending (h : EpochMove s s') (hp : pendingPlan (s'.tasks k) = some p) :
    pendingPlan (s.tasks k) = some p ∨ (p.epoch ≤ s'.cluster.epochCounter ∧
      (p.epoch ≠ 0 → s.cluster.epochCounter < p.epoch) ∧
      ∀ j, j ≠ k → pendingPlan (s'.tasks j) = pendingPlan (s.tasks j)) := by
  cases h with
  | quiet _ _ _ hpending | tears _ _ _ _ _ _ hpending => exact .inl (hpending k p hp)
  | installs i plan _ _ _ _ hmine hothers =>
    by_cases hk : k = i
    · subst hk
      rw [hmine] at hp
      cases hp
    · exact .inl (hothers k hk ▸ hp)
  | stamps i model strategy assignments _ _ hcounter hmine hothers =>
    by_cases hk : k = i
    · subst hk
      rw [hmine] at hp
      cases hp
      obtain ⟨-, hle, hfresh⟩ := s.stampedPlan_epoch model strategy assignments
      exact .inr ⟨hcounter ▸ hle, hfresh, hothers⟩
    · exact .inl (hothers k hk ▸ hp)

theorem Used.move {e : Epoch} (hs : Used s e) (h : EpochMove s s') : Used s' e := by
  refine ⟨Nat.le_trans hs.le h.counter_le, fun k p hp hne => ?_⟩
  rcases h.pending hp with hold | ⟨-, hfresh, -⟩
  · exact hs.apart k p hold hne
  · exact (Nat.ne_of_lt (Nat.lt_of_le_of_lt hs.le (hfresh hne))).symm

theorem Pending.move (hs : Pending s) (h : EpochMove s s') : Pending s' := by
  constructor
  · intro k p hp
    rcases h.pending hp with hold | ⟨hle, -, -⟩
    · exact Nat.le_trans (hs.le k p hold) h.counter_le
    · exact hle
  · intro k j p q hkj hp hq hne
    rcases h.pending hp with hold | ⟨-, hfresh, hothers⟩
    · rcases h.pending hq with holdq | ⟨-, hfresh, -⟩
      · exact hs.distinct k j p q hkj hold holdq hne
      · intro heq
        exact Nat.ne_of_lt (Nat.lt_of_le_of_lt (hs.le k p hold) (hfresh (heq ▸ hne))) heq
    · rw [hothers j (Ne.symm hkj)] at hq
      exact (Nat.ne_of_lt (Nat.lt_of_le_of_lt (hs.le j q hq) (hfresh hne))).symm

/-- A plan that is shown is no longer on its way, and no other has its epoch. -/
theorem Pending.installed {plan : Plan} (hs : Pending s) (hpending : pendingPlan (s.tasks i) = some plan)
    (hcounter : s'.cluster.epochCounter = s.cluster.epochCounter) (hmine : pendingPlan (s'.tasks i) = none)
    (hothers : ∀ k, k ≠ i → pendingPlan (s'.tasks k) = pendingPlan (s.tasks k)) : Used s' plan.epoch := by
  refine ⟨hcounter ▸ hs.le i plan hpending, fun k p hp hne => ?_⟩
  by_cases hk : k = i
  · subst hk
    rw [hmine] at hp
    cases hp
  · exact hs.distinct k i p plan hk (hothers k hk ▸ hp) hpending hne

/-- A step that tears down no epoch but the active one keeps the invariant. -/
theorem Epochs.move (hs : Epochs s) (hpend : Pending s) (h : EpochMove s s')
    (hknown : ∀ p, Known s' p → Known s p ∨ FreshPlan s s' p)
    (htears : ∀ i job failed source error, s.tasks i = .job job → job.pc = .unloading failed source error →
      ∃ v, s.cluster.active = some v ∧ failed = some v ∧ v.plan.epoch ≠ 0)
    (hfails : ∀ i epoch, s.tasks i = .failure (.unloading epoch) →
      epoch ≠ 0 ∧ ∃ v, s.cluster.active = some v ∧ v.plan.epoch = epoch) : Epochs s' := by
  have hknown' (p : Plan) (hp : Known s' p) :
      (p.epoch = 0 ↔ p.strategy = .solo) ∧ p.epoch ≤ s'.cluster.epochCounter := by
    rcases hknown p hp with hold | hnew
    · exact ⟨(hs.known p hold).1, Nat.le_trans (hs.known p hold).2 h.counter_le⟩
    · obtain ⟨model, strategy, assignments, rfl, hcount⟩ := hnew
      obtain ⟨hsolo, hle, -⟩ := s.stampedPlan_epoch model strategy assignments
      exact ⟨hsolo, hcount ▸ hle⟩
  have hused (e : Epoch) (he : e ∈ s.torn) : e ≠ 0 ∧ Used s' e := ⟨(hs.torn e he).1, (hs.torn e he).2.move h⟩
  have hshown (v : ActivePlanView) (hv : s.cluster.active = some v) : Used s' v.plan.epoch := (hs.apart v hv).move h
  cases h with
  | quiet hactive htorn | stamps _ _ _ _ hactive htorn =>
    refine ⟨hknown', htorn ▸ hused, htorn ▸ hs.nodup, ?_, hactive ▸ hshown⟩
    rw [hactive, htorn]
    exact hs.active
  | installs i plan hpending hactive htorn hcounter hmine hothers =>
    refine ⟨hknown', htorn ▸ hused, htorn ▸ hs.nodup, fun v hv => ?_, fun v hv => ?_⟩
    · rw [hactive] at hv
      cases hv
      rw [htorn]
      exact hs.pending hpending
    · rw [hactive] at hv
      cases hv
      exact hpend.installed hpending hcounter hmine hothers
  | tears i failed hactive htearing htorn hcounter hpending =>
    obtain ⟨v, hv, hfailed, hne⟩ : ∃ v, s.cluster.active = some v ∧ failed = some v.plan.epoch ∧
        v.plan.epoch ≠ 0 := by
      rcases htearing with ⟨job, view, source, error, htask, hpc, rfl⟩ | ⟨epoch, htask, rfl⟩
      · obtain ⟨v, hv, rfl, hne⟩ := htears i job view source error htask hpc
        exact ⟨v, hv, rfl, hne⟩
      · obtain ⟨hne, v, hv, rfl⟩ := hfails i epoch htask
        exact ⟨v, hv, rfl, hne⟩
    rw [hfailed, Option.toList_some] at htorn
    refine ⟨hknown', fun e he => ?_, ?_, fun w hw => ?_, fun w hw => ?_⟩
    · rw [htorn, List.mem_append, List.mem_singleton] at he
      rcases he with hold | rfl
      · exact hused e hold
      · exact ⟨hne, hshown v hv⟩
    · rw [htorn]
      refine List.nodup_append.mpr ⟨hs.nodup, by simp, ?_⟩
      rintro a ha b hb rfl
      rw [List.mem_singleton] at hb
      exact hs.active v hv (hb ▸ ha)
    · rw [hactive] at hw
      cases hw
    · rw [hactive] at hw
      cases hw

/-- An adoption touches no plan on its way. -/
theorem Move.epochMove_or {l : Label} (h : Move s l s') :
    EpochMove s s' ∨ (s'.headPlan = none ∧ s'.tasks = s.tasks ∧
      s'.cluster.epochCounter = s.cluster.epochCounter) := by
  by_cases hadopt : ∃ head plan, l = .adopt head plan
  · obtain ⟨head, plan, rfl⟩ := hadopt
    cases h with
    | starts l f t h => cases h
    | streams l k b hl => rcases hl with ⟨h, -⟩ | ⟨h, -⟩ <;> cases h
    | adopt => exact .inr ⟨rfl, rfl, rfl⟩
  · exact .inl (h.epochMove fun head plan hl => hadopt ⟨head, plan, hl⟩)

end Daemon

theorem pending_of_run {labels : List Daemon.Label} {s : Daemon} (hrun : daemon.run labels = some s) : s.Pending := by
  refine Machine.run_invariant (M := daemon) (I := Daemon.Pending) ⟨fun k p hp => ?_, fun k j p q _ hp => ?_⟩
    (fun s l s' hs h => ?_) hrun
  · cases hp
  · cases hp
  · rcases (Daemon.Move.of_next h).epochMove_or with hmove | ⟨-, htasks, hcounter⟩
    · exact hs.move hmove
    · exact ⟨fun k p hp => hcounter ▸ hs.le k p (htasks ▸ hp),
        fun k j p q hkj hp hq => hs.distinct k j p q hkj (htasks ▸ hp) (htasks ▸ hq)⟩

end OneBrain.Cluster
