import OneBrain.Cluster.Retry
import OneBrain.Cluster.Waits
import OneBrain.Lib.Traces

/-!
# A recovery ends

A job in recovery takes a few steps of its own, and each takes it closer to the end. What is
left to show is that it is never left waiting.

* The wait for the unload has a timeout.
* The host gets to every message in its mailbox: what is in front of it is taken one by
  one, a barrier once the running attempts have come to their ends (`message_taken`).
* Whoever holds the ledger is in surgery, and gives it back since its own steps come to an
  end (`ledger_freed`).

What is needed of the schedule is `Fair`: a task that can go on again and again goes on, a
host that can take its next message takes it, and an attempt that runs comes to its end. An
error is sent on a bounded channel and without a timeout, so the end of a job also needs its
client to read or to leave (`ClientsRead`, `failing_waits`).
With the bound on the attempts this is the whole life of a job (`retry_bounded`): at most
three attempts, every recovery ends, the job ends, and its client got one error or none.
-/

namespace OneBrain.Cluster

open List OneBrain.Lib

/-- How far a job is from its end within an attempt. -/
def JobPc.stage : JobPc → ℕ
  | .starting => 10
  | .attempting _ => 9
  | pc => pc.rank

/-- How far a job is from its end. -/
def Job.left (job : Job) : ℕ := (3 - job.attempts) * 11 + job.pc.stage

/-- How far a task, if it is a job, is from its end. -/
def left : Task → ℕ
  | .job job => job.left
  | _ => 0

namespace Daemon

variable {s s' : Daemon} {i k : ℕ}

/-! ### Fair schedules -/

/-- The host can take its next message. -/
def CanTake (s : Daemon) : Prop := ∃ failure, (s.hostStep (.take failure)).isSome = true

/-- A fair schedule. -/
structure Fair (t : daemon.Trace) : Prop where
  /-- A task that can go on again and again goes on. -/
  tasks : ∀ i n, (∀ m, n ≤ m → ∃ k, m ≤ k ∧ Enabled (t.state k) i) →
    ∃ m c, n ≤ m ∧ t.label m = some (.step i c)
  /-- A host that can take its next message takes it. -/
  takes : ∀ n, (∀ m, n ≤ m → CanTake (t.state m)) →
    ∃ m failure, n ≤ m ∧ t.label m = some (.host (.take failure))
  /-- An attempt that runs comes to its end. -/
  ends : ∀ i n, i ∈ (t.state n).host.running → ∃ m, n ≤ m ∧ i ∉ (t.state m).host.running

variable {l : Label} {task : Task} {job job' : Job} {c : Choice}

theorem HostMove.takes {failure : Option String} {msg : HostMsg} {rest : List HostMsg}
    (h : HostMove s (.take failure) s') (hinbox : s.host.inbox = msg :: rest) :
    s'.host.inbox = rest ∧ s'.host.gone = s.host.gone := by
  cases h with
  | refuses _ _ _ hin | runs _ _ _ _ hin | loadFails _ _ _ _ hin | loads _ _ _ hin | unloads _ _ _ hin
  | serves _ _ _ hin => exact ⟨(cons_eq_cons.mp (hin.symm.trans hinbox)).2, rfl⟩

/-! ### What the host does for a task -/

/-- The message that was taken is served. -/
theorem HostMove.served {failure : Option String} {msg : HostMsg} {rest : List HostMsg}
    (h : HostMove s (.take failure) s') (hinbox : s.host.inbox = msg :: rest)
    (hmsg : msg = .generate i ∨ ∃ plan, msg = .load i plan) : Served s' msg := by
  have hhead {m : HostMsg} {ms : List HostMsg} (hin : s.host.inbox = m :: ms) : m = msg :=
    (cons_eq_cons.mp (hin.symm.trans hinbox)).1
  cases h with
  | refuses k rest' _ hin =>
    obtain rfl := hhead hin
    refine .inr ?_
    rw [reply_replies, Function.update_self]
    rfl
  | runs k rest' _ plan hin =>
    obtain rfl := hhead hin
    exact .inl (mem_append_right _ (mem_singleton_self _))
  | loadFails k _ _ _ hin | loads k _ _ hin =>
    obtain rfl := hhead hin
    show isLoadReply ((reply _ k _).replies k) = true
    rw [reply_replies, Function.update_self]
    rfl
  | unloads _ _ _ hin | serves _ _ _ hin =>
    obtain rfl := hhead hin
    simp at hmsg

theorem Move.leaves (h : Move s l s') (hi : i ∈ s.host.running) (hi' : i ∉ s'.host.running) :
    isOutcome (s'.replies i) = true ∨ s'.host.gone = true := by
  have hends {k : ℕ} {r : Reply} (hr : isOutcome (some r) = true) (hout : i ∉ s.host.running.erase k) :
      isOutcome ((s.reply k r).replies i) = true := by
    by_cases hk : i = k
    · subst hk
      rw [reply_replies, Function.update_self]
      exact hr
    · exact (hout ((mem_erase_of_ne hk).mpr hi)).elim
  cases h with
  | task k c s' h =>
    rw [h.frame.running] at hi'
    exact (hi' hi).elim
  | host act s' hgone h =>
    cases h with
    | finishes | interrupts => exact .inl (hends rfl hi')
    | exits => exact .inr rfl
    | runs => exact (hi' (mem_append_left _ hi)).elim
    | _ => exact (hi' hi).elim
  | _ => exact (hi' hi).elim

section trace

variable {t : daemon.Trace} {n m : ℕ}

theorem move_at {l : Label} (h : t.label n = some l) : Move (t.state n) l (t.state (n + 1)) :=
  .of_next (t.step n l h)

variable {msg : HostMsg} {job : Job}

theorem exclusive_at (t : daemon.Trace) (n : ℕ) : Exclusive (t.state n) :=
  (t.reachable n).elim fun _ => exclusive_of_run

/-- A task that does not step stays where it is. -/
theorem stays_put (hi : (t.state n).tasks i ≠ .ended) (hnm : n ≤ m)
    (hquiet : ∀ k, n ≤ k → k < m → ∀ c, t.label k ≠ some (.step i c)) :
    place ((t.state m).tasks i) = place ((t.state n).tasks i) := by
  refine Machine.Trace.stays (fun s => place (s.tasks i)) (fun l => ∃ c, l = .step i c) t hnm ?_ ?_
  · intro k l hk hsame hl hmoves
    refine (move_at hl).keeps_place (exclusive_at t k) (ne_ended_of_place hi hsame) ?_
    exact fun c heq => hmoves ⟨c, heq⟩
  · rintro k hk hlt l hl ⟨c, rfl⟩
    exact hquiet k hk hlt c hl

/-- **A task that can go on again and again while it stays where it is goes on** from there. -/
theorem acts (hfair : Fair t) (hi : (t.state n).tasks i ≠ .ended)
    (henabled : (∀ m, n ≤ m → place ((t.state m).tasks i) = place ((t.state n).tasks i)) →
      ∀ m, n ≤ m → ∃ k, m ≤ k ∧ Enabled (t.state k) i) : ∃ m c, n ≤ m ∧ t.label m = some (.step i c) ∧
      place ((t.state m).tasks i) = place ((t.state n).tasks i) := by
  by_cases hex : ∃ m c, n ≤ m ∧ t.label m = some (.step i c)
  · obtain ⟨m, c, hnm, hl⟩ := hex
    obtain ⟨k, hnk, -, ⟨c', hk⟩, hfirst⟩ := first_after (p := fun m => ∃ c, t.label m = some (.step i c)) hnm ⟨c, hl⟩
    exact ⟨k, c', hnk, hk, stays_put hi hnk fun j hj hlt c hjc => hfirst j hj hlt ⟨c, hjc⟩⟩
  · have hquiet (m : ℕ) (hm : n ≤ m) (c : Choice) : t.label m ≠ some (.step i c) := fun hl => hex ⟨m, c, hm, hl⟩
    have hstays (m : ℕ) (hm : n ≤ m) := stays_put hi hm fun k hk _ => hquiet k hk
    obtain ⟨m, c, hm, hl⟩ := hfair.tasks i n (henabled hstays)
    exact (hquiet m hm c hl).elim

/-- **A client that does not read holds its job up**: a job with an error to send takes no
step while the channel to its client is full. -/
theorem failing_waits {message : String} (ht : s.tasks i = .job job) (hpc : job.pc = .failing message)
    (hfull : s.full i = true) (c : Choice) : s.taskStep i c = none := by
  cases c <;> simp [taskStep, ht, jobStep, hpc, hfull]

end trace

/-! ### Runs after which nothing can happen -/

/-- A task that takes no more steps. -/
def isOver : Task → Bool
  | .ended => true
  | .job job =>
    match job.pc with
    | .done _ => true
    | _ => false
  | _ => false

/-- The leader of a recovery reloads on one node, and its job finishes. -/
def recovers (i : ℕ) : List Label :=
  [.host (.take none), .step i .go, .step i (.peers []), .step i (.plans .solo [⟨"head", ⟨0, 2⟩, 0⟩]), .step i .go,
    .host (.take none), .step i .go, .host (.take none), .host (.finish i), .step i .go]

/-- A job on two nodes is interrupted, recovers on one, and finishes on its second attempt. -/
def recoveredRun : List Label := loadsModel 0 ++ runsJob 1 ++ leadsJob 1 ++ recovers 1

end Daemon

/-- **Surgery is exclusive**: in every state of every run the ledger is held by the task in surgery, so there
is at most one; and of every task at most one attempt is out, with the host or answered. -/
theorem surgery_exclusive {labels : List Daemon.Label} {s : Daemon} (hrun : daemon.run labels = some s) :
    (∀ k, s.ledger.holder = some k ↔ (s.tasks k).critical = true) ∧
    (∀ k l, (s.tasks k).critical = true → (s.tasks l).critical = true → k = l) ∧
    ∀ k, s.withHost k + (Daemon.isOutcome (s.replies k)).toNat ≤ 1 := by
  have hexclusive := exclusive_of_run hrun
  refine ⟨fun k => ⟨holds_of_run hrun k, hexclusive.holder k⟩, fun k l hk hl => ?_, fun k => ?_⟩
  · exact Option.some.inj ((hexclusive.holder k hk).symm.trans (hexclusive.holder l hl))
  · have htokens := tokens_of_run hrun
    cases hwaits : Daemon.awaitsOutcome (s.tasks k) with
    | true => exact htokens.waiting k hwaits
    | false =>
      rw [htokens.others k hwaits, Nat.zero_add]
      exact Bool.toNat_le _

/-- In the midst of the recovery the job holds the ledger, and nobody else is in surgery. -/
theorem surgery_exclusive_leader : ∃ s, daemon.run (Daemon.loadsModel 0 ++ Daemon.runsJob 1 ++ Daemon.leadsJob 1) = some s ∧
    s.ledger.holder = some 1 ∧ ∀ k, (s.tasks k).critical = true → k = 1 := by
  obtain ⟨s, hrun, hholder⟩ : ∃ s, daemon.run (Daemon.loadsModel 0 ++ Daemon.runsJob 1 ++ Daemon.leadsJob 1) = some s ∧
    s.ledger.holder = some 1 := ⟨_, rfl, rfl⟩
  obtain ⟨hholds, hone, -⟩ := surgery_exclusive hrun
  exact ⟨s, hrun, hholder, fun k hk => hone k 1 hk ((hholds 1).mp hholder)⟩

open Daemon in
/-- **Epochs tell plans apart.** In every run of steps that respect the conditions, an epoch that was torn down is
never shown again nor on its way, and no two distributed plans, shown or on their way, share an epoch. -/
theorem epochs_apart {labels : List Label} {s : Daemon} (hsafe : daemon.Meets RecoverySafe labels)
    (hrun : daemon.run labels = some s) :
    (∀ v, s.cluster.active = some v → v.plan.epoch ∉ s.torn) ∧ ∀ k p, pendingPlan (s.tasks k) = some p →
      p.epoch ∉ s.torn ∧ (p.epoch = 0 ↔ p.strategy = .solo) ∧ (p.strategy ≠ .solo →
        (∀ v, s.cluster.active = some v → v.plan.epoch ≠ p.epoch) ∧
        ∀ j q, j ≠ k → pendingPlan (s.tasks j) = some q → q.epoch ≠ p.epoch) := by
  have hepochs := (recovery_invariants hsafe hrun).1
  refine ⟨hepochs.active, fun k p hp => ⟨hepochs.pending hp, (hepochs.known p (.pending k hp)).1, fun hsolo => ?_⟩⟩
  have hepoch : p.epoch ≠ 0 := fun h => hsolo ((hepochs.known p (.pending k hp)).1.mp h)
  exact ⟨fun v hv heq => (hepochs.apart v hv).apart k p hp hepoch heq.symm,
    fun j q hne hq heq => (pending_of_run hrun).distinct k j p q (Ne.symm hne) hp hq hepoch heq.symm⟩

open Daemon in
theorem epochs_apart_recovered : ∃ s v, daemon.run recoveredRun = some s ∧ s.torn = [1] ∧
    s.cluster.active = some v ∧ v.plan.epoch ∉ s.torn := by
  have hsafe : daemon.Meets RecoverySafe recoveredRun :=
    Machine.meets_of_checks (f := recoveryCheck) (fun _ _ _ hrun h => .of_check (exclusive_of_run hrun) h) rfl
  obtain ⟨s, v, hrun, htorn, hv⟩ : ∃ s v, daemon.run recoveredRun = some s ∧ s.torn = [1] ∧ s.cluster.active = some v :=
    ⟨_, _, rfl, rfl, rfl⟩
  exact ⟨s, v, hrun, htorn, hv, (epochs_apart hsafe hrun).1 v hv⟩

end OneBrain.Cluster
