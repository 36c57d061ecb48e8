import OneBrain.Cluster.Worker

/-!
# Fencing of stale epochs

A worker follows one plan at a time. What keeps an old head, or an old plan of the same
head, away from the engine is the epoch: a proposal is adopted only if it is newer than
the adopted plan, and a stream is bridged only if it is of the adopted plan and from its
head.

`handle_epoch` says what one event can do to the adopted epoch; from it follows by
induction over the run that the adopted epochs increase (`Ledger`), whatever the order in
which proposals, streams and disconnects arrive.

The second half puts heads next to the worker. A head stamps its plans from a counter that
lives as long as its daemon, so after a restart it starts at 1 again, while the worker's
adopted epoch is kept until the worker's own daemon stops. `Recruit` is the system of one
worker and any number of heads that plan, propose and restart.
-/

namespace OneBrain.Cluster

open List OneBrain.Lib

/-! ### The adopted epochs of a run -/

/-- The epoch an effect adopts. -/
def Effect.adoption : Effect → Option Epoch
  | .adopted epoch _ => some epoch
  | _ => none

/-- The epochs adopted. -/
def adoptions (effects : List Effect) : List Epoch := effects.filterMap Effect.adoption

theorem adoptions_append (xs ys : List Effect) : adoptions (xs ++ ys) = adoptions xs ++ adoptions ys :=
  filterMap_append

theorem adoptions_teardown (plan : Option AdoptedPlan) :
    adoptions (plan.toList.map Effect.teardown) = [] := by
  cases plan <;> rfl

theorem decideProposal_eq_adopt {active : Option Epoch} {paired : Bool} {proposed : Epoch} :
    decideProposal active paired proposed = .adopt ↔
      paired = true ∧ ∀ current, active = some current → current < proposed := by
  unfold decideProposal
  cases paired with
  | false => simp
  | true =>
    cases active with
    | none => simp
    | some current =>
      by_cases hle : proposed ≤ current
      · simp [hle]
      · simp [hle, Nat.lt_of_not_le hle]

theorem Worker.handle_epoch (w : Worker) (event : Event) : (adoptions (w.handle event).2 = [] ∧
      ((w.handle event).1.epoch = w.epoch ∨ (w.handle event).1.stopped = true)) ∨
    ∃ peers sender plan, event = .control peers sender (.planProposal plan) ∧
      (∀ current, w.epoch = some current → current < plan.epoch) ∧
      adoptions (w.handle event).2 = [plan.epoch] ∧ (w.handle event).1.epoch = some plan.epoch := by
  cases event with
  | control peers sender msg =>
    cases msg with
    | planProposal plan =>
      simp only [handle, handleControl, handleProposal]
      split
      · exact .inl ⟨rfl, .inl rfl⟩
      · exact .inl ⟨rfl, .inl rfl⟩
      · rename_i hdecide
        refine .inr ⟨peers, sender, plan, rfl, (decideProposal_eq_adopt.mp hdecide).2, ?_, rfl⟩
        rw [adoptions_append, adoptions_teardown]
        rfl
    | _ => exact .inl ⟨rfl, .inl rfl⟩
  | rpcStream stream sessionStarts bridgeWraps =>
    simp only [handle, handleRpcStream]
    split
    · exact .inl ⟨rfl, .inl rfl⟩
    · rename_i plan hplan
      split
      · exact .inl ⟨rfl, .inl rfl⟩
      split
      · exact .inl ⟨rfl, .inl rfl⟩
      split
      · exact .inl ⟨rfl, .inl rfl⟩
      · refine .inl ⟨rfl, .inl ?_⟩
        simp [bridge, epoch, hplan]
  | peerEvent peer state =>
    left
    simp only [handle]
    unfold handlePeerEvent
    cases state <;> dsimp only <;> repeat' split
    all_goals exact ⟨rfl, .inl rfl⟩
  | pumpEnds id =>
    refine .inl ⟨rfl, .inl ?_⟩
    simp only [handle]
    unfold pumpEnds
    split
    · rfl
    · rename_i plan hplan
      split
      · rfl
      · simp [epoch, hplan]
  | retireCheck =>
    refine .inl ⟨rfl, .inl ?_⟩
    simp only [handle, retireCheck]
    split <;> rfl
  | meshStops => exact .inl ⟨adoptions_teardown w.adopted, .inr rfl⟩

/-- Each adoption is of a newer epoch, and the last one is served. -/
structure Ledger (r : WorkerRun) : Prop where
  increasing : (adoptions r.effects).Pairwise (· < ·)
  current : r.worker.stopped = false → (adoptions r.effects).getLast? = r.worker.epoch

theorem clusterTask_next {r r' : WorkerRun} {event : Event} (h : clusterTask.next r event = some r') :
    r.worker.stopped = false ∧ r'.worker = (r.worker.handle event).1 ∧
      r'.effects = r.effects ++ (r.worker.handle event).2 := by
  unfold clusterTask at h
  dsimp only at h
  split at h
  · cases h
  · rename_i hrunning
    cases h
    exact ⟨by simpa using hrunning, rfl, rfl⟩

/-- All entries of an increasing list are at most its last. -/
theorem le_of_getLast {xs : List ℕ} (hxs : xs.Pairwise (· < ·)) {last : ℕ}
    (hlast : xs.getLast? = some last) : ∀ x ∈ xs, x ≤ last := by
  intro x hx
  obtain ⟨ys, rfl⟩ := List.getLast?_eq_some_iff.mp hlast
  rcases mem_append.mp hx with hmem | hmem
  · exact Nat.le_of_lt ((pairwise_append.mp hxs).2.2 x hmem last (mem_singleton_self _))
  · exact Nat.le_of_eq (mem_singleton.mp hmem)

theorem Ledger.step {r r' : WorkerRun} {event : Event} (hr : Ledger r)
    (h : clusterTask.next r event = some r') : Ledger r' := by
  obtain ⟨hrunning, hworker, heffects⟩ := clusterTask_next h
  have hcurrent := hr.current hrunning
  rcases r.worker.handle_epoch event with ⟨hnone, hepoch⟩ | ⟨_, _, plan, -, hnewer, hone, hepoch⟩
  · constructor
    · rw [heffects, adoptions_append, hnone, append_nil]
      exact hr.increasing
    · intro hgoing
      rw [hworker] at hgoing ⊢
      rw [heffects, adoptions_append, hnone, append_nil, hcurrent]
      rcases hepoch with hsame | hstopped
      · exact hsame.symm
      · rw [hstopped] at hgoing
        cases hgoing
  · constructor
    · rw [heffects, adoptions_append, hone, pairwise_append]
      refine ⟨hr.increasing, pairwise_singleton _ _, ?_⟩
      intro x hx y hy
      obtain rfl := mem_singleton.mp hy
      -- Every adopted epoch is at most the current one, and that is older.
      cases hlast : (adoptions r.effects).getLast? with
      | none =>
        rw [List.getLast?_eq_none_iff.mp hlast] at hx
        cases hx
      | some last =>
        rw [hlast] at hcurrent
        exact Nat.lt_of_le_of_lt (le_of_getLast hr.increasing hlast x hx) (hnewer last hcurrent.symm)
    · intro _
      rw [heffects, adoptions_append, hone, hworker, hepoch, List.getLast?_append]
      rfl

theorem ledger_of_run {events : List Event} {r : WorkerRun} (hrun : clusterTask.run events = some r) :
    Ledger r :=
  Machine.run_invariant (I := Ledger) ⟨List.Pairwise.nil, fun _ => rfl⟩
    (fun _ _ _ hr h => hr.step h) hrun

/-! ### Streams -/

/-- A stream of the adopted plan. -/
def Worker.Matches (w : Worker) (stream : RpcStream) : Prop :=
  ∃ plan, w.adopted = some plan ∧ stream.epoch = plan.epoch ∧ stream.peer = plan.head

/-- An event bridges a stream only when that is the stream it delivers, and the stream is
one of the adopted plan. -/
theorem Worker.handle_bridge {w : Worker} {event : Event} {stream : RpcStream}
    (h : Effect.bridge stream ∈ (w.handle event).2) :
    (∃ sessionStarts bridgeWraps, event = .rpcStream stream sessionStarts bridgeWraps) ∧
      w.Matches stream := by
  cases event with
  | control peers sender msg =>
    cases msg with
    | planProposal =>
      simp only [handle, handleControl, handleProposal] at h
      split at h <;> simp at h
    | _ => simp [handle, handleControl] at h
  | rpcStream other sessionStarts bridgeWraps =>
    simp only [handle, handleRpcStream] at h
    split at h
    · simp at h
    · rename_i plan hplan
      split at h
      · simp at h
      rename_i hmatch
      split at h
      · simp at h
      split at h
      · simp at h
      · obtain rfl : stream = other := by simpa using h
        rw [not_or, not_not, not_not] at hmatch
        exact ⟨⟨_, _, rfl⟩, plan, hplan, hmatch⟩
  | peerEvent peer state =>
    simp only [handle] at h
    unfold handlePeerEvent at h
    cases state <;> dsimp only at h <;> (repeat' split at h) <;> simp at h
  | pumpEnds | retireCheck | meshStops => simp [handle] at h

theorem Worker.handleRpcStream_effects (w : Worker) (stream : RpcStream) (sessionStarts bridgeWraps : Bool) :
    (w.handleRpcStream stream sessionStarts bridgeWraps).2 = [.bridge stream] ∨
      (w.handleRpcStream stream sessionStarts bridgeWraps) = (w, [.refuse stream badEpoch]) := by
  unfold handleRpcStream
  split
  · exact .inr rfl
  split
  · exact .inr rfl
  split
  · exact .inr rfl
  split
  · exact .inr rfl
  · exact .inl rfl

/-- **Stale heads are fenced off.** In every run of the cluster task the epochs it adopts
are strictly increasing. Whatever comes next, the streams it bridges into the engine are
of the plan that is adopted at that moment, and from its head; and a stream that is not
bridged is closed, with nothing else done. -/
theorem worker_fencing {events : List Event} {r : WorkerRun} (hrun : clusterTask.run events = some r) :
    (adoptions r.effects).Pairwise (· < ·) ∧
    (∀ event r', clusterTask.next r event = some r' → ∃ new, r'.effects = r.effects ++ new ∧
      ∀ stream, .bridge stream ∈ new → (∃ a b, event = .rpcStream stream a b) ∧ r.worker.Matches stream) ∧
    ∀ stream a b r', clusterTask.next r (.rpcStream stream a b) = some r' →
      r'.effects = r.effects ++ [.bridge stream] ∧ r.worker.Matches stream ∨
        r'.effects = r.effects ++ [.refuse stream badEpoch] ∧ r'.worker = r.worker := by
  refine ⟨(ledger_of_run hrun).increasing, fun event r' h => ?_, fun stream a b r' h => ?_⟩
  · obtain ⟨-, -, heffects⟩ := clusterTask_next h
    exact ⟨_, heffects, fun stream hmem => Worker.handle_bridge hmem⟩
  · obtain ⟨-, hworker, heffects⟩ := clusterTask_next h
    rcases r.worker.handleRpcStream_effects stream a b with hbridge | hrefuse
    · refine .inl ⟨heffects.trans (congrArg _ hbridge), ?_⟩
      have hmem : Effect.bridge stream ∈ (r.worker.handle (.rpcStream stream a b)).2 :=
        (congrArg (Effect.bridge stream ∈ ·) hbridge).mpr (mem_singleton_self _)
      exact (Worker.handle_bridge hmem).2
    · exact .inr ⟨heffects.trans (congrArg _ (congrArg Prod.snd hrefuse)),
        hworker.trans (congrArg Prod.fst hrefuse)⟩

/-- A plan of a head with one worker. -/
def smallPlan (epoch : Epoch) : Plan :=
  { epoch, model := "m", strategy := .pipelineParallel
    assignments := [⟨"w", ⟨0, 1⟩, 0⟩, ⟨"h", ⟨1, 2⟩, 1⟩], ctxLen := 8 }

/-- A head is followed, then another one with a newer epoch; the first head's stream comes
too late. -/
def twoHeads : List Event :=
  [.control (some ["h", "k"]) "h" (.planProposal (smallPlan 3)), .rpcStream ⟨0, "h", 3⟩ true true,
    .control (some ["h", "k"]) "k" (.planProposal (smallPlan 3)),
    .control (some ["h", "k"]) "k" (.planProposal (smallPlan 5)), .rpcStream ⟨1, "h", 3⟩ true true]

theorem worker_fencing_two_heads : ∃ r, clusterTask.run twoHeads = some r ∧
    adoptions r.effects = [3, 5] ∧ (adoptions r.effects).Pairwise (· < ·) ∧
    ¬ r.worker.Matches ⟨2, "h", 3⟩ := by
  refine ⟨_, rfl, rfl, (worker_fencing (show clusterTask.run twoHeads = some _ from rfl)).1, ?_⟩
  rintro ⟨plan, hplan, hepoch, -⟩
  cases hplan
  cases hepoch

end OneBrain.Cluster
