import OneBrain.Cluster.Ends

/-!
# Three records of one loaded model

What is loaded is written down three times: the host has the model, the cluster state has
where it came from, and the active view has its plan. The three are changed by different
steps of loads, recoveries, rejoin handlers and adoptions, so they agree only when none of
these is under way.

The mailbox is read as a prediction: `future` is the model the host will have once it has
taken every message in it and no load failed. A task is *engaged* from the moment it asks
the host to change the model until it has written down what came of it.

* While nobody is engaged the two records of the cluster state agree with the future model
  (`Agrees`); of an engaged task it is known what its place says about the records
  (`Phase`).
* `StateSafe` says which steps the source does not guard: an operation that begins while
  another is under way, an adoption over a loaded model, a failed load or an aborted rejoin
  under a head view, and the end of the host thread. In a run without these the records
  agree whenever nothing is under way (`records_agree`).
* A second load that fails is enough to break them (`failed_load_keeps_view`).
-/

namespace OneBrain.Cluster

open List OneBrain.Lib

namespace Daemon

variable {s s' : Daemon} {i k : ℕ}

/-! ### The records -/

/-- Messages that change the model. -/
def isControl : HostMsg → Bool
  | .generate _ => false
  | _ => true

/-- Messages that load a model. -/
def isLoad : HostMsg → Bool
  | .load _ _ => true
  | _ => false

/-- The model after a message, if no load fails. -/
def effect (model : Option Plan) : HostMsg → Option Plan
  | .load _ plan => some plan
  | .generate _ => model
  | _ => none

/-- The model after all messages in the mailbox, if no load fails. -/
def future (s : Daemon) : Option Plan := s.host.inbox.foldl effect s.host.model

/-- Leaders that have told the host to unload. -/
def engagedPc : JobPc → Bool
  | .checked _ _ => false
  | pc => pc.critical

/-- Tasks that have asked the host to change the model and have not written down yet what
came of it. -/
def engaged : Task → Bool
  | .load _ (.activating (.waiting _)) => true
  | .job job => engagedPc job.pc
  | .failure (.unloading _) => true
  | .rejoin (.activating _ (.waiting _)) => true
  | _ => false

/-- Nobody is engaged. -/
def Calm (s : Daemon) : Prop := ∀ k, engaged (s.tasks k) = false

/-- No load, activation, recovery or adoption is under way, in a task or in the mailbox. -/
def Settled (s : Daemon) : Prop := Calm s ∧ ∀ m ∈ s.host.inbox, isControl m = false

/-- The next step of a task asks the host to change the model: an activation that hands its
plan over, a job that is about to lead, a handler about to tear down. -/
def begins (s : Daemon) (i : ℕ) : Bool :=
  match s.tasks i with
  | .load _ (.activating (.starting _)) => true
  | .rejoin (.activating _ (.starting _)) => true
  | .job job =>
    match job.pc with
    | .checked _ _ => true
    | _ => false
  | .failure (.checked _) => true
  | _ => false

/-- What a step must respect for the records to agree. -/
structure StateSafe (s : Daemon) (l : Label) : Prop where
  stays : l ≠ .host .exit
  /-- The host is asked to change the model only when nobody else is about to. -/
  turns : ∀ i, l = .step i .go → s.begins i = true → Calm s
  /-- A plan of another head is adopted only when nobody is engaged and nothing is loaded:
  the source of what is loaded is not forgotten by an adoption. -/
  adopts : ∀ head plan, l = .adopt head plan → Calm s ∧ s.cluster.loadedSource = none
  /-- A load fails only when no plan is shown: the view of the model it replaced stays. -/
  fails : ∀ message j plan rest, l = .host (.take (some message)) → s.host.inbox = .load j plan :: rest →
    s.headPlan = none
  /-- A rejoin handler is not stopped before the host is asked: it would forget the source
  of the model that stays loaded. -/
  aborts : ∀ j message source plan, l = .step j (.fails message) →
    s.tasks j ≠ .rejoin (.activating source (.starting plan))

/-! ### The mailbox as a prediction -/

theorem foldl_effect_calm {inbox : List HostMsg} (h : ∀ m ∈ inbox, isControl m = false) (model : Option Plan) :
    inbox.foldl effect model = model := by
  induction inbox generalizing model with
  | nil => rfl
  | cons m rest ih =>
    have hm := h m mem_cons_self
    rw [foldl_cons, ih (fun m' hm' => h m' (mem_cons_of_mem _ hm'))]
    cases m with
    | generate => rfl
    | _ => cases hm

/-- With no control message in the mailbox the model stays. -/
theorem future_calm (h : ∀ m ∈ s.host.inbox, isControl m = false) : s.future = s.host.model :=
  foldl_effect_calm h _

theorem future_append {extra : List HostMsg} (hinbox : s'.host.inbox = s.host.inbox ++ extra)
    (hmodel : s'.host.model = s.host.model) : s'.future = extra.foldl effect s.future := by
  rw [future, hinbox, hmodel, foldl_append]
  rfl

variable {m : HostMsg} {plan : Plan} {t : Task}

theorem future_take (hinbox : s.host.inbox = m :: s'.host.inbox)
    (hmodel : s'.host.model = effect s.host.model m) : s'.future = s.future := by
  rw [future, future, hinbox, foldl_cons, hmodel]

/-! ### What is known of an engaged task -/

/-- Where the load of an engaged task is: in the mailbox, with no other load before it and
nothing behind it that changes the model; or answered, with nothing else on its way. -/
inductive Loading (s : Daemon) (k : ℕ) (plan : Plan) : Prop
  | mailed (before after : List HostMsg) (hinbox : s.host.inbox = before ++ .load k plan :: after)
      (hbefore : ∀ m ∈ before, isLoad m = false) (hafter : ∀ m ∈ after, isControl m = false)
      (hreply : isLoadReply (s.replies k) = false)
  | loaded (hinbox : ∀ m ∈ s.host.inbox, isControl m = false) (hmodel : s.host.model = some plan)
      (hreply : s.replies k = some .loaded)
  | failed (message : String) (hinbox : ∀ m ∈ s.host.inbox, isControl m = false) (hmodel : s.host.model = none)
      (hview : s.headPlan = none) (hreply : s.replies k = some (.loadFailed message))

/-- The model is gone or about to go, and no load is on its way. -/
structure Emptied (s : Daemon) : Prop where
  future : s.future = none
  loads : ∀ m ∈ s.host.inbox, isLoad m = false

/-- The records of the cluster state agree with the model to be, and no load is on its way. -/
structure Agrees (s : Daemon) : Prop where
  view : s.headPlan = s.future
  source : s.cluster.loadedSource.isSome = s.future.isSome
  loads : ∀ m ∈ s.host.inbox, isLoad m = false

/-- What the place of a job in surgery says about the records. -/
def JobPhase (s : Daemon) (k : ℕ) : JobPc → Prop
  | .unloading _ _ _ => Emptied s
  | .naming _ _ _ => Emptied s ∧ s.headPlan = none
  | .replanning _ _ _ => Emptied s ∧ s.headPlan = none
  | .activating _ _ _ (.starting _) => Emptied s ∧ s.headPlan = none
  | .activating _ _ _ (.waiting plan) => Loading s k plan ∧ s.headPlan = none
  | _ => True

/-- What the place of an engaged task says about the records. -/
def Phase (s : Daemon) (k : ℕ) : Task → Prop
  | .load _ (.activating (.waiting plan)) => Loading s k plan
  | .rejoin (.activating _ (.waiting plan)) => Loading s k plan
  | .job job => JobPhase s k job.pc
  | .failure (.unloading _) => Emptied s
  | _ => True

/-- **The invariant**: at most one task is engaged and its phase holds; without one the
records agree. -/
structure Records (s : Daemon) : Prop where
  stays : s.host.gone = false
  one : ∀ i k, engaged (s.tasks i) = true → engaged (s.tasks k) = true → i = k
  calm : Calm s → Agrees s
  phase : ∀ k, engaged (s.tasks k) = true → Phase s k (s.tasks k)

theorem Loading.answered_loaded (h : Loading s k plan) (hreply : s.replies k = some .loaded) :
    (∀ m ∈ s.host.inbox, isControl m = false) ∧ s.host.model = some plan := by
  cases h with
  | mailed _ _ _ _ _ hr | failed _ _ _ _ hr =>
    rw [hreply] at hr
    cases hr
  | loaded hinbox hmodel => exact ⟨hinbox, hmodel⟩

theorem Loading.answered_failed {message : String} (h : Loading s k plan)
    (hreply : s.replies k = some (.loadFailed message)) :
    (∀ m ∈ s.host.inbox, isControl m = false) ∧ s.host.model = none ∧ s.headPlan = none := by
  cases h with
  | mailed _ _ _ _ _ hr | loaded _ _ hr =>
    rw [hreply] at hr
    cases hr
  | failed message hinbox hmodel hview => exact ⟨hinbox, hmodel, hview⟩

theorem not_load_of_not_control (h : isControl m = false) : isLoad m = false := by
  cases m with
  | generate => rfl
  | _ => cases h

theorem loads_append {extra : List HostMsg} (hinbox : s'.host.inbox = s.host.inbox ++ extra)
    (hextra : ∀ m ∈ extra, isControl m = false) (h : ∀ m ∈ s.host.inbox, isLoad m = false) :
    ∀ m ∈ s'.host.inbox, isLoad m = false := by
  intro m hm
  rw [hinbox] at hm
  rcases mem_append.mp hm with hold | hnew
  · exact h m hold
  · exact not_load_of_not_control (hextra m hnew)

/-! ### Steps that leave the records alone -/

/-- A step of a task that touches no record: at most an attempt is put in the mailbox. -/
structure Quiet (s : Daemon) (i : ℕ) (s' : Daemon) : Prop where
  gone : s'.host.gone = s.host.gone
  model : s'.host.model = s.host.model
  view : s'.headPlan = s.headPlan
  source : s'.cluster.loadedSource = s.cluster.loadedSource
  inbox : ∃ extra, s'.host.inbox = s.host.inbox ++ extra ∧ ∀ m ∈ extra, isControl m = false
  replies : ∀ k, k ≠ i → s'.replies k = s.replies k

theorem Quiet.of_same (hhost : s'.host = s.host) (hactive : s'.cluster.active = s.cluster.active)
    (hsource : s'.cluster.loadedSource = s.cluster.loadedSource) (hreplies : s'.replies = s.replies) :
    Quiet s i s' where
  gone := by rw [hhost]
  model := by rw [hhost]
  view := by rw [headPlan, hactive]; rfl
  source := hsource
  inbox := ⟨[], by rw [hhost, append_nil], nofun⟩
  replies k _ := by rw [hreplies]

theorem Quiet.sends (s : Daemon) (i : ℕ) (t : Task) : Quiet s i ((s.send i (.generate i)).put i t) :=
  ⟨rfl, rfl, rfl, rfl, ⟨[.generate i], rfl, by simp [isControl]⟩, fun k hk => by simp [hk]⟩

theorem Quiet.future (h : Quiet s i s') : s'.future = s.future := by
  obtain ⟨extra, hinbox, hextra⟩ := h.inbox
  rw [future_append hinbox h.model, foldl_effect_calm hextra]

theorem Quiet.loads (h : Quiet s i s') (hs : ∀ m ∈ s.host.inbox, isLoad m = false) :
    ∀ m ∈ s'.host.inbox, isLoad m = false := by
  obtain ⟨extra, hinbox, hextra⟩ := h.inbox
  exact loads_append hinbox hextra hs

theorem Quiet.controls (h : Quiet s i s') (hs : ∀ m ∈ s.host.inbox, isControl m = false) :
    ∀ m ∈ s'.host.inbox, isControl m = false := by
  obtain ⟨extra, hinbox, hextra⟩ := h.inbox
  intro m hm
  rw [hinbox] at hm
  rcases mem_append.mp hm with hold | hnew
  · exact hs m hold
  · exact hextra m hnew

theorem Agrees.quiet (hs : Agrees s) (h : Quiet s i s') : Agrees s' where
  view := by rw [h.view, h.future, hs.view]
  source := by rw [h.source, h.future, hs.source]
  loads := h.loads hs.loads

theorem Emptied.quiet (hs : Emptied s) (h : Quiet s i s') : Emptied s' where
  future := by rw [h.future, hs.future]
  loads := h.loads hs.loads

theorem Loading.quiet (hs : Loading s k plan) (h : Quiet s i s') (hk : k ≠ i) : Loading s' k plan := by
  cases hs with
  | mailed before after hinbox hbefore hafter hreply =>
    obtain ⟨extra, hin, hextra⟩ := h.inbox
    refine .mailed before (after ++ extra) (by rw [hin, hinbox]; simp) hbefore (fun m hm => ?_)
      (by rw [h.replies k hk, hreply])
    rcases mem_append.mp hm with hold | hnew
    · exact hafter m hold
    · exact hextra m hnew
  | loaded hinbox hmodel hreply =>
    exact .loaded (h.controls hinbox) (h.model.trans hmodel) ((h.replies k hk).trans hreply)
  | failed message hinbox hmodel hview hreply =>
    exact .failed message (h.controls hinbox) (h.model.trans hmodel) (h.view.trans hview)
      ((h.replies k hk).trans hreply)

theorem Phase.transfer (h : Phase s k t) (hload : ∀ plan, Loading s k plan → Loading s' k plan)
    (hempty : Emptied s → Emptied s') (hview : s'.headPlan = s.headPlan) : Phase s' k t := by
  cases t with
  | load source pc =>
    cases pc with
    | activating a =>
      cases a with
      | starting => exact trivial
      | waiting plan => exact hload plan h
    | _ => exact trivial
  | rejoin pc =>
    cases pc with
    | activating source a =>
      cases a with
      | starting => exact trivial
      | waiting plan => exact hload plan h
    | _ => exact trivial
  | failure pc =>
    cases pc with
    | waiting | checked => exact trivial
    | unloading => exact hempty h
  | ended | refused => exact trivial
  | job job =>
    change JobPhase s' k job.pc
    change JobPhase s k job.pc at h
    revert h
    generalize job.pc = pc
    intro h
    cases pc with
    | unloading => exact hempty h
    | naming | replanning => exact ⟨hempty h.1, hview.trans h.2⟩
    | activating failed source lost a =>
      cases a with
      | starting => exact ⟨hempty h.1, hview.trans h.2⟩
      | waiting plan => exact ⟨hload plan h.1, hview.trans h.2⟩
    | _ => exact trivial

/-! ### Steps of tasks -/

/-- What a step of a task does: it leaves the records alone; or nobody else is engaged, and
the task goes on with its surgery, or ends it with records that agree. -/
inductive Turn (s : Daemon) (i : ℕ) (s' : Daemon) : Prop
  | quiet (h : Quiet s i s') (hbefore : engaged (s.tasks i) = false) (hafter : engaged (s'.tasks i) = false)
  | works (hgone : s'.host.gone = s.host.gone) (hothers : ∀ k, k ≠ i → engaged (s.tasks k) = false)
      (hengaged : engaged (s'.tasks i) = true) (hphase : Phase s' i (s'.tasks i))
  | ends (hgone : s'.host.gone = s.host.gone) (hothers : ∀ k, k ≠ i → engaged (s.tasks k) = false)
      (hengaged : engaged (s'.tasks i) = false) (hagrees : Agrees s')

theorem engaged_job {job : Job} {pc : JobPc} (ht : s.tasks i = .job job) (hpc : job.pc = pc) :
    engaged (s.tasks i) = engagedPc pc := by
  rw [ht, ← hpc]
  rfl

theorem Records.others (hs : Records s) (hi : engaged (s.tasks i) = true) (hk : k ≠ i) :
    engaged (s.tasks k) = false := by
  cases h : engaged (s.tasks k)
  · rfl
  · exact (hk (hs.one k i h hi)).elim

theorem Records.task_phase (hs : Records s) (ht : s.tasks i = t) (h : engaged t = true) :
    (∀ k, k ≠ i → engaged (s.tasks k) = false) ∧ Phase s i t := by
  subst ht
  exact ⟨fun k hk => hs.others h hk, hs.phase i h⟩

theorem Agrees.settled {model : Option Plan} (hinbox : ∀ m ∈ s.host.inbox, isControl m = false)
    (hmodel : s.host.model = model) (hview : s.headPlan = model)
    (hsource : s.cluster.loadedSource.isSome = model.isSome) : Agrees s where
  view := by rw [hview, future_calm hinbox, hmodel]
  source := by rw [hsource, future_calm hinbox, hmodel]
  loads m hm := not_load_of_not_control (hinbox m hm)

theorem Agrees.emptied (h : Emptied s) (hhost : s'.host = s.host) (hview : s'.headPlan = none)
    (hsource : s'.cluster.loadedSource = none) : Agrees s' := by
  have hfuture : s'.future = none := by
    rw [Daemon.future, hhost]
    exact h.future
  exact ⟨by rw [hview, hfuture], by rw [hsource, hfuture]; rfl, fun m hm => h.loads m (hhost ▸ hm)⟩

/-- A load that was handed over behind messages that load nothing. -/
theorem Loading.asked (hs : ∀ m ∈ s.host.inbox, isLoad m = false)
    (hinbox : s'.host.inbox = s.host.inbox ++ [HostMsg.load k plan]) (hreply : s'.replies k = none) :
    Loading s' k plan :=
  .mailed s.host.inbox [] hinbox hs nofun (by rw [hreply]; rfl)

theorem Emptied.told (hs : ∀ m ∈ s.host.inbox, isLoad m = false)
    (hinbox : s'.host.inbox = s.host.inbox ++ [HostMsg.unload k]) (hmodel : s'.host.model = s.host.model) :
    Emptied s' where
  future := by
    rw [future_append hinbox hmodel]
    rfl
  loads m hm := by
    rw [hinbox] at hm
    rcases mem_append.mp hm with hold | hnew
    · exact hs m hold
    · rw [mem_singleton] at hnew
      rw [hnew]
      rfl

theorem Records.load_failed (hs : Records s)
    (hfail : (∃ message, s.replies i = some (.loadFailed message)) ∨ s.host.gone = true) :
    ∃ message, s.replies i = some (.loadFailed message) := by
  rcases hfail with hfail | hgone
  · exact hfail
  · rw [hs.stays] at hgone
    cases hgone

theorem engaged_of_leading {pc : JobPc} {failed : Option ActivePlanView} (h : pc.leading = some failed) :
    engagedPc pc = true := by
  cases pc <;> first | rfl | cases h

theorem Turn.tells {u : Daemon} (hs : Records s) (hcalm : Calm s) (hhost : u.host = s.host)
    (hengaged : engaged t = true) (hphase : ∀ v : Daemon, Emptied v → Phase v i t) :
    Turn s i ((u.tell i).put i t) := by
  rcases u.tell_cases i with ⟨hgone, -⟩ | ⟨-, heq⟩
  · rw [hhost, hs.stays] at hgone
    cases hgone
  · rw [heq]
    refine .works (by rw [put_host, send_host_gone, hhost]) (fun k _ => hcalm k) (by rw [put_same, hengaged]) ?_
    rw [put_same]
    refine hphase _ (Emptied.told (k := i) (hs.calm hcalm).loads ?_ (by rw [put_host, send_host_model, hhost]))
    rw [put_host, send_host_inbox, hhost]

/-- **Every step of a task keeps to its turn.** -/
theorem TaskMove.turn {c : Choice} (h : TaskMove s i (s.tasks i) c s') (hs : Records s)
    (hsafe : StateSafe s (.step i c)) : Turn s i s' := by
  obtain ⟨u, t', h, rfl⟩ := h
  generalize ht : s.tasks i = t at h
  cases h with
  | loadEnds source pc c hpc =>
    refine .quiet (.of_same rfl rfl rfl rfl) ?_ (by rw [put_same]; rfl)
    rw [ht]
    cases pc with
    | activating a =>
      cases a with
      | starting => rfl
      | waiting plan => exact (hpc plan rfl).elim
    | _ => rfl
  | loadPlans | rejoinSame | rejoinPlans =>
    exact .quiet (.of_same (by simp) (by simp) (by simp) (stamped_replies ..)) (by rw [ht]; rfl) (by rw [put_same]; rfl)
  | loadAsks | rejoinAsks =>
    have hcalm := hsafe.turns i rfl (by simp [begins, ht])
    refine .works rfl (fun k _ => hcalm k) (by rw [put_same]; rfl) ?_
    rw [put_same]
    exact Loading.asked (hs.calm hcalm).loads rfl (by simp)
  | loadInstalls _ _ hreply | rejoinInstalls _ _ hreply =>
    obtain ⟨hothers, hphase⟩ := hs.task_phase ht rfl
    obtain ⟨hinbox, hmodel⟩ := Loading.answered_loaded hphase hreply
    exact .ends rfl hothers (by rw [put_same]; rfl) (.settled hinbox hmodel rfl rfl)
  | loadFails _ _ hfail | rejoinFails _ _ hfail =>
    obtain ⟨hothers, hphase⟩ := hs.task_phase ht rfl
    obtain ⟨message, hreply⟩ := hs.load_failed hfail
    obtain ⟨hinbox, hmodel, hview⟩ := Loading.answered_failed hphase hreply
    exact .ends rfl hothers (by rw [put_same]; rfl) (.settled hinbox hmodel hview rfl)
  | jobSends before job u hsends =>
    cases hsends with
    | recovers job failed source lost plan hreply =>
      obtain ⟨hothers, hload, -⟩ := hs.task_phase ht rfl
      obtain ⟨hinbox, hmodel⟩ := hload.answered_loaded hreply
      refine .ends rfl hothers (by rw [put_same]; rfl) (Agrees.quiet ?_ (.sends ..))
      exact .settled hinbox hmodel rfl rfl
    | _ => exact .quiet (.sends ..) (by rw [ht]; rfl) (by rw [put_same]; rfl)
  | jobStopped before job u hsends hgone =>
    rw [hsends.host, hs.stays] at hgone
    cases hgone
  | jobLeads | failureUnloads =>
    exact .tells hs (hsafe.turns i rfl (by simp [begins, ht])) rfl rfl fun _ h => h
  | jobClears =>
    obtain ⟨hothers, hphase⟩ := hs.task_phase ht rfl
    change Emptied s at hphase
    refine .works rfl hothers (by rw [put_same]; rfl) ?_
    rw [put_same]
    exact ⟨⟨hphase.future, hphase.loads⟩, rfl⟩
  | jobGivesUp job pc failed message c hpc hwaits =>
    obtain ⟨hothers, hphase⟩ := hs.task_phase ht (engaged_of_leading hpc)
    change JobPhase s i pc at hphase
    refine .ends rfl hothers (by rw [put_same]; rfl) ?_
    cases pc with
    | naming | replanning => exact .emptied hphase.1 rfl hphase.2 rfl
    | activating v source lost a =>
      cases a with
      | starting => exact .emptied hphase.1 rfl hphase.2 rfl
      | waiting plan =>
        obtain ⟨m, hreply⟩ := hs.load_failed (hwaits v source lost plan rfl)
        obtain ⟨hinbox, hmodel, hview⟩ := hphase.1.answered_failed hreply
        exact .settled hinbox hmodel hview rfl
    | _ => cases hpc
  | jobReplans =>
    obtain ⟨hothers, hempty, hview⟩ := hs.task_phase ht rfl
    refine .works rfl hothers (by rw [put_same]; rfl) ?_
    rw [put_same]
    exact ⟨⟨hempty.future, hempty.loads⟩, hview⟩
  | jobPlans job failed source lost strategy assignments =>
    obtain ⟨hothers, hempty, hview⟩ := hs.task_phase ht rfl
    have hquiet (t : Task) : Quiet s i ((s.stamped source.name strategy assignments).put i t) :=
      .of_same (by simp) (by simp) (by simp) (stamped_replies ..)
    refine .works (hquiet _).gone hothers (by rw [put_same]; rfl) ?_
    rw [put_same]
    exact ⟨hempty.quiet (hquiet _), (hquiet _).view.trans hview⟩
  | jobAsks =>
    obtain ⟨hothers, hempty, hview⟩ := hs.task_phase ht rfl
    refine .works rfl hothers (by rw [put_same]; rfl) ?_
    rw [put_same]
    exact ⟨Loading.asked hempty.loads rfl (by simp), hview⟩
  | failureClears =>
    obtain ⟨hothers, hphase⟩ := hs.task_phase ht rfl
    change Emptied s at hphase
    exact .ends rfl hothers (by rw [put_same]; rfl) (.emptied hphase rfl rfl rfl)
  | rejoinEnds pc hpc =>
    refine .quiet (.of_same rfl rfl rfl rfl) ?_ (by rw [put_same]; rfl)
    rw [ht]
    rcases hpc with rfl | rfl <;> rfl
  | rejoinAborts source plan c hfail =>
    rcases hfail with ⟨message, rfl⟩ | hgone
    · exact (hsafe.aborts i message source plan rfl ht).elim
    · rw [hs.stays] at hgone
      cases hgone
  | _ => exact .quiet (.of_same rfl rfl rfl rfl) (by rw [ht]; rfl) (by rw [put_same]; rfl)

theorem Records.of_quiet (hs : Records s) (hquiet : Quiet s i s')
    (htasks : ∀ k, (s'.tasks k = s.tasks k ∧ ∃ j, k ≠ j ∧ Quiet s j s') ∨
      engaged (s.tasks k) = false ∧ engaged (s'.tasks k) = false) : Records s' := by
  have hsame (k : ℕ) : engaged (s'.tasks k) = engaged (s.tasks k) := by
    rcases htasks k with ⟨heq, -⟩ | ⟨hbefore, hafter⟩
    · rw [heq]
    · rw [hbefore, hafter]
  refine ⟨hquiet.gone.trans hs.stays, fun j k hj hk => ?_, fun hcalm => ?_, fun k hk => ?_⟩
  · exact hs.one j k (hsame j ▸ hj) (hsame k ▸ hk)
  · exact (hs.calm fun k => (hsame k).symm.trans (hcalm k)).quiet hquiet
  · rcases htasks k with ⟨heq, j, hne, hj⟩ | ⟨-, hafter⟩
    · rw [heq]
      exact (hs.phase k (hsame k ▸ hk)).transfer (fun _ hload => hload.quiet hj hne) (fun hempty => hempty.quiet hj)
        hj.view
    · rw [hafter] at hk
      cases hk

theorem Records.task (hs : Records s) {c : Choice} (h : TaskMove s i (s.tasks i) c s')
    (hsafe : StateSafe s (.step i c)) : Records s' := by
  have hother := h.holder.1
  cases h.turn hs hsafe with
  | quiet hquiet hbefore hafter =>
    refine hs.of_quiet hquiet fun k => ?_
    by_cases hk : k = i
    · exact .inr (hk ▸ ⟨hbefore, hafter⟩)
    · exact .inl ⟨hother k hk, i, hk, hquiet⟩
  | works hgone hothers hengaged hphase =>
    have honly (k : ℕ) (hk : engaged (s'.tasks k) = true) : k = i := by
      by_contra hne
      rw [hother k hne, hothers k hne] at hk
      cases hk
    refine ⟨hgone.trans hs.stays, fun j k hj hk => (honly j hj).trans (honly k hk).symm, fun hcalm => ?_,
      fun k hk => ?_⟩
    · rw [hcalm i] at hengaged
      cases hengaged
    · rw [honly k hk]
      exact hphase
  | ends hgone hothers hengaged hagrees =>
    have hcalm (k : ℕ) : engaged (s'.tasks k) = false := by
      by_cases hk : k = i
      · rw [hk, hengaged]
      · rw [hother k hk, hothers k hk]
    refine ⟨hgone.trans hs.stays, fun j k hj hk => ?_, fun _ => hagrees, fun k hk => ?_⟩
    · rw [hcalm j] at hj
      cases hj
    · rw [hcalm k] at hk
      cases hk

/-! ### Steps of the host -/

theorem engaged_ranTask (plan : Plan) (t : Task) : engaged (ranTask plan t) = engaged t := by
  cases t <;> rfl

theorem phase_ranTask (h : Phase s k t) : Phase s k (ranTask plan t) := by
  cases t <;> exact h

theorem not_engaged_of_withHost (htokens : Tokens s) (h : s.withHost i ≠ 0) : engaged (s.tasks i) = false := by
  obtain ⟨job, epoch, ht, hpc⟩ := awaiting_cases (htokens.waits h).1
  exact (engaged_job ht hpc).trans rfl

/-- The host goes on without failing a load and without loading: a message that loads
nothing is taken, or an attempt ends. -/
structure Passes (s s' : Daemon) : Prop where
  frame : HostFrame s s'
  gone : s'.host.gone = s.host.gone
  /-- The next message had its effect, or none was taken. -/
  inbox : (s'.host.inbox = s.host.inbox ∧ s'.host.model = s.host.model) ∨
    ∃ m, s.host.inbox = m :: s'.host.inbox ∧ isLoad m = false ∧ s'.host.model = effect s.host.model m
  /-- An engaged task gets no answer to a load, and keeps one it has. -/
  replies : ∀ k, engaged (s.tasks k) = true → s'.replies k = s.replies k ∨
    isLoadReply (s'.replies k) = false ∧ ∃ m ∈ s.host.inbox, isControl m = true

theorem Passes.future (h : Passes s s') : s'.future = s.future := by
  rcases h.inbox with ⟨hinbox, hmodel⟩ | ⟨m, hinbox, -, hmodel⟩
  · rw [Daemon.future, hinbox, hmodel]
    rfl
  · exact future_take hinbox hmodel

theorem Passes.mem (h : Passes s s') (hm : m ∈ s'.host.inbox) : m ∈ s.host.inbox := by
  rcases h.inbox with ⟨hinbox, -⟩ | ⟨m', hinbox, -, -⟩
  · rwa [hinbox] at hm
  · rw [hinbox]
    exact mem_cons_of_mem _ hm

theorem Passes.view (h : Passes s s') : s'.headPlan = s.headPlan := by
  rw [headPlan, h.frame.cluster]
  rfl

/-- With no control message in the mailbox the model and the answers to loads stay. -/
theorem Passes.calm (h : Passes s s') (hinbox : ∀ m ∈ s.host.inbox, isControl m = false) :
    (∀ m ∈ s'.host.inbox, isControl m = false) ∧ s'.host.model = s.host.model ∧
      ∀ k, engaged (s.tasks k) = true → s'.replies k = s.replies k := by
  have hcalm : ∀ m ∈ s'.host.inbox, isControl m = false := fun m hm => hinbox m (h.mem hm)
  refine ⟨hcalm, ?_, fun k hk => ?_⟩
  · rw [← future_calm hcalm, ← future_calm hinbox, h.future]
  · rcases h.replies k hk with hsame | ⟨-, m, hm, hcontrol⟩
    · exact hsame
    · rw [hinbox m hm] at hcontrol
      cases hcontrol

theorem Loading.passes (hs : Loading s k plan) (h : Passes s s')
    (hk : engaged (s.tasks k) = true) : Loading s' k plan := by
  cases hs with
  | mailed before after hinbox hbefore hafter hreply =>
    have hanswer : isLoadReply (s'.replies k) = false := by
      rcases h.replies k hk with hsame | ⟨hnew, -⟩
      · rw [hsame, hreply]
      · exact hnew
    rcases h.inbox with ⟨hin, -⟩ | ⟨m, hin, hload, -⟩
    · exact .mailed before after (hin.trans hinbox) hbefore hafter hanswer
    · rw [hin] at hinbox
      cases before with
      | nil =>
        rw [(cons_eq_cons.mp hinbox).1] at hload
        cases hload
      | cons x before =>
        exact .mailed before after (cons_eq_cons.mp hinbox).2
          (fun m' hm' => hbefore m' (mem_cons_of_mem _ hm')) hafter hanswer
  | loaded hinbox hmodel hreply =>
    obtain ⟨hcalm, hsame, hreplies⟩ := h.calm hinbox
    exact .loaded hcalm (hsame.trans hmodel) ((hreplies k hk).trans hreply)
  | failed message hinbox hmodel hview hreply =>
    obtain ⟨hcalm, hsame, hreplies⟩ := h.calm hinbox
    exact .failed message hcalm (hsame.trans hmodel) (h.view.trans hview) ((hreplies k hk).trans hreply)

theorem HostFrame.engaged (h : HostFrame s s') (k : ℕ) :
    Daemon.engaged (s'.tasks k) = Daemon.engaged (s.tasks k) := by
  rcases h.tasks k with heq | ⟨plan, heq⟩
  · rw [heq]
  · rw [heq, engaged_ranTask]

theorem HostFrame.phase (h : HostFrame s s') (hk : Phase s' k (s.tasks k)) : Phase s' k (s'.tasks k) := by
  rcases h.tasks k with heq | ⟨plan, heq⟩
  · rwa [heq]
  · rw [heq]
    exact phase_ranTask hk

theorem Records.passes (hs : Records s) (h : Passes s s') : Records s' := by
  refine ⟨h.gone.trans hs.stays, fun j k hj hk => ?_, fun hcalm => ?_, fun k hk => ?_⟩
  · rw [h.frame.engaged] at hj hk
    exact hs.one j k hj hk
  · have hagrees := hs.calm fun k => (h.frame.engaged k).symm.trans (hcalm k)
    refine ⟨?_, ?_, fun m hm => hagrees.loads m (h.mem hm)⟩
    · rw [h.view, h.future, hagrees.view]
    · rw [h.frame.cluster, h.future, hagrees.source]
  · rw [h.frame.engaged] at hk
    refine h.frame.phase ((hs.phase k hk).transfer (fun _ hload => hload.passes h hk) (fun hempty => ?_) h.view)
    exact ⟨h.future.trans hempty.future, fun m hm => hempty.loads m (h.mem hm)⟩

theorem Loading.at_head {plan' : Plan} {j : ℕ} {rest : List HostMsg} (h : Loading s k plan')
    (hinbox : s.host.inbox = .load j plan :: rest) :
    k = j ∧ plan' = plan ∧ ∀ m ∈ rest, isControl m = false := by
  have hcontrol (hcalm : ∀ m ∈ s.host.inbox, isControl m = false) : False := by
    have hload := hcalm (.load j plan) (by rw [hinbox]; exact mem_cons_self)
    cases hload
  cases h with
  | mailed before after hin hbefore hafter =>
    rw [hinbox] at hin
    cases before with
    | nil =>
      obtain ⟨hhead, hrest⟩ := cons_eq_cons.mp hin
      cases hhead
      exact ⟨rfl, rfl, hrest ▸ hafter⟩
    | cons x =>
      have hx := hbefore x mem_cons_self
      rw [← (cons_eq_cons.mp hin).1] at hx
      cases hx
  | loaded hcalm | failed _ hcalm => exact (hcontrol hcalm).elim

theorem Records.answers (hs : Records s) {j : ℕ} {rest : List HostMsg} {r : Reply}
    (hinbox : s.host.inbox = .load j plan :: rest) (hframe : HostFrame s s')
    (hgone : s'.host.gone = s.host.gone) (hrest : s'.host.inbox = rest) (hreply : s'.replies j = some r)
    (hanswer : (r = .loaded ∧ s'.host.model = some plan) ∨
      (∃ message, r = .loadFailed message) ∧ s'.host.model = none ∧ s.headPlan = none) : Records s' := by
  have hview : s'.headPlan = s.headPlan := by
    rw [headPlan, hframe.cluster]
    rfl
  have hloads (hloads : ∀ m ∈ s.host.inbox, isLoad m = false) : False := by
    have hload := hloads (.load j plan) (by rw [hinbox]; exact mem_cons_self)
    cases hload
  refine ⟨hgone.trans hs.stays, fun i k hi hk => ?_, fun hcalm => ?_, fun k hk => ?_⟩
  · rw [hframe.engaged] at hi hk
    exact hs.one i k hi hk
  · exact (hloads (hs.calm fun k => (hframe.engaged k).symm.trans (hcalm k)).loads).elim
  · rw [hframe.engaged] at hk
    refine hframe.phase ((hs.phase k hk).transfer (fun plan' hload => ?_) (fun hempty => ?_) hview)
    · obtain ⟨rfl, rfl, hcalm⟩ := hload.at_head hinbox
      rw [← hrest] at hcalm
      rcases hanswer with ⟨rfl, hmodel⟩ | ⟨⟨message, rfl⟩, hmodel, hnone⟩
      · exact .loaded hcalm hmodel hreply
      · exact .failed message hcalm hmodel (hview.trans hnone) hreply
    · exact (hloads hempty.loads).elim

theorem reply_same {r : Reply} (hreplies : s'.replies = Function.update s.replies i (some r)) (hk : k ≠ i) :
    s'.replies k = s.replies k := by
  rw [hreplies, Function.update_of_ne hk]

theorem ne_of_engaged (hi : engaged (s.tasks i) = false) (hk : engaged (s.tasks k) = true) : k ≠ i := by
  rintro rfl
  rw [hi] at hk
  cases hk

variable (hs : Records s)
include hs

theorem Records.host (htokens : Tokens s) {act : HostAct} (hmove : HostMove s act s')
    (hsafe : StateSafe s (.host act)) : Records s' := by
  have hframe := hmove.frame
  cases hmove with
  | refuses i rest failure hinbox =>
    have hi := not_engaged_of_withHost htokens (i := i) (by simp [withHost, hinbox])
    exact hs.passes ⟨hframe, rfl, .inr ⟨.generate i, hinbox, rfl, rfl⟩,
      fun k hk => .inl (reply_same rfl (ne_of_engaged hi hk))⟩
  | runs i rest failure plan hinbox =>
    exact hs.passes ⟨hframe, rfl, .inr ⟨.generate i, hinbox, rfl, rfl⟩, fun k hk => .inl rfl⟩
  | loadFails i plan rest message hinbox =>
    exact hs.answers hinbox hframe rfl rfl (by simp)
      (.inr ⟨⟨message, rfl⟩, rfl, hsafe.fails message i plan rest rfl hinbox⟩)
  | loads i plan rest hinbox => exact hs.answers hinbox hframe rfl rfl (by simp) (.inl ⟨rfl, rfl⟩)
  | unloads i rest failure hinbox =>
    refine hs.passes ⟨hframe, rfl, .inr ⟨.unload i, hinbox, rfl, rfl⟩, fun k hk => ?_⟩
    by_cases hki : k = i
    · subst hki
      exact .inr ⟨by simp [isLoadReply], .unload k, by rw [hinbox]; exact mem_cons_self, rfl⟩
    · exact .inl (reply_same rfl hki)
  | serves epoch rest failure hinbox =>
    exact hs.passes ⟨hframe, rfl, .inr ⟨.serveShard epoch, hinbox, rfl, rfl⟩, fun k hk => .inl rfl⟩
  | finishes i hmem | interrupts i _ _ hmem =>
    have hi := not_engaged_of_withHost htokens (i := i)
      (by have := count_pos_iff.mpr hmem; unfold withHost; omega)
    exact hs.passes ⟨hframe, rfl, .inl ⟨rfl, rfl⟩, fun k hk => .inl (reply_same rfl (ne_of_engaged hi hk))⟩
  | exits => exact (hsafe.stays rfl).elim

/-! ### Whole runs -/

theorem Records.congr (hhost : s'.host = s.host) (hactive : s'.cluster.active = s.cluster.active)
    (hsource : s'.cluster.loadedSource = s.cluster.loadedSource) (hreplies : s'.replies = s.replies)
    (htasks : ∀ k, s'.tasks k = s.tasks k ∨ engaged (s.tasks k) = false ∧ engaged (s'.tasks k) = false) :
    Records s' := by
  have hquiet (k : ℕ) : Quiet s k s' := .of_same hhost hactive hsource hreplies
  exact hs.of_quiet (hquiet 0) fun k => (htasks k).imp_left fun heq => ⟨heq, k + 1, by omega, hquiet _⟩

theorem Records.updateCluster (f : ClusterState → ClusterState) (hactive : (f s.cluster).active = s.cluster.active)
    (hsource : (f s.cluster).loadedSource = s.cluster.loadedSource) : Records (s.updateCluster f) :=
  hs.congr rfl hactive hsource rfl (fun _ => .inl rfl)

theorem Records.spawn (hexcl : Exclusive s) (ht : engaged t = false) :
    Records (s.spawn t) := by
  refine hs.congr rfl rfl rfl rfl (fun k => ?_)
  by_cases hk : k = s.fresh
  · subst hk
    rw [hexcl.unused _ (Nat.le_refl _)]
    exact .inr ⟨rfl, by rw [spawn_tasks, Function.update_self, ht]⟩
  · exact .inl (by rw [spawn_tasks, Function.update_of_ne hk])

/-- **Every safe step keeps the records.** -/
theorem Records.move (hexcl : Exclusive s) (htokens : Tokens s) {l : Label} (h : Move s l s')
    (hsafe : StateSafe s l) : Records s' := by
  cases h with
  | starts l f t h =>
    refine (hs.updateCluster f ?_ ?_).spawn (hexcl.updateCluster f) ?_
    · cases h <;> simp
    · cases h <;> simp
    · cases h <;> rfl
  | streams => exact hs.congr rfl rfl rfl rfl (fun _ => .inl rfl)
  | bridgeTears => exact hs.updateCluster _ (markEpochFailed_active ..) (markEpochFailed_source ..)
  | adopt head plan =>
    obtain ⟨hcalm, hsource⟩ := hsafe.adopts head plan rfl
    have hagrees := hs.calm hcalm
    refine ⟨hs.stays, fun j k hj hk => ?_, fun _ => ?_, fun k hk => ?_⟩
    · exact hs.one j k hj hk
    · -- The shard takes the model's place, and the view is that of a worker.
      have hfuture : future ({ s with
          host := { s.host with inbox := s.host.inbox ++ [HostMsg.serveShard plan.epoch] } }.updateCluster
            fun c => (c.setActive (some { role := .worker, plan })).setWorkerShard (some (plan.epoch, head))) =
              [HostMsg.serveShard plan.epoch].foldl effect s.future :=
        future_append rfl rfl
      refine ⟨hfuture.symm, ?_, fun m hm => ?_⟩
      · rw [hfuture]
        exact congrArg Option.isSome hsource
      · rcases mem_append.mp hm with hold | hnew
        · exact hagrees.loads m hold
        · rw [mem_singleton] at hnew
          rw [hnew]
          rfl
    · exact absurd ((hcalm k).symm.trans hk) (by simp)
  | task i c s' h => exact hs.task h hsafe
  | host act s' hgone h => exact hs.host htokens h hsafe

omit hs

/-- Nobody is engaged, computed. -/
def calmCheck (s : Daemon) : Bool := (List.range s.fresh).all fun k => !engaged (s.tasks k)

theorem Calm.of_check (hexcl : Exclusive s) (h : s.calmCheck = true) : Calm s := by
  intro k
  by_cases hk : k < s.fresh
  · have hk' := all_eq_true.mp h k (mem_range.mpr hk)
    simpa using hk'
  · rw [hexcl.unused k (by omega)]
    rfl

theorem Settled.of_check (hexcl : Exclusive s)
    (h : (s.calmCheck && s.host.inbox.all fun m => !isControl m) = true) : Settled s := by
  rw [Bool.and_eq_true, all_eq_true] at h
  exact ⟨.of_check hexcl h.1, fun m hm => by simpa using h.2 m hm⟩

/-- The conditions, computed. -/
def stateCheck (s : Daemon) : Label → Bool
  | .host .exit => false
  | .host (.take (some _)) =>
    match s.host.inbox with
    | .load _ _ :: _ => s.headPlan.isNone
    | _ => true
  | .adopt _ _ => s.calmCheck && s.cluster.loadedSource.isNone
  | .step i .go => !s.begins i || s.calmCheck
  | .step i (.fails _) =>
    match s.tasks i with
    | .rejoin (.activating _ (.starting _)) => false
    | _ => true
  | _ => true

theorem StateSafe.of_check {l : Label} (hexcl : Exclusive s) (h : s.stateCheck l = true) : StateSafe s l := by
  refine ⟨?_, fun i hl hbegins => ?_, fun head plan hl => ?_, fun message j plan rest hl hinbox => ?_,
    fun j message source plan hl ht => ?_⟩
  · rintro rfl
    cases h
  · subst hl
    simp only [stateCheck, hbegins, Bool.not_true, Bool.false_or] at h
    exact .of_check hexcl h
  · subst hl
    simp only [stateCheck, Bool.and_eq_true, Option.isNone_iff_eq_none] at h
    exact ⟨.of_check hexcl h.1, h.2⟩
  · subst hl
    simpa [stateCheck, hinbox] using h
  · subst hl
    simp [stateCheck, ht] at h

end Daemon

theorem records_of_run {labels : List Daemon.Label} {s : Daemon} (hsafe : daemon.Meets Daemon.StateSafe labels)
    (hrun : daemon.run labels = some s) : s.Records := by
  refine Machine.run_induct_of_meets (M := daemon) (I := fun _ s => s.Records) ?_
    (fun ls s l t hs hrecords hp hnext => ?_) hsafe hrun
  · exact ⟨rfl, fun _ _ h => (by cases h), fun _ => ⟨rfl, rfl, nofun⟩, fun _ h => (by cases h)⟩
  · exact hrecords.move (exclusive_of_run hs) (tokens_of_run hs) (.of_next hnext) hp

open Daemon in
/-- **The records agree.** In every run whose steps respect the conditions, whenever no
load, activation, recovery or adoption is under way, the host has a model exactly when its
source is written down, and the plan shown is that of the model: a head view is present
exactly when it names the plan of the loaded model. -/
theorem records_agree (labels : List Label) (s : Daemon) (hsafe : daemon.Meets StateSafe labels)
    (hrun : daemon.run labels = some s) (hsettled : Settled s) :
    (s.host.model.isSome = true ↔ s.cluster.loadedSource.isSome = true) ∧ s.headPlan = s.host.model := by
  have hagrees := (records_of_run hsafe hrun).calm hsettled.1
  have hfuture := future_calm hsettled.2
  constructor
  · rw [hagrees.source, hfuture]
  · rw [hagrees.view, hfuture]

namespace Daemon

/-- A load that the host refuses. -/
def failsLoad (i : ℕ) : List Label := asksLoad i ++ [.host (.take (some "out of memory")), .step i .go]

/-- A load fails on an empty host, another one succeeds; a job is interrupted, recovers on
one node and finishes. -/
def mixedRun : List Label := failsLoad 0 ++ loadsModel 1 ++ runsJob 2 ++ leadsJob 2 ++ recovers 2

end Daemon

open Daemon in
/-- At the end of that run the solo plan of the recovery is loaded, written down and shown. -/
theorem records_agree_mixed : ∃ s, daemon.run mixedRun = some s ∧ Settled s ∧
    s.host.model.map Plan.strategy = some .solo ∧ s.cluster.loadedSource.isSome = true ∧
    s.headPlan = s.host.model := by
  have hsafe : daemon.Meets StateSafe mixedRun :=
    Machine.meets_of_checks (f := stateCheck) (fun _ _ _ hrun h => .of_check (exclusive_of_run hrun) h) rfl
  obtain ⟨s, hrun, hcheck, hmodel⟩ : ∃ s, daemon.run mixedRun = some s ∧
      (s.calmCheck && s.host.inbox.all fun m => !isControl m) = true ∧
      s.host.model.map Plan.strategy = some .solo := ⟨_, rfl, rfl, rfl⟩
  have hsettled : Settled s := .of_check (exclusive_of_run hrun) hcheck
  obtain ⟨hsource, hview⟩ := records_agree mixedRun s hsafe hrun hsettled
  refine ⟨s, hrun, hsettled, hmodel, hsource.mp ?_, hview⟩
  cases hnone : s.host.model with
  | none =>
    rw [hnone] at hmodel
    cases hmodel
  | some => rfl

open Daemon in
/-- **A failed load leaves the view of what it replaced**: a model is loaded and shown, a
second load fails at the host. Nothing is under way, the host has no model and no source is
written down, and the head still shows the plan of the first load. -/
theorem failed_load_keeps_view : ∃ s, daemon.run (loadsModel 0 ++ failsLoad 1) = some s ∧ Settled s ∧
    s.host.model = none ∧ s.cluster.loadedSource = none ∧ s.headPlan.map Plan.epoch = some 1 := by
  obtain ⟨s, hrun, hcheck, hrest⟩ : ∃ s, daemon.run (loadsModel 0 ++ failsLoad 1) = some s ∧
      (s.calmCheck && s.host.inbox.all fun m => !isControl m) = true ∧
      s.host.model = none ∧ s.cluster.loadedSource = none ∧ s.headPlan.map Plan.epoch = some 1 :=
    ⟨_, rfl, rfl, rfl, rfl, rfl⟩
  exact ⟨s, hrun, .of_check (exclusive_of_run hrun) hcheck, hrest⟩

end OneBrain.Cluster
