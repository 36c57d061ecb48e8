import OneBrain.Engine.JobSys

/-!
# The book of outcomes

A generation message carries a channel for its outcome: `Finished`, or `Interrupted` when a
distributed decode failed under it. This module follows the outcomes through the functions
of the loop.

* `Reports` — what a function does to one generation's outcome: the outcomes reported, with
  the one the generation still owes, are the same list before and after.
* `Loop.book` — all outcomes of the loop's jobs, reported or owed.
* `Keeps` — what every block of the loop keeps: the book up to order, and the order of the
  queue.

The lemmas hold in any state: jobs may share channels, and a resumed job may carry any
state. So nothing that `JobSys` knows of jobs is used here.
-/

namespace OneBrain.Engine

open List OneBrain.Lib

variable (env : Env) (cfg : Cfg)

/-! ### One generation -/

/-- The outcomes reported as `Finished`, and then the one this generation still owes. -/
def ledger (h : Host) (g : ActiveGen) : List JobId := h.finished ++ if g.outcome then [g.job.id] else []

/-- What a function of the loop does to the books of one generation. -/
structure Reports (h : Host) (g : ActiveGen) (r : Host × ActiveGen) : Prop where
  interrupted : r.1.interrupted = h.interrupted
  job : r.2.job = g.job
  uid : r.2.uid = g.uid
  /-- An outcome is reported by the one who owes it. -/
  ledger : ledger r.1 r.2 = ledger h g
  /-- A generation that is over owes nothing. -/
  settled : (g.done = true → g.outcome = false) → r.2.done = true → r.2.outcome = false

/-- The generation as its outcome sees it. -/
structure SameDebt (g g' : ActiveGen) : Prop where
  job : g'.job = g.job
  uid : g'.uid = g.uid
  outcome : g'.outcome = g.outcome
  done : g'.done = g.done

/-- No outcome is reported. -/
structure SameBooks (h h' : Host) : Prop where
  finished : h'.finished = h.finished
  interrupted : h'.interrupted = h.interrupted

theorem SameBooks.refl (h : Host) : SameBooks h h := ⟨rfl, rfl⟩

theorem SameBooks.tick (h : Host) : SameBooks h h.tick := ⟨rfl, rfl⟩

variable {h h' : Host} {g g' : ActiveGen} {r : Host × ActiveGen} {active : List ActiveGen}
  {s s' : Loop}

theorem SameBooks.trans {h'' : Host} (a : SameBooks h h') (b : SameBooks h' h'') : SameBooks h h'' :=
  ⟨b.finished.trans a.finished, b.interrupted.trans a.interrupted⟩

theorem SameDebt.refl (g : ActiveGen) : SameDebt g g := ⟨rfl, rfl, rfl, rfl⟩

theorem SameBooks.reports (hh : SameBooks h h') (hg : SameDebt g g') : Reports h g (h', g') where
  interrupted := hh.interrupted
  job := hg.job
  uid := hg.uid
  ledger := by simp only [Engine.ledger, hh.finished, hg.job, hg.outcome]
  settled hs hdone := by
    rw [hg.outcome]
    exact hs (hg.done ▸ hdone)

theorem Reports.refl (h : Host) (g : ActiveGen) : Reports h g (h, g) := (SameBooks.refl h).reports (.refl g)

theorem Reports.trans {r' : Host × ActiveGen} (a : Reports h g r) (b : Reports r.1 r.2 r') : Reports h g r' :=
  ⟨b.interrupted.trans a.interrupted, b.job.trans a.job, b.uid.trans a.uid, b.ledger.trans a.ledger,
    fun hs => b.settled (a.settled hs)⟩

/-- Something no outcome depends on is done to the host at last. -/
theorem Reports.books (hr : Reports h g r) (hh : SameBooks r.1 h') : Reports h g (h', r.2) :=
  hr.trans (hh.reports (.refl r.2))

theorem Reports.after (hr : Reports h' g' r) (hh : SameBooks h h') (hg : SameDebt g g') : Reports h g r :=
  (hh.reports hg).trans hr

theorem Sends.books : Sends h h' → SameBooks h h' := by
  rintro ⟨_, _, _, rfl⟩
  exact ⟨rfl, rfl⟩

variable (h g)

theorem seqRm_books (s : SeqId) (n : ℕ) : SameBooks h (seqRm env h s n).1 := by
  unfold seqRm
  split <;> exact ⟨rfl, rfl⟩

/-! ### Leaving the active set -/

theorem reportFinished_reports
    (hh : SameBooks (reportFinished h g).1 h') (hjob : g'.job = g.job) (huid : g'.uid = g.uid)
    (hout : g'.outcome = (reportFinished h g).2.outcome) : Reports h g (h', g') := by
  unfold reportFinished at hh hout
  split at hh
  · rename_i howes
    rw [if_pos howes] at hout
    have hout : g'.outcome = false := hout
    refine ⟨hh.interrupted, hjob, huid, ?_, fun _ _ => hout⟩
    have hfin : h'.finished = h.finished ++ [g.job.id] := hh.finished
    simp [ledger, hfin, hout, howes]
  · rename_i howes
    rw [if_neg howes] at hout
    have hout : g'.outcome = false := hout.trans (by simpa using howes)
    refine ⟨hh.interrupted, hjob, huid, ?_, fun _ _ => hout⟩
    have hfin : h'.finished = h.finished := hh.finished
    simp [ledger, hfin, hout, howes]

theorem reportFinished_debt :
    (reportFinished h g).2.job = g.job ∧ (reportFinished h g).2.uid = g.uid := by
  unfold reportFinished
  split <;> exact ⟨rfl, rfl⟩

theorem cancelSeq_reports : Reports h g (cancelSeq h g) :=
  reportFinished_reports h g ⟨rfl, rfl⟩ (reportFinished_debt h g).1 (reportFinished_debt h g).2 rfl

theorem finishSeq_reports (kind : FinishKind) (retain : Bool) :
    Reports h g (finishSeq env h g kind retain) := by
  refine .after ?_ (@deliverTerminal_sends env h g.job.id (.done (doneStats g kind))).books (.refl g)
  have hdebt := reportFinished_debt (deliverTerminal env h g.job.id (.done (doneStats g kind))) g
  unfold finishSeq
  cases retain <;> exact reportFinished_reports _ g ⟨rfl, rfl⟩ hdebt.1 hdebt.2 rfl

theorem failSeq_reports (message : String) :
    Reports h g (failSeq env h g message) := by
  unfold failSeq
  split
  · refine (SameBooks.refl h).reports ?_
    split <;> exact ⟨rfl, rfl, rfl, rfl⟩
  · exact (cancelSeq_reports _ g).after (@deliverTerminal_sends env h g.job.id (.error message)).books (.refl g)

theorem finishOrDefer_reports (kind : FinishKind) (retain : Bool) :
    Reports h g (finishOrDefer env h g kind retain) := by
  unfold finishOrDefer
  split
  · exact finishSeq_reports env h g kind retain
  · exact (SameBooks.refl h).reports ⟨rfl, rfl, rfl, rfl⟩

/-! ### The parts of a step -/

theorem deliverPiece_reports (piece : Text) :
    Reports h g (deliverPiece env h g piece) := by
  unfold deliverPiece
  split
  · exact (SameBooks.refl h).reports ⟨rfl, rfl, rfl, rfl⟩
  · have hbooks := (@trySend_sends env h g.job.id (.token piece)).books
    split <;> rename_i hs <;> rw [hs] at hbooks <;> exact hbooks.reports ⟨rfl, rfl, rfl, rfl⟩

theorem stagePending_reports (distributed : Bool) (h : Host) (g : ActiveGen) (tok : Token) (piece : Text) :
    Reports h g (stagePending env distributed h g tok piece) := by
  unfold stagePending
  split
  · exact (SameBooks.refl h).reports ⟨rfl, rfl, rfl, rfl⟩
  · dsimp only
    have hscan : SameDebt g { g with scan := (g.scan.admitPiece piece).1 } := ⟨rfl, rfl, rfl, rfl⟩
    split
    · have hsent := (deliverPiece_reports env h _ piece).after (.refl h) hscan
      exact hsent.trans ((SameBooks.refl _).reports ⟨rfl, rfl, rfl, rfl⟩)
    · exact (SameBooks.refl h).reports ⟨rfl, rfl, rfl, rfl⟩

theorem drainHeld_reports (ps : List Text) (h : Host) (g : ActiveGen) :
    Reports h g (drainHeld env ps h g) := by
  induction ps generalizing h g with
  | nil => exact (SameBooks.refl h).reports ⟨rfl, rfl, rfl, rfl⟩
  | cons p ps ih =>
    have hbooks := (@trySend_sends env h g.job.id (.token p)).books
    unfold drainHeld
    split <;> rename_i h' hs <;> rw [hs] at hbooks
    · exact (ih h' g.noteSent).after hbooks ⟨rfl, rfl, rfl, rfl⟩
    · exact hbooks.reports ⟨rfl, rfl, rfl, rfl⟩
    · exact hbooks.reports ⟨rfl, rfl, rfl, rfl⟩

theorem retryHeld_reports : Reports h g (retryHeld env cfg h g) := by
  refine (drainHeld_reports env g.held h g).trans ?_
  unfold retryHeld
  generalize drainHeld env g.held h g = r
  obtain ⟨h', g'⟩ := r
  dsimp only
  split
  · have hsame : SameDebt g' { g' with terminalAfterDrain := none } := ⟨rfl, rfl, rfl, rfl⟩
    split
    · exact (finishSeq_reports env h' _ _ _).after (.refl h') hsame
    · exact (failSeq_reports env h' _ _).after (.refl h') hsame
    · exact .refl h' g'
  · exact .refl h' g'

theorem dropClosed_reports : Reports h g (dropClosed env h g) := by
  unfold dropClosed
  split
  · exact .refl h g
  · split
    · exact (cancelSeq_reports h.tick g).after (.tick h) (.refl g)
    · exact (SameBooks.tick h).reports (.refl g)

theorem reapStalled_reports : Reports h g (reapStalled env h g) := by
  unfold reapStalled
  split
  · split
    · have hcancel := (cancelSeq_reports h.tick g).after (.tick h) (.refl g)
      generalize cancelSeq h.tick g = r at hcancel
      exact hcancel.books ⟨rfl, rfl⟩
    · exact (SameBooks.tick h).reports (.refl g)
  · exact .refl h g

theorem takeSample_reports (next : Token) :
    Reports h g (takeSample env cfg h g next) := by
  unfold takeSample
  split
  · exact finishOrDefer_reports env h g _ _
  · split
    · exact stagePending_reports env _ h g next _
    · exact failSeq_reports env h g _

theorem continueDecode_reports (context : List Cell) :
    Reports h g (continueDecode env cfg h g context) := by
  unfold continueDecode
  split
  · exact finishOrDefer_reports env h g _ _
  · exact (takeSample_reports env cfg _ g _).after ⟨rfl, rfl⟩ (.refl g)

theorem postDecode_reports (context : List Cell) :
    Reports h g (postDecode env cfg h g context) := by
  have hconfirm : ∀ tok, SameDebt g (g.confirm tok) := fun _ => ⟨rfl, rfl, rfl, rfl⟩
  unfold postDecode
  split
  · exact .refl h g
  · exact (finishSeq_reports env h _ _ _).after (.refl h) (hconfirm _)
  · exact (continueDecode_reports env cfg h _ context).after (.refl h) (hconfirm _)
  · rename_i tok piece hpending
    dsimp only
    split
    · have hbooks := (@trySend_sends env h g.job.id (.token piece)).books
      split <;> rename_i hs <;> rw [show (ActiveGen.confirm g tok).job.id = g.job.id from rfl] at hs <;>
        rw [hs] at hbooks
      · exact (continueDecode_reports env cfg _ _ context).after hbooks ⟨rfl, rfl, rfl, rfl⟩
      · exact (continueDecode_reports env cfg _ _ context).after hbooks ⟨rfl, rfl, rfl, rfl⟩
      · exact (cancelSeq_reports _ _).after hbooks ⟨rfl, rfl, rfl, rfl⟩
    · exact (finishSeq_reports env h _ _ _).after (.refl h) ⟨rfl, rfl, rfl, rfl⟩

theorem firstSample_reports (first : Token) :
    Reports h g (firstSample env cfg h g first) := by
  unfold firstSample
  split
  · exact finishSeq_reports env h g _ _
  · split
    · exact stagePending_reports env _ h g _ _
    · exact failSeq_reports env h g _

theorem postPrefill_reports (chunk : ℕ) (context : List Cell) :
    Reports h g (postPrefill env cfg h g chunk context) := by
  have hnote : SameDebt g (g.notePrefill chunk) := ⟨rfl, rfl, rfl, rfl⟩
  unfold postPrefill
  split
  · exact .refl h g
  · dsimp only
    split
    · exact (firstSample_reports env cfg _ _ _).after (.tick h) hnote
    · exact (SameBooks.refl h).reports hnote

/-! ### A speculative round -/

variable (logits : ℕ → List Cell)

theorem acceptWalk_books (l : List (Token × ℕ)) (h : Host) (acc : List (Token × Text)) :
    SameBooks h (acceptWalk env logits l h acc).1 := by
  induction l generalizing h acc with
  | nil => exact .refl h
  | cons d l ih =>
    unfold acceptWalk
    dsimp only
    split
    · exact .tick h
    · split
      · exact (SameBooks.tick h).trans (ih _ _)
      · exact .tick h

theorem emitConfirmed_reports (l : List (Token × Text)) (s : Emit) :
    Reports s.host s.gen ((emitConfirmed env l s).host, (emitConfirmed env l s).gen) := by
  induction l generalizing s with
  | nil => exact .refl _ _
  | cons c l ih =>
    unfold emitConfirmed
    dsimp only
    split
    · split
      · exact (deliverPiece_reports env s.host _ c.2).after (.refl _) ⟨rfl, rfl, rfl, rfl⟩
      · refine .after ((deliverPiece_reports env s.host _ c.2).trans (ih ⟨_, _, s.kept + 1, none⟩)) (.refl _) ?_
        exact ⟨rfl, rfl, rfl, rfl⟩
    · exact (SameBooks.refl _).reports ⟨rfl, rfl, rfl, rfl⟩

theorem emitPending_reports (pending : PendingTok) :
    Reports h g ((emitPending env h g pending).host, (emitPending env h g pending).gen) := by
  unfold emitPending
  split
  · exact (SameBooks.refl h).reports ⟨rfl, rfl, rfl, rfl⟩
  · dsimp only
    split
    · exact (deliverPiece_reports env h _ _).after (.refl h) ⟨rfl, rfl, rfl, rfl⟩
    · exact (SameBooks.refl h).reports ⟨rfl, rfl, rfl, rfl⟩

theorem emitRound_reports (pending : PendingTok) (l : List (Token × Text)) :
    Reports h g ((emitRound env h g pending l).host, (emitRound env h g pending l).gen) := by
  have hpending := emitPending_reports env h g pending
  unfold emitRound
  dsimp only
  split
  · exact hpending.trans (emitConfirmed_reports env l _)
  · exact hpending

theorem resyncDraft_books (draftKv : ℕ) : SameBooks h (resyncDraft env h g draftKv) := by
  unfold resyncDraft
  dsimp only
  split
  · split <;> exact ⟨rfl, rfl⟩
  · exact ⟨rfl, rfl⟩

theorem trimPastStop_reports (s : Emit) (oldKv total : ℕ) :
    Reports s.host s.gen ((trimPastStop env s oldKv total).1, (trimPastStop env s oldKv total).2.1) := by
  unfold trimPastStop
  split
  · have hbooks := seqRm_books env s.host s.gen.seq (oldKv + s.kept)
    split <;> rename_i hs <;> rw [hs] at hbooks <;> exact hbooks.reports ⟨rfl, rfl, rfl, rfl⟩
  · exact .refl _ _

theorem settleRound_reports (next : Token) (finish : Option FinishKind) :
    Reports h g (settleRound env cfg h g next finish) := by
  cases finish with
  | some kind => exact finishOrDefer_reports env h g kind _
  | none => exact takeSample_reports env cfg h g next

theorem finishRound_reports (step : SpecStep) (h : Host) (g : ActiveGen) (pending : PendingTok)
    (l : List (Token × Text)) (next : Token) :
    Reports h g (finishRound env cfg step h g pending l next).1 := by
  have hround : Reports h g _ := (emitRound_reports env h { g with kvLen := g.kvLen + (1 + l.length) } pending l).after
    (.refl h) ⟨rfl, rfl, rfl, rfl⟩
  have htrim := hround.trans (trimPastStop_reports env _ g.kvLen (1 + l.length))
  unfold finishRound
  dsimp only
  split <;> rename_i hs <;> rw [hs] at htrim
  · exact htrim.books ⟨rfl, rfl⟩
  · exact htrim.trans ((settleRound_reports env cfg _ _ next _).after (resyncDraft_books env _ _ _) (.refl _))

theorem walkNext_books (step : SpecStep) (h : Host) (w : Walk) :
    SameBooks h (walkNext env logits step h w).1 := by
  unfold walkNext
  split <;> exact ⟨rfl, rfl⟩

theorem processWalk_reports (step : SpecStep) (h : Host) (g : ActiveGen)
    (pending : PendingTok) (w : Walk) : Reports h g (processWalk env cfg logits step h g pending w).1 := by
  unfold processWalk
  split
  · exact (failSeq_reports env h g _).books ⟨rfl, rfl⟩
  · have hnext := walkNext_books env logits step h w
    dsimp only
    split
    · have hbooks := hnext.trans (seqRm_books env _ g.seq (g.kvLen + 1 + w.confirmed.length))
      split <;> rename_i hs <;> rw [hs] at hbooks
      · exact (hbooks.reports (.refl g)).books ⟨rfl, rfl⟩
      · exact (finishRound_reports env cfg step _ g pending _ _).after hbooks (.refl g)
    · exact (finishRound_reports env cfg step _ g pending _ _).after hnext (.refl g)

theorem postSpec_reports (step : SpecStep) (h : Host) (g : ActiveGen) (pending : PendingTok) :
    Reports h g ((postSpec env cfg logits step h g pending).1, (postSpec env cfg logits step h g pending).2.1) := by
  have hround : Reports h g (processSpecStep env cfg logits step h g pending).1 :=
    (processWalk_reports env cfg logits step _ _ pending _).after
      (acceptWalk_books env logits (step.drafts.zip step.indexes) h []) ⟨rfl, rfl, rfl, rfl⟩
  unfold postSpec
  split <;> rename_i hs <;> rw [hs] at hround
  · exact hround
  · split
    · exact hround
    · exact hround.trans (failSeq_reports env _ _ _)

variable {h g}

/-! ### All generations -/

/-- The active jobs whose outcome is to be reported. -/
def owed (active : List ActiveGen) : List JobId := (active.filter ActiveGen.outcome).map fun g => g.job.id

/-- The outcomes reported so far, by job. -/
def Host.reported (h : Host) : List JobId := h.interrupted.map (fun gen => gen.job.id) ++ h.finished

/-- The jobs that wait, are active or were reported. -/
def Loop.book (s : Loop) : List JobId :=
  s.queue.map (fun p => p.job.id) ++ (owed s.active ++ s.host.reported)

/-- Generations that are over owe nothing. -/
def Settled (active : List ActiveGen) : Prop := ∀ g ∈ active, g.done = true → g.outcome = false

theorem owed_cons (g : ActiveGen) (active : List ActiveGen) :
    owed (g :: active) = (if g.outcome then [g.job.id] else []) ++ owed active := by
  unfold owed
  rw [filter_cons]
  split <;> simp

theorem owed_append (as bs : List ActiveGen) : owed (as ++ bs) = owed as ++ owed bs := by
  simp [owed]

theorem owed_retainActive (hs : Settled active) : owed (retainActive active) = owed active := by
  unfold owed retainActive
  rw [filter_filter]
  congr 1
  refine filter_congr fun g hg => ?_
  cases hout : g.outcome with
  | false => rfl
  | true =>
    have hdone : g.done = false := by
      cases hdone : g.done with
      | false => rfl
      | true => exact absurd (hs g hg hdone) (by simp [hout])
    simp [hdone]

/-- Some generations were worked on, each by functions that keep its books. -/
structure Swept (h : Host) (active : List ActiveGen) (r : Host × List ActiveGen) : Prop where
  interrupted : r.1.interrupted = h.interrupted
  uids : r.2.map ActiveGen.uid = active.map ActiveGen.uid
  debts : (owed r.2 ++ r.1.finished).Perm (owed active ++ h.finished)
  settled : Settled active → Settled r.2

theorem Swept.refl (h : Host) (active : List ActiveGen) : Swept h active (h, active) := ⟨rfl, rfl, .refl _, id⟩

theorem Swept.trans {r r' : Host × List ActiveGen} (a : Swept h active r) (b : Swept r.1 r.2 r') : Swept h active r' :=
  ⟨b.interrupted.trans a.interrupted, b.uids.trans a.uids, b.debts.trans a.debts, fun hs => b.settled (a.settled hs)⟩

theorem SameBooks.swept (hh : SameBooks h h') (active : List ActiveGen) : Swept h active (h', active) :=
  ⟨hh.interrupted, rfl, by rw [hh.finished], id⟩

theorem Reports.swept (hr : Reports h g r)
    (pre post : List ActiveGen) : Swept h (pre ++ g :: post) (r.1, pre ++ r.2 :: post) where
  interrupted := hr.interrupted
  uids := by simp [hr.uid]
  debts := by
    have hledger := hr.ledger
    unfold Engine.ledger at hledger
    have hcount : ∀ j, (r.1.finished ++ if r.2.outcome then [r.2.job.id] else []).count j =
        (h.finished ++ if g.outcome then [g.job.id] else []).count j := fun j => by rw [hledger]
    rw [perm_iff_count]
    intro j
    have hj := hcount j
    simp only [owed_append, owed_cons, count_append] at hj ⊢
    omega
  settled hs o ho := by
    rcases mem_append.mp ho with ho | ho
    · exact hs o (mem_append_left _ ho)
    · rcases mem_cons.mp ho with rfl | ho
      · exact hr.settled (hs g (by simp))
      · exact hs o (by simp [ho])

theorem sweepActive_swept {f : Host → ActiveGen → Host × ActiveGen} (hf : ∀ h g, Reports h g (f h g))
    (pre active : List ActiveGen) (h : Host) :
    Swept h (pre ++ active) ((sweepActive f h active).1, pre ++ (sweepActive f h active).2) := by
  induction active generalizing pre h with
  | nil => exact .refl _ _
  | cons g rest ih =>
    have hfirst := (hf h g).swept pre rest
    have hrest := ih (pre ++ [(f h g).2]) (f h g).1
    simp only [append_assoc, singleton_append] at hrest
    exact hfirst.trans hrest

/-- One generation of the active set was worked on, by its index. -/
theorem Reports.swept_set (hr : Reports h g r)
    {i : ℕ} (hi : active[i]? = some g) : Swept h active (r.1, active.set i r.2) := by
  obtain ⟨hlt, hget⟩ := List.getElem?_eq_some_iff.mp hi
  have hsplit : active = active.take i ++ g :: active.drop (i + 1) := by
    rw [← hget, getElem_cons_drop hlt, take_append_drop]
  have hset : active.set i r.2 = active.take i ++ r.2 :: active.drop (i + 1) :=
    set_eq_take_cons_drop r.2 hlt
  rw [hset]
  nth_rewrite 1 [hsplit]
  exact hr.swept _ _

theorem postDecodes_swept (l : List (ℕ × ℕ)) (h : Host) (active : List ActiveGen) :
    Swept h active (postDecodes env cfg logits l h active) := by
  induction l generalizing h active with
  | nil => exact .refl _ _
  | cons d l ih =>
    obtain ⟨i, index⟩ := d
    unfold postDecodes
    split
    · exact ih h active
    · rename_i g hg
      exact ((postDecode_reports env cfg h g (logits index)).swept_set hg).trans (ih _ _)

/-! ### Blocks -/

/-- What holds between blocks: those that are over owe nothing, and admission numbers are
handed out in order. -/
structure Booked (s : Loop) : Prop where
  settled : Settled s.active
  uids : ∀ g ∈ s.active, g.uid < s.nextUid

/-- The generations of a loop that were admitted after another state of it. -/
def newcomers (s s' : Loop) : List ActiveGen := s'.active.filter fun g => s.nextUid ≤ g.uid

/-- What a block keeps. -/
structure Keeps (s s' : Loop) : Prop where
  booked : Booked s'
  /-- No outcome is lost, and none comes from nowhere. -/
  book : s'.book.Perm s.book
  ctrl : s'.ctrl = s.ctrl
  /-- Whoever is admitted comes from the front of the queue. -/
  order : List.Sublist ((newcomers s s').map ActiveGen.job ++ s'.queue.map PreparedGen.job)
    (s.queue.map PreparedGen.job)

theorem newcomers_eq_nil (h : ∀ g ∈ s'.active, g.uid < s.nextUid) : newcomers s s' = [] :=
  filter_eq_nil_iff.mpr fun g hg => by simpa using h g hg

theorem Keeps.refl (hs : Booked s) : Keeps s s := by
  refine ⟨hs, .refl _, rfl, ?_⟩
  rw [newcomers_eq_nil hs.uids]
  exact List.Sublist.refl _

theorem Swept.keeps (hs : Booked s) {r : Host × List ActiveGen} (hr : Swept s.host s.active r)
    (hhost : SameBooks r.1 s'.host) (hactive : s'.active = retainActive r.2) (hqueue : s'.queue = s.queue)
    (huid : s'.nextUid = s.nextUid) (hctrl : s'.ctrl = s.ctrl) : Keeps s s' := by
  have hsettled := hr.settled hs.settled
  have hmem : ∀ g ∈ s'.active, g ∈ r.2 := fun g hg => by
    rw [hactive] at hg
    exact mem_of_mem_filter hg
  have hlt : ∀ g ∈ s'.active, g.uid < s.nextUid := fun g hg => by
    have huids : g.uid ∈ s.active.map ActiveGen.uid := hr.uids ▸ mem_map_of_mem (hmem g hg)
    obtain ⟨o, ho, hsame⟩ := mem_map.mp huids
    exact hsame ▸ hs.uids o ho
  refine ⟨⟨fun g hg => hsettled g (hmem g hg), fun g hg => huid ▸ hlt g hg⟩, ?_, hctrl, ?_⟩
  · unfold Loop.book Host.reported
    rw [hqueue, hactive, owed_retainActive hsettled, hhost.finished, hhost.interrupted, hr.interrupted]
    refine List.Perm.append_left _ ?_
    rw [perm_iff_count]
    intro j
    have hj := perm_iff_count.mp hr.debts j
    simp only [count_append] at hj ⊢
    omega
  · rw [newcomers_eq_nil hlt, hqueue]
    exact List.Sublist.refl _

theorem deliverBlock_keeps (hs : Booked s) : Keeps s (deliverBlock env cfg s) := by
  have hbooks : SameBooks s.host { (retryOutbox env s.host s.host.outbox).1 with
      outbox := (retryOutbox env s.host s.host.outbox).2 } :=
    (@retryOutbox_sends env s.host s.host.outbox).books.trans ⟨rfl, rfl⟩
  have hswept := (hbooks.swept s.active).trans (sweepActive_swept (retryHeld_reports env cfg) [] s.active _)
  exact hswept.keeps hs (.refl _) rfl rfl rfl rfl

theorem clearRetained_books (h : Host) : SameBooks h (clearRetained h) := by
  unfold clearRetained
  generalize h.retained = l
  induction l generalizing h with
  | nil => exact .refl h
  | cons r l ih =>
    have hclear : SameBooks h (h.clearSeq r.seq) := ⟨rfl, rfl⟩
    exact hclear.trans (ih _)

/-- A failed decode: every generation of a distributed model that owes an outcome is
interrupted; on a solo model every generation fails. -/
theorem decodeFailed_keeps (hs : Booked s) (hh : SameBooks s.host h)
    (batch : List BatchTok) (e : String) : Keeps s (decodeFailed env cfg { s with host := h } batch e) := by
  cases hdist : cfg.distributed with
  | true =>
    refine ⟨⟨?_, ?_⟩, ?_, rfl, ?_⟩
    · simp [decodeFailed, hdist, Settled]
    · simp [decodeFailed, hdist]
    · have howed : ((s.active.filter ActiveGen.outcome).map fun g => interruptGen g e).map (fun gen => gen.job.id) =
          owed s.active := by
        rw [map_map]
        rfl
      rw [perm_iff_count]
      intro j
      simp only [decodeFailed, hdist, if_true, Loop.book, Host.reported, tornHost, Host.tick, map_append, howed,
        hh.finished, hh.interrupted, count_append]
      simp only [owed, filter_nil, map_nil, count_nil]
      omega
    · simp [decodeFailed, hdist, newcomers]
  | false =>
    have htorn : SameBooks h (tornHost env h batch) := ⟨rfl, rfl⟩
    have hbooks : SameBooks s.host { clearRetained (tornHost env h batch) with retained := [], synced := none } :=
      ((hh.trans htorn).trans (clearRetained_books _)).trans ⟨rfl, rfl⟩
    have hfail : ∀ h g, Reports h g (failSeq env h { g with kvSuspect := true } e) := fun h g =>
      (failSeq_reports env h _ e).after (.refl h) ⟨rfl, rfl, rfl, rfl⟩
    have hswept := (hbooks.swept s.active).trans (sweepActive_swept hfail [] s.active _)
    refine hswept.keeps hs ?_ ?_ rfl rfl rfl
    · simp only [decodeFailed, hdist]
      exact ⟨rfl, rfl⟩
    · simp only [decodeFailed, hdist]
      rfl

theorem failPush_keeps (hs : Booked s) (i : ℕ) (e : String) : Keeps s (failPush env s i e) := by
  unfold failPush
  split
  · exact .refl hs
  · rename_i g hg
    exact ((failSeq_reports env s.host g e).swept_set hg).keeps hs (.refl _) rfl rfl rfl rfl

theorem plainDecoded_keeps (hs : Booked s) (batch : List BatchTok) (decodes : List (ℕ × ℕ))
    (prefill : Option (ℕ × ℕ × Option ℕ)) : Keeps s (plainDecoded env cfg s batch decodes prefill) := by
  have hdecode : SameBooks s.host (decodeOk s.host s.active batch) := ⟨rfl, rfl⟩
  have hswept := (hdecode.swept s.active).trans
    (postDecodes_swept env cfg (logitsAt (decodeOk s.host s.active batch) batch) decodes _ s.active)
  unfold plainDecoded
  dsimp only
  split
  · exact hswept.keeps hs (.refl _) rfl rfl rfl rfl
  · split
    · exact hswept.keeps hs (.refl _) rfl rfl rfl rfl
    · rename_i i chunk tail _ g hg
      have hprefill := (postPrefill_reports env cfg (postDecodes env cfg
        (logitsAt (decodeOk s.host s.active batch) batch) decodes (decodeOk s.host s.active batch) s.active).1 g chunk
        ((tail.map (logitsAt (decodeOk s.host s.active batch) batch)).getD [])).swept_set hg
      exact (hswept.trans hprefill).keeps hs (.refl _) rfl rfl rfl rfl

theorem plainStep_keeps (hs : Booked s) : Keeps s (plainStep env cfg s).1 := by
  unfold plainStep
  split
  · exact failPush_keeps env hs _ _
  · split
    · exact failPush_keeps env hs _ _
    · split
      · exact .refl hs
      · split
        · exact decodeFailed_keeps env cfg hs (.refl _) _ _
        · exact plainDecoded_keeps env cfg hs _ _ _

theorem buildSpecStep_books (h : Host) (g : ActiveGen) (tok : Token) :
    SameBooks h (buildSpecStep env cfg h g tok).1 := by
  obtain ⟨-, -, -, -, -, -, hfinished, hinterrupted, -, -⟩ := @buildSpecStep_only env cfg h g tok
  exact ⟨hfinished, hinterrupted⟩

theorem specStep_keeps (hs : Booked s) {pending : PendingTok}
    (ht : specTarget cfg s = some (g, pending)) : Keeps s (specStep env cfg s g pending) := by
  obtain ⟨hactive, -, -, -, -⟩ := specTarget_eq ht
  have hdraft := buildSpecStep_books env cfg s.host g pending.tok
  unfold specStep
  split <;> rename_i hbuild <;> rw [hbuild] at hdraft
  · -- the draft failed: speculation stands down, the generation goes on as it is
    refine ⟨⟨hs.settled, hs.uids⟩, ?_, rfl, (Keeps.refl hs).order⟩
    have hfinished := hdraft.finished
    have hinterrupted := hdraft.interrupted
    dsimp only at hfinished hinterrupted
    simp only [Loop.book, Host.reported, hfinished, hinterrupted]
    exact .refl _
  · rename_i step
    split
    · exact decodeFailed_keeps env cfg hs hdraft _ _
    · rename_i h _ _
      have hdecode : SameBooks s.host (decodeOk h s.active step.batch) := hdraft.trans ⟨rfl, rfl⟩
      have hround := (postSpec_reports env cfg (logitsAt (decodeOk h s.active step.batch) step.batch) step
        (decodeOk h s.active step.batch) g pending).swept [] []
      rw [show [] ++ [g] = s.active from hactive.symm] at hround
      exact ((hdecode.swept s.active).trans hround).keeps hs (.refl _) rfl rfl rfl rfl

theorem stepBlock_keeps (hs : Booked s) : Keeps s (stepBlock env cfg s).1 := by
  unfold stepBlock
  split
  · exact .refl hs
  · split
    · rename_i ht
      exact specStep_keeps env cfg hs ht
    · exact plainStep_keeps env cfg hs

/-! ### Admission -/

theorem dropClosedQueue_books (l : List PreparedGen) (h : Host) :
    (dropClosedQueue env h l).1.interrupted = h.interrupted ∧
      ((dropClosedQueue env h l).2.map (fun p => p.job.id) ++ (dropClosedQueue env h l).1.finished).Perm
        (l.map (fun p => p.job.id) ++ h.finished) ∧ List.Sublist (dropClosedQueue env h l).2 l := by
  induction l generalizing h with
  | nil => exact ⟨rfl, .refl _, .slnil⟩
  | cons p rest ih =>
    unfold dropClosedQueue
    split
    · obtain ⟨hint, hperm, hsub⟩ := ih (h.tick.finish p.ending)
      refine ⟨hint, hperm.trans ?_, hsub.cons p⟩
      rw [perm_iff_count]
      intro j
      simp only [Host.finish, PreparedGen.ending, Host.tick, map_cons, cons_append, count_append, count_cons, count_nil]
      omega
    · obtain ⟨hint, hperm, hsub⟩ := ih h.tick
      exact ⟨hint, hperm.cons _, hsub.cons_cons p⟩

/-- What admission does to the queue's jobs: those admitted and those left are the queue's,
in its order, and each of the others has its outcome. -/
structure Admits (l : List PreparedGen) (s s' : Loop) (news : List ActiveGen) : Prop where
  active : s'.active = s.active ++ news
  interrupted : s'.host.interrupted = s.host.interrupted
  book : (s'.queue.map (fun p => p.job.id) ++ (owed news ++ s'.host.finished)).Perm
    (l.map (fun p => p.job.id) ++ s.host.finished)
  order : List.Sublist (news.map ActiveGen.job ++ s'.queue.map PreparedGen.job) (l.map PreparedGen.job)
  live : ∀ g ∈ news, g.done = false
  uids : ∀ g ∈ news, s.nextUid ≤ g.uid ∧ g.uid < s'.nextUid
  grows : s.nextUid ≤ s'.nextUid
  ctrl : s'.ctrl = s.ctrl

theorem makeRoom_books (used budget nCtx n : ℕ) (h : Host) (reuse : Option (ℕ × ℕ)) :
    SameBooks h (makeRoom used budget nCtx n h reuse).1 := by
  induction n generalizing h reuse with
  | zero => exact .refl h
  | succ n ih =>
    unfold makeRoom
    dsimp only
    split
    · exact .refl h
    · split
      · exact .refl h
      · split
        · exact .refl h
        · obtain ⟨hfinished, hinterrupted⟩ := ih (Host.clearSeq { h with retained := h.retained.eraseIdx _ } _) _
          exact ⟨hfinished, hinterrupted⟩

theorem takeSlot_books {reuse : Option (ℕ × ℕ)} {seq : SeqId} {reused : ℕ}
    (ht : takeSlot env h reuse = some (h', seq, reused)) : SameBooks h h' := by
  unfold takeSlot at ht
  split at ht
  · rename_i idx lcp
    split at ht
    · cases ht
    · rename_i slot _
      dsimp only at ht
      have hbooks := seqRm_books env { h with
        retained := h.retained.eraseIdx idx
        free := h.free.filter fun s => s ≠ slot.seq } slot.seq lcp
      split at ht <;> rename_i hs <;> rw [hs] at hbooks <;> cases ht <;> exact ⟨hbooks.finished, hbooks.interrupted⟩
  · split at ht
    · cases ht
    · split at ht
      · cases ht
      · cases ht
        exact ⟨rfl, rfl⟩

/-- One round of admission: the head of the queue waits, or ends with its outcome, or is
active and owes it. -/
theorem admitFront_books (s : Loop) (p : PreparedGen) :
    (∃ h, admitFront env cfg s p = .waits h ∧ SameBooks s.host h) ∨
    (∃ h, admitFront env cfg s p = .failed h ∧ h.interrupted = s.host.interrupted ∧
      h.finished = s.host.finished ++ [p.job.id]) ∨
    ∃ h seq reused, admitFront env cfg s p = .admitted h (admitGen p seq reused s.nextUid) ∧
      SameBooks s.host h := by
  have hroom := makeRoom_books (usedBudget s.active) p.budget cfg.nCtx s.host.retained.length s.host
    (if cfg.kvReuse && !p.resumed then bestReuse p.promptTokens s.host.retained 0 none else none)
  unfold admitFront
  dsimp only
  generalize makeRoom _ _ _ _ _ _ = r at hroom ⊢
  split
  · split
    · rename_i e _
      have hterm := (@deliverTerminal_sends env r.1.tick p.job.id (.error e)).books
      refine .inr (.inl ⟨_, rfl, hterm.interrupted.trans hroom.interrupted, ?_⟩)
      exact congrArg (· ++ [p.job.id]) (hterm.finished.trans hroom.finished)
    · split
      · exact .inl ⟨_, rfl, hroom⟩
      · rename_i ht
        exact .inr (.inr ⟨_, _, _, rfl, hroom.trans ((SameBooks.tick _).trans (takeSlot_books env ht))⟩)
  · exact .inl ⟨_, rfl, hroom⟩

theorem Admits.stop {l : List PreparedGen} (hactive : s'.active = s.active)
    (hqueue : s'.queue = l) (hbooks : SameBooks s.host s'.host) (huid : s'.nextUid = s.nextUid)
    (hctrl : s'.ctrl = s.ctrl) : Admits l s s' [] where
  active := by rw [hactive, append_nil]
  interrupted := hbooks.interrupted
  book := by
    rw [hqueue, hbooks.finished]
    exact .refl _
  order := by
    rw [hqueue]
    exact List.Sublist.refl _
  live := by simp
  uids := by simp
  grows := huid.ge
  ctrl := hctrl

/-- Step 5. The induction is on the queue: each round moves its head. -/
theorem admission_admits (l : List PreparedGen) (s : Loop) :
    ∃ news, Admits l s (admission env cfg l s) news := by
  induction l generalizing s with
  | nil => exact ⟨[], .stop rfl rfl (.refl _) rfl rfl⟩
  | cons p rest ih =>
    unfold admission
    split
    · rcases admitFront_books env cfg s p with ⟨h, heq, hbooks⟩ | ⟨h, heq, hint, hfin⟩ | ⟨h, seq, reused, heq, hbooks⟩ <;>
        rw [heq]
      · exact ⟨[], .stop rfl rfl hbooks rfl rfl⟩
      · obtain ⟨news, hn⟩ := ih { s with host := h }
        refine ⟨news, hn.active, hn.interrupted.trans hint, ?_, hn.order.trans (sublist_cons_self _ _), hn.live,
          hn.uids, hn.grows, hn.ctrl⟩
        refine hn.book.trans ?_
        rw [perm_iff_count]
        intro j
        simp only [hfin, map_cons, cons_append, count_append, count_cons, count_nil]
        omega
      · obtain ⟨news, hn⟩ := ih { s with
          host := h, active := s.active ++ [admitGen p seq reused s.nextUid], nextUid := s.nextUid + 1 }
        have hgrows := hn.grows
        dsimp only at hgrows
        refine ⟨admitGen p seq reused s.nextUid :: news, ?_, hn.interrupted.trans hbooks.interrupted, ?_, ?_, ?_, ?_,
          Nat.le_of_succ_le hgrows, hn.ctrl⟩
        · rw [hn.active, append_assoc]
          rfl
        · have howes : (admitGen p seq reused s.nextUid).outcome = true := rfl
          have hjob : (admitGen p seq reused s.nextUid).job = p.job := rfl
          rw [perm_iff_count]
          intro j
          have hj := perm_iff_count.mp hn.book j
          simp only [owed_cons, howes, hjob, if_true, hbooks.finished, map_cons, cons_append, nil_append,
            count_append, count_cons] at hj ⊢
          omega
        · exact hn.order.cons_cons p.job
        · intro g hg
          rcases mem_cons.mp hg with rfl | hg
          · rfl
          · exact hn.live g hg
        · intro g hg
          rcases mem_cons.mp hg with rfl | hg
          · exact ⟨Nat.le_refl _, hgrows⟩
          · exact ⟨Nat.le_of_succ_le (hn.uids g hg).1, (hn.uids g hg).2⟩
    · exact ⟨[], .stop rfl rfl (.refl _) rfl rfl⟩

theorem settleSweep_swept (ctrl : Bool) (h : Host) (active : List ActiveGen) : Swept h (retainActive active)
      (if ctrl then sweepActive (reapStalled env) h (retainActive active) else (h, retainActive active)) := by
  cases ctrl with
  | false => exact .refl _ _
  | true => exact sweepActive_swept (reapStalled_reports env) [] _ h

theorem Settled.retain (hs : Settled active) : Settled (retainActive active) :=
  fun g hg => hs g (mem_of_mem_filter hg)

theorem Swept.uid_lt {r : Host × List ActiveGen} (hr : Swept h active r)
    {n : ℕ} (hn : ∀ g ∈ active, g.uid < n) : ∀ g ∈ retainActive r.2, g.uid < n := by
  intro g hg
  have hmem : g.uid ∈ active.map ActiveGen.uid := hr.uids ▸ mem_map_of_mem (mem_of_mem_filter hg)
  obtain ⟨o, ho, hsame⟩ := mem_map.mp hmem
  exact hsame ▸ hn o ho

theorem settleBlock_keeps (hs : Booked s) : Keeps s (settleBlock env cfg s) := by
  have hdrop := sweepActive_swept (dropClosed_reports env) [] s.active s.host
  obtain ⟨hqint, hqbook, hqsub⟩ := dropClosedQueue_books env s.queue (sweepActive (dropClosed env) s.host s.active).1
  unfold settleBlock
  dsimp only
  generalize sweepActive (dropClosed env) s.host s.active = r at hdrop hqint hqbook hqsub ⊢
  generalize dropClosedQueue env r.1 s.queue = q at hqint hqbook hqsub ⊢
  have hsettled : Settled r.2 := hdrop.settled hs.settled
  have hreap := settleSweep_swept env s.ctrl.isSome q.1 r.2
  generalize (if s.ctrl.isSome then sweepActive (reapStalled env) q.1 (retainActive r.2)
    else (q.1, retainActive r.2)) = t at hreap ⊢
  have htsettled : Settled t.2 := hreap.settled hsettled.retain
  have huids := hreap.uid_lt (hdrop.uid_lt hs.uids)
  obtain ⟨news, hn⟩ := admission_admits env cfg q.2 { s with host := t.1, active := retainActive t.2 }
  generalize admission env cfg q.2 _ = s' at hn ⊢
  have hactive : s'.active = retainActive t.2 ++ news := hn.active
  have hgrows : s.nextUid ≤ s'.nextUid := hn.grows
  refine ⟨⟨?_, ?_⟩, ?_, hn.ctrl, ?_⟩
  · intro g hg hdone
    rw [hactive] at hg
    rcases mem_append.mp hg with hg | hg
    · exact htsettled.retain g hg hdone
    · exact absurd hdone (by simp [hn.live g hg])
  · intro g hg
    rw [hactive] at hg
    rcases mem_append.mp hg with hg | hg
    · exact Nat.lt_of_lt_of_le (huids g hg) hgrows
    · exact (hn.uids g hg).2
  · have hint : s'.host.interrupted = s.host.interrupted :=
      hn.interrupted.trans (hreap.interrupted.trans (hqint.trans hdrop.interrupted))
    rw [perm_iff_count]
    intro j
    have h1 := perm_iff_count.mp hdrop.debts j
    have h2 := perm_iff_count.mp hqbook j
    have h3 := perm_iff_count.mp hreap.debts j
    have h4 := perm_iff_count.mp hn.book j
    rw [owed_retainActive hsettled] at h3
    simp only [Loop.book, Host.reported, hactive, owed_append, owed_retainActive htsettled, hint,
      count_append] at h1 h2 h3 h4 ⊢
    omega
  · have hnews : newcomers s s' = news := by
      unfold newcomers
      rw [hactive, filter_append, filter_eq_nil_iff.mpr fun g hg => by simpa using huids g hg, nil_append]
      exact filter_eq_self.mpr fun g hg => by simpa using (hn.uids g hg).1
    rw [hnews]
    exact hn.order.trans (hqsub.map _)

end OneBrain.Engine
