import OneBrain.Cluster.Worker
import OneBrain.Lib.Reap
import OneBrain.Models.TensorRanges

/-!
# The tensor cache of a worker

A worker that adopts a plan prepares for it in the background: it fetches the byte ranges of
its layers, writes the payloads of its large tensors into `rpc-cache/` under the names the RPC
protocol looks them up by, and then reaps the directory down to its cap, oldest file first,
sparing the files of this plan. A payload that is there already is not written again; its
modification time is set, so that it does not look old.

Adopting the next plan aborts the preparation of the one before. That ends it only while it is
fetching: writing and reaping run on a blocking thread, which an abort does not stop.

## The model

* `Prepare` — the preparation for one plan. `Prepare.step` is one step of it, with the
  directory: the source's loop over the tensors takes one step for each write, rename and
  find, and its reaper one for the listing and one for each removal.
* `RpcCache.next` — a step of the worker: a proposal, a step of one of the preparations, of
  the adopted plan or of one that was replaced, or a file that a serve session stores.
* What a payload hashes to, whether it can be read, whether a rename or a removal succeeds and
  what the clock says is in the labels.

## The results

`reaper_spares_seeded` says when no reaper removes a file that the preparation of the adopted plan wrote
or found; in `reaper_takes_seeded` the reaper of a replaced plan removes one.
-/

namespace OneBrain.Logistics

open Option Lib Cluster Models

/-! ## Files -/

/-- A file of the cache. -/
structure CacheFile where
  name : String
  len : ℕ
  modified : ℕ
deriving DecidableEq, Repr

/-- Only payloads above this size are looked up. -/
def rpcHashThreshold : ℕ := 10 * 1024 * 1024

/-- Remove a file. -/
def without (files : List CacheFile) (name : String) : List CacheFile :=
  files.filter fun f => f.name != name

/-- Write a file. -/
def write (files : List CacheFile) (f : CacheFile) : List CacheFile := f :: without files f.name

/-- Touch a file. -/
def setModified (files : List CacheFile) (name : String) (now : ℕ) : List CacheFile :=
  files.map fun f => if f.name = name then { f with modified := now } else f

/-- Oldest first; the name breaks ties. -/
def olderFirst (a b : CacheFile) : Prop :=
  a.modified < b.modified ∨ a.modified = b.modified ∧ a.name ≤ b.name

instance : DecidableRel olderFirst := fun a b => by
  unfold olderFirst
  infer_instance

/-! ## Layers -/

/-- A decimal number that fits `u64`, with an optional plus sign. -/
def parseU64 (digits : List Char) : Option ℕ :=
  let digits := match digits with
    | '+' :: rest => rest
    | digits => digits
  if digits = [] ∨ ¬ digits.all Char.isDigit then none
  else
    let n := digits.foldl (fun n c => 10 * n + (c.toNat - '0'.toNat)) 0
    if n < 2 ^ 64 then some n else none

/-- The layer a tensor belongs to: its name is `blk.<n>.<rest>`. -/
def tensorLayer (name : String) : Option ℕ :=
  match name.toList with
  | 'b' :: 'l' :: 'k' :: '.' :: rest => parseU64 (rest.takeWhile fun c => c ≠ '.')
  | _ => none

/-- A layer is in a range. -/
def contains (layers : LayerRange) (l : ℕ) : Bool := layers.start ≤ l && l < layers.stop

/-! ## One preparation -/

/-- What a pre-seed pass did. -/
structure PreseedStats where
  seeded : ℕ := 0
  seededBytes : ℕ := 0
  present : ℕ := 0
  /-- The names of both: the reaper spares them. -/
  spared : List String := []
deriving DecidableEq, Repr

/-- Where a preparation is. -/
inductive PrepareStage where
  /-- Fetching the ranges; an abort ends it here. -/
  | fetching
  /-- On the blocking thread: these tensors are still to be looked at. -/
  | seeding (rest : List TensorRange)
  /-- The payload is in its temporary file, to be renamed. -/
  | written (name : String) (len : ℕ) (rest : List TensorRange)
  /-- All tensors are done; the reaper has not listed the directory yet. -/
  | listing
  | reaping (r : Reap CacheFile)
  | finished

/-- The preparation for one adopted plan. -/
structure Prepare where
  layers : LayerRange
  stage : PrepareStage
  stats : PreseedStats := {}

/-- The steps of a preparation. -/
inductive PrepareStep where
  | aborts
  /-- The range fetch returns: the header and the file's size, or nothing (the model is not
  range fetchable, the fetch failed, or the directory cannot be created). -/
  | fetches (result : Option (GgufHeader × UInt64))
  /-- The loop looks at the next tensor: the name its payload hashes to, if it can be read. -/
  | seeds (found : Option String) (now : ℕ)
  /-- The temporary file is renamed, or that fails. -/
  | renames (ok : Bool)
  | lists
  /-- The reaper looks at the next file; a removal succeeds or fails. -/
  | reaps (ok : Bool)

/-- The preparation of a plan as it starts: without an assignment for this node, or with an
empty one, there is nothing to do. -/
def workerPrepare (own : NodeId) (plan : Plan) : Prepare :=
  match plan.assignments.find? fun a => a.node == own with
  | none => { layers := ⟨0, 0⟩, stage := .finished }
  | some a =>
    if a.layers.stop ≤ a.layers.start then { layers := a.layers, stage := .finished }
    else { layers := a.layers, stage := .fetching }

namespace Prepare

/-- The payload of the tensor is one to keep: its layer is assigned, and it is large. -/
def wants (p : Prepare) (tr : TensorRange) : Bool :=
  ((tensorLayer tr.name).any fun l => contains p.layers l) && rpcHashThreshold < tr.stop - tr.start

/-- One tensor of the pre-seed loop. -/
def preseed (p : Prepare) (files : List CacheFile) (tr : TensorRange) (rest : List TensorRange)
    (found : Option String) (now : ℕ) : Prepare × List CacheFile :=
  if p.wants tr then
    match found with
    | none => ({ p with stage := .seeding rest }, files)
    | some name =>
      let len := tr.stop - tr.start
      if files.any fun f => f.name == name && f.len == len then
        ({ p with
            stage := .seeding rest
            stats := { p.stats with
              present := p.stats.present + 1, spared := name :: p.stats.spared } },
          setModified files name now)
      else
        ({ p with stage := .written name len rest }, write files ⟨name ++ ".tmp", len, now⟩)
  else ({ p with stage := .seeding rest }, files)

/-- The rename that makes a payload visible; the pass ends if it fails. -/
def rename (p : Prepare) (files : List CacheFile) (name : String) (len : ℕ)
    (rest : List TensorRange) (ok : Bool) : Prepare × List CacheFile :=
  match files.find? fun f => f.name == name ++ ".tmp" with
  | some tmp =>
    if ok then
      ({ p with
          stage := .seeding rest
          stats := { p.stats with
            seeded := p.stats.seeded + 1, seededBytes := p.stats.seededBytes + len,
            spared := name :: p.stats.spared } },
        write (without files (name ++ ".tmp")) { tmp with name })
    else ({ p with stage := .finished }, files)
  | none => ({ p with stage := .finished }, files)

/-- The reaper's listing: nothing is to be done if the directory fits. -/
def list (max : ℕ) (p : Prepare) (files : List CacheFile) : Prepare :=
  let total := (files.map CacheFile.len).sum
  if total ≤ max then { p with stage := .finished }
  else { p with stage := .reaping ⟨total, files.insertionSort olderFirst⟩ }

/-- The reaper spares the files of its plan. -/
def spares (p : Prepare) (f : CacheFile) : Bool := p.stats.spared.contains f.name

/-- One turn of the reaper; a file that is gone cannot be removed. -/
def reap (max : ℕ) (p : Prepare) (files : List CacheFile) (r : Reap CacheFile) (ok : Bool) :
    Prepare × List CacheFile :=
  match r.look max p.spares with
  | .stops => ({ p with stage := .finished }, files)
  | .spares after => ({ p with stage := .reaping after }, files)
  | .tries f rest =>
    if ok && files.any fun g => g.name == f.name then
      ({ p with stage := .reaping ⟨r.total - f.len, rest⟩ }, without files f.name)
    else ({ p with stage := .reaping ⟨r.total, rest⟩ }, files)

/-- One step of a preparation. -/
def step (max : ℕ) (p : Prepare) (files : List CacheFile) :
    PrepareStep → Option (Prepare × List CacheFile)
  | .aborts =>
    match p.stage with
    | .fetching => some ({ p with stage := .finished }, files)
    | _ => none
  | .fetches result =>
    match p.stage with
    | .fetching =>
      match result with
      | none => some ({ p with stage := .finished }, files)
      | some (header, totalSize) =>
        match header.tensorRanges totalSize with
        | .ok ranges => some ({ p with stage := .seeding ranges }, files)
        | .error _ => some ({ p with stage := .finished }, files)
    | _ => none
  | .seeds found now =>
    match p.stage with
    | .seeding (tr :: rest) => some (p.preseed files tr rest found now)
    | .seeding [] => some ({ p with stage := .listing }, files)
    | _ => none
  | .renames ok =>
    match p.stage with
    | .written name len rest => some (p.rename files name len rest ok)
    | _ => none
  | .lists =>
    match p.stage with
    | .listing => some (p.list max files, files)
    | _ => none
  | .reaps ok =>
    match p.stage with
    | .reaping r => some (p.reap max files r ok)
    | _ => none

/-- On its blocking thread. -/
def working (p : Prepare) : Bool :=
  match p.stage with
  | .fetching | .finished => false
  | _ => true

/-- The file a step removes. -/
def removes (max : ℕ) (p : Prepare) (files : List CacheFile) : PrepareStep → Option String
  | .reaps true =>
    match p.stage with
    | .reaping r =>
      match r.look max p.spares with
      | .tries f _ => if files.any fun g => g.name == f.name then some f.name else none
      | _ => none
    | _ => none
  | _ => none

end Prepare

/-! ## The worker -/

/-- The plan a worker has adopted, and which of its preparations is the plan's. -/
structure Adoption where
  epoch : Epoch
  prepare : ℕ
deriving DecidableEq, Repr

/-- The directory, the preparations begun so far and the adopted plan. -/
structure RpcCache where
  files : List CacheFile
  prepares : List Prepare
  adopted : Option Adoption

/-- What happens next. -/
inductive RpcLabel where
  | proposes (senderPaired : Bool) (plan : Plan)
  | prepare (i : ℕ) (step : PrepareStep)
  /-- A serve session stores a tensor that was sent over the stream. -/
  | stores (f : CacheFile)

namespace RpcCache

/-- The preparation of the adopted plan. -/
def isCurrent (s : RpcCache) (i : ℕ) : Bool := s.adopted.any fun a => a.prepare == i

/-- Adopting a plan replaces the one before and starts its preparation. -/
def adopt (own : NodeId) (s : RpcCache) (plan : Plan) : RpcCache :=
  { s with
    prepares := s.prepares ++ [workerPrepare own plan]
    adopted := some ⟨plan.epoch, s.prepares.length⟩ }

/-- A preparation takes a step; only one whose plan was replaced is aborted. -/
def stepPrepare (max : ℕ) (s : RpcCache) (i : ℕ) (step : PrepareStep) : Option RpcCache :=
  match step, s.isCurrent i with
  | .aborts, true => none
  | step, _ => do
    let p ← s.prepares[i]?
    let (p', files) ← p.step max s.files step
    some { s with prepares := s.prepares.set i p', files }

/-- One step. -/
def next (own : NodeId) (max : ℕ) (s : RpcCache) : RpcLabel → Option RpcCache
  | .proposes senderPaired plan =>
    match decideProposal (s.adopted.map Adoption.epoch) senderPaired plan.epoch with
    | .adopt => some (s.adopt own plan)
    | _ => some s
  | .prepare i step => s.stepPrepare max i step
  | .stores f => some { s with files := write s.files f }

/-- A worker that starts with some files in the directory and has adopted nothing. -/
def machine (own : NodeId) (max : ℕ) (files : List CacheFile) : Machine RpcCache RpcLabel where
  start := { files, prepares := [], adopted := none }
  next := next own max

/-- The files that the preparation of the adopted plan has written or found. -/
def seeded (s : RpcCache) : List String :=
  match s.adopted with
  | some a => (s.prepares[a.prepare]?).elim [] fun p => p.stats.spared
  | none => []

/-- The file that a step removes from the directory. -/
def removes (max : ℕ) (s : RpcCache) : RpcLabel → Option String
  | .prepare i step => (s.prepares[i]?).bind fun p => p.removes max s.files step
  | _ => none

/-- Another preparation than this one is on its blocking thread. -/
def crowded (s : RpcCache) (i : ℕ) : Bool :=
  (List.range s.prepares.length).any fun j =>
    j != i && (s.prepares[j]?).any fun p => p.working

/-- The adopted plan's preparation looks at a tensor, or renames its file, while another is on
its blocking thread; or one whose plan was replaced gets there. -/
def interferes (s : RpcCache) : RpcLabel → Bool
  | .prepare i (.seeds _ _) => s.isCurrent i && s.crowded i
  | .prepare i (.renames _) => s.isCurrent i && s.crowded i
  | .prepare i (.fetches _) => !s.isCurrent i
  | _ => false

/-! ## One step -/

variable {own : NodeId} {max : ℕ} {s t : RpcCache} {i j : ℕ} {step : PrepareStep} {l : RpcLabel}

/-- A step of a preparation changes that preparation and the directory. -/
theorem of_stepPrepare (h : s.stepPrepare max i step = some t) :
    ∃ p p' files, s.prepares[i]? = some p ∧ p.step max s.files step = some (p', files) ∧
      t = { s with prepares := s.prepares.set i p', files } := by
  have hdo : (s.prepares[i]?).bind (fun p => (p.step max s.files step).bind fun (p', files) =>
      some { s with prepares := s.prepares.set i p', files }) = some t := by
    unfold stepPrepare at h
    split at h
    · cases h
    · exact h
  obtain ⟨p, hp, hrest⟩ := bind_eq_some_iff.mp hdo
  obtain ⟨⟨p', files⟩, hstep, heq⟩ := bind_eq_some_iff.mp hrest
  exact ⟨p, p', files, hp, hstep, (Option.some.inj heq).symm⟩

theorem crowded_eq_false : s.crowded i = false ↔
    ∀ j p, j ≠ i → s.prepares[j]? = some p → p.working = false := by
  simp only [crowded, List.any_eq_false, List.mem_range, Bool.and_eq_true, bne_iff_ne, ne_eq,
    not_and, any_eq_true, not_exists, Bool.not_eq_true]
  constructor
  · intro h j p hne hp
    exact h j (List.getElem?_eq_some_iff.mp hp).1 hne p hp
  · intro h j _ hne p hp
    exact h j p hne hp

theorem isCurrent_iff {a : Adoption} (ha : s.adopted = some a) : s.isCurrent i = true ↔ a.prepare = i := by
  simp only [isCurrent, ha, any_some, beq_iff_eq]

theorem seeded_eq {a : Adoption} (ha : s.adopted = some a) :
    s.seeded = (s.prepares[a.prepare]?).elim [] fun p => p.stats.spared := by
  simp only [seeded, ha]

end RpcCache

namespace Prepare

variable {max : ℕ} {p p' : Prepare} {files files' : List CacheFile} {step : PrepareStep}

theorem spared_workerPrepare (own : NodeId) (plan : Plan) : (workerPrepare own plan).stats.spared = [] := by
  unfold workerPrepare
  split
  · rfl
  · split <;> rfl

theorem working_of_step (h : p.step max files step = some (p', files'))
    (hworks : p'.working = true) : p.working = true ∨ ∃ result, step = .fetches result := by
  cases hstage : p.stage with
  | fetching =>
    cases step with
    | fetches result => exact .inr ⟨result, rfl⟩
    | aborts =>
      simp only [Prepare.step, hstage, Option.some.injEq, Prod.mk.injEq] at h
      rw [← h.1] at hworks
      cases hworks
    | seeds | renames | lists | reaps => simp only [Prepare.step, hstage, reduceCtorEq] at h
  | finished => cases step <;> simp only [Prepare.step, hstage, reduceCtorEq] at h
  | seeding | written | listing | reaping => exact .inl (by simp only [working, hstage])

theorem stats_list (max : ℕ) (p : Prepare) (files : List CacheFile) :
    (p.list max files).stats = p.stats := by
  unfold list
  dsimp only
  split <;> rfl

theorem stats_reap (max : ℕ) (p : Prepare) (files : List CacheFile) (r : Reap CacheFile) (ok : Bool) :
    (p.reap max files r ok).1.stats = p.stats := by
  unfold reap
  split
  · rfl
  · rfl
  · split <;> rfl

theorem stats_of_step (h : p.step max files step = some (p', files')) :
    p'.stats = p.stats ∨ (∃ found now, step = .seeds found now) ∨ ∃ ok, step = .renames ok := by
  cases step with
  | seeds found now => exact .inr (.inl ⟨found, now, rfl⟩)
  | renames ok => exact .inr (.inr ⟨ok, rfl⟩)
  | aborts =>
    left
    simp only [Prepare.step] at h
    split at h
    · cases h
      rfl
    · cases h
  | fetches =>
    left
    simp only [Prepare.step] at h
    split at h
    · split at h
      · cases h
        rfl
      · split at h <;> cases h <;> rfl
    · cases h
  | lists =>
    left
    simp only [Prepare.step] at h
    split at h
    · obtain ⟨rfl, -⟩ := Prod.mk.inj (Option.some.inj h)
      exact stats_list max p files
    · cases h
  | reaps ok =>
    left
    simp only [Prepare.step] at h
    split at h
    · rename_i r _
      rw [← stats_reap max p files r ok, Option.some.inj h]
    · cases h

theorem of_removes {name : String} (h : p.removes max files step = some name) :
    p.working = true ∧ name ∉ p.stats.spared := by
  unfold removes at h
  split at h
  · split at h
    · rename_i r hstage
      split at h
      · rename_i f rest hlook
        split at h
        · obtain rfl := Option.some.inj h
          have hspared : p.spares f = false := (Reap.look_tries hlook).1
          refine ⟨by simp only [working, hstage], fun hin => ?_⟩
          rw [spares, List.contains_iff_mem.mpr hin] at hspared
          cases hspared
        · cases h
      · cases h
    · cases h
  · cases h

end Prepare

namespace RpcCache

variable {own : NodeId} {max : ℕ} {s t : RpcCache} {i : ℕ} {step : PrepareStep} {l : RpcLabel}

/-! ## Every run -/

/-- Once the adopted plan's preparation has written or found a file, no other preparation is
on its blocking thread. -/
def Alone (s : RpcCache) : Prop :=
  ∀ a, s.adopted = some a → s.seeded ≠ [] → s.crowded a.prepare = false

theorem Alone.adopt (plan : Plan) : Alone (s.adopt own plan) := by
  intro a ha hseeded
  obtain rfl := Option.some.inj ha
  rw [seeded_eq ha] at hseeded
  have hlast : (s.adopt own plan).prepares[s.prepares.length]? = some (workerPrepare own plan) := by
    show (s.prepares ++ [workerPrepare own plan])[s.prepares.length]? = _
    rw [List.getElem?_append_right le_rfl, Nat.sub_self]
    rfl
  rw [hlast] at hseeded
  exact absurd (Prepare.spared_workerPrepare own plan) hseeded

/-- A step of a preparation that does not interfere leaves the adopted one alone. -/
theorem Alone.stepPrepare (h : Alone s) (hfree : s.interferes (.prepare i step) = false)
    (hnext : s.stepPrepare max i step = some t) : Alone t := by
  obtain ⟨p, p', files, hp, hstep, rfl⟩ := of_stepPrepare hnext
  intro a ha hseeded
  have ha : s.adopted = some a := ha
  have hi : i < s.prepares.length := (List.getElem?_eq_some_iff.mp hp).1
  -- no other preparation was working before the step
  have hbefore : s.crowded a.prepare = false := by
    by_cases hcur : a.prepare = i
    · subst hcur
      have hiscur : s.isCurrent a.prepare = true := (isCurrent_iff ha).mpr rfl
      rcases Prepare.stats_of_step hstep with hstats | ⟨found, now, rfl⟩ | ⟨ok, rfl⟩
      · refine h a ha ?_
        rw [seeded_eq (s := { s with prepares := s.prepares.set a.prepare p', files }) ha] at hseeded
        rw [seeded_eq (s := s) ha, hp]
        simp only [List.getElem?_set_self hi, elim_some, hstats] at hseeded
        exact hseeded
      · simpa only [interferes, hiscur, Bool.true_and] using hfree
      · simpa only [interferes, hiscur, Bool.true_and] using hfree
    · refine h a ha ?_
      rw [seeded_eq (s := { s with prepares := s.prepares.set i p', files }) ha] at hseeded
      simp only [List.getElem?_set_ne (Ne.symm hcur)] at hseeded
      rw [seeded_eq (s := s) ha]
      exact hseeded
  rw [crowded_eq_false] at hbefore ⊢
  intro j q hne hq
  by_cases hji : i = j
  · subst hji
    obtain rfl : p' = q := by
      simpa only [List.getElem?_set_self hi, Option.some.injEq] using hq
    rw [Bool.eq_false_iff]
    intro hworks
    rcases Prepare.working_of_step hstep hworks with hold | ⟨result, rfl⟩
    · exact absurd hold (Bool.eq_false_iff.mp (hbefore i p hne hp))
    · have hcur : s.isCurrent i = true := by simpa only [interferes, Bool.not_eq_false'] using hfree
      exact hne ((isCurrent_iff ha).mp hcur).symm
  · simp only [List.getElem?_set_ne hji] at hq
    exact hbefore j q hne hq

theorem Alone.next (h : Alone s) (hfree : s.interferes l = false)
    (hnext : RpcCache.next own max s l = some t) : Alone t := by
  cases l with
  | proposes senderPaired plan =>
    simp only [RpcCache.next] at hnext
    split at hnext
    · cases hnext
      exact Alone.adopt plan
    · cases hnext
      exact h
  | prepare => exact h.stepPrepare hfree hnext
  | stores =>
    cases hnext
    exact h

/-- **The reaper spares the adopted plan.** In every run without interference, whatever plans
are adopted and however long the preparations of replaced plans go on, no step of a reaper
removes a file that the preparation of the adopted plan has written or found. -/
theorem reaper_spares_seeded (own : NodeId) (max : ℕ) (files : List CacheFile)
    (labels : List RpcLabel) (s : RpcCache) (l : RpcLabel) (name : String)
    (hmeets : (machine own max files).Meets (fun s l => s.interferes l = false) labels)
    (hrun : (machine own max files).run labels = some s)
    (hremoves : s.removes max l = some name) : name ∉ s.seeded := by
  have halone : Alone s :=
    Machine.run_induct_of_meets (I := fun _ s => Alone s) (fun _ ha => by cases ha)
      (fun _ _ _ _ _ h hfree hnext => h.next hfree hnext) hmeets hrun
  intro hin
  cases l with
  | proposes | stores => cases hremoves
  | prepare i =>
    obtain ⟨p, hp, hrem⟩ := bind_eq_some_iff.mp hremoves
    obtain ⟨hworks, hnot⟩ := Prepare.of_removes hrem
    cases ha : s.adopted with
    | none =>
      simp only [seeded, ha, List.not_mem_nil] at hin
    | some a =>
      by_cases hcur : a.prepare = i
      · -- the adopted plan's own reaper
        rw [seeded_eq ha, hcur, hp] at hin
        exact hnot hin
      · -- another reaper: it is not on its thread any more
        have hcrowd := crowded_eq_false.mp (halone a ha (List.ne_nil_of_mem hin)) i p (Ne.symm hcur) hp
        rw [hcrowd] at hworks
        cases hworks

end RpcCache

/-! ## Two plans, one after the other -/

/-- A file with one tensor, of layer 0 and of 11 MiB. -/
def oneTensor : GgufHeader where
  version := 3
  metadata := ∅
  tensors := [⟨"blk.0.w", [], 0, 0⟩]
  headerLen := 32
  alignment := 32
  dataOffset := 32

/-- The size of a tensor that is cached. -/
def oneTensorSize : UInt64 := 11534368

/-- A plan of one layer here. -/
def layerPlan (epoch : Epoch) (model : String) : Plan :=
  ⟨epoch, model, .pipelineParallel, [⟨"worker", ⟨0, 1⟩, 0⟩], 4096⟩

/-- A cap that one payload fits and two do not. -/
def twentyMib : ℕ := 20 * 1024 * 1024

/-- A preparation writes the payload of the one tensor, and reaches its reaper. -/
def seedLabels (i : ℕ) (name : String) (now : ℕ) : List RpcLabel :=
  [.prepare i (.fetches (some (oneTensor, oneTensorSize))), .prepare i (.seeds (some name) now),
    .prepare i (.renames true), .prepare i (.seeds none now)]

/-- One plan is adopted by a worker with a file from before. -/
def oneLabels : List RpcLabel :=
  .proposes true (layerPlan 1 "m") :: seedLabels 0 "a" 1 ++ [.prepare 0 .lists]

namespace RpcCache

theorem reaper_spares_seeded_alone :
    ∃ s, (machine "worker" twentyMib [⟨"old", 15728640, 0⟩]).run oneLabels = some s ∧
      s.removes twentyMib (.prepare 0 (.reaps true)) = some "old" ∧ s.seeded = ["a"] ∧
      "old" ∉ s.seeded := by
  have hany : (((machine "worker" twentyMib [⟨"old", 15728640, 0⟩]).run oneLabels).any fun s =>
      decide (s.removes twentyMib (.prepare 0 (.reaps true)) = some "old" ∧ s.seeded = ["a"]))
        = true := by decide +kernel
  obtain ⟨s, hrun, hs⟩ := (any_eq_true _ _).mp hany
  obtain ⟨hremoves, hseeded⟩ := of_decide_eq_true hs
  have hmeets : (machine "worker" twentyMib [⟨"old", 15728640, 0⟩]).Meets
      (fun s l => s.interferes l = false) oneLabels :=
    Machine.meets_of_checks (f := fun s l => !s.interferes l)
      (fun _ _ _ _ h => by simpa using h) (by decide +kernel)
  exact ⟨s, hrun, hremoves, hseeded,
    reaper_spares_seeded "worker" twentyMib _ oneLabels s _ "old" hmeets hrun hremoves⟩

/-- The first plan is replaced when its preparation has written its payload. The second plan's
writes its own; then the first one's reaper lists the directory and passes over the file of
its own plan. -/
def replacedLabels : List RpcLabel :=
  .proposes true (layerPlan 1 "m") :: seedLabels 0 "a" 1 ++
    .proposes true (layerPlan 2 "n") :: seedLabels 1 "b" 2 ++
      [.prepare 0 .lists, .prepare 0 (.reaps true)]

/-- **The reaper takes the adopted plan's file.** The adopted plan is the second, its
preparation has written `b`, and the reaper of the first plan removes it. -/
theorem reaper_takes_seeded : ∃ s, (machine "worker" twentyMib []).run replacedLabels = some s ∧
      s.adopted = some ⟨2, 1⟩ ∧ s.removes twentyMib (.prepare 0 (.reaps true)) = some "b" ∧
      "b" ∈ s.seeded := by
  have hany : (((machine "worker" twentyMib []).run replacedLabels).any fun s =>
      decide (s.adopted = some ⟨2, 1⟩ ∧
        s.removes twentyMib (.prepare 0 (.reaps true)) = some "b" ∧ "b" ∈ s.seeded)) = true := by
    decide +kernel
  obtain ⟨s, hrun, hs⟩ := (any_eq_true _ _).mp hany
  exact ⟨s, hrun, of_decide_eq_true hs⟩

end RpcCache

end OneBrain.Logistics
