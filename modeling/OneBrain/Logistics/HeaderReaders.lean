import OneBrain.Models.GgufCode
import OneBrain.Scheduler.Dims

/-!
# Reading a header of unknown length

The header of a model file can be of any length, so it is read with a window that grows: parse
the first bytes, and when the parser asks for more, read again with a larger window, at least
twice as large and never larger than the file. Four functions of the source do this, three on a
local file and one over HTTP; they differ in the first window, in how the doubling treats an
overflow and in what they report when the whole file is not enough.

Reads return the beginning of the file that is asked for; the file system and the network are
not looked into. A file is shorter than `2 ^ 63` bytes, as a slice has to be.

The loops run on fuel. Whatever the bytes of the file are, and whatever hints they make the
parser give, a fixed number of reads is enough: the window doubles. What the readers return is
what the parser makes of the whole file (`header_readers`): its header if it has one, and the
parser's error otherwise, where only the remote reader replaces the request for more.
-/

namespace OneBrain.Models

open Lib

/-! ### The loop -/

/-- Twice as much, in 64 bits. -/
def wrappingDouble (want : ℕ) : ℕ := want * 2 % 2 ^ 64

/-- Doubling up to the largest 64-bit number. -/
def saturatingDouble (want : ℕ) : ℕ := min (want * 2) (2 ^ 64 - 1)

/-- What a reader did: the windows it read, and what it returned. -/
abbrev Growth := List ℕ × Except GgufError GgufHeader

/-- Parse windows of a file, the first one `want` bytes long; `none` when the fuel runs out.
`more` says whether a larger window is tried, `past` what is reported otherwise. -/
def grow (double : ℕ → ℕ) (more : ℕ → Bool) (past : GgufError → GgufError) (file : List UInt8) :
    ℕ → ℕ → Option Growth
  | 0, _ => none
  | fuel + 1, want =>
    match parse (file.take want) with
    | .ok header => some ([want], .ok header)
    | .error (.needMoreData needHint) =>
      if more want then
        (grow double more past file fuel (min (max needHint (double want)) file.length)).map fun g =>
          (want :: g.1, g.2)
      else some ([want], .error (past (.needMoreData needHint)))
    | .error e => some ([want], .error e)

/-- The first window of a local file. -/
def firstWindow (size : ℕ) : ℕ := min (2 ^ 20) size

/-- Parse the header of a local file, in the crate of the models. -/
def parseLocalHeader (fuel : ℕ) (file : List UInt8) : Option Growth :=
  grow wrappingDouble (fun want => decide (want < file.length)) id file fuel (firstWindow file.length)

/-- What the remote reader reports when the whole file is not enough. -/
def pastTheEnd (_ : GgufError) : GgufError := .malformed "header extends past the end of the file"

/-- Fetch and parse the header of a remote file. The file's size comes with every answer. -/
def fetchRemoteHeaderWith (initialWant : UInt64) (fuel : ℕ) (file : List UInt8) :
    Option (List ℕ × Except GgufError (GgufHeader × ℕ)) :=
  (grow wrappingDouble (fun want => decide ((file.take want).length < file.length)) pastTheEnd file fuel
    (max initialWant.toNat 64)).map fun g => (g.1, g.2.map fun header => (header, file.length))

end OneBrain.Models

namespace OneBrain.Logistics

open OneBrain.Models OneBrain.Scheduler

/-- The message for a header that does not parse. -/
def parseErrorText (path : String) (e : GgufError) : String := "cannot parse " ++ path ++ ": " ++ ggufErrorText e

/-- Parse the header of a local file, in the daemon's logistics. -/
def parseLocalHeader (path : String) (fuel : ℕ) (file : List UInt8) : Option (List ℕ × Except String GgufHeader) :=
  (grow saturatingDouble (fun want => decide (want < file.length)) id file fuel (firstWindow file.length)).map
    fun g => (g.1, g.2.mapError (parseErrorText path))

end OneBrain.Logistics

namespace OneBrain.Cluster

open OneBrain.Models OneBrain.Scheduler

/-- The same for the planner. -/
def headerErrorText (path : String) (e : GgufError) : String :=
  "cannot parse the GGUF header of " ++ path ++ ": " ++ ggufErrorText e
    ++ "; re-download the model with `onebrain pull`"

/-- Parse the header of a local file, for the planner. -/
def readGgufHeader (path : String) (fuel : ℕ) (file : List UInt8) : Option (List ℕ × Except String GgufHeader) :=
  (grow saturatingDouble (fun want => decide (want < file.length)) id file fuel (firstWindow file.length)).map
    fun g => (g.1, g.2.mapError (headerErrorText path))

end OneBrain.Cluster

namespace OneBrain.Models

open Lib

/-! ### The windows double -/

variable {double : ℕ → ℕ} {more : ℕ → Bool} {past : GgufError → GgufError} {file : List UInt8} {want fuel : ℕ}

/-- What the readers report for what the parser makes of the whole file. -/
def reported (past : GgufError → GgufError) : Except GgufError GgufHeader → Except GgufError GgufHeader
  | .ok header => .ok header
  | .error (.needMoreData needHint) => .error (past (.needMoreData needHint))
  | .error e => .error e

/-- The header of a beginning is the header of the file. -/
theorem parse_append_ok {p rest : List UInt8} {header : GgufHeader} (h : parse p = .ok header) :
    parse (p ++ rest) = .ok header := by
  obtain ⟨c, n, hc, rfl⟩ := parse_eq_ok.mp h
  obtain ⟨hok, -⟩ := stable_headerContent (List.prefix_append p rest) (Nat.zero_le _)
  exact parse_eq_ok.mpr ⟨c, n, (hok c n hc).2, rfl⟩

theorem parse_take {r : Except GgufError GgufHeader} (h : parse (file.take want) = r)
    (hmore : ∀ hint, r ≠ .error (.needMoreData hint)) : reported past (parse file) = r := by
  obtain ⟨-, herr⟩ := parse_stable (file.take want) (file.drop want)
  rw [List.take_append_drop] at herr
  cases r with
  | ok =>
    have hok := @parse_append_ok _ (file.drop want) _ h
    rw [List.take_append_drop] at hok
    rw [hok, reported]
  | error e =>
    have hne : ∀ hint, e ≠ .needMoreData hint := fun hint heq => hmore hint (congrArg _ heq)
    rw [herr e h hne]
    cases e with
    | needMoreData hint => exact absurd rfl (hne hint)
    | _ => rfl

/-- **As many reads as doublings reach the end of the file are enough.** Every window but the
first is one of the file. -/
theorem grow_spec (hdouble : ∀ w, w < 2 ^ 63 → double w = w * 2) (hmore : ∀ w, more w = true ↔ w < file.length)
    (hfile : file.length < 2 ^ 63) {k : ℕ} (hreads : file.length ≤ want * 2 ^ k) (hfuel : k < fuel) :
    ∃ later, grow double more past file fuel want = some (want :: later, reported past (parse file)) ∧
      later.length ≤ k ∧ ∀ w ∈ later, w ≤ file.length := by
  induction k generalizing want fuel with
  | zero =>
    obtain ⟨fuel, rfl⟩ : ∃ m, fuel = m + 1 := ⟨fuel - 1, by omega⟩
    rw [Nat.pow_zero, Nat.mul_one] at hreads
    have hall : file.take want = file := List.take_of_length_le hreads
    have hlast : more want = false := Bool.eq_false_iff.mpr fun h => absurd ((hmore want).mp h) (Nat.not_lt.mpr hreads)
    refine ⟨[], ?_, le_rfl, fun w hw => absurd hw List.not_mem_nil⟩
    rw [grow, hall]
    cases hparse : parse file with
    | ok => rfl
    | error e =>
      cases e with
      | needMoreData =>
        simp only [hlast, Bool.false_eq_true, ↓reduceIte]
        rfl
      | _ => rfl
  | succ k ih =>
    obtain ⟨fuel, rfl⟩ : ∃ m, fuel = m + 1 := ⟨fuel - 1, by omega⟩
    cases hparse : parse (file.take want) with
    | ok =>
      refine ⟨[], ?_, Nat.zero_le _, fun w hw => absurd hw List.not_mem_nil⟩
      rw [grow, hparse, parse_take hparse (fun hint h => by cases h)]
    | error e =>
      by_cases hneeds : ∃ hint, e = .needMoreData hint
      · obtain ⟨hint, rfl⟩ := hneeds
        by_cases hlt : want < file.length
        · -- The next window is at least twice as large, or the whole file.
          have hnext : file.length ≤ min (max hint (double want)) file.length * 2 ^ k := by
            rw [hdouble want (hlt.trans hfile)]
            have hpow : 0 < 2 ^ k := Nat.two_pow_pos k
            rcases Nat.le_total (max hint (want * 2)) file.length with hle | hle
            · rw [Nat.min_eq_left hle]
              calc file.length ≤ want * 2 ^ (k + 1) := hreads
                _ = want * 2 * 2 ^ k := by rw [Nat.pow_succ']; ring
                _ ≤ max hint (want * 2) * 2 ^ k := Nat.mul_le_mul_right _ (Nat.le_max_right _ _)
            · rw [Nat.min_eq_right hle]
              exact Nat.le_mul_of_pos_right _ hpow
          obtain ⟨later, hgrow, hlen, hwindows⟩ := @ih _ fuel hnext (by omega)
          refine ⟨min (max hint (double want)) file.length :: later, ?_, Nat.succ_le_succ hlen, ?_⟩
          · rw [grow, hparse]
            simp only [(hmore want).mpr hlt, ↓reduceIte, hgrow, Option.map_some]
          · rw [List.forall_mem_cons]
            exact ⟨Nat.min_le_right _ _, hwindows⟩
        · have hall : file.take want = file := List.take_of_length_le (Nat.not_lt.mp hlt)
          have hlast : more want = false := Bool.eq_false_iff.mpr fun h => hlt ((hmore want).mp h)
          refine ⟨[], ?_, Nat.zero_le _, fun w hw => absurd hw List.not_mem_nil⟩
          rw [grow, hparse]
          rw [hall] at hparse
          simp only [hlast, Bool.false_eq_true, ↓reduceIte, hparse, reported]
      · refine ⟨[], ?_, Nat.zero_le _, fun w hw => absurd hw List.not_mem_nil⟩
        rw [parse_take hparse fun hint h => hneeds ⟨hint, Except.error.inj h⟩, grow, hparse]
        cases e with
        | needMoreData hint => exact absurd ⟨hint, rfl⟩ hneeds
        | _ => rfl

theorem wrappingDouble_eq (w : ℕ) (h : w < 2 ^ 63) : wrappingDouble w = w * 2 := Nat.mod_eq_of_lt (by omega)

theorem saturatingDouble_eq (w : ℕ) (h : w < 2 ^ 63) : saturatingDouble w = w * 2 := Nat.min_eq_left (by omega)

theorem grow_local (hdouble : ∀ w, w < 2 ^ 63 → double w = w * 2) (hfile : file.length < 2 ^ 63) (hfuel : 44 ≤ fuel) :
    ∃ windows, grow double (fun want => decide (want < file.length)) id file fuel (firstWindow file.length) =
        some (windows, parse file) ∧ windows.length ≤ 44 ∧ ∀ w ∈ windows, w ≤ file.length := by
  have hreads : file.length ≤ firstWindow file.length * 2 ^ 43 := by
    unfold firstWindow
    omega
  obtain ⟨later, hgrow, hlen, hwindows⟩ :=
    @grow_spec _ _ id _ _ _ hdouble (fun w => decide_eq_true_iff) hfile _ hreads hfuel
  have hreported : reported id (parse file) = parse file := by
    cases parse file with
    | ok => rfl
    | error e => cases e <;> rfl
  rw [hreported] at hgrow
  refine ⟨_, hgrow, Nat.succ_le_succ hlen, ?_⟩
  rw [List.forall_mem_cons]
  exact ⟨Nat.min_le_right _ _, hwindows⟩

/-- **The header readers read the header**: for every file and every fuel from a fixed number
on, each of them returns after a bounded number of reads what the parser makes of the whole
file, and no local read and no read of the remote reader but its first goes beyond its end. -/
theorem header_readers (file : List UInt8) (hfile : file.length < sliceLimit) (path : String) (initialWant : UInt64)
    (fuel : ℕ) (hfuel : 58 ≤ fuel) : (∃ windows, parseLocalHeader fuel file = some (windows, parse file) ∧
      windows.length ≤ 44 ∧ ∀ w ∈ windows, w ≤ file.length) ∧
    (∃ windows, Logistics.parseLocalHeader path fuel file =
        some (windows, (parse file).mapError (Logistics.parseErrorText path)) ∧
      windows.length ≤ 44 ∧ ∀ w ∈ windows, w ≤ file.length) ∧
    (∃ windows, Cluster.readGgufHeader path fuel file =
        some (windows, (parse file).mapError (Cluster.headerErrorText path)) ∧
      windows.length ≤ 44 ∧ ∀ w ∈ windows, w ≤ file.length) ∧
    ∃ later, fetchRemoteHeaderWith initialWant fuel file = some (max initialWant.toNat 64 :: later,
          (reported pastTheEnd (parse file)).map fun header => (header, file.length)) ∧
      later.length ≤ 57 ∧ ∀ w ∈ later, w ≤ file.length := by
  unfold sliceLimit at hfile
  obtain ⟨windows, hgrow, hlocal⟩ := grow_local saturatingDouble_eq hfile (hfuel.trans' (by decide))
  refine ⟨grow_local wrappingDouble_eq hfile (hfuel.trans' (by decide)), ⟨windows, ?_, hlocal⟩,
    ⟨windows, ?_, hlocal⟩, ?_⟩
  · rw [Logistics.parseLocalHeader, hgrow]
    rfl
  · rw [Cluster.readGgufHeader, hgrow]
    rfl
  · have hreads : file.length ≤ max initialWant.toNat 64 * 2 ^ 57 := by omega
    have hmore : ∀ w, decide ((file.take w).length < file.length) = true ↔ w < file.length := by
      intro w
      rw [decide_eq_true_iff, List.length_take]
      omega
    obtain ⟨later, hgrow, hlen, hwindows⟩ :=
      @grow_spec _ _ pastTheEnd _ _ _ wrappingDouble_eq hmore hfile _ hreads (hfuel.trans_lt' (by decide))
    refine ⟨later, ?_, hlen, hwindows⟩
    rw [fetchRemoteHeaderWith, hgrow]
    rfl

/-- A file with a header of 81 bytes, of which the remote reader first asks for 64. -/
theorem header_readers_small :
    smallContent.encode.length = 81 ∧
      (∃ windows, parseLocalHeader 58 smallContent.encode = some (windows, parse smallContent.encode) ∧
        windows.length ≤ 44 ∧ ∀ w ∈ windows, w ≤ smallContent.encode.length) ∧
      ∃ later, fetchRemoteHeaderWith 1 58 smallContent.encode =
          some (64 :: later, (reported pastTheEnd (parse smallContent.encode)).map fun header =>
            (header, smallContent.encode.length)) ∧
        later.length ≤ 57 ∧ ∀ w ∈ later, w ≤ smallContent.encode.length := by
  obtain ⟨hlocal, -, -, hremote⟩ := header_readers smallContent.encode (by decide) "model.gguf" 1 58 le_rfl
  exact ⟨by decide, hlocal, hremote⟩

end OneBrain.Models
