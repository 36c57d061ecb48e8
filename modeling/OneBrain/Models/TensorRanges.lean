import Mathlib.Data.List.Sort
import OneBrain.Models.GgufCode

/-!
# Where the tensors of a file are

A header gives each tensor an offset behind the header. `tensor_ranges` turns the offsets
into byte ranges of the file: in the order of the offsets, each range goes on to where the
next one starts, the last one to the end of the file.

The offsets are whatever the file says. The sum of `data_offset` and an offset is computed
in 64 bits and wraps in a release build, so a large offset can pass for a small one. The
loop is written over an arbitrary addition (`rangesFrom`) and used with three: the wrapping
one of the code, the checked one of a debug build, which tells whether a sum was computed
that does not fit, and the true one, for which the ranges tile the file (`tiles_of_ranges`).
What the code returns is right exactly when the sums it computes fit
(`tensorRanges_safe_iff`).
-/

namespace OneBrain.Models

open List

/-- A tensor's byte range within the file; `stop` is exclusive. -/
structure TensorRange where
  name : String
  start : ℕ
  stop : ℕ
  deriving DecidableEq

section loop

variable {m : Type → Type} [Monad m] (add : ℕ → m ℕ) (fileSize : ℕ)

/-- Where a tensor ends: at the next one, or at the end of the file. -/
def rangeEnd : List TensorInfo → m ℕ
  | next :: _ => add next.offset.toNat
  | [] => pure fileSize

/-- The ranges of tensors in the order of their offsets. -/
def rangesFrom : List TensorInfo → m (Except GgufError (List TensorRange))
  | [] => pure (.ok [])
  | t :: rest => do
    let start ← add t.offset.toNat
    let stop ← rangeEnd add fileSize rest
    if stop < start ∨ fileSize < stop then
      pure (.error (.malformed "tensor offsets exceed file size or overlap"))
    else
      let out ← rangesFrom rest
      pure (out.map fun ranges => { name := t.name, start, stop } :: ranges)

end loop

/-- 64-bit addition of a release build. -/
def wrappingAdd (a b : ℕ) : Id ℕ := (a + b) % 2 ^ 64

/-- 64-bit addition of a debug build: `none` is the panic. -/
def checkedAdd (a b : ℕ) : Option ℕ := if a + b < 2 ^ 64 then some (a + b) else none

/-- The order in which the loop goes through the tensors. -/
def byOffset (a b : TensorInfo) : Prop := a.offset.toNat ≤ b.offset.toNat

instance : DecidableRel byOffset := fun a b => Nat.decLe a.offset.toNat b.offset.toNat

instance : Std.Total byOffset := ⟨fun a b => Nat.le_total a.offset.toNat b.offset.toNat⟩

instance : IsTrans TensorInfo byOffset := ⟨fun _ _ _ => Nat.le_trans⟩

/-- The byte ranges of all tensors. The sort is stable, as in the source. -/
def GgufHeader.tensorRanges (header : GgufHeader) (fileSize : UInt64) : Except GgufError (List TensorRange) :=
  rangesFrom (m := Id) (wrappingAdd header.dataOffset) fileSize.toNat (header.tensors.insertionSort byOffset)

/-- The same in a debug build: `none` when a sum was computed that does not fit in 64 bits. -/
def GgufHeader.checkedRanges (header : GgufHeader) (fileSize : UInt64) :
    Option (Except GgufError (List TensorRange)) :=
  rangesFrom (checkedAdd header.dataOffset) fileSize.toNat (header.tensors.insertionSort byOffset)

/-! ### What the ranges should be -/

/-- The ranges of some tensors in a file: one for each tensor, at its true place, one after
the other, from the first tensor to the end of the file. -/
structure Tiles (dataOffset fileSize : ℕ) (tensors : List TensorInfo) (ranges : List TensorRange) : Prop where
  each : (ranges.map fun r => (r.name, r.start)).Perm
    (tensors.map fun t => (t.name, dataOffset + t.offset.toNat))
  bounds : ∀ r ∈ ranges, dataOffset ≤ r.start ∧ r.start ≤ r.stop ∧ r.stop ≤ fileSize
  consecutive : ranges.IsChain fun a b => a.stop = b.start
  last : ∀ r ∈ ranges.getLast?, r.stop = fileSize
  covers : ∀ x, (∃ r ∈ ranges, r.start ≤ x ∧ x < r.stop) ↔
    (∃ t ∈ tensors, dataOffset + t.offset.toNat ≤ x) ∧ x < fileSize

/-- **What is claimed of `tensor_ranges`**: no sum it computes wraps, and the ranges it
returns, if any, are the right ones. -/
def SafeRanges (header : GgufHeader) (fileSize : UInt64) : Prop :=
  (header.checkedRanges fileSize).isSome = true ∧
    ∀ ranges, header.tensorRanges fileSize = .ok ranges →
      Tiles header.dataOffset fileSize.toNat header.tensors ranges

/-- The place of a tensor fits in 64 bits. -/
def Fits (dataOffset : ℕ) (t : TensorInfo) : Prop := dataOffset + t.offset.toNat < 2 ^ 64

instance (dataOffset : ℕ) (t : TensorInfo) : Decidable (Fits dataOffset t) := Nat.decLt ..

/-- All places fit; or at least two do, and one of those that fit is beyond the end of the
file: then the loop fails before it comes to one that does not fit. -/
def SumsFit (dataOffset fileSize : ℕ) (tensors : List TensorInfo) : Prop :=
  (∀ t ∈ tensors, Fits dataOffset t) ∨
    2 ≤ tensors.countP (Fits dataOffset ·) ∧ ∃ t ∈ tensors, Fits dataOffset t ∧ fileSize < dataOffset + t.offset.toNat

/-! ### Sums that fit -/

section loop

variable {dataOffset fileSize : ℕ} {t next : TensorInfo} {rest tensors : List TensorInfo}

theorem checkedAdd_of_fits (h : Fits dataOffset t) :
    checkedAdd dataOffset t.offset.toNat = some (dataOffset + t.offset.toNat) :=
  if_pos h

theorem checkedAdd_of_not_fits (h : ¬ Fits dataOffset t) : checkedAdd dataOffset t.offset.toNat = none :=
  if_neg h

theorem Fits.of_byOffset (h : Fits dataOffset next) (hle : byOffset t next) : Fits dataOffset t :=
  Nat.lt_of_le_of_lt (Nat.add_le_add_left hle dataOffset) h

theorem checked_cons {stop : ℕ} (ht : Fits dataOffset t)
    (hstop : rangeEnd (checkedAdd dataOffset) fileSize rest = some stop) :
    rangesFrom (checkedAdd dataOffset) fileSize (t :: rest) =
      if stop < dataOffset + t.offset.toNat ∨ fileSize < stop then
        some (.error (.malformed "tensor offsets exceed file size or overlap"))
      else (rangesFrom (checkedAdd dataOffset) fileSize rest).map fun out =>
        out.map fun ranges => { name := t.name, start := dataOffset + t.offset.toNat, stop } :: ranges := by
  rw [rangesFrom, checkedAdd_of_fits ht, hstop]
  apply ite_congr rfl (fun _ => rfl)
  intro _
  cases rangesFrom (checkedAdd dataOffset) fileSize rest <;> rfl

/-- A sum that does not fit ends the checked loop. -/
theorem checked_none (h : ¬ Fits dataOffset t ∨ rangeEnd (checkedAdd dataOffset) fileSize rest = none) :
    rangesFrom (checkedAdd dataOffset) fileSize (t :: rest) = none := by
  by_cases ht : Fits dataOffset t
  · rw [rangesFrom, checkedAdd_of_fits ht, h.resolve_left (not_not.mpr ht)]
    rfl
  · rw [rangesFrom, checkedAdd_of_not_fits ht]
    rfl

/-- **When the checked loop gets through**: the first sum fits, and so do the others, or one
of them that fits ends the loop. -/
theorem checked_isSome_iff (hsorted : (t :: rest).Pairwise byOffset) :
    (rangesFrom (checkedAdd dataOffset) fileSize (t :: rest)).isSome = true ↔
      Fits dataOffset t ∧ ((∀ x ∈ rest, Fits dataOffset x) ∨
        ∃ x ∈ rest, Fits dataOffset x ∧ fileSize < dataOffset + x.offset.toNat) := by
  induction rest generalizing t with
  | nil =>
    by_cases ht : Fits dataOffset t
    · rw [checked_cons ht rfl]
      refine ⟨fun _ => ⟨ht, .inl (by simp)⟩, fun _ => ?_⟩
      split <;> rfl
    · rw [checked_none (.inl ht)]
      exact ⟨fun h => (by cases h), fun h => (ht h.1).elim⟩
  | cons next rest ih =>
    obtain ⟨hfirst, hrest⟩ := pairwise_cons.mp hsorted
    have hnext : t.offset.toNat ≤ next.offset.toNat := hfirst next mem_cons_self
    by_cases hn : Fits dataOffset next
    · have ht := hn.of_byOffset hnext
      have hstop : rangeEnd (checkedAdd dataOffset) fileSize (next :: rest) = some _ := checkedAdd_of_fits hn
      rw [checked_cons ht hstop]
      by_cases hlong : fileSize < dataOffset + next.offset.toNat
      · -- The loop ends with an error before it looks further.
        rw [if_pos (.inr hlong)]
        exact ⟨fun _ => ⟨ht, .inr ⟨next, mem_cons_self, hn, hlong⟩⟩, fun _ => rfl⟩
      · rw [if_neg (by omega), Option.isSome_map, ih hrest, forall_mem_cons]
        constructor
        · rintro ⟨-, hall | ⟨x, hx, hlater⟩⟩
          · exact ⟨ht, .inl ⟨hn, hall⟩⟩
          · exact ⟨ht, .inr ⟨x, mem_cons_of_mem _ hx, hlater⟩⟩
        · rintro ⟨-, hall | ⟨x, hx, hlater⟩⟩
          · exact ⟨hn, .inl hall.2⟩
          · rcases mem_cons.mp hx with rfl | hx
            · exact (hlong hlater.2).elim
            · exact ⟨hn, .inr ⟨x, hx, hlater⟩⟩
    · -- All later tensors lie even further behind.
      have hnone : ∀ x ∈ next :: rest, ¬ Fits dataOffset x := by
        intro x hx hfits
        rcases mem_cons.mp hx with rfl | hx
        · exact hn hfits
        · exact hn (hfits.of_byOffset ((pairwise_cons.mp hrest).1 x hx))
      have hstop : rangeEnd (checkedAdd dataOffset) fileSize (next :: rest) = none := checkedAdd_of_not_fits hn
      rw [checked_none (.inr hstop)]
      constructor
      · intro h
        cases h
      · rintro ⟨-, hall | ⟨x, hx, hfits, -⟩⟩
        · exact (hn (hall next mem_cons_self)).elim
        · exact (hnone x hx hfits).elim

theorem sumsFit_cons_iff (hsorted : (t :: rest).Pairwise byOffset) :
    SumsFit dataOffset fileSize (t :: rest) ↔ Fits dataOffset t ∧ ((∀ x ∈ rest, Fits dataOffset x) ∨
        ∃ x ∈ rest, Fits dataOffset x ∧ fileSize < dataOffset + x.offset.toNat) := by
  have hfirst := (pairwise_cons.mp hsorted).1
  constructor
  · rintro (hall | ⟨htwo, x, hx, hfits, hlong⟩)
    · rw [forall_mem_cons] at hall
      exact ⟨hall.1, .inl hall.2⟩
    · rcases mem_cons.mp hx with rfl | hx
      · -- The first tensor is beyond the end, and so is the second one that fits.
        refine ⟨hfits, .inr ?_⟩
        rw [countP_cons_of_pos (by simpa using hfits)] at htwo
        obtain ⟨y, hy, hyfits⟩ := countP_pos_iff.mp (by omega : 0 < rest.countP (Fits dataOffset ·))
        refine ⟨y, hy, by simpa using hyfits, ?_⟩
        have : x.offset.toNat ≤ y.offset.toNat := hfirst y hy
        omega
      · exact ⟨hfits.of_byOffset (hfirst x hx), .inr ⟨x, hx, hfits, hlong⟩⟩
  · rintro ⟨ht, hall | ⟨x, hx, hfits, hlong⟩⟩
    · exact .inl (forall_mem_cons.mpr ⟨ht, hall⟩)
    · refine .inr ⟨?_, x, mem_cons_of_mem _ hx, hfits, hlong⟩
      rw [countP_cons_of_pos (by simpa using ht)]
      have : 0 < rest.countP (Fits dataOffset ·) := countP_pos_iff.mpr ⟨x, hx, by simpa using hfits⟩
      omega

theorem SumsFit.perm {tensors' : List TensorInfo} (hperm : tensors.Perm tensors')
    (h : SumsFit dataOffset fileSize tensors) : SumsFit dataOffset fileSize tensors' := by
  rcases h with hall | ⟨htwo, t, ht, hfits⟩
  · exact .inl fun t ht => hall t (hperm.mem_iff.mpr ht)
  · exact .inr ⟨hperm.countP_eq _ ▸ htwo, t, hperm.mem_iff.mp ht, hfits⟩

theorem checked_isSome_iff_sumsFit (hsorted : tensors.Pairwise byOffset) :
    (rangesFrom (checkedAdd dataOffset) fileSize tensors).isSome = true ↔
      SumsFit dataOffset fileSize tensors := by
  cases tensors with
  | nil => exact ⟨fun _ => .inl (by simp), fun _ => rfl⟩
  | cons => rw [checked_isSome_iff hsorted, sumsFit_cons_iff hsorted]

/-! ### With these the code computes the true sums -/

theorem wrappingAdd_of_fits (h : Fits dataOffset t) :
    wrappingAdd dataOffset t.offset.toNat = dataOffset + t.offset.toNat :=
  Nat.mod_eq_of_lt h

theorem rangeEnd_of_checked {stop : ℕ} (h : rangeEnd (checkedAdd dataOffset) fileSize rest = some stop) :
    rangeEnd (m := Id) (wrappingAdd dataOffset) fileSize rest = stop ∧
      rangeEnd (m := Id) (dataOffset + ·) fileSize rest = stop := by
  cases rest with
  | nil =>
    cases h
    exact ⟨rfl, rfl⟩
  | cons next =>
    by_cases hn : Fits dataOffset next
    · cases (checkedAdd_of_fits hn).symm.trans h
      exact ⟨wrappingAdd_of_fits hn, rfl⟩
    · cases (checkedAdd_of_not_fits hn).symm.trans h

theorem eq_of_checked {result : Except GgufError (List TensorRange)}
    (h : rangesFrom (checkedAdd dataOffset) fileSize tensors = some result) :
    rangesFrom (m := Id) (wrappingAdd dataOffset) fileSize tensors = result ∧
      rangesFrom (m := Id) (dataOffset + ·) fileSize tensors = result := by
  induction tensors generalizing result with
  | nil =>
    cases h
    exact ⟨rfl, rfl⟩
  | cons t rest ih =>
    by_cases ht : Fits dataOffset t
    swap
    · cases (checked_none (.inl ht)).symm.trans h
    cases hstop : rangeEnd (checkedAdd dataOffset) fileSize rest with
    | none => cases (checked_none (.inr hstop)).symm.trans h
    | some stop =>
      obtain ⟨hwrapping, htrue⟩ := rangeEnd_of_checked hstop
      rw [checked_cons ht hstop] at h
      rw [rangesFrom, rangesFrom, hwrapping, htrue, wrappingAdd_of_fits ht]
      by_cases hbad : stop < dataOffset + t.offset.toNat ∨ fileSize < stop
      · rw [if_pos hbad] at h
        cases h
        exact ⟨if_pos hbad, if_pos hbad⟩
      · rw [if_neg hbad] at h
        obtain ⟨out, hout, rfl⟩ := Option.map_eq_some_iff.mp h
        obtain ⟨hw, htr⟩ := ih hout
        refine ⟨(if_neg hbad).trans ?_, (if_neg hbad).trans ?_⟩
        · rw [hw]
          rfl
        · rw [htr]
          rfl

/-! ### With true sums the ranges tile the file -/

theorem ranges_cons {add : ℕ → ℕ} {ranges : List TensorRange}
    (h : rangesFrom (m := Id) add fileSize (t :: rest) = .ok ranges) :
    ∃ (stop : ℕ) (out : List TensorRange), rangeEnd (m := Id) add fileSize rest = stop ∧
      add t.offset.toNat ≤ stop ∧ stop ≤ fileSize ∧
      rangesFrom (m := Id) add fileSize rest = .ok out ∧
      ranges = { name := t.name, start := add t.offset.toNat, stop } :: out := by
  change (if _ then _ else _) = _ at h
  split at h
  · cases h
  · rename_i hgood
    rw [not_or, Nat.not_lt, Nat.not_lt] at hgood
    cases hout : rangesFrom (m := Id) add fileSize rest with
    | error =>
      rw [hout] at h
      cases h
    | ok out =>
      rw [hout] at h
      cases h
      exact ⟨_, out, rfl, hgood.1, hgood.2, rfl, rfl⟩

/-- **With true sums the ranges tile the file.** -/
theorem tiles_of_ranges {ranges : List TensorRange} (hsorted : tensors.Pairwise byOffset)
    (h : rangesFrom (m := Id) (dataOffset + ·) fileSize tensors = .ok ranges) :
    Tiles dataOffset fileSize tensors ranges := by
  induction tensors generalizing ranges with
  | nil =>
    cases h
    exact ⟨.refl _, by simp, .nil, by simp, by simp⟩
  | cons t rest ih =>
    obtain ⟨hfirst, hrest⟩ := pairwise_cons.mp hsorted
    obtain ⟨stop, out, hstop, hle, hend, hout, rfl⟩ := ranges_cons h
    have htiles := ih hrest hout
    cases rest with
    | nil =>
      -- The last range goes on to the end of the file.
      cases hout
      obtain rfl : fileSize = stop := hstop
      refine ⟨.refl _, by simpa using hle, .singleton _, by simp, fun x => by simp⟩
    | cons next =>
      obtain ⟨stop', out', -, -, -, -, rfl⟩ := ranges_cons hout
      obtain rfl : dataOffset + next.offset.toNat = stop := hstop
      refine ⟨htiles.each.cons _, ?_, isChain_cons_cons.mpr ⟨rfl, htiles.consecutive⟩, ?_, fun x => ?_⟩
      · rw [forall_mem_cons]
        exact ⟨⟨Nat.le_add_right _ _, hle, hend⟩, htiles.bounds⟩
      · rw [List.getLast?_cons_cons]
        exact htiles.last
      · have hcovers := htiles.covers x
        constructor
        · rintro ⟨r, hr, hx⟩
          rcases mem_cons.mp hr with rfl | hr
          · exact ⟨⟨t, mem_cons_self, hx.1⟩, Nat.lt_of_lt_of_le hx.2 hend⟩
          · obtain ⟨⟨u, hu, hux⟩, hlt⟩ := hcovers.mp ⟨r, hr, hx⟩
            exact ⟨⟨u, mem_cons_of_mem _ hu, hux⟩, hlt⟩
        · rintro ⟨⟨u, hu, hux⟩, hlt⟩
          -- The first range ends where the others begin.
          by_cases hx : x < dataOffset + next.offset.toNat
          · refine ⟨_, mem_cons_self, ?_, hx⟩
            rcases mem_cons.mp hu with rfl | hu
            · exact hux
            · exact Nat.le_trans (Nat.add_le_add_left (hfirst u hu) dataOffset) hux
          · obtain ⟨r, hr, hrx⟩ := hcovers.mpr ⟨⟨next, mem_cons_self, Nat.not_lt.mp hx⟩, hlt⟩
            exact ⟨r, mem_cons_of_mem _ hr, hrx⟩

theorem Tiles.perm {tensors' : List TensorInfo} {ranges : List TensorRange}
    (h : Tiles dataOffset fileSize tensors ranges) (hperm : tensors.Perm tensors') :
    Tiles dataOffset fileSize tensors' ranges where
  each := h.each.trans (hperm.map _)
  bounds := h.bounds
  consecutive := h.consecutive
  last := h.last
  covers x := by
    rw [h.covers x]
    constructor
    · rintro ⟨⟨t, ht, htx⟩, hlt⟩
      exact ⟨⟨t, hperm.mem_iff.mp ht, htx⟩, hlt⟩
    · rintro ⟨⟨t, ht, htx⟩, hlt⟩
      exact ⟨⟨t, hperm.mem_iff.mpr ht, htx⟩, hlt⟩

end loop

/-- **`tensor_ranges` is safe exactly when its sums fit.** For every header and every file
size: no sum wraps and what is returned tiles the file, if and only if the place of every
tensor fits in 64 bits, or the loop fails before it comes to one that does not. -/
theorem tensorRanges_safe_iff (header : GgufHeader) (fileSize : UInt64) :
    SafeRanges header fileSize ↔ SumsFit header.dataOffset fileSize.toNat header.tensors := by
  have hsorted := pairwise_insertionSort byOffset header.tensors
  have hperm := perm_insertionSort byOffset header.tensors
  constructor
  · rintro ⟨hchecked, -⟩
    exact ((checked_isSome_iff_sumsFit hsorted).mp hchecked).perm hperm
  · intro hfit
    have hchecked := (checked_isSome_iff_sumsFit hsorted).mpr (hfit.perm hperm.symm)
    refine ⟨hchecked, fun ranges hranges => ?_⟩
    obtain ⟨result, hresult⟩ := Option.isSome_iff_exists.mp hchecked
    obtain ⟨hwrapping, htrue⟩ := eq_of_checked hresult
    rw [GgufHeader.tensorRanges, hwrapping] at hranges
    exact (tiles_of_ranges hsorted (htrue.trans hranges)).perm hperm

/-- The content of a header with one tensor, 32 bytes below the end of the 64-bit range. -/
def farContent : HeaderContent := { version := 3, kvs := [], tensors := [⟨"", [], 0, 0xffffffffffffffe0⟩] }

theorem farContent_wellFormed : farContent.WellFormed := by
  constructor
  · exact .inr rfl
  · simp [farContent]
  · simp [farContent]
  · simp only [farContent, mem_singleton, forall_eq]
    constructor
    · simp [strBytes]
    · simp

/-- **A large offset passes for a small one**: the written form of that content parses, its
data begins at 64, and the range of its tensor in a file of 100 bytes starts at 32, inside
the header. -/
theorem tensor_inside_header : ∃ header ranges, parse farContent.encode = .ok header ∧
    header.dataOffset = 64 ∧ header.tensorRanges 100 = .ok ranges ∧ ranges = [⟨"", 32, 100⟩] ∧
    ¬ SafeRanges header 100 := by
  have hcode : HeaderCode (· ≠ Cursor.tArray) farContent farContent.encode :=
    HeaderContent.encode_code (by decide) farContent_wellFormed (by decide)
  have hfits : (farContent.encode ++ []).length < sliceLimit := by decide
  have hparse := headerContent_code hcode hfits
  rw [append_nil] at hparse
  refine ⟨_, _, parse_eq_ok.mpr ⟨_, _, hparse, rfl⟩, rfl, rfl, rfl, fun hsafe => ?_⟩
  have hbounds := ((hsafe.2 _ rfl).bounds _ mem_cons_self).1
  exact absurd hbounds (by decide)

end OneBrain.Models
