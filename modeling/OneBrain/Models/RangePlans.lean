import Mathlib.Data.Finset.Union
import OneBrain.Lib.Results
import OneBrain.Logistics.RpcCache
import OneBrain.Models.RangeStore

/-!
# Which ranges a node fetches

A node that owns some layers of a model needs the header of the file, every tensor that
belongs to no layer, and the tensors of its layers. `planRanges` turns the tensors of a header
into the byte ranges of such a node; `planAllRanges` is the plan of a node that owns them all.

The layer of a tensor is read off its name, its range from the sorted offsets, of which several
can be equal: then all but one of the tensors have an empty range, which no plan has.

For every header that was parsed, with at least one tensor and places that fit in 64 bits, the
plans are as they should be (`range_plans`):

* the ranges of a plan are in order, have no byte in common, are not empty and lie in the file,
  which is what `fetchRanges` checks;
* the plan of all layers has every byte of the file when the first tensor has offset zero;
* when the nodes own disjoint sets of layers, a range of an owned layer is in the plan of its
  owner and in no other, the header and what belongs to no layer are in every plan, and the
  plans together are the plan of all the layers owned.
-/

namespace OneBrain.Models

open Lib Lib.Reader OneBrain.Logistics

/-! ### The plans -/

/-- The order of ranges: by start, then by end. -/
def rangeLe (a b : ByteRange) : Prop := a.start < b.start ∨ a.start = b.start ∧ a.stop ≤ b.stop

instance : DecidableRel rangeLe := fun a b => by unfold rangeLe; infer_instance

/-- The bytes of a tensor. -/
def TensorRange.bytes (tr : TensorRange) : ByteRange := ⟨tr.start, tr.stop⟩

/-- Whether a node fetches a tensor: one that belongs to no layer, or to one of its layers. -/
def fetched (ownedLayers : Finset ℕ) (tr : TensorRange) : Bool :=
  match tensorLayer tr.name with
  | none => true
  | some layer => decide (layer ∈ ownedLayers)

/-- The bytes before the data. -/
def GgufHeader.headerRange (header : GgufHeader) : ByteRange := ⟨0, header.dataOffset⟩

/-- The header, and the tensors a node fetches that are not empty. -/
def needed (header : GgufHeader) (ownedLayers : Finset ℕ) (tensorRanges : List TensorRange) : List ByteRange :=
  header.headerRange ::
    (tensorRanges.filter fun tr => fetched ownedLayers tr && decide (tr.start < tr.stop)).map TensorRange.bytes

/-- The ranges a worker needs for its layers. -/
def planRanges (header : GgufHeader) (fileSize : UInt64) (ownedLayers : Finset ℕ) : Except GgufError RangePlan := do
  let tensorRanges ← header.tensorRanges fileSize
  let ranges := needed header ownedLayers tensorRanges
  pure { totalSize := fileSize.toNat, headerLen := header.dataOffset, ranges := ranges.insertionSort rangeLe }

/-- The layers that have tensors. -/
def GgufHeader.layers (header : GgufHeader) : Finset ℕ := (header.tensors.filterMap fun t => tensorLayer t.name).toFinset

/-- The ranges of all layers. -/
def planAllRanges (header : GgufHeader) (fileSize : UInt64) : Except GgufError RangePlan :=
  planRanges header fileSize header.layers

/-! ### The data begins behind the header -/

/-- A header that was parsed from a file. -/
def Parsed (header : GgufHeader) : Prop := ∃ bytes : List UInt8, bytes.length < sliceLimit ∧ parse bytes = .ok header

theorem Parsed.dataOffset_pos {header : GgufHeader} (h : Parsed header) : 0 < header.dataOffset := by
  obtain ⟨file, hfile, hparse⟩ := h
  obtain ⟨c, n, hcontent, rfl⟩ := parse_eq_ok.mp hparse
  obtain ⟨enc, rest, hcode, hsplit, hn⟩ := (reads_headerContent hfile (Nat.zero_le _) c n).mp hcontent
  -- The magic number alone takes four bytes.
  have hpos : 0 < enc.length := by
    obtain ⟨-, -, -, kvs, tensors, -, -, rfl⟩ := hcode
    rw [List.length_append, leBytes_length]
    omega
  have hlen : n < sliceLimit := by
    have := congrArg List.length hsplit
    rw [List.length_drop, List.length_append] at this
    omega
  have hdescribes := c.header_describes hlen
  have hle : n ≤ (c.header n).dataOffset := hdescribes.dataOffset.1.2
  omega

/-! ### The ranges of a plan -/

section plan

variable {header : GgufHeader} {fileSize : UInt64} {ownedLayers : Finset ℕ} {plan : RangePlan}
  {tensorRanges : List TensorRange}

/-- The ranges of consecutive tensors lie one behind the other. -/
theorem pairwise_of_consecutive (hchain : tensorRanges.IsChain fun a b => a.stop = b.start)
    (hle : ∀ tr ∈ tensorRanges, tr.start ≤ tr.stop) : tensorRanges.Pairwise fun a b => a.stop ≤ b.start := by
  induction tensorRanges with
  | nil => exact .nil
  | cons a rest ih =>
    rw [List.forall_mem_cons] at hle
    have hrest := ih hchain.tail hle.2
    refine List.pairwise_cons.mpr ⟨?_, hrest⟩
    cases rest with
    | nil => exact fun _ hb => absurd hb List.not_mem_nil
    | cons next =>
      have hnext : a.stop = next.start := (List.isChain_cons_cons.mp hchain).1
      rw [List.forall_mem_cons]
      refine ⟨hnext.le, fun b hb => ?_⟩
      have hfront := (List.pairwise_cons.mp hrest).1 b hb
      have := hle.2 next List.mem_cons_self
      omega

theorem tiles_tensorRanges (hfits : ∀ t ∈ header.tensors, Fits header.dataOffset t)
    (h : header.tensorRanges fileSize = .ok tensorRanges) :
    Tiles header.dataOffset fileSize.toNat header.tensors tensorRanges :=
  ((tensorRanges_safe_iff header fileSize).mpr (.inl hfits)).2 tensorRanges h

theorem mem_needed {r : ByteRange} : r ∈ needed header ownedLayers tensorRanges ↔ r = header.headerRange ∨
      ∃ tr ∈ tensorRanges, fetched ownedLayers tr = true ∧ tr.start < tr.stop ∧ tr.bytes = r := by
  simp only [needed, List.mem_cons, List.mem_map, List.mem_filter, Bool.and_eq_true, decide_eq_true_eq, and_assoc]

variable (htiles : Tiles header.dataOffset fileSize.toNat header.tensors tensorRanges)
include htiles

theorem needed_apart :
    (needed header ownedLayers tensorRanges).Pairwise fun a b => a.stop ≤ b.start := by
  refine List.pairwise_cons.mpr ⟨fun b hb => ?_, ?_⟩
  · obtain ⟨tr, htr, rfl⟩ := List.mem_map.mp hb
    exact (htiles.bounds tr (List.mem_filter.mp htr).1).1
  · have htensors := pairwise_of_consecutive htiles.consecutive fun tr htr => (htiles.bounds tr htr).2.1
    exact List.pairwise_map.mpr (htensors.filter _)

theorem needed_start_le {r : ByteRange} (hr : r ∈ needed header ownedLayers tensorRanges) : r.start ≤ r.stop := by
  rcases mem_needed.mp hr with rfl | ⟨tr, htr, -, -, rfl⟩
  · exact Nat.zero_le _
  · exact (htiles.bounds tr htr).2.1

theorem needed_sorted :
    (needed header ownedLayers tensorRanges).Pairwise rangeLe := by
  refine (needed_apart htiles).imp_of_mem fun {a b} ha hb hab => ?_
  have hastop := needed_start_le htiles ha
  have hbstop := needed_start_le htiles hb
  unfold rangeLe
  omega

omit htiles

theorem planRanges_eq_ok (hfits : ∀ t ∈ header.tensors, Fits header.dataOffset t)
    (h : planRanges header fileSize ownedLayers = .ok plan) :
    ∃ tensorRanges, header.tensorRanges fileSize = .ok tensorRanges ∧
      Tiles header.dataOffset fileSize.toNat header.tensors tensorRanges ∧
      plan = { totalSize := fileSize.toNat, headerLen := header.dataOffset
               ranges := needed header ownedLayers tensorRanges } := by
  obtain ⟨tensorRanges, hranges, h⟩ := bind_eq_ok_iff.mp h
  have htiles := tiles_tensorRanges hfits hranges
  cases h
  refine ⟨tensorRanges, hranges, htiles, ?_⟩
  rw [(needed_sorted htiles).insertionSort_eq]

/-! ### What holds of the plans -/

/-- No byte is in both. -/
def ByteRange.Disjoint (a b : ByteRange) : Prop := ∀ x, ¬ (a.start ≤ x ∧ x < a.stop ∧ b.start ≤ x ∧ x < b.stop)

/-- A byte is in a range of the plan. -/
def RangePlan.Has (plan : RangePlan) (x : ℕ) : Prop := ∃ r ∈ plan.ranges, r.start ≤ x ∧ x < r.stop

/-- A plan in order, without common bytes, that `fetchRanges` accepts. -/
structure RangePlan.Proper (plan : RangePlan) : Prop where
  sorted : plan.ranges.Pairwise rangeLe
  disjoint : plan.ranges.Pairwise ByteRange.Disjoint
  valid : ∀ r ∈ plan.ranges, r.start < r.stop ∧ r.stop ≤ plan.totalSize

theorem planRanges_proper (hparsed : Parsed header) (hne : header.tensors ≠ [])
    (hfits : ∀ t ∈ header.tensors, Fits header.dataOffset t)
    (h : planRanges header fileSize ownedLayers = .ok plan) : plan.Proper ∧ plan.totalSize = fileSize.toNat := by
  obtain ⟨tensorRanges, hranges, htiles, rfl⟩ := planRanges_eq_ok hfits h
  refine ⟨⟨needed_sorted htiles, ?_, ?_⟩, rfl⟩
  · refine (needed_apart htiles).imp fun {a b} hab x hx => ?_
    omega
  · intro r hr
    rcases mem_needed.mp hr with rfl | ⟨tr, htr, -, hlt, rfl⟩
    · -- The first tensor begins in the file, and not before the data.
      refine ⟨hparsed.dataOffset_pos, ?_⟩
      obtain ⟨t, ht⟩ := List.exists_mem_of_ne_nil _ hne
      have hmem := htiles.each.symm.subset (List.mem_map_of_mem (f := fun t => (t.name, _)) ht)
      obtain ⟨tr, htr, -⟩ := List.mem_map.mp hmem
      obtain ⟨h₁, h₂, h₃⟩ := htiles.bounds tr htr
      exact h₁.trans (h₂.trans h₃)
    · exact ⟨hlt, (htiles.bounds tr htr).2.2⟩

/-- Every tensor that has a layer has one of the header's layers. -/
theorem fetched_layers (htiles : Tiles header.dataOffset fileSize.toNat header.tensors tensorRanges) {tr : TensorRange}
    (htr : tr ∈ tensorRanges) : fetched header.layers tr = true := by
  unfold fetched
  cases hlayer : tensorLayer tr.name with
  | none => rfl
  | some =>
    have hmem := htiles.each.subset (List.mem_map_of_mem (f := fun r => (r.name, r.start)) htr)
    obtain ⟨t, ht, heq⟩ := List.mem_map.mp hmem
    have hname : t.name = tr.name := congrArg Prod.fst heq
    apply decide_eq_true
    rw [GgufHeader.layers, List.mem_toFinset, List.mem_filterMap]
    exact ⟨t, ht, by rw [hname, hlayer]⟩

theorem planAllRanges_has (hfits : ∀ t ∈ header.tensors, Fits header.dataOffset t)
    (hzero : ∃ t ∈ header.tensors, t.offset = 0) (h : planAllRanges header fileSize = .ok plan) :
    ∀ x < fileSize.toNat, plan.Has x := by
  obtain ⟨tensorRanges, hranges, htiles, rfl⟩ := planRanges_eq_ok hfits h
  intro x hx
  by_cases hheader : x < header.dataOffset
  · exact ⟨_, List.mem_cons_self, Nat.zero_le _, hheader⟩
  · obtain ⟨t, ht, hoffset⟩ := hzero
    have hstart : header.dataOffset + t.offset.toNat ≤ x := by
      rw [hoffset, UInt64.toNat_zero]
      omega
    obtain ⟨tr, htr, hlo, hhi⟩ := (htiles.covers x).mpr ⟨⟨t, ht, hstart⟩, hx⟩
    exact ⟨tr.bytes, mem_needed.mpr (.inr ⟨tr, htr, fetched_layers htiles htr, hlo.trans_lt hhi, rfl⟩), hlo, hhi⟩

/-! ### Nodes with layers of their own -/

theorem eq_of_bytes_eq (htiles : Tiles header.dataOffset fileSize.toNat header.tensors tensorRanges)
    {tr tr' : TensorRange} (htr : tr ∈ tensorRanges) (htr' : tr' ∈ tensorRanges) (hlt : tr.start < tr.stop)
    (heq : tr'.bytes = tr.bytes) : tr' = tr := by
  by_contra hne
  have happart := pairwise_of_consecutive htiles.consecutive fun tr htr => (htiles.bounds tr htr).2.1
  have hsides : tensorRanges.Pairwise fun a b => a.stop ≤ b.start ∨ b.stop ≤ a.start :=
    happart.imp fun hab => .inl hab
  have hsymm : Std.Symm fun a b : TensorRange => a.stop ≤ b.start ∨ b.stop ≤ a.start := ⟨fun _ _ hab => hab.symm⟩
  have hstart : tr'.start = tr.start := congrArg ByteRange.start heq
  have hstop : tr'.stop = tr.stop := congrArg ByteRange.stop heq
  rcases hsides.forall htr' htr hne with h | h
  · omega
  · omega

theorem bytes_mem_needed (hdata : 0 < header.dataOffset)
    (htiles : Tiles header.dataOffset fileSize.toNat header.tensors tensorRanges) {tr : TensorRange}
    (htr : tr ∈ tensorRanges) (hlt : tr.start < tr.stop) :
    tr.bytes ∈ needed header ownedLayers tensorRanges ↔ fetched ownedLayers tr = true := by
  rw [mem_needed]
  constructor
  · rintro (hheader | ⟨tr', htr', hfetched, -, heq⟩)
    · -- The header ends before the first tensor begins.
      have hstart : tr.start = 0 := congrArg ByteRange.start hheader
      have := (htiles.bounds tr htr).1
      omega
    · rwa [eq_of_bytes_eq htiles htr htr' hlt heq] at hfetched
  · exact fun hfetched => .inr ⟨tr, htr, hfetched, hlt, rfl⟩

variable {ι : Type} [Fintype ι]

/-- The plans of nodes that own sets of layers divide the file among the nodes. -/
structure Divides (header : GgufHeader) (fileSize : UInt64) (owned : ι → Finset ℕ) (plans : ι → RangePlan) : Prop where
  /-- A range of an owned layer is in the plan of its owner only. -/
  owner : ∀ tensorRanges, header.tensorRanges fileSize = .ok tensorRanges → ∀ tr ∈ tensorRanges, tr.start < tr.stop →
    ∀ layer i, tensorLayer tr.name = some layer → layer ∈ owned i → ∀ j, tr.bytes ∈ (plans j).ranges ↔ j = i
  /-- What belongs to no layer is in every plan, as a range of its own unless it is empty. -/
  shared : ∀ tensorRanges, header.tensorRanges fileSize = .ok tensorRanges → ∀ tr ∈ tensorRanges,
    tensorLayer tr.name = none → ∀ j, (tr.start < tr.stop → tr.bytes ∈ (plans j).ranges) ∧
      ∀ x, tr.start ≤ x → x < tr.stop → (plans j).Has x
  headers : ∀ j, header.headerRange ∈ (plans j).ranges
  /-- The plans together are the plan of all the layers owned. -/
  union : ∃ plan, planRanges header fileSize (Finset.univ.biUnion owned) = .ok plan ∧
    ∀ r, r ∈ plan.ranges ↔ ∃ i, r ∈ (plans i).ranges

theorem fetched_biUnion [Nonempty ι] (owned : ι → Finset ℕ) (tr : TensorRange) :
    fetched (Finset.univ.biUnion owned) tr = true ↔ ∃ i, fetched (owned i) tr = true := by
  unfold fetched
  cases tensorLayer tr.name with
  | none | some => simp

theorem planRanges_divides [Nonempty ι] (hparsed : Parsed header)
    (hfits : ∀ t ∈ header.tensors, Fits header.dataOffset t) (owned : ι → Finset ℕ) (plans : ι → RangePlan)
    (hdisjoint : Pairwise fun i j => Disjoint (owned i) (owned j))
    (hplans : ∀ i, planRanges header fileSize (owned i) = .ok (plans i)) : Divides header fileSize owned plans := by
  have hdata := hparsed.dataOffset_pos
  obtain ⟨tensorRanges, hranges, htiles, -⟩ := planRanges_eq_ok hfits (hplans (Classical.arbitrary ι))
  have hrangesOf : ∀ i, (plans i).ranges = needed header (owned i) tensorRanges := by
    intro i
    obtain ⟨trs, htrs, -, hplan⟩ := planRanges_eq_ok hfits (hplans i)
    obtain rfl : tensorRanges = trs := Except.ok.inj (hranges.symm.trans htrs)
    rw [hplan]
  refine ⟨?_, ?_, ?_, ?_⟩
  · rintro _ hr tr htr hlt layer i hlayer hi j
    obtain rfl := Except.ok.inj (hranges.symm.trans hr)
    rw [hrangesOf, bytes_mem_needed hdata htiles htr hlt]
    simp only [fetched, hlayer, decide_eq_true_eq]
    constructor
    · intro hj
      by_contra hne
      exact Finset.disjoint_left.mp (hdisjoint hne) hj hi
    · rintro rfl
      exact hi
  · rintro _ hr tr htr hlayer j
    obtain rfl := Except.ok.inj (hranges.symm.trans hr)
    have hmem : tr.start < tr.stop → tr.bytes ∈ (plans j).ranges := by
      intro hlt
      rw [hrangesOf, bytes_mem_needed hdata htiles htr hlt]
      simp only [fetched, hlayer]
    exact ⟨hmem, fun x hlo hhi => ⟨tr.bytes, hmem (hlo.trans_lt hhi), hlo, hhi⟩⟩
  · intro j
    rw [hrangesOf]
    exact List.mem_cons_self
  · refine ⟨_, bind_eq_ok_iff.mpr ⟨tensorRanges, hranges, rfl⟩, fun r => ?_⟩
    rw [(needed_sorted htiles).insertionSort_eq]
    simp only [hrangesOf, mem_needed, fetched_biUnion]
    constructor
    · rintro (rfl | ⟨tr, htr, ⟨i, hi⟩, hlt, rfl⟩)
      · exact ⟨Classical.arbitrary ι, .inl rfl⟩
      · exact ⟨i, .inr ⟨tr, htr, hi, hlt, rfl⟩⟩
    · rintro ⟨i, rfl | ⟨tr, htr, hi, hlt, rfl⟩⟩
      · exact .inl rfl
      · exact .inr ⟨tr, htr, ⟨i, hi⟩, hlt, rfl⟩

end plan

/-- **The plans are as they should be**: for every parsed header with a tensor, whose places fit
in 64 bits, and every file size, every plan is proper; the plan of all layers has every byte
when a tensor has offset zero; and the plans of nodes that own disjoint sets of layers divide
the file among the nodes. -/
theorem range_plans (header : GgufHeader) (fileSize : UInt64) (hparsed : Parsed header) (hne : header.tensors ≠ [])
    (hfits : ∀ t ∈ header.tensors, Fits header.dataOffset t) :
    (∀ ownedLayers plan, planRanges header fileSize ownedLayers = .ok plan →
      plan.Proper ∧ plan.totalSize = fileSize.toNat) ∧
    (∀ plan, planAllRanges header fileSize = .ok plan → (∃ t ∈ header.tensors, t.offset = 0) →
      ∀ x < fileSize.toNat, plan.Has x) ∧
    ∀ (ι : Type) [Fintype ι] [Nonempty ι] (owned : ι → Finset ℕ) (plans : ι → RangePlan),
      (Pairwise fun i j => Disjoint (owned i) (owned j)) →
      (∀ i, planRanges header fileSize (owned i) = .ok (plans i)) → Divides header fileSize owned plans :=
  ⟨fun _ _ h => planRanges_proper hparsed hne hfits h, fun _ h hzero => planAllRanges_has hfits hzero h,
    fun _ _ _ owned plans hdisjoint hplans => planRanges_divides hparsed hfits owned plans hdisjoint hplans⟩

theorem parsed_encode {c : HeaderContent} (hc : c.WellFormed) (hfits : c.encode.length < sliceLimit) :
    Parsed (c.header c.encode.length) := by
  have hcode : HeaderCode (· ≠ Cursor.tArray) c c.encode :=
    HeaderContent.encode_code (by decide) hc (hfits.trans (by decide))
  have hcontent := @headerContent_code _ _ [] hcode (by rwa [List.append_nil])
  rw [List.append_nil] at hcontent
  exact ⟨c.encode, hfits, parse_eq_ok.mpr ⟨_, _, hcontent, rfl⟩⟩

/-- An embedding and one tensor for each of two layers, two of them at the same place. -/
def sharedContent : HeaderContent where
  version := 3
  kvs := []
  tensors := [⟨"rope", [], 0, 64⟩, ⟨"token_embd", [], 0, 0⟩, ⟨"blk.1.w", [], 0, 64⟩, ⟨"blk.0.w", [], 0, 32⟩]

theorem sharedContent_wellFormed : sharedContent.WellFormed := by
  constructor
  · exact .inr rfl
  · simp [sharedContent]
  · simp [sharedContent]
  · intro t ht
    have hall : ∀ t ∈ sharedContent.tensors, (strBytes t.name).length ≤ maxString ∧ t.dims.length ≤ 8 := by decide +kernel
    exact ⟨(hall t ht).1, (hall t ht).2⟩

/-- The header of that content. -/
def sharedHeader : GgufHeader := sharedContent.header sharedContent.encode.length

/-- One node has the first layer, the other the second. -/
def sharedPlans (first : Bool) : RangePlan where
  totalSize := 4096
  headerLen := 160
  ranges := [⟨0, 160⟩, ⟨160, 192⟩, if first then ⟨192, 224⟩ else ⟨224, 4096⟩]

theorem range_plans_shared : (∀ first, (sharedPlans first).Proper) ∧
      (∃ plan, planAllRanges sharedHeader 4096 = .ok plan ∧ ∀ x < 4096, plan.Has x) ∧
      Divides sharedHeader 4096 (fun first : Bool => if first then {0} else {1}) sharedPlans := by
  obtain ⟨hproper, hall, hdivides⟩ := range_plans sharedHeader 4096
    (parsed_encode sharedContent_wellFormed (by decide +kernel)) (by decide) (by decide +kernel)
  have hplans : ∀ first : Bool, planRanges sharedHeader 4096 (if first then {0} else {1}) = .ok (sharedPlans first) := by
    decide +kernel
  have hplan : planAllRanges sharedHeader 4096 =
      .ok { totalSize := 4096, headerLen := 160, ranges := [⟨0, 160⟩, ⟨160, 192⟩, ⟨192, 224⟩, ⟨224, 4096⟩] } := by
    decide +kernel
  have hdisjoint : Pairwise fun i j : Bool => Disjoint (if i then ({0} : Finset ℕ) else {1}) (if j then {0} else {1}) := by
    unfold Pairwise
    decide
  refine ⟨fun first => (hproper _ _ (hplans first)).1, ⟨_, hplan, ?_⟩, hdivides Bool _ _ hdisjoint hplans⟩
  exact hall _ hplan (by decide +kernel)

end OneBrain.Models
