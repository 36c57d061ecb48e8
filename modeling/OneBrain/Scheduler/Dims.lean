import Mathlib
import OneBrain.Lib.Results
import OneBrain.Models.TensorRanges

/-!
# What a model needs in memory

The planner sees of a model what its GGUF header says: how many layers it has, how many bytes
the tensors of each layer take, and how many bytes of key/value cache one layer needs for
one token of context. `modelDims` reads this off a header; the embedding counts to the first
layer, every other tensor outside the blocks to the last.

Sizes are 64-bit numbers, and sums and products of them wrap in a release build. Rates and
costs, which the source computes in `f64`, are exact rationals here.

The tensors' ranges follow one another within the file, so adding up their sizes never wraps
(`sizes_lt`): what was counted of the layers is what was counted of the model (`Tally.Counts`).
-/

namespace OneBrain.Scheduler

open List OneBrain.Lib OneBrain.Models

/-- Why there is no plan. -/
inductive ScheduleError where
  | doesNotFit (requiredMb availableMb : UInt64)
  | noNodes
  | notEnoughNodes (requested available : UInt32)
  | missingMetadata (key : String)
  | badModel (detail : String)
  deriving DecidableEq, Repr

/-- What the user is told. -/
def ScheduleError.message : ScheduleError → String
  | .doesNotFit requiredMb availableMb =>
    "model needs " ++ toString requiredMb ++ " MB pooled but the cluster has " ++ toString availableMb
      ++ " MB usable; add a node, choose a smaller quant, or lower the context length"
  | .noNodes => "no nodes available to plan on"
  | .notEnoughNodes requested available =>
    "--nodes " ++ toString requested ++ " requested but only " ++ toString available
      ++ " nodes are available (paired workers plus this one); pair more devices with `onebrain pair` or lower --nodes"
  | .missingMetadata key =>
    "the model's GGUF header is missing " ++ key ++ ", so its memory footprint cannot be computed; "
      ++ "the file may be corrupt — re-download it with `onebrain pull`"
  | .badModel detail =>
    "cannot derive the model's dimensions from its GGUF header: " ++ detail
      ++ "; re-download the model with `onebrain pull`"

/-- The memory shape of a model. -/
structure ModelDims where
  nLayers : UInt32
  /-- Cache bytes one layer accrues for a token of context. -/
  kvBytesPerLayerPerCtxToken : UInt64
  /-- The embedding counts to the first layer, the output head to the last. -/
  weightBytesPerLayer : List UInt64
  totalWeightBytes : UInt64
  /-- Embedding width; `0` when it is not known. -/
  nEmbd : UInt64
  /-- Routed experts; `0` for a dense model. -/
  nExpert : UInt32
  /-- Routed experts that run for a token. -/
  nExpertUsed : UInt32
  expertWeightBytesPerLayer : List UInt64
  deriving DecidableEq

namespace ModelDims

variable (dims : ModelDims)

/-- Cache bytes of one layer at a context length. -/
def kvBytesPerLayer (ctxLen : UInt32) : UInt64 := dims.kvBytesPerLayerPerCtxToken * ctxLen.toUInt64

/-- What the whole model needs at a context length. -/
def totalRequiredBytes (ctxLen : UInt32) : UInt64 :=
  dims.totalWeightBytes + dims.nLayers.toUInt64 * dims.kvBytesPerLayer ctxLen

/-- The mean weight of a layer. -/
def meanWeightBytesPerLayer : UInt64 :=
  let n := (max dims.nLayers 1).toUInt64
  dims.totalWeightBytes / n + if dims.totalWeightBytes % n = 0 then 0 else 1

/-- Whether fewer experts run for a token than are resident. -/
def moeScaled : Bool :=
  decide (0 < dims.nExpert) && decide (0 < dims.nExpertUsed) && decide (dims.nExpertUsed < dims.nExpert)

/-- The fraction of a layer's weights that a token touches. -/
def activeComputeFraction (layer : ℕ) : ℚ :=
  if !dims.moeScaled then 1
  else
    let whole := (dims.weightBytesPerLayer[layer]?.getD 0).toNat
    let expert := min (dims.expertWeightBytesPerLayer[layer]?.getD 0).toNat whole
    if whole = 0 then 1
    else ((whole - expert : ℕ) + expert * (dims.nExpertUsed.toNat / dims.nExpert.toNat : ℚ)) / whole

/-- What the layers from `start` up to `stop` cost to compute, in layers. -/
def activeComputeUnits (start stop : ℕ) : ℚ :=
  if !dims.moeScaled then (stop - start : ℕ)
  else ((List.range' start (stop - start)).map dims.activeComputeFraction).sum

end ModelDims

/-! ### Reading a header -/

/-- The text of a parse error. -/
def ggufErrorText : GgufError → String
  | .badMagic => "not a GGUF file (bad magic)"
  | .unsupportedVersion version => "unsupported GGUF version " ++ toString version ++ " (supported: 2, 3)"
  | .needMoreData needHint =>
    "header is longer than the provided bytes; fetch at least " ++ toString needHint ++ " bytes and retry"
  | .malformed message => "malformed header: " ++ message

/-- The model architecture, if the header declares one. -/
def architecture (header : GgufHeader) : Option String :=
  (header.metadata.lookup "general.architecture").bind fun v =>
    match v with
    | .str s => some s
    | _ => none

/-- A metadata entry that is a number. -/
def metaU64 (header : GgufHeader) (key : String) : Option UInt64 :=
  ((header.metadata.lookup key).bind MetaValue.asU64).map UInt64.ofNat

/-- An integer of the metadata that is not `0`. -/
def metaPos (header : GgufHeader) (key : String) : Option UInt64 :=
  (metaU64 header key).filter fun n => decide (0 < n)

/-- What follows `front`, if the text starts with it. -/
def stripFront (front text : List Char) : Option (List Char) :=
  if front.isPrefixOf text then some (text.drop front.length) else none

/-- Whether `part` occurs in the text. -/
def containsText (part text : List Char) : Bool := text.tails.any part.isPrefixOf

/-- `str::parse::<usize>`: decimal digits, with a `+` before them or without. -/
def parseUsize (text : List Char) : Option ℕ :=
  let digits := match text with
    | '+' :: rest => rest
    | _ => text
  if digits.isEmpty || !digits.all Char.isDigit then none
  else
    let v := digits.foldl (fun n c => 10 * n + (c.toNat - '0'.toNat)) 0
    if v < 2 ^ 64 then some v else none

/-- The cache width of a layer: that of the key/value heads, never above the embedding
width; the whole width where the header does not say how many heads there are. -/
def embdKv (header : GgufHeader) (arch : String) (nEmbd : UInt64) : UInt64 :=
  match metaPos header (arch ++ ".attention.head_count") with
  | some nHead =>
    let headDim := nEmbd / nHead
    let nHeadKv := (metaPos header (arch ++ ".attention.head_count_kv")).getD nHead
    max (min (nHeadKv * headDim) nEmbd) 1
  | none => nEmbd

/-- An optional expert count. -/
def expertU32 (header : GgufHeader) (key : String) : Except ScheduleError UInt32 :=
  match metaPos header key with
  | none => pure 0
  | some v =>
    if v.toNat < 2 ^ 32 then pure v.toUInt32
    else throw (.badModel ("absurd " ++ key ++ " " ++ toString v))

/-- The bytes counted so far. -/
structure Tally where
  weights : List UInt64
  experts : List UInt64
  total : UInt64

/-- Count a tensor of `size` bytes to a layer. -/
def Tally.add (t : Tally) (slot : ℕ) (size : UInt64) (routed : Bool) : Tally where
  weights := t.weights.modify slot (· + size)
  experts := if routed then t.experts.modify slot (· + size) else t.experts
  total := t.total + size

/-- One turn of the loop over the tensors. -/
def Tally.range (nLayers : UInt32) (t : Tally) (range : TensorRange) : Except ScheduleError Tally :=
  let size := UInt64.ofNat (range.stop - range.start)
  match stripFront "blk.".toList range.name.toList with
  | some rest =>
    match parseUsize (rest.takeWhile fun c => decide (c ≠ '.')) with
    | none => throw (.badModel ("tensor '" ++ range.name ++ "' has a malformed block index"))
    | some idx =>
      if nLayers.toNat ≤ idx then
        throw (.badModel ("tensor '" ++ range.name ++ "' names layer " ++ toString idx
          ++ " but the model declares " ++ toString nLayers ++ " layers"))
      else pure (t.add idx size (containsText "_exps".toList rest))
  | none =>
    if "token_embd".toList.isPrefixOf range.name.toList then pure (t.add 0 size false)
    else pure (t.add (nLayers.toNat - 1) size false)

/-- What the metadata of a header declare. -/
structure Declared where
  nLayers : UInt32
  nEmbd : UInt64
  kvRate : UInt64
  nExpert : UInt32
  nExpertUsed : UInt32

/-- A value, or an error where there is none. -/
def okOr {α : Type} (value : Option α) (e : ScheduleError) : Except ScheduleError α :=
  match value with
  | some a => pure a
  | none => throw e

/-- The layer count, if it is a 32-bit number. -/
def layersU32 (blocks : UInt64) : Except ScheduleError UInt32 :=
  if blocks.toNat < 2 ^ 32 then pure blocks.toUInt32
  else throw (.badModel ("absurd layer count " ++ toString blocks))

/-- The numbers a header declares. -/
def declared (header : GgufHeader) : Except ScheduleError Declared := do
  let arch ← okOr (architecture header) (.missingMetadata "general.architecture")
  let blocks ← okOr (metaPos header (arch ++ ".block_count")) (.missingMetadata (arch ++ ".block_count"))
  let nLayers ← layersU32 blocks
  let nEmbd ← okOr (metaPos header (arch ++ ".embedding_length")) (.missingMetadata (arch ++ ".embedding_length"))
  let nExpert ← expertU32 header (arch ++ ".expert_count")
  let nExpertUsed ← expertU32 header (arch ++ ".expert_used_count")
  if 0 < nExpert ∧ nExpert < nExpertUsed then
    throw (.badModel ("the header declares " ++ toString nExpertUsed ++ " active experts per token but only "
      ++ toString nExpert ++ " experts"))
  else
    -- Keys and values, two bytes each.
    pure { nLayers, nEmbd, kvRate := 2 * 2 * embdKv header arch nEmbd, nExpert, nExpertUsed }

/-- No bytes counted yet. -/
def Tally.zero (nLayers : UInt32) : Tally where
  weights := List.replicate nLayers.toNat 0
  experts := List.replicate nLayers.toNat 0
  total := 0

/-- The dimensions of a model. -/
def modelDims (header : GgufHeader) (fileSize : UInt64) : Except ScheduleError ModelDims := do
  let d ← declared header
  let ranges ← (header.tensorRanges fileSize).mapError fun e => .badModel (ggufErrorText e)
  let t ← ranges.foldlM (Tally.range d.nLayers) (Tally.zero d.nLayers)
  return {
    nLayers := d.nLayers
    kvBytesPerLayerPerCtxToken := d.kvRate
    weightBytesPerLayer := t.weights
    totalWeightBytes := t.total
    nEmbd := d.nEmbd
    nExpert := d.nExpert
    nExpertUsed := d.nExpertUsed
    expertWeightBytesPerLayer := t.experts }

/-! ### The bytes of the layers are the bytes of the model -/

/-- The length of some ranges. -/
def sizes (ranges : List TensorRange) : ℕ := (ranges.map fun r => r.stop - r.start).sum

/-- The sum of some weights. -/
def bytes (weights : List UInt64) : ℕ := (weights.map UInt64.toNat).sum

/-- Whatever the addition of offsets does, each range ends where the next one starts and the
last one with the file. -/
theorem sizes_add_start {add : ℕ → ℕ} {fileSize : ℕ} {t : TensorInfo} {rest : List TensorInfo}
    {ranges : List TensorRange} (h : rangesFrom (m := Id) add fileSize (t :: rest) = .ok ranges) :
    sizes ranges + add t.offset.toNat = fileSize := by
  induction rest generalizing t ranges with
  | nil =>
    obtain ⟨stop, out, hstop, hle, hend, hout, rfl⟩ := ranges_cons h
    obtain rfl : fileSize = stop := hstop
    cases hout
    simp only [sizes, map_cons, map_nil, sum_cons, sum_nil]
    omega
  | cons next rest ih =>
    obtain ⟨stop, out, hstop, hle, hend, hout, rfl⟩ := ranges_cons h
    obtain rfl : add next.offset.toNat = stop := hstop
    have := ih hout
    simp only [sizes, map_cons, sum_cons] at this ⊢
    omega

theorem sizes_lt {header : GgufHeader} {fileSize : UInt64} {ranges : List TensorRange}
    (h : header.tensorRanges fileSize = .ok ranges) : sizes ranges < 2 ^ 64 := by
  unfold GgufHeader.tensorRanges at h
  cases hsorted : header.tensors.insertionSort byOffset with
  | nil =>
    rw [hsorted] at h
    cases h
    exact Nat.two_pow_pos 64
  | cons =>
    rw [hsorted] at h
    have := sizes_add_start h
    have := fileSize.toNat_lt
    omega

theorem bytes_modify {weights : List UInt64} {i : ℕ} (hi : i < weights.length) {size : UInt64}
    (h : bytes weights + size.toNat < 2 ^ 64) :
    bytes (weights.modify i (· + size)) = bytes weights + size.toNat := by
  induction weights generalizing i with
  | nil => exact absurd hi (Nat.not_lt_zero i)
  | cons w ws ih =>
    simp only [bytes, map_cons, sum_cons] at h
    cases i with
    | zero =>
      rw [modify_zero_cons]
      simp only [bytes, map_cons, sum_cons, UInt64.toNat_add]
      rw [Nat.mod_eq_of_lt (by omega)]
      omega
    | succ =>
      rw [modify_succ_cons]
      simp only [bytes, map_cons, sum_cons] at ih ⊢
      rw [ih (Nat.lt_of_succ_lt_succ hi) (by omega)]
      omega

/-- What was counted, over some tensors. -/
structure Tally.Counts (t : Tally) (nLayers : UInt32) (n : ℕ) : Prop where
  length : t.weights.length = nLayers.toNat
  weights : bytes t.weights = n
  total : t.total.toNat = n

variable {nLayers : UInt32} {t t' : Tally} {n : ℕ}

theorem Tally.range_add {range : TensorRange} (hpos : 0 < nLayers.toNat) (h : t.range nLayers range = .ok t') :
    ∃ slot routed, slot < nLayers.toNat ∧ t' = t.add slot (UInt64.ofNat (range.stop - range.start)) routed := by
  unfold Tally.range at h
  cases hblk : stripFront "blk.".toList range.name.toList with
  | none =>
    simp only [hblk] at h
    split at h
    · cases h
      exact ⟨_, _, hpos, rfl⟩
    · cases h
      exact ⟨_, _, Nat.sub_lt hpos Nat.one_pos, rfl⟩
  | some rest =>
    cases hidx : parseUsize (rest.takeWhile fun c => decide (c ≠ '.')) with
    | none =>
      simp only [hblk, hidx] at h
      cases h
    | some idx =>
      simp only [hblk, hidx] at h
      split at h
      · cases h
      · rename_i hlt
        cases h
        exact ⟨_, _, Nat.not_le.mp hlt, rfl⟩

/-- One turn of the loop counts the bytes of its range. -/
theorem Tally.Counts.range {range : TensorRange} (ht : t.Counts nLayers n) (hpos : 0 < nLayers.toNat)
    (hfits : n + (range.stop - range.start) < 2 ^ 64) (h : t.range nLayers range = .ok t') :
    t'.Counts nLayers (n + (range.stop - range.start)) := by
  obtain ⟨slot, routed, hslot, rfl⟩ := range_add hpos h
  have hsize : (UInt64.ofNat (range.stop - range.start)).toNat = range.stop - range.start :=
    UInt64.toNat_ofNat_of_lt' (Nat.lt_of_le_of_lt (Nat.le_add_left _ _) hfits)
  refine ⟨?_, ?_, ?_⟩
  · simp only [Tally.add, length_modify, ht.length]
  · rw [Tally.add, bytes_modify (ht.length ▸ hslot) (by rw [hsize, ht.weights]; exact hfits), hsize, ht.weights]
  · rw [Tally.add, UInt64.toNat_add, hsize, ht.total, Nat.mod_eq_of_lt hfits]

theorem Tally.zero_counts (nLayers : UInt32) : (Tally.zero nLayers).Counts nLayers 0 where
  length := length_replicate
  weights := by simp [Tally.zero, bytes]
  total := rfl

theorem okOr_eq_ok {α : Type} {value : Option α} {e : ScheduleError} {a : α} (h : okOr value e = .ok a) :
    value = some a := by
  cases value with
  | none => cases h
  | some =>
    cases h
    rfl

theorem declared_layers {header : GgufHeader} {d : Declared} (h : declared header = .ok d) : 0 < d.nLayers.toNat := by
  unfold declared at h
  obtain ⟨arch, -, h⟩ := bind_eq_ok_iff.mp h
  obtain ⟨blocks, hblocks, h⟩ := bind_eq_ok_iff.mp h
  obtain ⟨nLayers, hlayers, h⟩ := bind_eq_ok_iff.mp h
  obtain ⟨nEmbd, -, h⟩ := bind_eq_ok_iff.mp h
  obtain ⟨nExpert, -, h⟩ := bind_eq_ok_iff.mp h
  obtain ⟨nExpertUsed, -, h⟩ := bind_eq_ok_iff.mp h
  obtain ⟨-, hpos⟩ := Option.filter_eq_some_iff.mp (okOr_eq_ok hblocks)
  rw [decide_eq_true_eq, UInt64.lt_iff_toNat_lt] at hpos
  unfold layersU32 at hlayers
  split at hlayers
  · rename_i hlt
    cases hlayers
    split at h
    · cases h
    · cases h
      rw [UInt64.toNat_toUInt32, Nat.mod_eq_of_lt hlt]
      exact hpos
  · cases hlayers

variable {header : GgufHeader} {fileSize : UInt64} {dims : ModelDims}

theorem modelDims_eq_ok (h : modelDims header fileSize = .ok dims) :
    ∃ d ranges t, declared header = .ok d ∧ header.tensorRanges fileSize = .ok ranges ∧
      ranges.foldlM (Tally.range d.nLayers) (Tally.zero d.nLayers) = .ok t ∧
      dims = { nLayers := d.nLayers
               kvBytesPerLayerPerCtxToken := d.kvRate
               weightBytesPerLayer := t.weights
               totalWeightBytes := t.total
               nEmbd := d.nEmbd
               nExpert := d.nExpert
               nExpertUsed := d.nExpertUsed
               expertWeightBytesPerLayer := t.experts } := by
  unfold modelDims at h
  obtain ⟨d, hd, h⟩ := bind_eq_ok_iff.mp h
  obtain ⟨ranges, hranges, h⟩ := bind_eq_ok_iff.mp h
  obtain ⟨t, ht, h⟩ := bind_eq_ok_iff.mp h
  cases h
  cases hr : header.tensorRanges fileSize with
  | error =>
    rw [hr] at hranges
    cases hranges
  | ok =>
    rw [hr] at hranges
    cases hranges
    exact ⟨d, ranges, t, hd, rfl, ht, rfl⟩

end OneBrain.Scheduler
