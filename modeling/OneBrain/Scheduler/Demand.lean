import OneBrain.Scheduler.Dims

/-!
# Whether the numbers of a model are right

`modelDims` reads off a header what the planner has to know about a model. Two things are
asked of it.

**Its bytes are the model's bytes** (`layer_accounting`): there is a number for every layer;
the numbers add up to the total, which is the part of the file from the first tensor on; and
a layer has no more bytes of routed experts than it has bytes.

**It never asks for too little memory.** The module text of the source gives the cache of a
layer as `4 * n_head_kv * n_embd / n_head` bytes for a token. The source divides first, which
rounds down, limits the result to the embedding width, and multiplies in 64 bits. So it is that
much, and the need of the whole model with it, exactly under the condition `Measured` on the header
and the context length (`demand_iff`): the query heads divide the width, there are not more key/value heads than
query heads, and the products do not wrap. A width of 100 with three heads is enough to break
it (`demand_too_small`).
-/

namespace OneBrain.Scheduler

open Option List OneBrain.Lib OneBrain.Models

variable {header : GgufHeader} {fileSize : UInt64}

/-! ### The bytes of the layers -/

/-- The routed bytes of a tally are among its bytes. -/
structure Tally.Routed (t : Tally) (nLayers : UInt32) : Prop where
  length : t.experts.length = nLayers.toNat
  le : ∀ (i : ℕ) (e w : UInt64), t.experts[i]? = some e → t.weights[i]? = some w → e.toNat ≤ w.toNat

variable {nLayers : UInt32} {t t' : Tally} {n : ℕ}

theorem Tally.zero_routed (nLayers : UInt32) : (Tally.zero nLayers).Routed nLayers where
  length := length_replicate
  le i e w he hw := by
    rw [Tally.zero, List.getElem?_replicate] at he hw
    split at he
    · rename_i hi
      rw [if_pos hi] at hw
      cases he
      cases hw
      exact le_rfl
    · cases he

/-- The bytes of one layer are among the bytes of all. -/
theorem toNat_le_bytes {weights : List UInt64} {i : ℕ} {w : UInt64} (h : weights[i]? = some w) :
    w.toNat ≤ bytes weights :=
  single_le_sum (fun _ _ => Nat.zero_le _) _ (mem_map_of_mem (mem_of_getElem? h))

theorem getElem?_modify_some {α : Type} {f : α → α} {l : List α} {i j : ℕ} {b : α}
    (h : (l.modify i f)[j]? = some b) : ∃ a, l[j]? = some a ∧ b = if i = j then f a else a := by
  rw [List.getElem?_modify] at h
  obtain ⟨a, ha, hb⟩ := map_eq_some_iff.mp h
  exact ⟨a, ha, hb.symm⟩

theorem Tally.Routed.range {range : TensorRange} (hr : t.Routed nLayers) (ht : t.Counts nLayers n)
    (hpos : 0 < nLayers.toNat) (hfits : n + (range.stop - range.start) < 2 ^ 64)
    (h : t.range nLayers range = .ok t') : t'.Routed nLayers := by
  obtain ⟨slot, routed, -, rfl⟩ := Tally.range_add hpos h
  have hsize : (UInt64.ofNat (range.stop - range.start)).toNat = range.stop - range.start :=
    UInt64.toNat_ofNat_of_lt' (Nat.lt_of_le_of_lt (Nat.le_add_left _ _) hfits)
  -- No sum wraps: all bytes together, with the new ones, fit in 64 bits.
  have hadd : ∀ (i : ℕ) (e w : UInt64), t.experts[i]? = some e → t.weights[i]? = some w →
      (e + UInt64.ofNat (range.stop - range.start)).toNat = e.toNat + (range.stop - range.start) ∧
        (w + UInt64.ofNat (range.stop - range.start)).toNat = w.toNat + (range.stop - range.start) := by
    intro i e w he hw
    have hle := hr.le i e w he hw
    have hw' := toNat_le_bytes hw
    rw [ht.weights] at hw'
    rw [UInt64.toNat_add, UInt64.toNat_add, hsize, Nat.mod_eq_of_lt (by omega), Nat.mod_eq_of_lt (by omega)]
    exact ⟨rfl, rfl⟩
  constructor
  · simp only [Tally.add]
    split
    · rw [length_modify, hr.length]
    · exact hr.length
  · intro i e' w' he' hw'
    obtain ⟨w, hw, rfl⟩ := getElem?_modify_some hw'
    cases routed with
    | false =>
      have hle := hr.le i e' w he' hw
      split
      · rw [(hadd i e' w he' hw).2]
        omega
      · exact hle
    | true =>
      obtain ⟨e, he, rfl⟩ := getElem?_modify_some he'
      have hle := hr.le i e w he hw
      obtain ⟨haddE, haddW⟩ := hadd i e w he hw
      split
      · rw [haddE, haddW]
        omega
      · exact hle

theorem sizes_append (l₁ l₂ : List TensorRange) : sizes (l₁ ++ l₂) = sizes l₁ + sizes l₂ := by
  rw [sizes, map_append, sum_append]
  rfl

theorem Tally.Routed.ranges {ranges : List TensorRange} (hpos : 0 < nLayers.toNat) (hfits : sizes ranges < 2 ^ 64)
    (h : ranges.foldlM (Tally.range nLayers) (Tally.zero nLayers) = .ok t) :
    t.Counts nLayers (sizes ranges) ∧ t.Routed nLayers := by
  refine foldlM_invariant (P := fun done t => t.Counts nLayers (sizes done) ∧ t.Routed nLayers)
    ⟨Tally.zero_counts nLayers, Tally.zero_routed nLayers⟩ ?_ h
  rintro done r todo t t' rfl ⟨hcounts, hrouted⟩ hturn
  have hone : sizes [r] = r.stop - r.start := sum_singleton
  have hfits' : sizes done + (r.stop - r.start) < 2 ^ 64 := by
    rw [append_cons, sizes_append, sizes_append, hone] at hfits
    omega
  rw [sizes_append, hone]
  exact ⟨hcounts.range hpos hfits' hturn, hrouted.range hcounts hpos hfits' hturn⟩

theorem sizes_add_first {ranges : List TensorRange}
    (hne : header.tensors ≠ []) (hfits : ∀ t ∈ header.tensors, Fits header.dataOffset t)
    (h : header.tensorRanges fileSize = .ok ranges) :
    ∃ first ∈ header.tensors, (∀ t ∈ header.tensors, first.offset.toNat ≤ t.offset.toNat) ∧
      sizes ranges + (header.dataOffset + first.offset.toNat) = fileSize.toNat := by
  have hperm := perm_insertionSort byOffset header.tensors
  have hsorted := pairwise_insertionSort byOffset header.tensors
  unfold GgufHeader.tensorRanges at h
  cases hlist : header.tensors.insertionSort byOffset with
  | nil =>
    rw [hlist] at hperm
    exact absurd hperm.symm.eq_nil hne
  | cons first =>
    rw [hlist] at hperm hsorted h
    have hmem : first ∈ header.tensors := hperm.subset mem_cons_self
    refine ⟨first, hmem, fun t ht => ?_, ?_⟩
    · rcases mem_cons.mp (hperm.symm.subset ht) with rfl | ht
      · exact le_rfl
      · exact (pairwise_cons.mp hsorted).1 t ht
    · have hsum := sizes_add_start h
      rwa [wrappingAdd_of_fits (hfits first hmem)] at hsum

/-- **The bytes of the layers are exact**: for every header with a tensor, whose places fit in
64 bits, and every file size for which the dimensions can be read off, there are as many
numbers as layers, they add up to the total, the total is the file from the first tensor on,
and no layer has more bytes of routed experts than bytes. -/
theorem layer_accounting (header : GgufHeader) (fileSize : UInt64) (dims : ModelDims)
    (hne : header.tensors ≠ []) (hfits : ∀ t ∈ header.tensors, Fits header.dataOffset t)
    (h : modelDims header fileSize = .ok dims) : dims.weightBytesPerLayer.length = dims.nLayers.toNat ∧
      dims.expertWeightBytesPerLayer.length = dims.nLayers.toNat ∧
      bytes dims.weightBytesPerLayer = dims.totalWeightBytes.toNat ∧
      (∃ first ∈ header.tensors, (∀ t ∈ header.tensors, first.offset.toNat ≤ t.offset.toNat) ∧
        dims.totalWeightBytes.toNat + (header.dataOffset + first.offset.toNat) = fileSize.toNat) ∧
      ∀ (i : ℕ) (expert weight : UInt64), dims.expertWeightBytesPerLayer[i]? = some expert →
        dims.weightBytesPerLayer[i]? = some weight → expert ≤ weight := by
  obtain ⟨d, ranges, t, hd, hranges, ht, rfl⟩ := modelDims_eq_ok h
  obtain ⟨hcounts, hrouted⟩ := Tally.Routed.ranges (declared_layers hd) (sizes_lt hranges) ht
  refine ⟨hcounts.length, hrouted.length, hcounts.weights.trans hcounts.total.symm, ?_, ?_⟩
  · rw [hcounts.total]
    exact sizes_add_first hne hfits hranges
  · exact fun i e w he hw => UInt64.le_iff_toNat_le.mpr (hrouted.le i e w he hw)

/-- A header of two layers, the second one with experts. -/
def twoLayerContent : HeaderContent where
  version := 3
  kvs := [("general.architecture", .str "llama"), ("llama.block_count", .u32 2), ("llama.embedding_length", .u32 64)]
  tensors := [⟨"token_embd.weight", [], 0, 0⟩, ⟨"blk.1.ffn_up_exps.weight", [], 0, 64⟩, ⟨"blk.0.attn.weight", [], 0, 32⟩]

/-- The first layer has the embedding and its own tensor, the second one its experts. -/
def twoLayerDims : ModelDims where
  nLayers := 2
  kvBytesPerLayerPerCtxToken := 256
  weightBytesPerLayer := [64, 72]
  totalWeightBytes := 136
  nEmbd := 64
  nExpert := 0
  nExpertUsed := 0
  expertWeightBytesPerLayer := [0, 72]

theorem layer_accounting_two : modelDims (twoLayerContent.header 40) 200 = .ok twoLayerDims ∧
      twoLayerDims.weightBytesPerLayer.length = twoLayerDims.nLayers.toNat ∧
      twoLayerDims.expertWeightBytesPerLayer.length = twoLayerDims.nLayers.toNat ∧
      bytes twoLayerDims.weightBytesPerLayer = twoLayerDims.totalWeightBytes.toNat ∧
      (∃ first ∈ (twoLayerContent.header 40).tensors,
        (∀ t ∈ (twoLayerContent.header 40).tensors, first.offset.toNat ≤ t.offset.toNat) ∧
        twoLayerDims.totalWeightBytes.toNat + ((twoLayerContent.header 40).dataOffset + first.offset.toNat) =
          (200 : UInt64).toNat) ∧
      ∀ (i : ℕ) (expert weight : UInt64), twoLayerDims.expertWeightBytesPerLayer[i]? = some expert →
        twoLayerDims.weightBytesPerLayer[i]? = some weight → expert ≤ weight :=
  have hdims : modelDims (twoLayerContent.header 40) 200 = .ok twoLayerDims := by decide +kernel
  ⟨hdims, layer_accounting (twoLayerContent.header 40) 200 twoLayerDims (by decide) (by decide +kernel) hdims⟩

/-! ### What the header states, without rounding -/

/-- The numbers the documented formula is about. -/
structure Stated where
  nLayers : ℕ
  nEmbd : ℕ
  kvHeads : ℕ
  heads : ℕ

/-- What a header states. Where one of the two head counts is missing there are as many of
one as of the other. -/
def stated (header : GgufHeader) : Stated :=
  match architecture header with
  | none => ⟨0, 0, 1, 1⟩
  | some arch =>
    let number := fun key => ((metaPos header (arch ++ key)).getD 0).toNat
    let heads := metaPos header (arch ++ ".attention.head_count")
    { nLayers := number ".block_count"
      nEmbd := number ".embedding_length"
      kvHeads := (heads.map fun nHead => ((metaPos header (arch ++ ".attention.head_count_kv")).getD nHead).toNat).getD 1
      heads := (heads.map UInt64.toNat).getD 1 }

/-- Cache bytes of a layer for a token: keys and values, two bytes each. -/
def documentedRate (header : GgufHeader) : ℚ :=
  4 * (stated header).kvHeads * (stated header).nEmbd / (stated header).heads

/-- The bytes of all tensors, as far as the file has them. -/
def weightBytes (header : GgufHeader) (fileSize : UInt64) : ℕ :=
  match header.tensorRanges fileSize with
  | .ok ranges => sizes ranges
  | .error _ => 0

/-- None of the planner's numbers is below the documented one. -/
structure Covers (header : GgufHeader) (fileSize : UInt64) (ctxLen : UInt32) (dims : ModelDims) : Prop where
  rate : documentedRate header ≤ dims.kvBytesPerLayerPerCtxToken.toNat
  layer : documentedRate header * ctxLen.toNat ≤ (dims.kvBytesPerLayer ctxLen).toNat
  all : weightBytes header fileSize + (stated header).nLayers * (ctxLen.toNat * documentedRate header)
    ≤ (dims.totalRequiredBytes ctxLen).toNat

/-- The query heads divide the width, there are not more key/value heads than query heads, and
neither the cache of a token nor everything together takes `2 ^ 64` bytes; or the heads do not
divide the width, but the cache of a token is so small that the least one there can be covers
it, also where the sum of everything wraps. -/
def Measured (weights ctxLen : ℕ) (s : Stated) : Prop :=
  (s.heads ∣ s.nEmbd ∧ s.kvHeads ≤ s.heads ∧ 4 * (s.kvHeads * (s.nEmbd / s.heads)) < 2 ^ 64 ∧
      weights + s.nLayers * (ctxLen * (4 * (s.kvHeads * (s.nEmbd / s.heads)))) < 2 ^ 64) ∨
    (¬ s.heads ∣ s.nEmbd ∧ s.kvHeads * s.nEmbd ≤ s.heads ∧
      weights * s.heads + s.nLayers * (ctxLen * (4 * (s.kvHeads * s.nEmbd))) ≤
        (weights + s.nLayers * (ctxLen * 4)) % 2 ^ 64 * s.heads)

instance (weights ctxLen : ℕ) (s : Stated) : Decidable (Measured weights ctxLen s) := by
  unfold Measured
  infer_instance

/-! ### What the source makes of it -/

/-- The cache width the source computes, from the width and the head counts. -/
def roundedWidth (s : Stated) : ℕ := max (min (s.kvHeads * (s.nEmbd / s.heads) % 2 ^ 64) s.nEmbd) 1

section width

variable {s : Stated}

theorem roundedWidth_mul (hdvd : s.heads ∣ s.nEmbd) (hle : s.kvHeads ≤ s.heads) (hkv : 0 < s.kvHeads)
    (hembd : 0 < s.nEmbd) (hlt : s.nEmbd < 2 ^ 64) : roundedWidth s = s.kvHeads * (s.nEmbd / s.heads) := by
  obtain ⟨c, hc⟩ := hdvd
  have hheads : 0 < s.heads := hkv.trans_le hle
  have hdiv : s.nEmbd / s.heads = c := by rw [hc, Nat.mul_div_cancel_left c hheads]
  have hcpos : 0 < c := Nat.pos_of_ne_zero fun h => by rw [h, Nat.mul_zero] at hc; omega
  have hbound : s.kvHeads * c ≤ s.nEmbd := hc ▸ Nat.mul_le_mul_right c hle
  have hpos : 0 < s.kvHeads * c := Nat.mul_pos hkv hcpos
  rw [roundedWidth, hdiv, Nat.mod_eq_of_lt (hbound.trans_lt hlt), Nat.min_eq_left hbound, Nat.max_eq_left hpos]

/-- Too many key/value heads, or heads that do not divide the width: the width is too small
unless the least width there can be is enough. -/
theorem roundedWidth_short (h : ¬ (s.heads ∣ s.nEmbd ∧ s.kvHeads ≤ s.heads))
    (hkv : 0 < s.kvHeads) (hembd : 0 < s.nEmbd) (hsmall : s.heads ∣ s.nEmbd ∨ s.heads < s.kvHeads * s.nEmbd) :
    roundedWidth s * s.heads < s.kvHeads * s.nEmbd := by
  have hmod : s.kvHeads * (s.nEmbd / s.heads) % 2 ^ 64 ≤ s.kvHeads * (s.nEmbd / s.heads) := Nat.mod_le _ _
  by_cases hdvd : s.heads ∣ s.nEmbd
  · -- There are more key/value heads than query heads.
    have hmore : s.heads < s.kvHeads := Nat.lt_of_not_le fun hle => h ⟨hdvd, hle⟩
    have hwidth : roundedWidth s ≤ s.nEmbd := max_le (Nat.min_le_right _ _) hembd
    calc roundedWidth s * s.heads ≤ s.nEmbd * s.heads := Nat.mul_le_mul_right _ hwidth
      _ < s.nEmbd * s.kvHeads := Nat.mul_lt_mul_of_pos_left hmore hembd
      _ = s.kvHeads * s.nEmbd := Nat.mul_comm _ _
  · have hlarge : s.heads < s.kvHeads * s.nEmbd := hsmall.resolve_left hdvd
    have hwidth : roundedWidth s ≤ max (s.kvHeads * (s.nEmbd / s.heads)) 1 :=
      max_le_max ((Nat.min_le_left _ _).trans hmod) le_rfl
    have hfloor : s.nEmbd / s.heads * s.heads < s.nEmbd :=
      lt_of_le_of_ne (Nat.div_mul_le_self _ _) fun heq => hdvd (Nat.dvd_of_mod_eq_zero (by
        have := Nat.div_add_mod s.nEmbd s.heads
        rw [Nat.mul_comm] at this
        omega))
    rcases le_max_iff.mp hwidth with hle | hle
    · calc roundedWidth s * s.heads ≤ s.kvHeads * (s.nEmbd / s.heads) * s.heads := Nat.mul_le_mul_right _ hle
        _ = s.kvHeads * (s.nEmbd / s.heads * s.heads) := Nat.mul_assoc _ _ _
        _ < s.kvHeads * s.nEmbd := Nat.mul_lt_mul_of_pos_left hfloor hkv
    · calc roundedWidth s * s.heads ≤ 1 * s.heads := Nat.mul_le_mul_right _ hle
        _ = s.heads := Nat.one_mul _
        _ < s.kvHeads * s.nEmbd := hlarge

theorem roundedWidth_least (hdvd : ¬ s.heads ∣ s.nEmbd) (hle : s.kvHeads * s.nEmbd ≤ s.heads) (hkv : 0 < s.kvHeads) :
    roundedWidth s = 1 := by
  have hlt : s.nEmbd < s.heads := by
    refine lt_of_le_of_ne ((Nat.le_mul_of_pos_left _ hkv).trans hle) fun heq => hdvd ?_
    rw [heq]
  rw [roundedWidth, Nat.div_eq_of_lt hlt, Nat.mul_zero, Nat.zero_mod, Nat.zero_min, Nat.max_eq_right (Nat.zero_le 1)]

/-- The numbers of the source, from the rounded width. -/
structure Computed (s : Stated) (weights ctxLen rate layer all : ℕ) : Prop where
  rate_eq : rate = 4 * roundedWidth s % 2 ^ 64
  layer_eq : layer = rate * ctxLen % 2 ^ 64
  all_eq : all = (weights + s.nLayers * layer) % 2 ^ 64

/-- Numbers a header that is accepted can have. -/
structure Stated.Proper (s : Stated) : Prop where
  nLayers : 0 < s.nLayers
  nEmbd : 0 < s.nEmbd
  width : s.nEmbd < 2 ^ 64
  kvHeads : 0 < s.kvHeads
  heads : 0 < s.heads

variable {weights ctxLen rate layer all : ℕ}

/-- Where the width is exact, the numbers cover the formula exactly when none of them wraps. -/
theorem Computed.exact_iff (h : Computed s weights ctxLen rate layer all) (hs : s.Proper) {width : ℕ}
    (hwidth : roundedWidth s = width) :
    (4 * width ≤ rate ∧ 4 * width * ctxLen ≤ layer ∧ weights + s.nLayers * (ctxLen * (4 * width)) ≤ all) ↔
      4 * width < 2 ^ 64 ∧ weights + s.nLayers * (ctxLen * (4 * width)) < 2 ^ 64 := by
  have hr : rate < 2 ^ 64 := h.rate_eq ▸ Nat.mod_lt _ (Nat.two_pow_pos 64)
  have ha : all < 2 ^ 64 := h.all_eq ▸ Nat.mod_lt _ (Nat.two_pow_pos 64)
  constructor
  · rintro ⟨hrate, -, hall⟩
    exact ⟨hrate.trans_lt hr, hall.trans_lt ha⟩
  · rintro ⟨hrate, hall⟩
    have hlayers : ctxLen * (4 * width) ≤ s.nLayers * (ctxLen * (4 * width)) := Nat.le_mul_of_pos_left _ hs.nLayers
    have hrate' : rate = 4 * width := by rw [h.rate_eq, hwidth, Nat.mod_eq_of_lt hrate]
    have hlayer' : layer = ctxLen * (4 * width) := by
      rw [h.layer_eq, hrate', Nat.mul_comm, Nat.mod_eq_of_lt (by omega)]
    refine ⟨hrate'.ge, ?_, ?_⟩
    · rw [hlayer', Nat.mul_comm]
    · rw [h.all_eq, hlayer', Nat.mod_eq_of_lt hall]

/-- **The numbers cover the formula exactly under the condition.** The formula is multiplied by
the number of heads, so that nothing is divided. -/
theorem Computed.covers_iff (h : Computed s weights ctxLen rate layer all) (hs : s.Proper) (hctx : ctxLen < 2 ^ 32) :
    (4 * (s.kvHeads * s.nEmbd) ≤ rate * s.heads ∧ 4 * (s.kvHeads * s.nEmbd) * ctxLen ≤ layer * s.heads ∧
      weights * s.heads + s.nLayers * (ctxLen * (4 * (s.kvHeads * s.nEmbd))) ≤ all * s.heads) ↔
      Measured weights ctxLen s := by
  have hrate : rate ≤ 4 * roundedWidth s := h.rate_eq ▸ Nat.mod_le _ _
  by_cases hdvd : s.heads ∣ s.nEmbd
  · by_cases hle : s.kvHeads ≤ s.heads
    · -- The width is exact.
      have hwidth := roundedWidth_mul hdvd hle hs.kvHeads hs.nEmbd hs.width
      have hprod : s.kvHeads * s.nEmbd = s.kvHeads * (s.nEmbd / s.heads) * s.heads := by
        rw [Nat.mul_assoc, Nat.div_mul_cancel hdvd]
      have hiff := h.exact_iff hs hwidth
      simp only [Measured, hdvd, hle, true_and, not_true_eq_false, false_and, or_false, ← hiff]
      rw [hprod]
      generalize s.kvHeads * (s.nEmbd / s.heads) = width
      have hcancel : ∀ a b : ℕ, a * s.heads ≤ b * s.heads ↔ a ≤ b := fun a b =>
        Nat.mul_le_mul_right_iff hs.heads
      rw [← hcancel (4 * width), ← hcancel (4 * width * ctxLen), ← hcancel (weights + _)]
      ring_nf
    · have hshort := roundedWidth_short (fun hno => hle hno.2) hs.kvHeads hs.nEmbd (.inl hdvd)
      refine iff_of_false (fun hcovers => ?_) ?_
      · have := hcovers.1.trans (Nat.mul_le_mul_right s.heads hrate)
        rw [Nat.mul_assoc] at this
        omega
      · simp only [Measured, hdvd, hle, not_true_eq_false, false_and, and_false, or_false, not_false_eq_true]
  · by_cases hsmall : s.kvHeads * s.nEmbd ≤ s.heads
    · -- The least width.
      have hwidth := roundedWidth_least hdvd hsmall hs.kvHeads
      have hrate4 : rate = 4 := by rw [h.rate_eq, hwidth]; rfl
      have hlayer : layer = ctxLen * 4 := by
        rw [h.layer_eq, hrate4, Nat.mul_comm, Nat.mod_eq_of_lt (by omega)]
      have hfirst : 4 * (s.kvHeads * s.nEmbd) ≤ rate * s.heads := by
        rw [hrate4]
        omega
      have hsecond : 4 * (s.kvHeads * s.nEmbd) * ctxLen ≤ layer * s.heads := by
        calc 4 * (s.kvHeads * s.nEmbd) * ctxLen ≤ 4 * s.heads * ctxLen :=
              Nat.mul_le_mul_right ctxLen (Nat.mul_le_mul_left 4 hsmall)
          _ = layer * s.heads := by rw [hlayer, Nat.mul_right_comm, Nat.mul_comm 4]
      simp only [Measured, hdvd, hsmall, hfirst, hsecond, false_and, not_false_eq_true, true_and, false_or]
      rw [h.all_eq, hlayer]
    · have hshort := roundedWidth_short (fun hno => hdvd hno.1) hs.kvHeads hs.nEmbd (.inr (Nat.lt_of_not_le hsmall))
      refine iff_of_false (fun hcovers => ?_) ?_
      · have := hcovers.1.trans (Nat.mul_le_mul_right s.heads hrate)
        rw [Nat.mul_assoc] at this
        omega
      · simp only [Measured, hdvd, hsmall, false_and, and_false, or_false, not_false_eq_true]

end width

theorem metaPos_pos {key : String} {v : UInt64} (h : metaPos header key = some v) : 0 < v.toNat := by
  have := (filter_eq_some_iff.mp h).2
  rwa [decide_eq_true_eq, UInt64.lt_iff_toNat_lt] at this

theorem layersU32_eq_ok {blocks : UInt64} {n : UInt32} (h : layersU32 blocks = .ok n) : n.toNat = blocks.toNat := by
  unfold layersU32 at h
  split at h
  · rename_i hlt
    cases h
    rw [UInt64.toNat_toUInt32, Nat.mod_eq_of_lt hlt]
  · cases h

theorem toNat_embdKv {arch : String} {nEmbd : UInt64} (harch : architecture header = some arch)
    (hembd : metaPos header (arch ++ ".embedding_length") = some nEmbd) :
    (embdKv header arch nEmbd).toNat = roundedWidth (stated header) := by
  have hpos : 0 < nEmbd.toNat := metaPos_pos hembd
  have hlt : nEmbd.toNat < 2 ^ 64 := nEmbd.toNat_lt
  simp only [embdKv, stated, harch, hembd, roundedWidth, getD_some]
  cases metaPos header (arch ++ ".attention.head_count") with
  | none =>
    simp only [map_none, getD_none, Nat.div_one, Nat.one_mul]
    rw [Nat.mod_eq_of_lt hlt, Nat.min_self, Nat.max_eq_left hpos]
  | some =>
    simp only [map_some, getD_some, UInt64.toNat_max, UInt64.toNat_min, UInt64.toNat_mul, UInt64.toNat_div]
    rfl

theorem stated_proper {arch : String} {blocks nEmbd : UInt64} (harch : architecture header = some arch)
    (hblocks : metaPos header (arch ++ ".block_count") = some blocks)
    (hembd : metaPos header (arch ++ ".embedding_length") = some nEmbd) : (stated header).Proper := by
  have hnumbers : (stated header).nLayers = blocks.toNat ∧ (stated header).nEmbd = nEmbd.toNat := by
    simp only [stated, harch, hblocks, hembd, getD_some, and_self]
  have hheads : 0 < (stated header).heads ∧ 0 < (stated header).kvHeads := by
    simp only [stated, harch]
    cases hhead : metaPos header (arch ++ ".attention.head_count") with
    | none => exact ⟨Nat.one_pos, Nat.one_pos⟩
    | some =>
      refine ⟨metaPos_pos hhead, ?_⟩
      simp only [map_some, getD_some]
      cases hkv : metaPos header (arch ++ ".attention.head_count_kv") with
      | none => exact metaPos_pos hhead
      | some => exact metaPos_pos hkv
  refine ⟨?_, ?_, ?_, hheads.2, hheads.1⟩
  · rw [hnumbers.1]
    exact metaPos_pos hblocks
  · rw [hnumbers.2]
    exact metaPos_pos hembd
  · rw [hnumbers.2]
    exact nEmbd.toNat_lt

theorem declared_stated {d : Declared} (h : declared header = .ok d) :
    (stated header).Proper ∧ (stated header).nLayers = d.nLayers.toNat ∧
      d.kvRate.toNat = 4 * roundedWidth (stated header) % 2 ^ 64 := by
  unfold declared at h
  obtain ⟨arch, harch, h⟩ := bind_eq_ok_iff.mp h
  obtain ⟨blocks, hblocks, h⟩ := bind_eq_ok_iff.mp h
  obtain ⟨nLayers, hlayers, h⟩ := bind_eq_ok_iff.mp h
  obtain ⟨nEmbd, hembd, h⟩ := bind_eq_ok_iff.mp h
  obtain ⟨nExpert, -, h⟩ := bind_eq_ok_iff.mp h
  obtain ⟨nExpertUsed, -, h⟩ := bind_eq_ok_iff.mp h
  have harch := okOr_eq_ok harch
  have hblocks := okOr_eq_ok hblocks
  have hembd := okOr_eq_ok hembd
  split at h
  · cases h
  · cases h
    refine ⟨stated_proper harch hblocks hembd, ?_, ?_⟩
    · simp only [stated, harch, hblocks, getD_some]
      exact (layersU32_eq_ok hlayers).symm
    · rw [← toNat_embdKv harch hembd, UInt64.toNat_mul]
      rfl

theorem modelDims_computed {dims : ModelDims} (h : modelDims header fileSize = .ok dims) (ctxLen : UInt32) :
    (stated header).Proper ∧
      Computed (stated header) (weightBytes header fileSize) ctxLen.toNat dims.kvBytesPerLayerPerCtxToken.toNat
        (dims.kvBytesPerLayer ctxLen).toNat (dims.totalRequiredBytes ctxLen).toNat := by
  obtain ⟨d, ranges, t, hd, hranges, ht, rfl⟩ := modelDims_eq_ok h
  obtain ⟨hproper, hlayers, hrate⟩ := declared_stated hd
  obtain ⟨hcounts, -⟩ := Tally.Routed.ranges (declared_layers hd) (sizes_lt hranges) ht
  have hweights : weightBytes header fileSize = t.total.toNat := by rw [weightBytes, hranges, hcounts.total]
  refine ⟨hproper, hrate, ?_, ?_⟩
  · rw [ModelDims.kvBytesPerLayer, UInt64.toNat_mul, UInt32.toNat_toUInt64]
  · rw [ModelDims.totalRequiredBytes, UInt64.toNat_add, UInt64.toNat_mul, UInt32.toNat_toUInt64, hweights, hlayers,
      Nat.add_mod_mod]

/-- **When the memory demand is not under-estimated**: for every header and file size from which
the dimensions can be read off, and every context length, none of the planner's numbers is
below the documented formula if and only if the header is `Measured`. -/
theorem demand_iff (header : GgufHeader) (fileSize : UInt64) (dims : ModelDims) (ctxLen : UInt32)
    (h : modelDims header fileSize = .ok dims) :
    Covers header fileSize ctxLen dims ↔ Measured (weightBytes header fileSize) ctxLen.toNat (stated header) := by
  obtain ⟨hproper, hcomputed⟩ := modelDims_computed h ctxLen
  rw [← hcomputed.covers_iff hproper ctxLen.toNat_lt]
  have hheads : (0 : ℚ) < (stated header).heads := Nat.cast_pos.mpr hproper.heads
  -- A bound on the formula is a bound on the product with the heads.
  have hscale : ∀ (scale value offset : ℕ), offset + scale * documentedRate header ≤ (value : ℚ) ↔
      offset * (stated header).heads + scale * (4 * ((stated header).kvHeads * (stated header).nEmbd)) ≤
        value * (stated header).heads := by
    intro scale value offset
    have hform : (offset : ℚ) + scale * documentedRate header =
        ((offset * (stated header).heads + scale * (4 * ((stated header).kvHeads * (stated header).nEmbd)) : ℕ) : ℚ)
          / (stated header).heads := by
      rw [documentedRate, eq_div_iff hheads.ne', add_mul, mul_assoc, div_mul_cancel₀ _ hheads.ne']
      push_cast
      ring
    rw [hform, div_le_iff₀ hheads, ← Nat.cast_mul, Nat.cast_le]
  have hrate := hscale 1 dims.kvBytesPerLayerPerCtxToken.toNat 0
  have hlayer := hscale ctxLen.toNat (dims.kvBytesPerLayer ctxLen).toNat 0
  have hall := hscale ((stated header).nLayers * ctxLen.toNat) (dims.totalRequiredBytes ctxLen).toNat
    (weightBytes header fileSize)
  simp only [Nat.cast_zero, Nat.cast_one, zero_add, one_mul, zero_mul] at hrate hlayer
  rw [Nat.cast_mul, mul_assoc, Nat.mul_assoc] at hall
  rw [Nat.mul_comm ctxLen.toNat] at hlayer
  rw [mul_comm] at hlayer
  constructor
  · rintro ⟨h₁, h₂, h₃⟩
    exact ⟨hrate.mp h₁, hlayer.mp h₂, hall.mp h₃⟩
  · rintro ⟨h₁, h₂, h₃⟩
    exact ⟨hrate.mpr h₁, hlayer.mpr h₂, hall.mpr h₃⟩

theorem demand_iff_two : modelDims (twoLayerContent.header 40) 200 = .ok twoLayerDims ∧
      Covers (twoLayerContent.header 40) 200 4096 twoLayerDims :=
  have hdims : modelDims (twoLayerContent.header 40) 200 = .ok twoLayerDims := by decide +kernel
  ⟨hdims, (demand_iff (twoLayerContent.header 40) 200 twoLayerDims 4096 hdims).mpr (by decide +kernel)⟩

/-- A width that is no multiple of the number of heads. -/
def threeHeadsContent : HeaderContent where
  version := 3
  kvs := [("general.architecture", .str "llama"), ("llama.block_count", .u32 1), ("llama.embedding_length", .u32 100),
    ("llama.attention.head_count", .u32 3)]
  tensors := []

theorem threeHeadsContent_wellFormed : threeHeadsContent.WellFormed := by
  constructor
  · exact .inr rfl
  · decide +kernel
  · simp only [threeHeadsContent, mem_cons, not_mem_nil, or_false, forall_eq_or_imp, forall_eq]
    exact ⟨(by decide +kernel : (strBytes "llama").length ≤ maxString), trivial, trivial, trivial⟩
  · simp [threeHeadsContent]

/-- Its dimensions: the cache of a token takes 396 bytes of the 400. -/
def threeHeadsDims : ModelDims where
  nLayers := 1
  kvBytesPerLayerPerCtxToken := 396
  weightBytesPerLayer := [0]
  totalWeightBytes := 0
  nEmbd := 100
  nExpert := 0
  nExpertUsed := 0
  expertWeightBytesPerLayer := [0]

/-- **A demand that is too small**: the written form of that content parses and is accepted,
and the planner reckons with 396 bytes for a token where the formula gives 400. -/
theorem demand_too_small : ∃ header, parse threeHeadsContent.encode = .ok header ∧
    modelDims header 4096 = .ok threeHeadsDims ∧ documentedRate header = 400 ∧
    ¬ Covers header 4096 1 threeHeadsDims := by
  have hcode : HeaderCode (· ≠ Cursor.tArray) threeHeadsContent threeHeadsContent.encode :=
    HeaderContent.encode_code (by decide) threeHeadsContent_wellFormed (by decide +kernel)
  have hfits : (threeHeadsContent.encode ++ []).length < sliceLimit := by decide +kernel
  have hparse := headerContent_code hcode hfits
  rw [append_nil] at hparse
  have hrate : documentedRate (threeHeadsContent.header threeHeadsContent.encode.length) = 400 := by decide +kernel
  refine ⟨_, parse_eq_ok.mpr ⟨_, _, hparse, rfl⟩, by decide +kernel, hrate, fun hcovers => ?_⟩
  have hle := hcovers.rate
  rw [hrate] at hle
  exact absurd hle (by decide +kernel)

end OneBrain.Scheduler
