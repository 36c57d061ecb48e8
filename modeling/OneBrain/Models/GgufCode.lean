import Mathlib.Tactic.NormNum
import Mathlib.Tactic.Ring
import OneBrain.Models.Gguf

/-!
# What the GGUF parser accepts

The format seen from the writer's side: which bytes a header's content is written as.
`HeaderContent.encode` is the writer the parser's own tests use, extended to every value
type; `HeaderCode` is the relation between a content and the byte strings a parser may
take for it, in which a true boolean is any byte but zero.

An empty array still records an element type. The parser looks at that number only to
refuse nested arrays, so a second freedom is left to the writer: which numbers an empty
array may record is the parameter `Empty` of the relation.

The parser reads `HeaderCode` exactly: `reads_headerContent` follows the structure of the
parser, one rule of `Lib.Reader` for each way its readers are put together.
-/

namespace OneBrain.Models

open Lib Lib.Reader Cursor

/-! ### Encodings -/

/-- The bytes of a string. -/
def strBytes (s : String) : List UInt8 := s.toUTF8.data.toList

/-- A string in the file: its length, and its bytes. -/
def stringBytes (s : String) : List UInt8 := leBytes 8 (strBytes s).length ++ strBytes s

namespace MetaValue

/-- The number of a type in the file. -/
@[simp] def typeId : MetaValue → UInt32
  | .u8 _ => 0
  | .i8 _ => 1
  | .u16 _ => 2
  | .i16 _ => 3
  | .u32 _ => 4
  | .i32 _ => 5
  | .f32 _ => 6
  | .bool _ => 7
  | .str _ => 8
  | .array _ => tArray
  | .u64 _ => 10
  | .i64 _ => 11
  | .f64 _ => 12

/-- The bytes of a value. -/
@[simp] def payload : MetaValue → List UInt8
  | .u8 v => leBytes 1 v.toNat
  | .i8 v => leBytes 1 v.toUInt8.toNat
  | .u16 v => leBytes 2 v.toNat
  | .i16 v => leBytes 2 v.toUInt16.toNat
  | .u32 v => leBytes 4 v.toNat
  | .i32 v => leBytes 4 v.toUInt32.toNat
  | .f32 bits => leBytes 4 bits.toNat
  | .bool v => leBytes 1 v.toNat
  | .str s => stringBytes s
  | .u64 v => leBytes 8 v.toNat
  | .i64 v => leBytes 8 v.toUInt64.toNat
  | .f64 bits => leBytes 8 bits.toNat
  | .array _ => []

/-- The element type a writer records for an array: that of its elements. An empty array
is written as one of bytes. -/
def elemType : List MetaValue → UInt32
  | [] => 0
  | v :: _ => v.typeId

/-- A value with its type. -/
def encode : MetaValue → List UInt8
  | .array items =>
    leBytes 4 tArray.toNat ++ (leBytes 4 (elemType items).toNat ++
      (leBytes 8 items.length ++ items.flatMap payload))
  | v => leBytes 4 v.typeId.toNat ++ v.payload

/-- A value that is no array and whose text is not longer than the parser takes. -/
@[simp] def Scalar : MetaValue → Prop
  | .array _ => False
  | .str s => (strBytes s).length ≤ maxString
  | _ => True

/-- A value that a file can hold. -/
def WellFormed : MetaValue → Prop
  | .array items => (∀ v ∈ items, v.Scalar) ∧ ∀ v ∈ items, v.typeId = elemType items
  | v => v.Scalar

end MetaValue

/-- A metadata entry in the file. -/
def keyValueBytes (kv : String × MetaValue) : List UInt8 := stringBytes kv.1 ++ kv.2.encode

/-- A tensor entry in the file. -/
def TensorInfo.encode (t : TensorInfo) : List UInt8 :=
  stringBytes t.name ++ (leBytes 4 t.dims.length ++ (t.dims.flatMap (fun d => leBytes 8 d.toNat) ++
    (leBytes 4 t.ggmlType.toNat ++ leBytes 8 t.offset.toNat)))

/-- A tensor entry that a file can hold. -/
structure TensorInfo.WellFormed (t : TensorInfo) : Prop where
  name : (strBytes t.name).length ≤ maxString
  dims : t.dims.length ≤ 8

namespace HeaderContent

/-- The header as a writer writes it. -/
def encode (c : HeaderContent) : List UInt8 :=
  leBytes 4 ggufMagic.toNat ++ (leBytes 4 c.version.toNat ++ (leBytes 8 c.tensors.length ++
    (leBytes 8 c.kvs.length ++ (c.kvs.flatMap keyValueBytes ++ c.tensors.flatMap TensorInfo.encode))))

/-- A content the format can express. -/
structure WellFormed (c : HeaderContent) : Prop where
  version : c.version = 2 ∨ c.version = 3
  keys : ∀ kv ∈ c.kvs, (strBytes kv.1).length ≤ maxString
  values : ∀ kv ∈ c.kvs, kv.2.WellFormed
  tensors : ∀ t ∈ c.tensors, t.WellFormed

end HeaderContent

/-! ### Byte strings a parser may take for a content -/

/-- The payloads of a scalar. A true boolean is any byte but zero. -/
@[simp] def Payload : MetaValue → List UInt8 → Prop
  | .bool true, enc => ∃ x : UInt8, x ≠ 0 ∧ enc = [x]
  | v, enc => v.Scalar ∧ enc = v.payload

/-- What follows the type id of a value. `Empty` holds of the element types an empty array
may record. -/
def BodyCode (Empty : UInt32 → Prop) : MetaValue → List UInt8 → Prop
  | .array items, enc => ∃ ty body, ty ≠ tArray ∧ (items = [] → Empty ty) ∧
      (∀ v ∈ items, v.typeId = ty) ∧ Coded Payload items body ∧ items.length < 2 ^ 64 ∧
      enc = leBytes 4 ty.toNat ++ (leBytes 8 items.length ++ body)
  | v, enc => Payload v enc

/-- The bytes of a value with its type. -/
def ValueCode (Empty : UInt32 → Prop) (v : MetaValue) (enc : List UInt8) : Prop :=
  ∃ body, BodyCode Empty v body ∧ enc = leBytes 4 v.typeId.toNat ++ body

/-- The bytes of a string. -/
def StringCode (s : String) (enc : List UInt8) : Prop :=
  (strBytes s).length ≤ maxString ∧ enc = stringBytes s

/-- The encodings of a key/value pair. -/
def KeyValueCode (Empty : UInt32 → Prop) (kv : String × MetaValue) (enc : List UInt8) : Prop :=
  ∃ e₁ e₂, StringCode kv.1 e₁ ∧ ValueCode Empty kv.2 e₂ ∧ enc = e₁ ++ e₂

/-- The bytes of a tensor entry. -/
def TensorCode (t : TensorInfo) (enc : List UInt8) : Prop := t.WellFormed ∧ enc = t.encode

/-- The bytes of a whole header. -/
def HeaderCode (Empty : UInt32 → Prop) (c : HeaderContent) (enc : List UInt8) : Prop :=
  (c.version = 2 ∨ c.version = 3) ∧ c.kvs.length < 2 ^ 64 ∧ c.tensors.length < 2 ^ 64 ∧
    ∃ kvs tensors, Coded (KeyValueCode Empty) c.kvs kvs ∧ Coded TensorCode c.tensors tensors ∧
      enc = leBytes 4 ggufMagic.toNat ++ (leBytes 4 c.version.toNat ++
        (leBytes 8 c.tensors.length ++ (leBytes 8 c.kvs.length ++ (kvs ++ tensors))))

/-- The element types of the format: the type ids of scalars. -/
def ScalarType (ty : UInt32) : Prop := ty.toNat ≤ 12 ∧ ty ≠ tArray

/-! ### The cursor reads these encodings -/

theorem reads_take (n : ℕ) : Reads sliceLimit (take n) fun raw enc => raw.length = n ∧ enc = raw := by
  intro b pos hb hpos raw m
  unfold sliceLimit at hb
  unfold take
  constructor
  · intro h
    split at h
    · cases h
    split at h
    · cases h
    · cases h
      refine ⟨_, (b.drop pos).drop n, ⟨?_, rfl⟩, (List.take_append_drop n _).symm, ?_⟩
      all_goals
        rw [List.length_take, List.length_drop]
        omega
  · rintro ⟨_, rest, ⟨rfl, rfl⟩, hdrop, rfl⟩
    have hle := (drop_append_length hpos hdrop).1
    rw [if_neg (by omega), if_neg (by omega), hdrop, List.take_left]

/-- Reading a number of a fixed width into a type that has exactly these values. -/
theorem reads_number {α : Type} {w : ℕ} (mk : ℕ → α) (toNat : α → ℕ) (hlt : ∀ a, toNat a < 256 ^ w)
    (hmk : ∀ n, n < 256 ^ w → toNat (mk n) = n) (hinv : ∀ a, mk (toNat a) = a) :
    Reads sliceLimit (number w >>= fun n => pure (mk n)) fun a enc => enc = leBytes w (toNat a) := by
  refine ((((reads_take w).map leNat)).map mk).congr fun a enc => ?_
  rw [eq_leBytes_iff (hlt a)]
  constructor
  · rintro ⟨_, ⟨raw, ⟨rfl, rfl⟩, rfl⟩, rfl⟩
    exact ⟨rfl, (hmk _ (leNat_lt enc)).symm⟩
  · rintro ⟨hlen, hnat⟩
    exact ⟨_, ⟨enc, ⟨hlen, rfl⟩, rfl⟩, by rw [hnat, hinv]⟩

theorem reads_byte : Reads sliceLimit byte fun v enc => enc = leBytes 1 v.toNat :=
  reads_number UInt8.ofNat UInt8.toNat (fun v => v.toNat_lt)
    (fun _ h => UInt8.toNat_ofNat_of_lt' h) fun _ => UInt8.ofNat_toNat

theorem reads_u16 : Reads sliceLimit u16 fun v enc => enc = leBytes 2 v.toNat :=
  reads_number UInt16.ofNat UInt16.toNat (fun v => v.toNat_lt)
    (fun _ h => UInt16.toNat_ofNat_of_lt' h) fun _ => UInt16.ofNat_toNat

theorem reads_u32 : Reads sliceLimit u32 fun v enc => enc = leBytes 4 v.toNat :=
  reads_number UInt32.ofNat UInt32.toNat (fun v => v.toNat_lt)
    (fun _ h => UInt32.toNat_ofNat_of_lt' h) fun _ => UInt32.ofNat_toNat

theorem reads_u64 : Reads sliceLimit u64 fun v enc => enc = leBytes 8 v.toNat :=
  reads_number UInt64.ofNat UInt64.toNat (fun v => v.toNat_lt)
    (fun _ h => UInt64.toNat_ofNat_of_lt' h) fun _ => UInt64.ofNat_toNat

theorem fromUTF8_eq_some {raw : List UInt8} {s : String} :
    String.fromUTF8? ⟨raw.toArray⟩ = some s ↔ strBytes s = raw := by
  unfold String.fromUTF8? strBytes String.toUTF8
  constructor
  · intro h
    split at h
    · cases h
      rfl
    · cases h
  · rintro rfl
    rw [dif_pos s.isValidUTF8]
    rfl

theorem strBytes_injective {s t : String} (h : strBytes s = strBytes t) : s = t := by
  have hs := fromUTF8_eq_some.mpr h
  have ht := fromUTF8_eq_some.mpr (rfl : strBytes t = strBytes t)
  rw [hs] at ht
  exact Option.some.inj ht

theorem reads_fromUtf8 (raw : List UInt8) :
    Reads sliceLimit (fromUtf8 raw) fun s enc => strBytes s = raw ∧ enc = [] := by
  unfold fromUtf8
  split
  · rename_i s hs
    rw [fromUTF8_eq_some] at hs
    refine (reads_pure s).congr fun t enc => and_congr_left' ?_
    constructor
    · rintro rfl
      exact hs
    · intro ht
      exact strBytes_injective (ht.trans hs.symm)
  · rename_i hnone
    refine (reads_throw _).congr fun t enc => ?_
    constructor
    · exact False.elim
    · rintro ⟨ht, -⟩
      rw [← fromUTF8_eq_some, hnone] at ht
      cases ht

theorem reads_string : Reads sliceLimit string StringCode := by
  refine (reads_u64.bind fun len =>
    ((reads_take _).bind fun raw => reads_fromUtf8 raw).unless _).congr fun s enc => ?_
  unfold StringCode stringBytes
  constructor
  · rintro ⟨len, _, _, rfl, ⟨hle, raw, _, _, ⟨hlen, rfl⟩, ⟨rfl, rfl⟩, rfl⟩, rfl⟩
    rw [hlen]
    exact ⟨Nat.not_lt.mp hle, by rw [List.append_nil]⟩
  · rintro ⟨hle, rfl⟩
    have hlt : (strBytes s).length < UInt64.size :=
      lt_of_le_of_lt hle (by decide)
    have hlen : (UInt64.ofNat (strBytes s).length).toNat = (strBytes s).length :=
      UInt64.toNat_ofNat_of_lt' hlt
    refine ⟨UInt64.ofNat (strBytes s).length, _, strBytes s, rfl, ?_, by rw [hlen]⟩
    rw [hlen]
    exact ⟨Nat.not_lt.mpr hle, strBytes s, _, [], ⟨rfl, rfl⟩, ⟨rfl, rfl⟩, by rw [List.append_nil]⟩

theorem reads_scalar {U S : Type} {r : Cursor U} {P : U → List UInt8 → Prop} {ty : UInt32}
    (mk : S → MetaValue) (conv : U → S) (back : S → U) (hback : ∀ a, back (conv a) = a)
    (hconv : ∀ b, conv (back b) = b) (hr : Reads sliceLimit r P)
    (h : ∀ v enc, (∃ b, P (back b) enc ∧ v = mk b) ↔ v.typeId = ty ∧ Payload v enc) :
    Reads sliceLimit (r >>= fun a => pure (mk (conv a))) fun v enc =>
      v.typeId = ty ∧ Payload v enc := by
  refine (hr.map _).congr fun v enc => Iff.trans ?_ (h v enc)
  constructor
  · rintro ⟨a, ha, rfl⟩
    exact ⟨conv a, by rwa [hback], rfl⟩
  · rintro ⟨b, hb, rfl⟩
    exact ⟨back b, hb, by rw [hconv]⟩

theorem reads_bool :
    Reads sliceLimit (byte >>= fun v => pure (MetaValue.bool (v != 0))) fun v enc =>
      v.typeId = 7 ∧ Payload v enc := by
  refine (reads_byte.map _).congr fun v enc => ?_
  have hbyte (x : UInt8) : leBytes 1 x.toNat = [x] := by
    rw [leBytes, leBytes, UInt8.ofNat_toNat]
  constructor
  · rintro ⟨x, rfl, rfl⟩
    refine ⟨rfl, ?_⟩
    rw [hbyte]
    by_cases hx : x = 0
    · subst hx
      exact ⟨trivial, rfl⟩
    · rw [show (x != 0) = true by simpa using hx]
      exact ⟨x, hx, rfl⟩
  · rintro ⟨hty, hv⟩
    cases v with
    | bool v =>
      cases v with
      | false => exact ⟨0, hv.2, rfl⟩
      | true =>
        obtain ⟨x, hx, rfl⟩ := hv
        exact ⟨x, (hbyte x).symm, by simp [hx]⟩
    | _ => simp at hty

theorem reads_scalarValue (ty : UInt32) :
    Reads sliceLimit (scalarValue ty) fun v enc => v.typeId = ty ∧ Payload v enc := by
  -- One branch for each type id, in the order of the source.
  refine Reads.ite ?_ fun h0 => Reads.ite ?_ fun h1 => Reads.ite ?_ fun h2 => Reads.ite ?_ fun h3 =>
    Reads.ite ?_ fun h4 => Reads.ite ?_ fun h5 => Reads.ite ?_ fun h6 => Reads.ite ?_ fun h7 =>
    Reads.ite ?_ fun h8 => Reads.ite ?_ fun h10 => Reads.ite ?_ fun h11 => Reads.ite ?_ fun h12 => ?_
  · rintro rfl
    apply reads_scalar MetaValue.u8 id id (fun _ => rfl) (fun _ => rfl) reads_byte
    intro v enc
    cases v <;> simp
  · rintro rfl
    apply reads_scalar MetaValue.i8 UInt8.toInt8 Int8.toUInt8 (fun _ => rfl) (fun _ => rfl) reads_byte
    intro v enc
    cases v <;> simp
  · rintro rfl
    apply reads_scalar MetaValue.u16 id id (fun _ => rfl) (fun _ => rfl) reads_u16
    intro v enc
    cases v <;> simp
  · rintro rfl
    apply reads_scalar MetaValue.i16 UInt16.toInt16 Int16.toUInt16 (fun _ => rfl) (fun _ => rfl) reads_u16
    intro v enc
    cases v <;> simp
  · rintro rfl
    apply reads_scalar MetaValue.u32 id id (fun _ => rfl) (fun _ => rfl) reads_u32
    intro v enc
    cases v <;> simp
  · rintro rfl
    apply reads_scalar MetaValue.i32 UInt32.toInt32 Int32.toUInt32 (fun _ => rfl) (fun _ => rfl) reads_u32
    intro v enc
    cases v <;> simp
  · rintro rfl
    apply reads_scalar MetaValue.f32 id id (fun _ => rfl) (fun _ => rfl) reads_u32
    intro v enc
    cases v <;> simp
  · rintro rfl
    exact reads_bool
  · rintro rfl
    apply reads_scalar MetaValue.str id id (fun _ => rfl) (fun _ => rfl) reads_string
    intro v enc
    cases v <;> simp [StringCode]
  · rintro rfl
    apply reads_scalar MetaValue.u64 id id (fun _ => rfl) (fun _ => rfl) reads_u64
    intro v enc
    cases v <;> simp
  · rintro rfl
    apply reads_scalar MetaValue.i64 UInt64.toInt64 Int64.toUInt64 (fun _ => rfl) (fun _ => rfl) reads_u64
    intro v enc
    cases v <;> simp
  · rintro rfl
    apply reads_scalar MetaValue.f64 id id (fun _ => rfl) (fun _ => rfl) reads_u64
    intro v enc
    cases v <;> simp
  · refine (reads_throw _).congr fun v enc => ?_
    constructor
    · exact False.elim
    · rintro ⟨rfl, hv⟩
      cases v
      case array => exact hv.1
      all_goals simp at h0 h1 h2 h3 h4 h5 h6 h7 h8 h10 h11 h12

variable {v : MetaValue} {enc : List UInt8} {n : ℕ} {Empty : UInt32 → Prop} {c : HeaderContent}

theorem payload_pos (h : Payload v enc) : 0 < enc.length := by
  cases v with
  | array => exact h.1.elim
  | bool v =>
    cases v with
    | false =>
      rw [h.2]
      exact Nat.one_pos
    | true =>
      obtain ⟨x, -, rfl⟩ := h
      exact Nat.one_pos
  | str =>
    rw [h.2]
    simp [stringBytes]
  | _ =>
    rw [h.2]
    simp

theorem toNat_count (h : n < 2 ^ 64) : (UInt64.ofNat n).toNat = n :=
  UInt64.toNat_ofNat_of_lt' h

theorem reads_array :
    Reads sliceLimit (typedValue tArray) fun v enc =>
      v.typeId = tArray ∧ BodyCode (· ≠ tArray) v enc := by
  have helems (ty : UInt32) (n : ℕ) (e : List UInt8 → ℕ → GgufError) := Reads.ensure (e := e) (n := n)
    (((reads_scalarValue ty).many n).map MetaValue.array) (by
      rintro v enc ⟨items, ⟨rfl, hcoded⟩, -⟩
      exact hcoded.length_le fun a e h => payload_pos h.2)
  unfold typedValue
  rw [if_pos rfl]
  refine (reads_u32.bind fun ty => (reads_u64.bind fun count => helems ty count.toNat _).unless _).congr
    fun v enc => ?_
  constructor
  · rintro ⟨ty, _, _, rfl, ⟨hty, count, _, body, rfl, ⟨items, ⟨hlen, hcoded⟩, rfl⟩, rfl⟩, rfl⟩
    obtain ⟨htypes, hpayload⟩ := coded_and.mp hcoded
    rw [← hlen]
    exact ⟨rfl, ty, body, hty, fun _ => hty, htypes, hpayload, hlen ▸ count.toNat_lt, rfl⟩
  · rintro ⟨hid, hbody⟩
    cases v with
    | array items =>
      obtain ⟨ty, body, hty, -, htypes, hpayload, hlen, rfl⟩ := hbody
      refine ⟨ty, _, _, rfl, ⟨hty, UInt64.ofNat items.length, _, body, rfl, ?_, rfl⟩, ?_⟩
      · exact ⟨items, ⟨(toNat_count hlen).symm, coded_and.mpr ⟨htypes, hpayload⟩⟩, rfl⟩
      · rw [toNat_count hlen]
    | _ => simp at hid

theorem reads_typedValue (ty : UInt32) :
    Reads sliceLimit (typedValue ty) fun v enc => v.typeId = ty ∧ BodyCode (· ≠ tArray) v enc := by
  by_cases hty : ty = tArray
  · subst hty
    exact reads_array
  · unfold typedValue
    rw [if_neg hty]
    refine (reads_scalarValue ty).congr fun v enc => and_congr_right ?_
    rintro rfl
    cases v with
    | array => exact (hty rfl).elim
    | _ => exact Iff.rfl

theorem reads_value : Reads sliceLimit value (ValueCode (· ≠ tArray)) := by
  refine (reads_u32.bind reads_typedValue).congr fun v enc => ?_
  constructor
  · rintro ⟨_, _, body, rfl, ⟨rfl, hbody⟩, rfl⟩
    exact ⟨body, hbody, rfl⟩
  · rintro ⟨body, hbody, rfl⟩
    exact ⟨_, _, body, rfl, ⟨rfl, hbody⟩, rfl⟩

theorem reads_keyValue : Reads sliceLimit keyValue (KeyValueCode (· ≠ tArray)) := by
  refine (reads_string.bind fun key => reads_value.map fun v => (key, v)).congr fun kv enc => ?_
  constructor
  · rintro ⟨key, e₁, e₂, hkey, ⟨v, hv, rfl⟩, rfl⟩
    exact ⟨e₁, e₂, hkey, hv, rfl⟩
  · rintro ⟨e₁, e₂, hkey, hv, rfl⟩
    exact ⟨kv.1, e₁, e₂, hkey, ⟨kv.2, hv, rfl⟩, rfl⟩

theorem reads_tensorInfo : Reads sliceLimit tensorInfo TensorCode := by
  refine (reads_string.bind fun name => reads_u32.bind fun nDims =>
    ((reads_u64.many _).bind fun dims => reads_u32.bind fun ggmlType =>
      reads_u64.map fun offset => TensorInfo.mk name dims ggmlType offset).unless _).congr
    fun t enc => ?_
  constructor
  · rintro ⟨name, _, _, ⟨hname, rfl⟩, ⟨nDims, _, _, rfl, ⟨hdims, dims, _, _, ⟨hlen, hcoded⟩,
      ⟨ggmlType, _, _, rfl, ⟨offset, rfl, rfl⟩, rfl⟩, rfl⟩, rfl⟩, rfl⟩
    rw [coded_eq.mp hcoded, ← hlen]
    refine ⟨⟨hname, ?_⟩, rfl⟩
    rw [hlen]
    exact Nat.not_lt.mp hdims
  · rintro ⟨⟨hname, hdims⟩, rfl⟩
    have hlen : (UInt32.ofNat t.dims.length).toNat = t.dims.length :=
      UInt32.toNat_ofNat_of_lt' (lt_of_le_of_lt hdims (by decide))
    refine ⟨t.name, _, _, ⟨hname, rfl⟩, ⟨UInt32.ofNat t.dims.length, _, _, rfl,
      ⟨?_, t.dims, _, _, ⟨hlen.symm, coded_eq.mpr rfl⟩,
        ⟨t.ggmlType, _, _, rfl, ⟨t.offset, rfl, rfl⟩, rfl⟩, rfl⟩, rfl⟩, ?_⟩
    · rw [hlen]
      exact Nat.not_lt.mpr hdims
    · rw [hlen]
      rfl

/-- **The parser accepts exactly the encodings of headers**, with any number but that of
arrays recorded in an empty array. -/
theorem reads_headerContent : Reads sliceLimit headerContent (HeaderCode (· ≠ tArray)) := by
  refine (reads_u32.bind fun magic => (reads_u32.bind fun version => (reads_u64.bind fun tensorCount =>
    reads_u64.bind fun kvCount => (reads_keyValue.many _).bind fun kvs =>
      (reads_tensorInfo.many _).map fun tensors =>
        HeaderContent.mk version kvs tensors).unless _).unless _).congr fun c enc => ?_
  constructor
  · rintro ⟨magic, _, _, rfl, ⟨hmagic, version, _, _, rfl, ⟨hversion, tensorCount, _, _, rfl,
      ⟨kvCount, _, _, rfl, ⟨kvs, e₁, e₂, ⟨hkvs, hkv⟩, ⟨tensors, ⟨htensors, ht⟩, rfl⟩, rfl⟩, rfl⟩,
      rfl⟩, rfl⟩, rfl⟩
    obtain rfl := not_not.mp hmagic
    rw [← hkvs, ← htensors]
    refine ⟨by tauto, ?_, ?_, e₁, e₂, hkv, ht, rfl⟩
    · exact hkvs ▸ kvCount.toNat_lt
    · exact htensors ▸ tensorCount.toNat_lt
  · rintro ⟨hversion, hkvs, htensors, e₁, e₂, hkv, ht, rfl⟩
    refine ⟨ggufMagic, _, _, rfl, ⟨not_not.mpr rfl, c.version, _, _, rfl, ⟨by tauto,
      UInt64.ofNat c.tensors.length, _, _, rfl, ⟨UInt64.ofNat c.kvs.length, _, _, rfl,
        ⟨c.kvs, e₁, e₂, ⟨(toNat_count hkvs).symm, hkv⟩,
          ⟨c.tensors, ⟨(toNat_count htensors).symm, ht⟩, rfl⟩, rfl⟩, rfl⟩, rfl⟩, rfl⟩, ?_⟩
    rw [toNat_count hkvs, toNat_count htensors]

/-! ### The written form is one of the encodings -/

theorem MetaValue.payload_code (h : v.Scalar) : Payload v v.payload := by
  cases v with
  | bool v =>
    cases v with
    | false => exact ⟨h, rfl⟩
    | true => exact ⟨1, by decide, rfl⟩
  | array => exact h.elim
  | _ => exact ⟨h, rfl⟩

theorem MetaValue.Scalar.typeId_ne (h : v.Scalar) : v.typeId ≠ tArray := by
  cases v with
  | array => exact h.elim
  | _ => simp

theorem MetaValue.encode_code (hempty : Empty 0)
    (h : v.WellFormed) (hfits : v.encode.length < 2 ^ 64) : ValueCode Empty v v.encode := by
  have hscalar : v.Scalar → Payload v v.payload := payload_code
  cases v with
  | array items =>
    obtain ⟨hitems, htypes⟩ := h
    have hcoded : Coded Payload items (items.flatMap payload) :=
      coded_flatMap fun w hw => payload_code (hitems w hw)
    have hlen := hcoded.length_le fun _ _ => payload_pos
    refine ⟨_, ⟨elemType items, _, ?_, ?_, htypes, hcoded, ?_, rfl⟩, rfl⟩
    · cases items with
      | nil => simp [elemType]
      | cons w => exact (hitems w (List.mem_cons_self ..)).typeId_ne
    · rintro rfl
      exact hempty
    · simp only [encode, List.length_append, leBytes_length] at hfits
      omega
  | _ => exact ⟨_, hscalar h, rfl⟩

theorem length_le_flatMap {α β : Type} {g : α → List β} {as : List α} {a : α} (h : a ∈ as) :
    (g a).length ≤ (as.flatMap g).length := by
  obtain ⟨s, t, rfl⟩ := List.append_of_mem h
  simp only [List.flatMap_append, List.flatMap_cons, List.length_append]
  omega

theorem HeaderContent.encode_code (hempty : Empty 0)
    (h : c.WellFormed) (hfits : c.encode.length < 2 ^ 64) : HeaderCode Empty c c.encode := by
  simp only [encode, List.length_append, leBytes_length] at hfits
  have hkvs : Coded (KeyValueCode Empty) c.kvs (c.kvs.flatMap keyValueBytes) := by
    refine coded_flatMap fun kv hkv => ⟨_, _, ⟨h.keys kv hkv, rfl⟩, ?_, rfl⟩
    apply MetaValue.encode_code hempty (h.values kv hkv)
    have hle := length_le_flatMap (g := keyValueBytes) hkv
    rw [keyValueBytes, List.length_append] at hle
    omega
  have htensors : Coded TensorCode c.tensors (c.tensors.flatMap TensorInfo.encode) :=
    coded_flatMap fun t ht => ⟨h.tensors t ht, rfl⟩
  refine ⟨h.version, ?_, ?_, _, _, hkvs, htensors, rfl⟩
  · have hle := hkvs.length_le fun kv e ⟨e₁, e₂, hkey, _, he⟩ => by
      rw [he, hkey.2, List.length_append]
      simp [stringBytes]
    omega
  · have hle := htensors.length_le fun t e ht => by
      rw [ht.2]
      simp [TensorInfo.encode]
    omega

theorem HeaderCode.imp {Empty' : UInt32 → Prop}
    (himp : ∀ ty, Empty ty → Empty' ty) (h : HeaderCode Empty c enc) : HeaderCode Empty' c enc := by
  obtain ⟨hversion, hkvs, htensors, e₁, e₂, hkv, ht, henc⟩ := h
  refine ⟨hversion, hkvs, htensors, e₁, e₂, hkv.imp fun kv _ e hcode => ?_, ht, henc⟩
  obtain ⟨k, v, hkey, ⟨body, hbody, hv⟩, he⟩ := hcode
  refine ⟨k, v, hkey, ⟨body, ?_, hv⟩, he⟩
  revert hbody
  cases kv.2 with
  | array =>
    rintro ⟨ty, b, hty, hempty, hrest⟩
    exact ⟨ty, b, hty, fun hnil => himp ty (hempty hnil), hrest⟩
  | _ => exact id

/-! ### Accepted contents are well formed -/

theorem Payload.scalar (h : Payload v enc) : v.Scalar := by
  cases v with
  | bool => exact trivial
  | _ => exact h.1

theorem ValueCode.wellFormed (h : ValueCode Empty v enc) : v.WellFormed := by
  obtain ⟨body, hbody, -⟩ := h
  have hscalar : Payload v body → v.Scalar := Payload.scalar
  cases v with
  | array items =>
    obtain ⟨ty, _, -, -, htypes, hcoded, -⟩ := hbody
    refine ⟨fun w hw => ?_, fun w hw => ?_⟩
    · obtain ⟨e, he⟩ := hcoded.exists w hw
      exact he.scalar
    · cases items with
      | nil => cases hw
      | cons x => rw [htypes w hw, MetaValue.elemType, htypes x (List.mem_cons_self ..)]
  | _ => exact hscalar hbody

theorem HeaderCode.wellFormed (h : HeaderCode Empty c enc) : c.WellFormed := by
  obtain ⟨hversion, -, -, _, _, hkvs, htensors, -⟩ := h
  refine ⟨hversion, fun kv hkv => ?_, fun kv hkv => ?_, fun t ht => ?_⟩
  · obtain ⟨_, _, _, hkey, -⟩ := hkvs.exists kv hkv
    exact hkey.1
  · obtain ⟨_, _, _, -, hvalue, -⟩ := hkvs.exists kv hkv
    exact hvalue.wellFormed
  · obtain ⟨_, hcode⟩ := htensors.exists t ht
    exact hcode.1

/-! ### What a header says of its content -/

/-- A header says what the content does. -/
structure Describes (c : HeaderContent) (n : ℕ) (header : GgufHeader) : Prop where
  version : header.version = c.version
  /-- The last value of a key wins. -/
  metadata : ∀ key, header.metadata.lookup key = c.kvs.reverse.lookup key
  tensors : header.tensors = c.tensors
  headerLen : header.headerLen = n
  /-- A declared alignment that is a power of two is used. -/
  declared : ∀ k, (c.kvs.reverse.lookup "general.alignment").bind MetaValue.asU64 = some (2 ^ k) →
    header.alignment = 2 ^ k
  /-- Without one the alignment is the default. -/
  undeclared : (∀ k, (c.kvs.reverse.lookup "general.alignment").bind MetaValue.asU64 ≠ some (2 ^ k)) →
    header.alignment = 32
  /-- The tensor data begins at the next multiple of the alignment. -/
  dataOffset : IsLeast {m | header.alignment ∣ m ∧ n ≤ m} header.dataOffset

theorem lookup_foldl (kvs : List (String × MetaValue)) (m : Finmap fun _ : String => MetaValue)
    (key : String) : (kvs.foldl (fun m kv => m.insert kv.1 kv.2) m).lookup key =
      (kvs.reverse.lookup key).or (m.lookup key) := by
  induction kvs generalizing m with
  | nil => simp
  | cons kv kvs ih =>
    obtain ⟨name, value⟩ := kv
    rw [List.foldl_cons, ih, List.reverse_cons, List.lookup_append, Option.or_assoc]
    congr 1
    by_cases hkey : key = name
    · subst hkey
      simp
    · rw [Finmap.lookup_insert_of_ne _ hkey]
      simp [List.lookup_cons, beq_false_of_ne hkey]

theorem lookup_metadataOf (kvs : List (String × MetaValue)) (key : String) :
    (metadataOf kvs).lookup key = kvs.reverse.lookup key := by
  unfold metadataOf
  rw [lookup_foldl, Finmap.lookup_empty, Option.or_none]

theorem isPowerOfTwo_iff : isPowerOfTwo n = true ↔ ∃ k, n = 2 ^ k := by
  unfold isPowerOfTwo
  rw [beq_iff_eq]
  constructor
  · intro h
    exact ⟨n.log2, h⟩
  · rintro ⟨k, rfl⟩
    rw [Nat.log2_two_pow]

theorem MetaValue.asU64_lt (h : v.asU64 = some n) : n < 2 ^ 64 := by
  cases v with
  | u8 v | u16 v | u32 v | u64 v =>
    have hv := v.toNat_lt
    simp only [asU64, Option.some.injEq] at h
    omega
  | i8 v | i16 v | i32 v | i64 v =>
    have hv := v.toInt_lt
    simp only [asU64, Option.ite_none_right_eq_some, Option.some.injEq] at h
    omega
  | _ => simp [asU64] at h

variable (metadata : Finmap fun _ : String => MetaValue)

/-- The alignment is the declared power of two, or else the default. -/
theorem alignmentOf_cases :
    (∃ k, (metadata.lookup "general.alignment").bind MetaValue.asU64 = some (2 ^ k) ∧
        alignmentOf metadata = 2 ^ k) ∨
      (∀ k, (metadata.lookup "general.alignment").bind MetaValue.asU64 ≠ some (2 ^ k)) ∧
        alignmentOf metadata = ggufDefaultAlignment := by
  unfold alignmentOf
  cases hdecl : (metadata.lookup "general.alignment").bind MetaValue.asU64 with
  | none => exact .inr ⟨fun k h => (nomatch h), rfl⟩
  | some a =>
    by_cases ha : isPowerOfTwo a = true
    · obtain ⟨k, rfl⟩ := isPowerOfTwo_iff.mp ha
      refine .inl ⟨k, rfl, ?_⟩
      simp [Option.filter, ha]
    · refine .inr ⟨fun k h => ha (isPowerOfTwo_iff.mpr ⟨k, Option.some.inj h⟩), ?_⟩
      simp [Option.filter, ha]

theorem alignmentOf_bounds :
    0 < alignmentOf metadata ∧ alignmentOf metadata ≤ 2 ^ 63 := by
  rcases alignmentOf_cases metadata with ⟨k, hdecl, heq⟩ | ⟨-, heq⟩
  · obtain ⟨v, -, hv⟩ := Option.bind_eq_some_iff.mp hdecl
    have hk : k < 64 := (Nat.pow_lt_pow_iff_right (by norm_num)).mp (MetaValue.asU64_lt hv)
    rw [heq]
    exact ⟨Nat.two_pow_pos k, Nat.pow_le_pow_right (by norm_num) (by omega)⟩
  · rw [heq]
    decide

theorem divCeil_isLeast (n : ℕ) {a : ℕ} (ha : 0 < a) :
    IsLeast {m | a ∣ m ∧ n ≤ m} (divCeil n a * a) ∧ divCeil n a * a < n + a := by
  have hdiv := Nat.div_add_mod n a
  have hmod := Nat.mod_lt n ha
  have hcomm : a * (n / a) = n / a * a := Nat.mul_comm ..
  unfold divCeil
  split
  · rename_i hpos
    rw [Nat.add_mul, Nat.one_mul]
    refine ⟨⟨⟨⟨n / a + 1, by ring⟩, by omega⟩, ?_⟩, by omega⟩
    -- A smaller multiple is at most the quotient's, which is below `n`.
    rintro _ ⟨⟨q, rfl⟩, hq⟩
    have hlt : n / a < q := by
      by_contra hle
      have hmul : a * q ≤ a * (n / a) := Nat.mul_le_mul_left a (Nat.not_lt.mp hle)
      omega
    calc n / a * a + a = a * (n / a + 1) := by ring
      _ ≤ a * q := Nat.mul_le_mul_left a hlt
  · rename_i hzero
    refine ⟨⟨⟨⟨n / a, by ring⟩, by omega⟩, ?_⟩, by omega⟩
    rintro m ⟨-, hm⟩
    omega

theorem HeaderContent.header_describes (c : HeaderContent) (hn : n < sliceLimit) :
    Describes c n (c.header n) := by
  unfold sliceLimit at hn
  obtain ⟨hpos, hle⟩ := alignmentOf_bounds (metadataOf c.kvs)
  obtain ⟨hleast, hlt⟩ := divCeil_isLeast n hpos
  have hcases := alignmentOf_cases (metadataOf c.kvs)
  rw [lookup_metadataOf] at hcases
  refine ⟨rfl, lookup_metadataOf c.kvs, rfl, rfl, ?_, ?_, ?_⟩
  · intro k hk
    rcases hcases with ⟨j, hj, heq⟩ | ⟨hno, -⟩
    · rw [hj] at hk
      exact heq.trans (Option.some.inj hk)
    · exact (hno k hk).elim
  · intro hno
    rcases hcases with ⟨j, hj, -⟩ | ⟨-, heq⟩
    · exact (hno j hj).elim
    · exact heq
  · change IsLeast _ (_ % 2 ^ 64)
    rw [Nat.mod_eq_of_lt (by omega)]
    exact hleast

theorem parse_eq_ok {bytes : List UInt8} {header : GgufHeader} : parse bytes = .ok header ↔
      ∃ c n, headerContent bytes 0 = .ok (c, n) ∧ header = c.header n := by
  unfold parse
  cases headerContent bytes 0 with
  | error => simp
  | ok v =>
    constructor
    · intro h
      exact ⟨v.1, v.2, rfl, (Except.ok.inj h).symm⟩
    · rintro ⟨c, n, h, rfl⟩
      cases h
      rfl

theorem headerContent_code {trailing : List UInt8}
    (h : HeaderCode (· ≠ tArray) c enc) (hfits : (enc ++ trailing).length < sliceLimit) :
    headerContent (enc ++ trailing) 0 = .ok (c, enc.length) :=
  (reads_headerContent hfits (Nat.zero_le _) c _).mpr ⟨enc, trailing, h, rfl, (Nat.zero_add _).symm⟩

theorem parse_code {trailing : List UInt8}
    (h : HeaderCode (· ≠ tArray) c enc) (hfits : (enc ++ trailing).length < sliceLimit) :
    ∃ header, parse (enc ++ trailing) = .ok header ∧ Describes c enc.length header := by
  refine ⟨_, parse_eq_ok.mpr ⟨c, _, headerContent_code h hfits, rfl⟩, c.header_describes ?_⟩
  rw [List.length_append] at hfits
  omega

/-- **Parsing undoes writing, and only what can be written is parsed.** The written form of
every well-formed content, with anything behind it, parses to a header that says exactly
that content; so does every other encoding of it. And a successful parse has consumed an
encoding of a well-formed content and says that content. The encodings of a content differ
in the byte chosen for a true boolean and in the element type an empty array records,
which may be any but that of arrays. -/
theorem parse_round_trip : (∀ c trailing, c.WellFormed → (c.encode ++ trailing).length < sliceLimit →
      ∃ header, parse (c.encode ++ trailing) = .ok header ∧ Describes c c.encode.length header) ∧
    (∀ c enc trailing, HeaderCode (· ≠ tArray) c enc → (enc ++ trailing).length < sliceLimit →
      ∃ header, parse (enc ++ trailing) = .ok header ∧ Describes c enc.length header) ∧
    ∀ bytes header, bytes.length < sliceLimit → parse bytes = .ok header →
      ∃ c enc trailing, c.WellFormed ∧ HeaderCode (· ≠ tArray) c enc ∧ bytes = enc ++ trailing ∧
        Describes c enc.length header := by
  refine ⟨fun c trailing hc hfits => ?_, fun c enc trailing => parse_code, ?_⟩
  · apply parse_code (HeaderContent.encode_code (by decide) hc ?_) hfits
    rw [List.length_append, sliceLimit] at hfits
    omega
  · intro bytes header hfits h
    obtain ⟨c, n, hcontent, rfl⟩ := parse_eq_ok.mp h
    obtain ⟨enc, trailing, hcode, hbytes, rfl⟩ :=
      (reads_headerContent hfits (Nat.zero_le _) c n).mp hcontent
    rw [List.drop_zero] at hbytes
    rw [Nat.zero_add]
    refine ⟨c, enc, trailing, hcode.wellFormed, hcode, hbytes, c.header_describes ?_⟩
    rw [hbytes, List.length_append] at hfits
    omega

/-- A header of one entry and one tensor. -/
def smallContent : HeaderContent :=
  { version := 3, kvs := [("", .array [.bool true])], tensors := [⟨"", [7], 0, 0⟩] }

theorem parse_round_trip_small : smallContent.WellFormed ∧
    ∃ header, parse (smallContent.encode ++ [1]) = .ok header ∧
      Describes smallContent smallContent.encode.length header := by
  have hwf : smallContent.WellFormed := by
    constructor
    · exact .inr rfl
    · simp [smallContent, strBytes]
    · simp [smallContent, MetaValue.WellFormed, MetaValue.elemType]
    · simp only [smallContent, List.mem_singleton, forall_eq]
      constructor
      · simp [strBytes]
      · simp
  exact ⟨hwf, parse_round_trip.1 _ _ hwf (by decide)⟩

/-- The header of a file whose only key holds an empty array, of elements of type 99. -/
def unknownTypeBytes : List UInt8 :=
  leBytes 4 ggufMagic.toNat ++ (leBytes 4 3 ++ (leBytes 8 0 ++ (leBytes 8 1 ++
    (stringBytes "" ++ (leBytes 4 9 ++ (leBytes 4 99 ++ leBytes 8 0))))))

/-- The content the parser takes it for. -/
def unknownTypeContent : HeaderContent := { version := 3, kvs := [("", .array [])], tensors := [] }

theorem unknownType_code : HeaderCode Empty unknownTypeContent enc ↔ ∃ ty, ty ≠ tArray ∧ Empty ty ∧
      enc = leBytes 4 ggufMagic.toNat ++ (leBytes 4 3 ++ (leBytes 8 0 ++ (leBytes 8 1 ++
        (stringBytes "" ++ (leBytes 4 9 ++ (leBytes 4 ty.toNat ++ leBytes 8 0)))))) := by
  constructor
  · rintro ⟨-, -, -, kvs, tensors, ⟨e₁, e₂, ⟨k, v, hkey, ⟨body, hbody, rfl⟩, rfl⟩, rfl, rfl⟩, rfl, rfl⟩
    obtain ⟨ty, _, hty, hempty, -, rfl, -, rfl⟩ := hbody
    obtain rfl := hkey.2
    refine ⟨ty, hty, hempty rfl, ?_⟩
    simp [unknownTypeContent]
  · rintro ⟨ty, hty, hempty, rfl⟩
    refine ⟨.inr rfl, by decide, by decide, _, [], ⟨_, [], ⟨_, _, ⟨?_, rfl⟩, ⟨_, ⟨ty, [], hty, fun _ => hempty,
      by simp, rfl, by decide, rfl⟩, rfl⟩, rfl⟩, rfl, rfl⟩, rfl, ?_⟩
    · simp [strBytes]
    · simp [unknownTypeContent]

/-- **An empty array may record a type that does not exist.** The parser accepts these
bytes, and they do not start with an encoding of a content with the types of the format. -/
theorem empty_array_unknown_type : (∃ header, parse unknownTypeBytes = .ok header) ∧
      ¬ ∃ c enc trailing, unknownTypeBytes = enc ++ trailing ∧ HeaderCode ScalarType c enc := by
  have hfits : (unknownTypeBytes ++ []).length < sliceLimit := by decide
  have hcode : HeaderCode (· ≠ tArray) unknownTypeContent unknownTypeBytes :=
    unknownType_code.mpr ⟨99, by decide, by decide, rfl⟩
  have hcontent := headerContent_code hcode hfits
  rw [List.append_nil] at hfits hcontent
  refine ⟨⟨_, parse_eq_ok.mpr ⟨_, _, hcontent, rfl⟩⟩, ?_⟩
  rintro ⟨c, enc, trailing, hbytes, hstrict⟩
  -- The parser reads one content out of the bytes, so the encoding would be all of them.
  have hread : headerContent (enc ++ trailing) 0 = .ok (c, enc.length) :=
    headerContent_code (hstrict.imp fun _ h => h.2) (hbytes ▸ hfits)
  rw [← hbytes, hcontent] at hread
  obtain ⟨rfl, hlen⟩ : unknownTypeContent = c ∧ unknownTypeBytes.length = enc.length := by
    simpa using Except.ok.inj hread
  obtain ⟨ty, -, ⟨hle, -⟩, henc⟩ := unknownType_code.mp hstrict
  have hall : unknownTypeBytes = enc := by
    have hnil : trailing = [] := by
      rw [hbytes, List.length_append] at hlen
      exact List.length_eq_zero_iff.mp (by omega)
    rw [hbytes, hnil, List.append_nil]
  rw [henc, unknownTypeBytes] at hall
  simp only [List.append_cancel_left_eq] at hall
  have hty := congrArg leNat (List.append_inj_left hall (by simp))
  rw [leNat_leBytes (by decide), leNat_leBytes ty.toNat_lt] at hty
  omega

end OneBrain.Models
