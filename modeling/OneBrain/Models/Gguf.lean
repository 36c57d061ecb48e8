import Mathlib.Data.Finmap
import Mathlib.Data.Nat.Log
import Mathlib.Order.Bounds.Defs
import OneBrain.Lib.Reader

/-!
# The GGUF header parser

A model file in the GGUF format starts with a header: a magic number and a version, the
numbers of tensors and of key/value pairs, the pairs, and one descriptor for each tensor.
A node reads a beginning of the file (from disk, or over the network from the node that
has it), parses it, and reads more when it is told that the header did not fit.

## The model

A cursor is a `Reader` of bytes: the slice is fixed and the position moves. `take` is the
only operation that looks at the bytes; the two ways to ask for more data are its own
end-of-input check and the check of an array's element count against the bytes left.
Positions are counted in `usize`, 64 bits wide; a slice is shorter than `2 ^ 63` bytes.
Numbers that are only passed on are kept as the fixed-width types of the source, floats as
their bits. Allocation is taken to succeed.

## What is proved here

A beginning of a header parses as the whole does, or asks for more (`parse_stable`). Every
caller that fetches a file piece by piece rests on this. What is accepted at all is the
subject of `GgufCode`.
-/

namespace OneBrain.Models

open Lib Lib.Reader

/-- Why a header is refused. -/
inductive GgufError where
  /-- The file does not start with the magic number. -/
  | badMagic
  /-- A version other than 2 and 3. -/
  | unsupportedVersion (version : UInt32)
  /-- The header is longer than the bytes given; fetch at least this many. -/
  | needMoreData (needHint : ℕ)
  /-- The header is not a GGUF header. -/
  | malformed (message : String)
  deriving DecidableEq, Repr

/-- A metadata value, with its width. -/
inductive MetaValue where
  | u8 (v : UInt8)
  | i8 (v : Int8)
  | u16 (v : UInt16)
  | i16 (v : Int16)
  | u32 (v : UInt32)
  | i32 (v : Int32)
  | f32 (bits : UInt32)
  | bool (v : Bool)
  | str (v : String)
  | u64 (v : UInt64)
  | i64 (v : Int64)
  | f64 (bits : UInt64)
  | array (items : List MetaValue)

/-- The value as an unsigned integer, when it is an integer that is not negative. -/
def MetaValue.asU64 : MetaValue → Option ℕ
  | .u8 v => some v.toNat
  | .u16 v => some v.toNat
  | .u32 v => some v.toNat
  | .u64 v => some v.toNat
  | .i8 v => if 0 ≤ v.toInt then some v.toInt.toNat else none
  | .i16 v => if 0 ≤ v.toInt then some v.toInt.toNat else none
  | .i32 v => if 0 ≤ v.toInt then some v.toInt.toNat else none
  | .i64 v => if 0 ≤ v.toInt then some v.toInt.toNat else none
  | _ => none

/-- One tensor's descriptor. -/
structure TensorInfo where
  name : String
  dims : List UInt64
  ggmlType : UInt32
  /-- Offset relative to the start of the tensor data. -/
  offset : UInt64
  deriving DecidableEq

/-- What the bytes of a header say, before anything is computed from it. -/
structure HeaderContent where
  version : UInt32
  kvs : List (String × MetaValue)
  tensors : List TensorInfo

/-- A parsed header. -/
structure GgufHeader where
  version : UInt32
  metadata : Finmap fun _ : String => MetaValue
  tensors : List TensorInfo
  headerLen : ℕ
  alignment : ℕ
  dataOffset : ℕ

/-- The magic number, the letters `GGUF` read as a little-endian number. -/
def ggufMagic : UInt32 := 0x46554747

/-- The alignment of a file that declares none. -/
def ggufDefaultAlignment : ℕ := 32

/-- The longest string the parser takes. -/
def maxString : ℕ := 2 ^ 24

/-- Bytes a slice can have at most, exclusive. -/
def sliceLimit : ℕ := 2 ^ 63

/-! ### The cursor -/

/-- A cursor over a byte slice. -/
abbrev Cursor := Reader UInt8 GgufError

namespace Cursor

/-- Read some bytes. -/
def take (n : ℕ) : Cursor (List UInt8) := fun bytes pos =>
  if 2 ^ 64 ≤ pos + n then .error (.malformed "length overflow")
  else if bytes.length < pos + n then .error (.needMoreData (max (pos + n) (bytes.length * 2)))
  else .ok ((bytes.drop pos).take n, pos + n)

/-- A little-endian number of `w` bytes. -/
def number (w : ℕ) : Cursor ℕ := do
  let raw ← take w
  pure (leNat raw)

/-- Read one byte. -/
def byte : Cursor UInt8 := do
  let n ← number 1
  pure (UInt8.ofNat n)

/-- A little-endian 16-bit number. -/
def u16 : Cursor UInt16 := do
  let n ← number 2
  pure (UInt16.ofNat n)

/-- A little-endian 32-bit number. -/
def u32 : Cursor UInt32 := do
  let n ← number 4
  pure (UInt32.ofNat n)

/-- A little-endian 64-bit number. -/
def u64 : Cursor UInt64 := do
  let n ← number 8
  pure (UInt64.ofNat n)

/-- The string some bytes encode, if they are UTF-8. -/
def fromUtf8 (raw : List UInt8) : Cursor String :=
  match String.fromUTF8? ⟨raw.toArray⟩ with
  | some s => pure s
  | none => throw (.malformed "string is not UTF-8")

/-- A string: its length in bytes, and the bytes. -/
def string : Cursor String := do
  let len ← u64
  if maxString < len.toNat then throw (.malformed "unreasonably long string") else
  let raw ← take len.toNat
  fromUtf8 raw

/-- The type id of arrays. -/
@[simp] def tArray : UInt32 := 9

/-- The payload of a value that is not an array, by the type ids of the format. -/
def scalarValue (ty : UInt32) : Cursor MetaValue :=
  if ty = 0 then do let v ← byte; pure (.u8 v)
  else if ty = 1 then do let v ← byte; pure (.i8 v.toInt8)
  else if ty = 2 then do let v ← u16; pure (.u16 v)
  else if ty = 3 then do let v ← u16; pure (.i16 v.toInt16)
  else if ty = 4 then do let v ← u32; pure (.u32 v)
  else if ty = 5 then do let v ← u32; pure (.i32 v.toInt32)
  else if ty = 6 then do let v ← u32; pure (.f32 v)
  else if ty = 7 then do let v ← byte; pure (.bool (v != 0))
  else if ty = 8 then do let s ← string; pure (.str s)
  else if ty = 10 then do let v ← u64; pure (.u64 v)
  else if ty = 11 then do let v ← u64; pure (.i64 v.toInt64)
  else if ty = 12 then do let v ← u64; pure (.f64 v)
  else throw (.malformed "unknown metadata value type")

/-- The payload of a value of the given type. An array's elements are not arrays, so the
recursion of the source goes one level deep. -/
def typedValue (ty : UInt32) : Cursor MetaValue :=
  if ty = tArray then do
    let elemTy ← u32
    if elemTy = tArray then throw (.malformed "nested arrays are not allowed") else
    let count ← u64
    -- Every element takes at least one byte: a count the input cannot satisfy is refused
    -- before anything is allocated. The hint is computed in 64 bits.
    ensure count.toNat fun _ pos => .needMoreData ((pos + count.toNat) % 2 ^ 64)
    let items ← many (scalarValue elemTy) count.toNat
    pure (.array items)
  else scalarValue ty

/-- A value: its type id and its payload. -/
def value : Cursor MetaValue := do
  let ty ← u32
  typedValue ty

end Cursor

open Cursor

/-- One metadata entry. -/
def keyValue : Cursor (String × MetaValue) := do
  let key ← string
  let v ← value
  pure (key, v)

/-- One entry of the tensor table. -/
def tensorInfo : Cursor TensorInfo := do
  let name ← string
  let nDims ← u32
  if 8 < nDims.toNat then throw (.malformed "tensor has more than 8 dimensions") else
  let dims ← many u64 nDims.toNat
  let ggmlType ← u32
  let offset ← u64
  pure { name, dims, ggmlType, offset }

/-- The header's bytes, from the magic number to the last tensor. -/
def headerContent : Cursor HeaderContent := do
  let magic ← u32
  if magic ≠ ggufMagic then throw .badMagic else
  let version ← u32
  if version ≠ 2 ∧ version ≠ 3 then throw (.unsupportedVersion version) else
  let tensorCount ← u64
  let kvCount ← u64
  let kvs ← many keyValue kvCount.toNat
  let tensors ← many tensorInfo tensorCount.toNat
  pure { version, kvs, tensors }

/-! ### The header -/

/-- Whether a number is a power of two. -/
def isPowerOfTwo (n : ℕ) : Bool := n == 2 ^ n.log2

/-- Division, rounded up. -/
def divCeil (a b : ℕ) : ℕ := if 0 < a % b then a / b + 1 else a / b

/-- The pairs put into a map one after the other. -/
def metadataOf (kvs : List (String × MetaValue)) : Finmap fun _ : String => MetaValue :=
  kvs.foldl (fun m kv => m.insert kv.1 kv.2) ∅

/-- The declared alignment when it can be one, the default otherwise. -/
def alignmentOf (metadata : Finmap fun _ : String => MetaValue) : ℕ :=
  (((metadata.lookup "general.alignment").bind MetaValue.asU64).filter
    fun a => 0 < a && isPowerOfTwo a).getD ggufDefaultAlignment

/-- The header that a content of some length stands for. -/
def HeaderContent.header (content : HeaderContent) (headerLen : ℕ) : GgufHeader :=
  let metadata := metadataOf content.kvs
  let alignment := alignmentOf metadata
  { version := content.version
    metadata
    tensors := content.tensors
    headerLen
    alignment
    dataOffset := divCeil headerLen alignment * alignment % 2 ^ 64 }

/-- Read a header from the start of a file. -/
def parse (bytes : List UInt8) : Except GgufError GgufHeader :=
  match headerContent bytes 0 with
  | .error e => .error e
  | .ok (content, headerLen) => .ok (content.header headerLen)

/-! ### Beginnings of a header -/

/-- The errors that ask for more of the file. -/
def GgufError.NeedsMore : GgufError → Prop
  | .needMoreData _ => True
  | _ => False

section stable

theorem stable_take (n : ℕ) : Stable GgufError.NeedsMore (take n) := by
  intro p b pos hp hpos
  have hlen := hp.length_le
  unfold take
  by_cases hover : 2 ^ 64 ≤ pos + n
  · rw [if_pos hover, if_pos hover]
    exact stable_throw _ hp hpos
  rw [if_neg hover, if_neg hover]
  by_cases hshort : p.length < pos + n
  · rw [if_pos hshort]
    refine ⟨fun a m h => (nomatch h), fun e h => .inl ?_⟩
    cases h
    trivial
  · rw [if_neg hshort, if_neg (by omega : ¬ b.length < pos + n)]
    refine ⟨fun a m h => ?_, fun e h => nomatch h⟩
    cases h
    -- The bytes taken lie in the common beginning.
    obtain ⟨t, rfl⟩ := hp
    refine ⟨by omega, ?_⟩
    rw [List.drop_append_of_le_length hpos, List.take_append_of_le_length]
    rw [List.length_drop]
    omega

theorem stable_number (w : ℕ) : Stable GgufError.NeedsMore (number w) :=
  (stable_take w).map leNat

theorem stable_byte : Stable GgufError.NeedsMore byte :=
  (stable_number 1).map UInt8.ofNat

theorem stable_u16 : Stable GgufError.NeedsMore u16 :=
  (stable_number 2).map UInt16.ofNat

theorem stable_u32 : Stable GgufError.NeedsMore u32 :=
  (stable_number 4).map UInt32.ofNat

theorem stable_u64 : Stable GgufError.NeedsMore u64 :=
  (stable_number 8).map UInt64.ofNat

theorem stable_string : Stable GgufError.NeedsMore string := by
  refine stable_u64.bind fun len => (stable_throw _).ite ((stable_take _).bind fun raw => ?_)
  unfold fromUtf8
  split
  · apply stable_pure
  · apply stable_throw

theorem stable_scalarValue (ty : UInt32) : Stable GgufError.NeedsMore (scalarValue ty) := by
  unfold scalarValue
  refine (stable_byte.map _).ite ((stable_byte.map _).ite ?_)
  refine (stable_u16.map _).ite ((stable_u16.map _).ite ?_)
  refine (stable_u32.map _).ite ((stable_u32.map _).ite ((stable_u32.map _).ite ?_))
  refine (stable_byte.map _).ite ((stable_string.map _).ite ?_)
  refine (stable_u64.map _).ite ((stable_u64.map _).ite ((stable_u64.map _).ite ?_))
  apply stable_throw

theorem stable_value : Stable GgufError.NeedsMore value := by
  refine stable_u32.bind fun ty => Stable.ite ?_ (stable_scalarValue ty)
  refine stable_u32.bind fun elemTy => (stable_throw _).ite ?_
  refine stable_u64.bind fun count => ?_
  refine (stable_ensure _ fun _ _ => trivial).bind fun _ => ?_
  exact ((stable_scalarValue elemTy).many _).map _

theorem stable_keyValue : Stable GgufError.NeedsMore keyValue :=
  stable_string.bind fun _ => stable_value.bind fun _ => stable_pure _

theorem stable_tensorInfo : Stable GgufError.NeedsMore tensorInfo := by
  refine stable_string.bind fun name => stable_u32.bind fun nDims => (stable_throw _).ite ?_
  refine (stable_u64.many _).bind fun dims => ?_
  exact stable_u32.bind fun _ => stable_u64.bind fun _ => stable_pure _

theorem stable_headerContent : Stable GgufError.NeedsMore headerContent := by
  refine stable_u32.bind fun magic => (stable_throw _).ite ?_
  refine stable_u32.bind fun version => (stable_throw _).ite ?_
  refine stable_u64.bind fun tensorCount => stable_u64.bind fun kvCount => ?_
  refine (stable_keyValue.many _).bind fun kvs => ?_
  exact (stable_tensorInfo.many _).bind fun tensors => stable_pure _

end stable

/-- **A beginning of a header parses as the whole does, or asks for more.** If the whole
file parses, every beginning of it gives the same header or asks for more; an error of a
beginning that does not ask for more is the error of the whole. -/
theorem parse_stable (p rest : List UInt8) : (∀ header, parse (p ++ rest) = .ok header →
      parse p = .ok header ∨ ∃ hint, parse p = .error (.needMoreData hint)) ∧
    ∀ e, parse p = .error e → (∀ hint, e ≠ .needMoreData hint) → parse (p ++ rest) = .error e := by
  obtain ⟨hok, herr⟩ := stable_headerContent (List.prefix_append p rest) (Nat.zero_le _)
  unfold parse
  cases hp : headerContent p 0 with
  | ok v =>
    rw [(hok v.1 v.2 hp).2]
    exact ⟨fun header h => .inl h, fun e h => nomatch h⟩
  | error e =>
    rcases herr e hp with hmore | hsame
    · obtain ⟨hint, rfl⟩ : ∃ hint, e = .needMoreData hint := by
        cases e with
        | needMoreData hint => exact ⟨hint, rfl⟩
        | _ => exact hmore.elim
      refine ⟨fun header _ => .inr ⟨hint, rfl⟩, fun e h hne => ?_⟩
      cases h
      exact (hne hint rfl).elim
    · rw [hsame]
      exact ⟨fun header h => (nomatch h), fun e' h _ => h⟩

/-- Four zero bytes are enough to refuse every file that starts with them. -/
theorem parse_stable_zeros :
    parse [0, 0, 0, 0] = .error .badMagic ∧ parse ([0, 0, 0, 0] ++ [7, 7]) = .error .badMagic := by
  have hp : parse [0, 0, 0, 0] = .error .badMagic := rfl
  exact ⟨hp, (parse_stable _ _).2 _ hp (by simp)⟩

end OneBrain.Models
