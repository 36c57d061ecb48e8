import OneBrain.Lib.Texts

/-!
# The names of split models

A model in several parts has its parts in files `<prefix>-%05d-of-%05d.gguf`. A reference names one of them; the
downloader derives the names of all from it, and the loader takes the parts in the order of their directories'
names. Names are texts, and the source cuts them at byte positions: where no character starts it finds no split
name, or would panic. It cannot come to the latter: before `.gguf`, and around digits, characters start. The
numbers have five digits, so that nothing wraps.

`split_names`: the names made from an accepted one are as many as it says, are all accepted, are in the order of
their bytes, and the accepted one is among them up to the case of its ending.
-/

namespace OneBrain.Models

open List OneBrain.Lib

/-- The name without its ending `.gguf`, in upper or lower case, if it has it. -/
def ggufStem (name : List Char) : Option (List Char) :=
  if ".gguf".toList.isSuffixOf (name.map Char.toLower) then
    (splitAtByte ((utf8 name).length - 5) name).map Prod.fst
  else none

/-- A parsed name `<prefix>-%05d-of-%05d.gguf`. -/
structure SplitName where
  namePrefix : List Char
  index : ℕ
  count : ℕ
deriving DecidableEq, Repr

/-- What follows the prefix, up to the ending. -/
def SplitName.tail (s : SplitName) (i : ℕ) : List Char :=
  "-".toList ++ decimal 5 i ++ "-of-".toList ++ decimal 5 s.count

/-- The stem of a part. -/
def SplitName.stem (s : SplitName) (i : ℕ) : List Char := s.namePrefix ++ s.tail i

/-- The file name of a part. -/
def SplitName.partFileName (s : SplitName) (i : ℕ) : List Char := s.stem i ++ ".gguf".toList

/-- The file names of all parts, in load order. -/
def SplitName.partFileNames (s : SplitName) : List (List Char) := (range' 1 s.count).map s.partFileName

/-- The number some bytes stand for, if all are digits. -/
def digits (bytes : List UInt8) : Option ℕ :=
  if bytes.all fun b => 48 ≤ b ∧ b ≤ 57 then
    some (Nat.ofDigitChars 10 (bytes.map fun x => Char.ofNat x.toNat) 0)
  else none

/-- The split set a file name names a part of. -/
def parseSplitName (fileName : List Char) : Option SplitName := do
  let stem ← ggufStem fileName
  guard (15 < (utf8 stem).length)
  let (namePrefix, tail) ← splitAtByte ((utf8 stem).length - 15) stem
  let bytes := utf8 tail
  guard (bytes.take 1 = utf8 "-".toList ∧ (bytes.drop 6).take 4 = utf8 "-of-".toList)
  let index ← digits ((bytes.drop 1).take 5)
  let count ← digits (bytes.drop 10)
  guard (0 < index ∧ 0 < count ∧ index ≤ count)
  return { namePrefix, index, count }

/-- The name of a part's directory. -/
def partStem (part : List Char) : List Char := (ggufStem part).getD part

/-! ### What is accepted -/

variable {name stem : List Char} {s : SplitName}

theorem length_utf8_lower (s : List Char) : (utf8 (s.map Char.toLower)).length = (utf8 s).length := by
  have hchar (c : Char) : c.toLower.utf8Size = c.utf8Size := by
    unfold Char.toLower
    split
    · rename_i h
      have hle := UInt32.le_iff_toNat_le.mp h.2
      rw [Char.utf8Size_eq_one_iff.mpr (UInt32.le_trans h.2 (by decide)), Char.utf8Size_eq_one_iff]
      simp [UInt32.le_iff_toNat_le] at hle ⊢
      omega
    · rfl
  simp [utf8, length_flatMap, Function.comp_def, hchar]

theorem ggufStem_eq_some : ggufStem name = some stem ↔
    ∃ ending, name = stem ++ ending ∧ ending.map Char.toLower = ".gguf".toList := by
  -- the ending is five bytes long in either case
  have hcut {stem ending : List Char} (h : ending.map Char.toLower = ".gguf".toList) :
      splitAtByte ((utf8 (stem ++ ending)).length - 5) (stem ++ ending) = some (stem, ending) := by
    have hlen : (utf8 ending).length = 5 := by
      rw [← length_utf8_lower, h]
      rfl
    refine splitAtByte_eq_some.mpr ⟨rfl, ?_⟩
    rw [utf8_append, length_append, hlen, Nat.add_sub_cancel]
  constructor
  · intro h
    obtain ⟨hsuffix, hmap⟩ := Option.ite_none_right_eq_some.mp h
    obtain ⟨lower, hlower⟩ := isSuffixOf_iff_suffix.mp hsuffix
    obtain ⟨a, ending, rfl, -, hending⟩ := map_eq_append_iff.mp hlower.symm
    rw [hcut hending] at hmap
    cases hmap
    exact ⟨ending, rfl, hending⟩
  · rintro ⟨ending, rfl, h⟩
    have hsuffix : ".gguf".toList.isSuffixOf ((stem ++ ending).map Char.toLower) := by
      rw [isSuffixOf_iff_suffix, map_append, h]
      exact suffix_append _ _
    rw [ggufStem, if_pos hsuffix, hcut h]
    rfl

theorem digits_eq_some {bytes : List UInt8} {n : ℕ} (hlen : bytes.length = 5) :
    digits bytes = some n ↔ n < 10 ^ 5 ∧ bytes = utf8 (decimal 5 n) := by
  constructor
  · intro h
    obtain ⟨hall, hn⟩ := Option.ite_none_right_eq_some.mp h
    obtain ⟨hcs, hbytes⟩ := @digits_of_bytes bytes (by simpa using hall)
    cases hn
    have hlt := ofDigitChars_lt hcs
    rw [length_map, hlen] at hlt
    refine ⟨hlt, hbytes.symm.trans (congrArg utf8 ?_)⟩
    refine digits_inj hcs (decimal_digits 5 _) ?_ (ofDigitChars_decimal 5 _).symm
    rw [length_map, hlen, length_decimal (by decide) hlt]
  · rintro ⟨-, rfl⟩
    have hall := (utf8_digits (decimal_digits 5 n)).2
    rw [digits, if_pos (by simpa using hall), utf8_injective (digits_of_bytes hall).2, ofDigitChars_decimal]

/-- The numbers of an accepted name: one of the parts `1` to `count`, in five digits. -/
structure SplitName.Ok (s : SplitName) : Prop where
  named : s.namePrefix ≠ []
  pos : 0 < s.index
  le : s.index ≤ s.count
  lt : s.count < 10 ^ 5

theorem utf8_tail (s : SplitName) (i : ℕ) : utf8 (s.tail i) = utf8 "-".toList ++ (utf8 (decimal 5 i) ++
    (utf8 "-of-".toList ++ utf8 (decimal 5 s.count))) := by
  rw [SplitName.tail, utf8_append, utf8_append, utf8_append, append_assoc, append_assoc]

/-- The slices of fifteen bytes that the parser looks at. -/
theorem slices {dash i mark n : List UInt8} (hdash : dash.length = 1) (hi : i.length = 5) (hmark : mark.length = 4)
    {bytes : List UInt8} (hbytes : bytes = dash ++ (i ++ (mark ++ n))) : bytes.take 1 = dash ∧
      (bytes.drop 6).take 4 = mark ∧ (bytes.drop 1).take 5 = i ∧ bytes.drop 10 = n := by
  subst hbytes
  simp [drop_append, drop_of_length_le, hdash, hi, hmark]

/-- **What is accepted**: a prefix, the numbers, and the ending in either case. -/
theorem parseSplitName_eq_some : parseSplitName name = some s ↔ s.Ok ∧
    ∃ ending, name = s.stem s.index ++ ending ∧ ending.map Char.toLower = ".gguf".toList := by
  simp only [parseSplitName, Option.bind_eq_bind, Option.bind_eq_some_iff, Option.guard_eq_some', Prod.exists,
    Option.pure_def, Option.some.injEq, exists_const]
  constructor
  · rintro ⟨stem, hstem, hlong, namePrefix, tail, hcut, ⟨hdash, hof⟩, index, hindex, count, hcount, hle, rfl⟩
    obtain ⟨ending, rfl, hending⟩ := ggufStem_eq_some.mp hstem
    obtain ⟨rfl, hlen⟩ := splitAtByte_eq_some.mp hcut
    rw [utf8_append, length_append] at hlong hlen
    have htail : (utf8 tail).length = 15 := by omega
    obtain ⟨-, hindex⟩ := (digits_eq_some (by simp [htail])).mp hindex
    obtain ⟨hlt, hcount⟩ := (digits_eq_some (by simp [htail])).mp hcount
    have hname : namePrefix ≠ [] := by
      rintro rfl
      have : (utf8 []).length = 0 := rfl
      omega
    refine ⟨⟨hname, hle.1, hle.2.2, hlt⟩, ending, ?_, hending⟩
    -- the bytes of the tail are those of the marks and the numbers
    have h1 := take_append_drop 1 (utf8 tail)
    have h2 := take_append_drop 5 ((utf8 tail).drop 1)
    have h3 := take_append_drop 4 ((utf8 tail).drop 6)
    rw [drop_drop] at h2 h3
    rw [hdash, ← h2, hindex, ← h3, hof, hcount, ← utf8_tail ⟨namePrefix, index, count⟩] at h1
    rw [SplitName.stem, utf8_injective h1]
  · rintro ⟨hs, ending, rfl, hending⟩
    have hlen (n : ℕ) (h : n < 10 ^ 5) : (utf8 (decimal 5 n)).length = 5 := by
      rw [(utf8_digits (decimal_digits 5 n)).1, length_decimal (by decide) h]
    have hindex := Nat.lt_of_le_of_lt hs.le hs.lt
    obtain ⟨hdash, hof, hi, hn⟩ := slices rfl (hlen _ hindex) rfl (utf8_tail s s.index)
    have htail : (utf8 (s.tail s.index)).length = 15 := by
      simp only [utf8_tail, length_append, hlen _ hindex, hlen _ hs.lt]
      rfl
    have hname : 0 < (utf8 s.namePrefix).length :=
      length_pos_iff.mpr fun h => hs.named (utf8_injective h)
    refine ⟨_, ggufStem_eq_some.mpr ⟨ending, rfl, hending⟩, ?_, s.namePrefix, s.tail s.index,
      splitAtByte_eq_some.mpr ⟨rfl, ?_⟩, ⟨hdash, hof⟩, s.index, ?_, s.count, ?_,
      ⟨hs.pos, Nat.lt_of_lt_of_le hs.pos hs.le, hs.le⟩, rfl⟩
    · rw [SplitName.stem, utf8_append, length_append]
      omega
    · rw [SplitName.stem, utf8_append, length_append]
      omega
    · rw [hi]
      exact (digits_eq_some (hlen _ hindex)).mpr ⟨hindex, rfl⟩
    · rw [hn]
      exact (digits_eq_some (hlen _ hs.lt)).mpr ⟨hs.lt, rfl⟩

theorem partStem_partFileName (s : SplitName) (i : ℕ) : partStem (s.partFileName i) = s.stem i := by
  have hstem : ggufStem (s.partFileName i) = some (s.stem i) :=
    ggufStem_eq_some.mpr ⟨".gguf".toList, rfl, by decide⟩
  rw [partStem, hstem, Option.getD_some]

/-- **Split naming is consistent.** Of the set a name is accepted for, the names of the parts are as many as the
count; each is accepted, for the same set and as its own part; the names of their directories are in the order of
their bytes; and the accepted name is the one of its part, up to the case of its ending. -/
theorem split_names (h : parseSplitName name = some s) :
    s.partFileNames.length = s.count ∧
    (∀ i part, s.partFileNames[i]? = some part → parseSplitName part = some { s with index := i + 1 }) ∧
    (s.partFileNames.map fun part => utf8 (partStem part)).Pairwise (· < ·) ∧
    ∃ stem ending, name = stem ++ ending ∧ ending.map Char.toLower = ".gguf".toList ∧
      s.partFileNames[s.index - 1]? = some (stem ++ ".gguf".toList) := by
  obtain ⟨hs, ending, hname, hending⟩ := parseSplitName_eq_some.mp h
  have hpart {i : ℕ} (hi : i < s.count) : s.partFileNames[i]? = some (s.partFileName (i + 1)) := by
    simp [SplitName.partFileNames, hi, Nat.add_comm]
  have hcount : s.partFileNames.length = s.count := by simp [SplitName.partFileNames]
  refine ⟨hcount, fun i part hi => ?_, ?_, _, ending, hname, hending, ?_⟩
  · have hlt : i < s.count := hcount ▸ (List.getElem?_eq_some_iff.mp hi).1
    rw [hpart hlt] at hi
    cases hi
    exact parseSplitName_eq_some.mpr ⟨⟨hs.named, Nat.succ_pos i, hlt, hs.lt⟩, _, rfl, by decide⟩
  · rw [SplitName.partFileNames, map_map, pairwise_map]
    refine (pairwise_lt_range' 1).imp_of_mem fun {i j} hi hj hij => ?_
    rw [mem_range'_1] at hi hj
    have hlen (n : ℕ) (h : n < 1 + s.count) : (decimal 5 n).length = 5 :=
      length_decimal (by decide) (Nat.lt_of_le_of_lt (by omega) hs.lt)
    have hlt := (utf8_lt_iff (decimal_digits 5 i) (decimal_digits 5 j) ((hlen i hi.2).trans (hlen j hj.2).symm)
      ("-of-".toList ++ decimal 5 s.count)).mpr (by rwa [ofDigitChars_decimal, ofDigitChars_decimal])
    rw [utf8_append, utf8_append, utf8_append] at hlt
    simp only [Function.comp, partStem_partFileName, SplitName.stem, utf8_append, utf8_tail]
    exact append_left_lt (append_left_lt hlt)
  · have := hpart (i := s.index - 1) (by have := hs.pos; have := hs.le; omega)
    rwa [Nat.sub_add_cancel hs.pos] at this

/-- A name with a prefix of two bytes and its ending in upper case. -/
theorem split_names_upper : parseSplitName "é-00002-of-00003.GGUF".toList = some ⟨['é'], 2, 3⟩ ∧
    (SplitName.mk ['é'] 2 3).partFileNames.length = 3 :=
  ⟨by decide +kernel, (@split_names "é-00002-of-00003.GGUF".toList _ (by decide +kernel)).1⟩

end OneBrain.Models
