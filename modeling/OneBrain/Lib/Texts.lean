import Mathlib

/-!
# Texts, their bytes and padded decimals

A text is a list of characters, and `utf8` are its bytes. A byte position is a place to cut only where a
character starts (`splitAtByte_eq_some`). Digits are one byte each, so that of two decimals of one length the
smaller number is also the smaller in the order of bytes (`utf8_lt_iff`), and a number determines its decimal
(`digits_inj`).
-/

namespace OneBrain.Lib

open List

/-! ### Bytes -/

/-- The bytes of a text. -/
def utf8 (s : List Char) : List UInt8 := s.flatMap String.utf8EncodeChar

/-- A text cut at a byte position, if a character starts or the text ends there. -/
def splitAtByte (n : ℕ) (s : List Char) : Option (List Char × List Char) :=
  (s.inits.zip s.tails).find? fun p => (utf8 p.1).length == n

variable {s a b : List Char} {n : ℕ}

@[simp] theorem utf8_append (a b : List Char) : utf8 (a ++ b) = utf8 a ++ utf8 b := flatMap_append

theorem utf8_injective (h : utf8 a = utf8 b) : a = b := by
  have hbytes : a.utf8Encode = b.utf8Encode := congrArg List.toByteArray h
  rw [← String.toByteArray_ofList, ← String.toByteArray_ofList] at hbytes
  simpa using congrArg String.toList (String.toByteArray_inj.mp hbytes)

theorem splitAtByte_eq_some : splitAtByte n s = some (a, b) ↔ s = a ++ b ∧ (utf8 a).length = n := by
  have hfound {p : List Char × List Char} (h : splitAtByte n s = some p) : s = p.1 ++ p.2 ∧ (utf8 p.1).length = n :=
    ⟨((mem_zip_inits_tails ..).mp (mem_of_find?_eq_some h)).symm, by simpa using find?_some h⟩
  refine ⟨hfound, fun ⟨hs, hn⟩ => ?_⟩
  cases h : splitAtByte n s with
  | none =>
    have := find?_eq_none.mp h (a, b) ((mem_zip_inits_tails ..).mpr hs.symm)
    simp [hn] at this
  | some p =>
    -- the bytes before the position are the same, and so are the characters
    obtain ⟨hp, hlen⟩ := hfound h
    have hbytes := congrArg utf8 (hp.symm.trans hs)
    rw [utf8_append, utf8_append] at hbytes
    obtain ⟨ha, hb⟩ := append_inj hbytes (hlen.trans hn.symm)
    rw [← utf8_injective ha, ← utf8_injective hb]

/-! ### Decimals -/

/-- A number in decimal, with zeros in front up to the width. -/
def decimal (width n : ℕ) : List Char := (Nat.toDigits 10 n).leftpad width '0'

theorem digit_bounds {c : Char} (h : c.isDigit) : 48 ≤ c.toNat ∧ c.toNat ≤ 57 := Char.isDigit_iff_toNat.mp h

theorem utf8_digit {c : Char} (h : c.isDigit) (s : List Char) : utf8 (c :: s) = UInt8.ofNat c.toNat :: utf8 s := by
  have := digit_bounds h
  rw [utf8, flatMap_cons, String.utf8EncodeChar, if_pos (by rw [← Char.toNat]; omega)]
  rfl

/-- The bytes of a text of digits, and from them its characters. -/
theorem utf8_digits (h : ∀ c ∈ s, c.isDigit) : (utf8 s).length = s.length ∧ ∀ x ∈ utf8 s, 48 ≤ x ∧ x ≤ 57 := by
  induction s with
  | nil => simp [utf8]
  | cons c s ih =>
    simp only [mem_cons, forall_eq_or_imp] at h
    obtain ⟨hlen, hbytes⟩ := ih h.2
    have hc := digit_bounds h.1
    have hbyte : (UInt8.ofNat c.toNat).toNat = c.toNat := UInt8.toNat_ofNat_of_lt' (Nat.lt_of_le_of_lt hc.2 (by decide))
    rw [utf8_digit h.1]
    simp only [length_cons, hlen, mem_cons, forall_eq_or_imp, UInt8.le_iff_toNat_le, hbyte]
    exact ⟨trivial, hc, by simpa [UInt8.le_iff_toNat_le] using hbytes⟩

theorem digits_of_bytes {bytes : List UInt8} (h : ∀ x ∈ bytes, 48 ≤ x ∧ x ≤ 57) :
    (∀ c ∈ bytes.map fun x => Char.ofNat x.toNat, c.isDigit) ∧ utf8 (bytes.map fun x => Char.ofNat x.toNat) = bytes := by
  induction bytes with
  | nil => simp [utf8]
  | cons x bytes ih =>
    simp only [mem_cons, forall_eq_or_imp] at h
    obtain ⟨hs, hbytes⟩ := ih h.2
    have hx : (Char.ofNat x.toNat).toNat = x.toNat := by
      rw [Char.toNat_ofNat, if_pos (.inl (Nat.lt_of_le_of_lt (UInt8.le_iff_toNat_le.mp h.1.2) (by decide)))]
    have hdigit : (Char.ofNat x.toNat).isDigit := by
      rw [Char.isDigit_iff_toNat, hx]
      exact ⟨UInt8.le_iff_toNat_le.mp h.1.1, UInt8.le_iff_toNat_le.mp h.1.2⟩
    rw [map_cons, utf8_digit hdigit, hx, UInt8.ofNat_toNat, hbytes]
    exact ⟨forall_mem_cons.mpr ⟨hdigit, hs⟩, rfl⟩

theorem decimal_digits (width n : ℕ) : ∀ c ∈ decimal width n, c.isDigit := by
  intro c hc
  rcases mem_append.mp hc with hc | hc
  · rw [eq_of_mem_replicate hc]
    rfl
  · exact Nat.isDigit_of_mem_toDigits (by decide) (by decide) hc

theorem length_decimal {width : ℕ} (hpos : 0 < width) (h : n < 10 ^ width) : (decimal width n).length = width := by
  have := (Nat.length_toDigits_le_iff (by decide) hpos).mpr h
  rw [decimal, length_leftpad]
  omega

theorem ofDigitChars_decimal (width n : ℕ) : Nat.ofDigitChars 10 (decimal width n) 0 = n := by
  rw [decimal, leftpad, Nat.ofDigitChars_append, Nat.ofDigitChars_replicate_zero]
  simp

theorem ofDigitChars_cons (c : Char) (s : List Char) :
    Nat.ofDigitChars 10 (c :: s) 0 = 10 ^ s.length * (c.toNat - 48) + Nat.ofDigitChars 10 s 0 := by
  rw [Nat.ofDigitChars_cons, Nat.ofDigitChars_eq_ofDigitChars_zero, Nat.mul_zero, Nat.zero_add]
  rfl

theorem ofDigitChars_lt (h : ∀ c ∈ s, c.isDigit) : Nat.ofDigitChars 10 s 0 < 10 ^ s.length := by
  induction s with
  | nil => simp
  | cons c s ih =>
    have hc := digit_bounds (h c mem_cons_self)
    have hs := ih fun d hd => h d (mem_cons_of_mem _ hd)
    rw [ofDigitChars_cons, length_cons, pow_succ']
    have : 10 ^ s.length * (c.toNat - 48) ≤ 10 ^ s.length * 9 := Nat.mul_le_mul_left _ (by omega)
    omega

/-- **Decimals of one length** are ordered by their bytes as the numbers are. -/
theorem utf8_lt_iff (ha : ∀ c ∈ a, c.isDigit) (hb : ∀ c ∈ b, c.isDigit) (hlen : a.length = b.length) (s : List Char) :
    utf8 (a ++ s) < utf8 (b ++ s) ↔ Nat.ofDigitChars 10 a 0 < Nat.ofDigitChars 10 b 0 := by
  induction a generalizing b with
  | nil =>
    obtain rfl := length_eq_zero_iff.mp hlen.symm
    simp
  | cons x a ih =>
    cases b with
    | nil => cases hlen
    | cons y b =>
      simp only [mem_cons, forall_eq_or_imp] at ha hb
      have hx := digit_bounds ha.1
      have hy := digit_bounds hb.1
      have hu := ofDigitChars_lt ha.2
      have hv := ofDigitChars_lt hb.2
      have hlen := Nat.succ.inj hlen
      rw [ofDigitChars_cons, ofDigitChars_cons, cons_append, cons_append, utf8_digit ha.1, utf8_digit hb.1,
        cons_lt_cons_iff, ih ha.2 hb.2 hlen, UInt8.lt_iff_toNat_lt, ← UInt8.toNat_inj,
        UInt8.toNat_ofNat_of_lt' (Nat.lt_of_le_of_lt hx.2 (by decide)),
        UInt8.toNat_ofNat_of_lt' (Nat.lt_of_le_of_lt hy.2 (by decide))]
      rw [← hlen] at hv ⊢
      generalize 10 ^ a.length = p at *
      rcases lt_trichotomy x.toNat y.toNat with h | h | h
      · have := Nat.mul_le_mul_left p (show x.toNat - 48 + 1 ≤ y.toNat - 48 by omega)
        grind
      · rw [h]
        omega
      · have := Nat.mul_le_mul_left p (show y.toNat - 48 + 1 ≤ x.toNat - 48 by omega)
        grind

theorem digits_inj (ha : ∀ c ∈ a, c.isDigit) (hb : ∀ c ∈ b, c.isDigit) (hlen : a.length = b.length)
    (h : Nat.ofDigitChars 10 a 0 = Nat.ofDigitChars 10 b 0) : a = b := by
  have hab := (utf8_lt_iff ha hb hlen []).not.mpr (by omega)
  have hba := (utf8_lt_iff hb ha hlen.symm []).not.mpr (by omega)
  rw [append_nil, append_nil] at hab hba
  exact utf8_injective (List.le_antisymm (List.not_lt.mp hba) (List.not_lt.mp hab))

end OneBrain.Lib
