import Mathlib.Data.List.Infix
import Mathlib.Tactic.Linarith

/-!
# Readers of a byte string

A reader of a length-prefixed binary format walks over its input with a position and
either returns a value and the position behind it, or fails. Some failures only say that
the input was too short. This module is about such readers over any type of symbols and
of errors, and about two things one wants to know of them.

* `Stable` — what a caller that fetches a growing beginning of the input relies on.
* `Reads r P` — the reader accepts exactly the inputs that carry at the position an
  encoding of the value in the sense of `P`, and stops right behind it.

Both are closed under the ways readers are put together: sequencing, checks, and
repetition a given number of times (`many`). What is accepted by a repeated reader is
`Coded`: the encodings of the elements one after the other. Numbers of a fixed width are
`leBytes` and `leNat`, inverse to each other within the width.
-/

namespace OneBrain.Lib

open List

/-- A reader: the input is fixed, the position moves. -/
abbrev Reader (β ε : Type) := ReaderT (List β) (StateT ℕ (Except ε))

namespace Reader

variable {β ε α γ : Type} {r : Reader β ε α} {f : α → Reader β ε γ} {b : List β} {pos : ℕ}

theorem bind_error {e : ε} (h : r b pos = .error e) : (r >>= f) b pos = .error e := by
  change Except.bind (r b pos) _ = _
  rw [h]
  rfl

variable {n : ℕ}

theorem bind_ok {a : α} (h : r b pos = .ok (a, n)) : (r >>= f) b pos = f a b n := by
  change Except.bind (r b pos) _ = _
  rw [h]
  rfl

theorem bind_cases (r : Reader β ε α) (f : α → Reader β ε γ) (b : List β) (pos : ℕ) :
    (∃ e, r b pos = .error e ∧ (r >>= f) b pos = .error e) ∨
      ∃ a n, r b pos = .ok (a, n) ∧ (r >>= f) b pos = f a b n := by
  cases h : r b pos with
  | error e => exact .inl ⟨e, rfl, bind_error h⟩
  | ok v => exact .inr ⟨v.1, v.2, rfl, bind_ok h⟩

/-- Read a value `n` times. -/
def many (r : Reader β ε α) : ℕ → Reader β ε (List α)
  | 0 => pure []
  | n + 1 => do
    let a ← r
    let as ← many r n
    pure (a :: as)

/-- Fail unless at least `n` symbols are left. -/
def ensure (n : ℕ) (e : List β → ℕ → ε) : Reader β ε Unit := fun b pos =>
  if b.length - pos < n then .error (e b pos) else .ok ((), pos)

/-! ### Little-endian numbers -/

/-- The `w` low bytes of a number, the lowest first. -/
def leBytes : ℕ → ℕ → List UInt8
  | 0, _ => []
  | w + 1, n => UInt8.ofNat n :: leBytes w (n / 256)

/-- The number some bytes stand for, the lowest first. -/
def leNat : List UInt8 → ℕ
  | [] => 0
  | x :: xs => x.toNat + 256 * leNat xs

@[simp] theorem leBytes_length (w n : ℕ) : (leBytes w n).length = w := by
  induction w generalizing n with
  | zero => rfl
  | succ w ih => simp [leBytes, ih]

theorem leNat_lt (xs : List UInt8) : leNat xs < 256 ^ xs.length := by
  induction xs with
  | nil => simp [leNat]
  | cons x =>
    have hx : x.toNat < 256 := x.toNat_lt
    rw [leNat, length_cons, Nat.pow_succ]
    omega

theorem leNat_leBytes {w : ℕ} (h : n < 256 ^ w) : leNat (leBytes w n) = n := by
  induction w generalizing n with
  | zero =>
    rw [Nat.pow_zero] at h
    rw [leBytes, leNat]
    omega
  | succ w ih =>
    have hdiv : n / 256 < 256 ^ w := by
      rw [Nat.pow_succ] at h
      omega
    have hlow : (UInt8.ofNat n).toNat = n % 256 := UInt8.toNat_ofNat'
    rw [leBytes, leNat, ih hdiv, hlow]
    omega

theorem leBytes_leNat (xs : List UInt8) : leBytes xs.length (leNat xs) = xs := by
  induction xs with
  | nil => rfl
  | cons x xs ih =>
    have hx : x.toNat < 256 := x.toNat_lt
    have hdiv : (x.toNat + 256 * leNat xs) / 256 = leNat xs := by omega
    have hlow : UInt8.ofNat (x.toNat + 256 * leNat xs) = x := by
      apply UInt8.toNat_inj.mp
      rw [UInt8.toNat_ofNat']
      omega
    rw [length_cons, leNat, leBytes, hlow, hdiv, ih]

/-- Bytes are the little-endian form of a number exactly when they are as many and stand
for it. -/
theorem eq_leBytes_iff {w : ℕ} (h : n < 256 ^ w) {xs : List UInt8} :
    xs = leBytes w n ↔ xs.length = w ∧ leNat xs = n := by
  constructor
  · rintro rfl
    exact ⟨leBytes_length w n, leNat_leBytes h⟩
  · rintro ⟨rfl, rfl⟩
    exact (leBytes_leNat xs).symm

/-! ### Beginnings of the input -/

section stable

variable {more : ε → Prop}

/-- On a beginning of the input the reader does what it does on the whole input, unless
it asks for more. -/
def Stable (more : ε → Prop) (r : Reader β ε α) : Prop :=
  ∀ ⦃p b : List β⦄ ⦃pos : ℕ⦄, p <+: b → pos ≤ p.length →
    (∀ a n, r p pos = .ok (a, n) → n ≤ p.length ∧ r b pos = .ok (a, n)) ∧
      ∀ e, r p pos = .error e → more e ∨ r b pos = .error e

theorem stable_pure (a : α) : Stable more (pure a : Reader β ε α) := by
  intro p b pos _ hpos
  refine ⟨?_, ?_⟩
  · intro a' n h
    obtain ⟨rfl, rfl⟩ : a = a' ∧ pos = n := by simpa using Except.ok.inj h
    exact ⟨hpos, rfl⟩
  · intro e h
    cases h

theorem stable_throw (e : ε) : Stable more (throw e : Reader β ε α) := by
  intro p b pos _ _
  refine ⟨?_, ?_⟩
  · intro a n h
    cases h
  · intro e' h
    exact .inr h

theorem Stable.bind (hr : Stable more r) (hf : ∀ a, Stable more (f a)) : Stable more (r >>= f) := by
  intro p b pos hp hpos
  obtain ⟨hok, herr⟩ := hr hp hpos
  rcases bind_cases r f p pos with ⟨e, he, heq⟩ | ⟨a, n, ha, heq⟩
  · refine ⟨?_, ?_⟩
    · intro c m h
      rw [heq] at h
      cases h
    · intro e' h
      rw [heq] at h
      cases h
      exact (herr e he).imp id bind_error
  · obtain ⟨hn, hb⟩ := hok a n ha
    rw [heq, bind_ok hb]
    exact hf a hp hn

theorem Stable.map (g : α → γ) (hr : Stable more r) : Stable more (r >>= fun a => pure (g a)) :=
  hr.bind fun a => stable_pure (g a)

theorem Stable.ite {c : Prop} [Decidable c] {s : Reader β ε α} (hr : Stable more r) (hs : Stable more s) :
    Stable more (if c then r else s) := by
  split
  · exact hr
  · exact hs

theorem Stable.many (hr : Stable more r) (n : ℕ) : Stable more (many r n) := by
  induction n with
  | zero => exact stable_pure []
  | succ n ih => exact hr.bind fun a => ih.bind fun as => stable_pure (a :: as)

/-- A check for symbols left asks for more when it fails. -/
theorem stable_ensure (n : ℕ) {e : List β → ℕ → ε} (he : ∀ b pos, more (e b pos)) :
    Stable more (ensure n e) := by
  intro p b pos hp hpos
  have hlen := hp.length_le
  unfold ensure
  refine ⟨?_, ?_⟩
  · intro a m h
    split at h
    · cases h
    · rename_i hn
      obtain ⟨-, rfl⟩ : () = a ∧ pos = m := by simpa using Except.ok.inj h
      refine ⟨hpos, ?_⟩
      rw [if_neg (by omega)]
  · intro e' h
    split at h
    · cases h
      exact .inl (he p pos)
    · cases h

end stable

/-! ### What is accepted -/

section reads

variable {limit : ℕ} {P : α → List β → Prop} {Q : α → γ → List β → Prop}

/-- The reader accepts exactly the inputs shorter than `limit` that carry an encoding of
the value at the position, and stops right behind it. -/
def Reads (limit : ℕ) (r : Reader β ε α) (P : α → List β → Prop) : Prop :=
  ∀ ⦃b : List β⦄ ⦃pos : ℕ⦄, b.length < limit → pos ≤ b.length → ∀ a n,
    r b pos = .ok (a, n) ↔ ∃ enc rest, P a enc ∧ b.drop pos = enc ++ rest ∧ n = pos + enc.length

theorem Reads.congr {P' : α → List β → Prop} (hr : Reads limit r P) (h : ∀ a enc, P a enc ↔ P' a enc) :
    Reads limit r P' := by
  intro b pos hb hpos a n
  rw [hr hb hpos]
  simp only [h]

theorem reads_pure (a : α) : Reads limit (pure a : Reader β ε α) fun a' enc => a' = a ∧ enc = [] := by
  intro b pos _ _ a' n
  constructor
  · intro h
    obtain ⟨rfl, rfl⟩ : a = a' ∧ pos = n := by simpa using Except.ok.inj h
    exact ⟨[], b.drop pos, ⟨rfl, rfl⟩, rfl, rfl⟩
  · rintro ⟨enc, rest, ⟨rfl, rfl⟩, -, rfl⟩
    rfl

theorem reads_throw (e : ε) : Reads limit (throw e : Reader β ε α) fun _ _ => False := by
  intro b pos _ _ a n
  constructor
  · intro h
    cases h
  · rintro ⟨_, _, h, -⟩
    exact h.elim

variable {enc : List β} {as : List α}

theorem drop_append_length {rest : List β} (hpos : pos ≤ b.length) (h : b.drop pos = enc ++ rest) :
    pos + enc.length ≤ b.length ∧ b.drop (pos + enc.length) = rest := by
  have hlen := congrArg List.length h
  rw [length_drop, length_append] at hlen
  refine ⟨by omega, ?_⟩
  rw [← drop_drop, h, drop_left]

theorem Reads.bind (hr : Reads limit r P) (hf : ∀ a, Reads limit (f a) (Q a)) :
    Reads limit (r >>= f) fun c enc => ∃ a e₁ e₂, P a e₁ ∧ Q a c e₂ ∧ enc = e₁ ++ e₂ := by
  intro b pos hb hpos c n
  constructor
  · intro h
    rcases bind_cases r f b pos with ⟨e, -, heq⟩ | ⟨a, m, ha, heq⟩
    · rw [heq] at h
      cases h
    · rw [heq] at h
      obtain ⟨e₁, rest, hP, hdrop, rfl⟩ := (hr hb hpos a m).mp ha
      obtain ⟨hpos', hrest⟩ := drop_append_length hpos hdrop
      obtain ⟨e₂, rest', hQ, hdrop', rfl⟩ := (hf a hb hpos' c n).mp h
      refine ⟨e₁ ++ e₂, rest', ⟨a, e₁, e₂, hP, hQ, rfl⟩, ?_, ?_⟩
      · rw [hdrop, ← hrest, hdrop', append_assoc]
      · rw [length_append, Nat.add_assoc]
  · rintro ⟨enc, rest, ⟨a, e₁, e₂, hP, hQ, rfl⟩, hdrop, rfl⟩
    rw [append_assoc] at hdrop
    obtain ⟨hpos', hrest⟩ := drop_append_length hpos hdrop
    rw [bind_ok ((hr hb hpos a _).mpr ⟨e₁, e₂ ++ rest, hP, hdrop, rfl⟩)]
    refine (hf a hb hpos' c _).mpr ⟨e₂, rest, hQ, hrest, ?_⟩
    rw [length_append, Nat.add_assoc]

/-- A reader whose value is computed from what was read. -/
theorem Reads.map (g : α → γ) (hr : Reads limit r P) :
    Reads limit (r >>= fun a => pure (g a)) fun c enc => ∃ a, P a enc ∧ c = g a := by
  refine (hr.bind fun a => reads_pure (g a)).congr fun c enc => ?_
  constructor
  · rintro ⟨a, e₁, _, ha, ⟨rfl, rfl⟩, rfl⟩
    exact ⟨a, by simpa using ha, rfl⟩
  · rintro ⟨a, ha, rfl⟩
    exact ⟨a, enc, [], ha, ⟨rfl, rfl⟩, by simp⟩

theorem Reads.ite {c : Prop} [Decidable c] {s : Reader β ε α} (hr : c → Reads limit r P)
    (hs : ¬ c → Reads limit s P) : Reads limit (if c then r else s) P := by
  split
  · rename_i hc
    exact hr hc
  · rename_i hc
    exact hs hc

theorem Reads.unless {c : Prop} [Decidable c] (e : ε) (hr : Reads limit r P) :
    Reads limit (if c then throw e else r) fun a enc => ¬ c ∧ P a enc := by
  split
  · rename_i hc
    exact (reads_throw e).congr fun a enc => by simp [hc]
  · rename_i hc
    exact hr.congr fun a enc => by simp [hc]

/-- Encodings of the elements of a list, one after the other. -/
def Coded (P : α → List β → Prop) : List α → List β → Prop
  | [], enc => enc = []
  | a :: as, enc => ∃ e₁ e₂, P a e₁ ∧ Coded P as e₂ ∧ enc = e₁ ++ e₂

/-- A property of the elements can be told apart from their encoding. -/
theorem coded_and {p : α → Prop} :
    Coded (fun a e => p a ∧ P a e) as enc ↔ (∀ a ∈ as, p a) ∧ Coded P as enc := by
  induction as generalizing enc with
  | nil => simp [Coded]
  | cons a as ih =>
    rw [forall_mem_cons]
    constructor
    · rintro ⟨e₁, e₂, ⟨hp, hP⟩, has, rfl⟩
      obtain ⟨hall, hcoded⟩ := ih.mp has
      exact ⟨⟨hp, hall⟩, e₁, e₂, hP, hcoded, rfl⟩
    · rintro ⟨⟨hp, hall⟩, e₁, e₂, hP, hcoded, rfl⟩
      exact ⟨e₁, e₂, ⟨hp, hP⟩, ih.mpr ⟨hall, hcoded⟩, rfl⟩

theorem coded_eq {g : α → List β} : Coded (fun a e => e = g a) as enc ↔ enc = as.flatMap g := by
  induction as generalizing enc with
  | nil => exact Iff.rfl
  | cons a as ih =>
    rw [flatMap_cons]
    constructor
    · rintro ⟨_, e₂, rfl, has, rfl⟩
      rw [ih.mp has]
    · rintro rfl
      exact ⟨_, _, rfl, ih.mpr rfl, rfl⟩

theorem Coded.imp {P' : α → List β → Prop}
    (h : ∀ a ∈ as, ∀ e, P a e → P' a e) (hcoded : Coded P as enc) : Coded P' as enc := by
  induction as generalizing enc with
  | nil => exact hcoded
  | cons a as ih =>
    obtain ⟨e₁, e₂, hP, has, rfl⟩ := hcoded
    refine ⟨e₁, e₂, h a (mem_cons_self ..) e₁ hP, ih ?_ has, rfl⟩
    exact fun b hb => h b (mem_cons_of_mem a hb)

theorem coded_flatMap {g : α → List β} (h : ∀ a ∈ as, P a (g a)) : Coded P as (as.flatMap g) := by
  refine (coded_eq.mpr rfl).imp fun a ha e he => ?_
  rw [he]
  exact h a ha

theorem Coded.exists (hcoded : Coded P as enc) : ∀ a ∈ as, ∃ e, P a e := by
  induction as generalizing enc with
  | nil => simp
  | cons a as ih =>
    obtain ⟨e₁, e₂, hP, has, rfl⟩ := hcoded
    rw [forall_mem_cons]
    exact ⟨⟨e₁, hP⟩, ih has⟩

/-- A list with nonempty encodings is not longer than its encoding. -/
theorem Coded.length_le (hpos : ∀ a e, P a e → 0 < e.length) (hcoded : Coded P as enc) : as.length ≤ enc.length := by
  induction as generalizing enc with
  | nil => exact Nat.zero_le _
  | cons a as ih =>
    obtain ⟨e₁, e₂, hP, has, rfl⟩ := hcoded
    have h₁ := hpos a e₁ hP
    have h₂ := ih has
    rw [length_cons, length_append]
    omega

theorem Reads.many (hr : Reads limit r P) (n : ℕ) :
    Reads limit (many r n) fun as enc => as.length = n ∧ Coded P as enc := by
  induction n with
  | zero =>
    refine (reads_pure []).congr fun as enc => ?_
    cases as <;> simp [Coded]
  | succ n ih =>
    refine (hr.bind fun a => ih.bind fun as => reads_pure (a :: as)).congr fun as enc => ?_
    constructor
    · rintro ⟨a, e₁, _, ha, ⟨as', e₂, _, ⟨hlen, has⟩, ⟨rfl, rfl⟩, rfl⟩, rfl⟩
      exact ⟨by simp [hlen], e₁, e₂, ha, has, by simp⟩
    · rintro ⟨hlen, hcoded⟩
      cases as with
      | nil => simp at hlen
      | cons a as =>
        obtain ⟨e₁, e₂, ha, has, rfl⟩ := hcoded
        exact ⟨a, e₁, e₂, ha, ⟨as, e₂, [], ⟨by simpa using hlen, has⟩, ⟨rfl, rfl⟩, by simp⟩, rfl⟩

/-- A check for symbols left refuses nothing when every encoding is that long. -/
theorem Reads.ensure {n : ℕ} {e : List β → ℕ → ε} (hr : Reads limit r P)
    (hlong : ∀ a enc, P a enc → n ≤ enc.length) : Reads limit (ensure n e >>= fun _ => r) P := by
  intro b pos hb hpos a m
  constructor
  · intro h
    rcases bind_cases (Reader.ensure n e) (fun _ => r) b pos with ⟨_, -, heq⟩ | ⟨u, k, hu, heq⟩
    · rw [heq] at h
      cases h
    · unfold Reader.ensure at hu
      split at hu
      · cases hu
      · obtain ⟨-, rfl⟩ : () = u ∧ pos = k := by simpa using Except.ok.inj hu
        rw [heq] at h
        exact (hr hb hpos a m).mp h
  · rintro ⟨enc, rest, hP, hdrop, rfl⟩
    have hle := (drop_append_length hpos hdrop).1
    have hn := hlong a enc hP
    have hok : Reader.ensure n e b pos = .ok ((), pos) := by
      unfold Reader.ensure
      rw [if_neg (by omega)]
    rw [bind_ok hok]
    exact (hr hb hpos a _).mpr ⟨enc, rest, hP, hdrop, rfl⟩

end reads

end Reader

end OneBrain.Lib
