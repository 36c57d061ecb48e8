import Mathlib.Data.List.Basic

/-!
# Greedy decoding

What an autoregressive decoder is to produce, over any type of tokens and of pieces:
starting from a prompt, take the next token of the whole history, until it ends the
generation, its piece completes a stop match, or the budget is spent. The piece that
completes the match counts as generated and is not shown.

`Decoder.decode` runs from any number of tokens already generated, so a machine that
generates step by step follows it when each of its steps keeps `decode` from where it
stands equal to `decode` from the start; `decode_eog`, `decode_stop` and `decode_more`
are the three steps.
-/

namespace OneBrain.Lib

open List

/-- How a generation ends. -/
inductive Ending
  | length
  /-- An end-of-generation token or a stop match. -/
  | stop
deriving DecidableEq, Repr

/-- What a generation produced. -/
structure Outcome (α β : Type*) where
  tokens : List α
  sent : List β
  ending : Ending

/-- A deterministic decoder. -/
structure Decoder (α β : Type*) where
  next : List α → α
  isEog : α → Bool
  piece : α → β
  /-- Whether the pieces so far complete a stop match. -/
  stops : List β → Bool

namespace Decoder

variable {α β : Type*} (d : Decoder α β) (prompt : List α)

/-- Greedy decoding with some tokens generated and a budget left. -/
def decode : ℕ → List α → Outcome α β
  | 0, gen => { tokens := gen, sent := gen.map d.piece, ending := .length }
  | n + 1, gen =>
    let tok := d.next (prompt ++ gen)
    if d.isEog tok then { tokens := gen, sent := gen.map d.piece, ending := .stop }
    else if d.stops ((gen ++ [tok]).map d.piece) then
      { tokens := gen ++ [tok], sent := gen.map d.piece, ending := .stop }
    else decode n (gen ++ [tok])

variable {d prompt} {n : ℕ} {gen : List α} {tok : α}

theorem decode_eog (hn : 0 < n) (htok : tok = d.next (prompt ++ gen)) (heog : d.isEog tok = true) :
    d.decode prompt n gen = { tokens := gen, sent := gen.map d.piece, ending := .stop } := by
  obtain ⟨m, rfl⟩ : ∃ m, n = m + 1 := ⟨n - 1, by omega⟩
  simp [decode, ← htok, heog]

theorem decode_stop (hn : 0 < n) (htok : tok = d.next (prompt ++ gen)) (heog : d.isEog tok = false)
    (hstop : d.stops ((gen ++ [tok]).map d.piece) = true) :
    d.decode prompt n gen = { tokens := gen ++ [tok], sent := gen.map d.piece, ending := .stop } := by
  obtain ⟨m, rfl⟩ : ∃ m, n = m + 1 := ⟨n - 1, by omega⟩
  rw [decode]
  simp only [← htok, heog, hstop, Bool.false_eq_true, if_false, if_true]

theorem decode_more (hn : 0 < n) (htok : tok = d.next (prompt ++ gen)) (heog : d.isEog tok = false)
    (hstop : d.stops ((gen ++ [tok]).map d.piece) = false) :
    d.decode prompt n gen = d.decode prompt (n - 1) (gen ++ [tok]) := by
  obtain ⟨m, rfl⟩ : ∃ m, n = m + 1 := ⟨n - 1, by omega⟩
  rw [decode]
  simp only [← htok, heog, hstop, Bool.false_eq_true, if_false, Nat.add_sub_cancel]

theorem prefix_decode (n : ℕ) (gen : List α) : gen <+: (d.decode prompt n gen).tokens := by
  induction n generalizing gen with
  | zero => exact prefix_rfl
  | succ n ih =>
    rw [decode]
    split
    · exact prefix_rfl
    · split
      · exact prefix_append _ _
      · exact (prefix_append _ _).trans (ih _)

/-- The next token is generated unless it ends the generation. -/
theorem snoc_prefix_decode (hn : 0 < n) (htok : tok = d.next (prompt ++ gen)) (heog : d.isEog tok = false) :
    gen ++ [tok] <+: (d.decode prompt n gen).tokens := by
  cases hstop : d.stops ((gen ++ [tok]).map d.piece) with
  | true => exact ⟨[], by rw [append_nil, decode_stop hn htok heog hstop]⟩
  | false =>
    rw [decode_more hn htok heog hstop]
    exact prefix_decode _ _

/-- What is shown of some pieces: all but the one that completes a stop match. -/
def shown (d : Decoder α β) (pieces : List β) : List β := if d.stops pieces then pieces.dropLast else pieces

theorem decode_sent (hgen : d.stops (gen.map d.piece) = false) :
    (d.decode prompt n gen).sent = d.shown ((d.decode prompt n gen).tokens.map d.piece) := by
  induction n generalizing gen with
  | zero => simp [decode, shown, hgen]
  | succ n ih =>
    rw [decode]
    split
    · simp [shown, hgen]
    · split
      · rename_i hstop
        unfold shown
        rw [if_pos hstop, map_append]
        exact dropLast_concat.symm
      · rename_i hstop
        exact ih (by simpa using hstop)

/-- What was sent, if it completes no stop match, is the beginning of what is shown of more. -/
theorem prefix_shown {sent pieces : List β} (hpre : sent <+: pieces) (hclean : d.stops sent = false) :
    sent <+: d.shown pieces := by
  unfold shown
  split
  · rename_i hstop
    obtain ⟨rest, rfl⟩ := hpre
    rcases eq_nil_or_concat rest with rfl | ⟨front, last, rfl⟩
    · rw [append_nil, hclean] at hstop
      cases hstop
    · rw [concat_eq_append, ← append_assoc, dropLast_concat]
      exact prefix_append _ _
  · exact hpre

end Decoder

end OneBrain.Lib
