import OneBrain.Lib.Window
import OneBrain.Engine.Types

/-!
# The stop scanner is exact

The scanner keeps a window of the text it was fed. It rejects a piece exactly when the
text contains a stop string with that piece and did not before, whatever it has dropped
from its window (`stopScan_exact`).
-/

namespace OneBrain.Engine

open List OneBrain.Lib

/-- A stop string is in a text. -/
def Contains (stops : List Text) (text : Text) : Prop := ∃ stop ∈ stops, stop ≠ [] ∧ stop <:+: text

instance (stops : List Text) (text : Text) : Decidable (Contains stops text) :=
  inferInstanceAs (Decidable (∃ stop ∈ stops, stop ≠ [] ∧ stop <:+: text))

theorem Contains.append {stops : List Text} {text : Text} (h : Contains stops text) (piece : Text) :
    Contains stops (text ++ piece) := by
  obtain ⟨stop, hmem, hne, hinfix⟩ := h
  exact ⟨stop, hmem, hne, hinfix.trans (prefix_append text piece).isInfix⟩

theorem not_contains_nil (stops : List Text) : ¬ Contains stops [] := by
  rintro ⟨stop, -, hne, hinfix⟩
  exact hne (infix_nil.mp hinfix)

/-- The scanner's state after a text. -/
structure ScanOk (stops : List Text) (scan : StopScan) (text : Text) : Prop where
  /-- It looks for the stop strings that are not empty. -/
  stops_eq : scan.stops = stops.filter fun s => !s.isEmpty
  /-- It keeps one byte less than the longest. -/
  keep_eq : scan.keep = (scan.stops.map byteLen).foldr max 0 - 1
  /-- Its tail is a window of the text. -/
  covers : scan.stops ≠ [] → Covers Char.utf8Size scan.keep scan.tail text

theorem ScanOk.new (stops : List Text) : ScanOk stops (StopScan.new stops) [] :=
  ⟨rfl, rfl, fun _ => .refl _ _⟩

theorem byteLen_eq (t : Text) : byteLen t = weight Char.utf8Size t := by
  induction t with
  | nil => rfl
  | cons c t ih =>
    rw [weight_cons, ← ih]
    rfl

theorem trimTail_eq (keep : ℕ) (t : Text) : trimTail keep t = cutWindow Char.utf8Size keep t := by
  induction t with
  | nil => rfl
  | cons c t ih =>
    rw [trimTail, cutWindow, ih, byteLen_eq]

theorem le_foldr_max {l : List ℕ} {n : ℕ} (hn : n ∈ l) : n ≤ l.foldr max 0 := by
  induction l with
  | nil => cases hn
  | cons a l ih =>
    rcases mem_cons.mp hn with rfl | hn
    · exact le_max_left _ _
    · exact (ih hn).trans (le_max_right _ _)

namespace ScanOk

variable {stops : List Text} {scan scan' : StopScan} {text piece : Text}

variable (hs : ScanOk stops scan text)
include hs

theorem mem_stops {stop : Text} :
    stop ∈ scan.stops ↔ stop ∈ stops ∧ stop ≠ [] := by
  simp [hs.stops_eq]

theorem contains_iff (t : Text) :
    Contains stops t ↔ ∃ stop ∈ scan.stops, stop <:+: t := by
  simp only [Contains, hs.mem_stops, and_assoc]

/-- No stop string is heavier than the window and one byte. -/
theorem weight_le {stop : Text} (hmem : stop ∈ scan.stops) :
    weight Char.utf8Size stop ≤ scan.keep + 1 := by
  have hle := le_foldr_max (mem_map_of_mem hmem : byteLen stop ∈ scan.stops.map byteLen)
  rw [hs.keep_eq]
  rw [byteLen_eq] at hle
  omega

theorem reject (hr : scan.admitPiece piece = (scan', false)) :
    ScanOk stops scan' (text ++ piece) ∧ Contains stops (text ++ piece) := by
  unfold StopScan.admitPiece at hr
  split at hr
  · cases hr
  · rename_i hne
    have hcov := (hs.covers (by simpa using hne)).append piece
    simp only at hr
    split at hr
    · rename_i hany
      obtain ⟨rfl, -⟩ := Prod.mk.inj hr
      refine ⟨⟨hs.stops_eq, hs.keep_eq, fun _ => hcov⟩, (hs.contains_iff _).mpr ?_⟩
      simp only [any_eq_true, decide_eq_true_eq] at hany
      obtain ⟨stop, hmem, hinfix⟩ := hany
      exact ⟨stop, hmem, hinfix.trans hcov.suffix.isInfix⟩
    · cases hr

theorem admits (hr : scan.admitPiece piece = (scan', true)) :
    ScanOk stops scan' (text ++ piece) ∧ (¬ Contains stops text → ¬ Contains stops (text ++ piece)) := by
  unfold StopScan.admitPiece at hr
  split at hr
  · rename_i hnil
    obtain ⟨rfl, -⟩ := Prod.mk.inj hr
    have hnil : scan.stops = [] := by simpa using hnil
    refine ⟨⟨hs.stops_eq, hs.keep_eq, fun h => absurd hnil h⟩, fun _ => ?_⟩
    rw [hs.contains_iff, hnil]
    simp
  · rename_i hne
    have hcov := hs.covers (by simpa using hne)
    simp only at hr
    split at hr
    · cases hr
    · rename_i hany
      obtain ⟨rfl, -⟩ := Prod.mk.inj hr
      simp only [any_eq_true, decide_eq_true_eq] at hany
      refine ⟨⟨hs.stops_eq, hs.keep_eq, fun _ => ?_⟩, fun hnone => ?_⟩
      · simp only [trimTail_eq]
        exact (hcov.append piece).cut
      · rw [hs.contains_iff] at hnone ⊢
        rintro ⟨stop, hmem, hinfix⟩
        refine hany ⟨stop, hmem, ?_⟩
        exact (hcov.match_iff Char.utf8Size_pos (hs.weight_le hmem) fun h => hnone ⟨stop, hmem, h⟩).mpr hinfix

theorem answer (hclean : ¬ Contains stops text) :
    (scan.admitPiece piece).2 = decide (¬ Contains stops (text ++ piece)) := by
  cases hr : scan.admitPiece piece with
  | mk scan' admitted =>
    cases admitted with
    | true => exact (decide_eq_true ((hs.admits hr).2 hclean)).symm
    | false => exact (decide_eq_false (not_not_intro (hs.reject hr).2)).symm

theorem fed : ScanOk stops (scan.admitPiece piece).1 (text ++ piece) := by
  cases hr : scan.admitPiece piece with
  | mk scan' admitted =>
    cases admitted with
    | true => exact (hs.admits hr).1
    | false => exact (hs.reject hr).1

end ScanOk

/-- The answers to pieces that are fed one after the other. -/
def StopScan.answers : StopScan → List Text → List Bool
  | _, [] => []
  | scan, piece :: rest =>
    let (scan, admitted) := scan.admitPiece piece
    admitted :: scan.answers rest

theorem ScanOk.answers {stops : List Text} {scan : StopScan} {text : Text} (hs : ScanOk stops scan text)
    (pieces : List Text) (piece : Text) (hclean : ¬ Contains stops (text ++ pieces.flatten)) :
    scan.answers (pieces ++ [piece]) =
      List.replicate pieces.length true ++ [decide (¬ Contains stops (text ++ pieces.flatten ++ piece))] := by
  induction pieces generalizing scan text with
  | nil =>
    rw [flatten_nil, append_nil] at hclean ⊢
    change [(scan.admitPiece piece).2] = [decide (¬ Contains stops (text ++ piece))]
    rw [hs.answer hclean]
  | cons first pieces ih =>
    rw [flatten_cons, ← append_assoc] at hclean ⊢
    -- No stop string yet after all pieces, so none after fewer.
    have hfirst : ¬ Contains stops (text ++ first) := fun h => hclean (h.append _)
    have htext : ¬ Contains stops text := fun h => hfirst (h.append _)
    change (scan.admitPiece first).2 :: (scan.admitPiece first).1.answers (pieces ++ [piece]) = _
    rw [hs.answer htext, decide_eq_true hfirst, ih hs.fed hclean]
    rfl

/-- **Stop scanning is exact**: as long as the text of all pieces contains no stop string every
piece is admitted, and the next piece is rejected exactly when it completes one. -/
theorem stopScan_exact (stops pieces : List Text) (piece : Text) (hclean : ¬ Contains stops pieces.flatten) :
    (StopScan.new stops).answers (pieces ++ [piece]) =
      List.replicate pieces.length true ++ [decide (¬ Contains stops (pieces ++ [piece]).flatten)] := by
  rw [(ScanOk.new stops).answers pieces piece hclean, nil_append, flatten_append, flatten_singleton]

/-- A stop string of two-byte characters that three pieces complete. -/
theorem stopScan_exact_split :
    (StopScan.new ["".toList, "éàé".toList]).answers ["xé".toList, "à".toList, "éy".toList] = [true, true, false] := by
  have hclean : ¬ Contains ["".toList, "éàé".toList] ["xé".toList, "à".toList].flatten := by decide
  have hlast : Contains ["".toList, "éàé".toList] (["xé".toList, "à".toList] ++ ["éy".toList]).flatten := by decide
  have hexact := stopScan_exact ["".toList, "éàé".toList] ["xé".toList, "à".toList] "éy".toList hclean
  rwa [decide_eq_false (not_not_intro hlast)] at hexact

end OneBrain.Engine
