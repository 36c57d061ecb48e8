import Mathlib.Algebra.Order.BigOperators.Group.List
import OneBrain.Engine.Draft

/-!
# Prefix reuse, eviction and slot choice

What admission does to the slot lists before a job becomes active. Eviction only
forgets retained slots (`Evicted`), the reuse match keeps pointing at the slot it was
made for (`ReuseOk`), and a slot is always found while fewer generations are active
than the session has slots (`takeSlot_ok`): the panics of the source are unreachable.
-/

namespace OneBrain.Engine

open List OneBrain.Lib

variable {env : Env} {cfg : Cfg}

/-! ### The reuse match -/

theorem take_commonPrefixLen (a b : List Token) (k : ℕ) (hk : k ≤ commonPrefixLen a b) :
    a.take k = b.take k := by
  induction a generalizing b k with
  | nil =>
    cases b <;> simp only [commonPrefixLen, Nat.le_zero] at hk <;> simp [hk]
  | cons x a ih =>
    cases b with
    | nil =>
      simp only [commonPrefixLen, Nat.le_zero] at hk
      simp [hk]
    | cons y b =>
      simp only [commonPrefixLen] at hk
      cases k with
      | zero => rfl
      | succ k =>
        split at hk
        · rename_i hxy
          simp [hxy, ih b k (by omega)]
        · omega

/-- A reuse match points at a retained slot whose history begins like the prompt, and
leaves at least one token to prefill. -/
def ReuseOk (retained : List RetainedSlot) (prompt : List Token) (reuse : Option (ℕ × ℕ)) : Prop :=
  ∀ r ∈ reuse, ∃ slot, retained[r.1]? = some slot ∧ r.2 ≤ commonPrefixLen slot.history prompt ∧
    r.2 ≤ prompt.length - 1

theorem bestReuse_ok (prompt : List Token) (l pre : List RetainedSlot) (best : Option (ℕ × ℕ))
    (hbest : ReuseOk (pre ++ l) prompt best) :
    ReuseOk (pre ++ l) prompt (bestReuse prompt l pre.length best) := by
  induction l generalizing pre best with
  | nil => exact hbest
  | cons slot rest ih =>
    simp only [bestReuse]
    have hih := ih (pre ++ [slot])
    simp only [append_assoc, singleton_append, length_append, length_singleton] at hih
    apply hih
    split
    · intro r hr
      simp only [Option.mem_def, Option.some.injEq] at hr
      subst hr
      exact ⟨slot, by simp, by simp only; omega, by simp only; omega⟩
    · exact hbest

/-! ### Eviction -/

/-- Retained slots were forgotten and their caches cleared; nothing else changed. -/
structure Evicted (h h' : Host) : Prop where
  /-- Only the caches and the retained list differ. -/
  same : h' = { h with kv := h'.kv, retained := h'.retained }
  sublist : h'.retained.Sublist h.retained
  /-- Caches of unretained and of still retained slots. -/
  kv : ∀ s, (s ∈ h.retained.map RetainedSlot.seq → s ∈ h'.retained.map RetainedSlot.seq) →
    h'.kv s = h.kv s

theorem Evicted.refl (h : Host) : Evicted h h := ⟨rfl, .refl _, fun _ _ => rfl⟩

theorem Evicted.trans {h h' h'' : Host} (a : Evicted h h') (b : Evicted h' h'') : Evicted h h'' where
  same := by
    rw [b.same, a.same]
  sublist := b.sublist.trans a.sublist
  kv s hs := by
    have hsub : s ∈ h''.retained.map RetainedSlot.seq → s ∈ h'.retained.map RetainedSlot.seq :=
      fun hm => (b.sublist.map _).subset hm
    have hsub' : s ∈ h'.retained.map RetainedSlot.seq → s ∈ h.retained.map RetainedSlot.seq :=
      fun hm => (a.sublist.map _).subset hm
    rw [b.kv s fun hm => hs (hsub' hm), a.kv s fun hm => hsub (hs hm)]

theorem seq_ne_of_mem_eraseIdx {retained : List RetainedSlot} {pos : ℕ} {slot r : RetainedSlot}
    (hnodup : (retained.map RetainedSlot.seq).Nodup) (hslot : retained[pos]? = some slot)
    (hr : r ∈ retained.eraseIdx pos) : r.seq ≠ slot.seq := by
  obtain ⟨hlt, hget⟩ := List.getElem?_eq_some_iff.mp hslot
  have hsplit : retained = retained.take pos ++ slot :: retained.drop (pos + 1) := by
    rw [← hget, getElem_cons_drop, take_append_drop]
  rw [hsplit, map_append, map_cons, perm_middle.nodup_iff, nodup_cons] at hnodup
  rw [eraseIdx_eq_take_drop_succ] at hr
  intro heq
  apply hnodup.1
  rw [← heq, ← map_append]
  exact mem_map_of_mem hr

theorem evicted_one {h : Host} {pos : ℕ} {victim : RetainedSlot}
    (hnodup : (h.retained.map RetainedSlot.seq).Nodup) (hv : h.retained[pos]? = some victim) :
    Evicted h ({ h with retained := h.retained.eraseIdx pos }.clearSeq victim.seq) where
  same := rfl
  sublist := eraseIdx_sublist _ _
  kv s hs := by
    refine Function.update_of_ne ?_ _ _
    rintro rfl
    obtain ⟨r, hr, heq⟩ := mem_map.mp (hs (mem_map_of_mem (mem_of_getElem? hv)))
    exact seq_ne_of_mem_eraseIdx hnodup hv hr heq

/-- The retained slot a match points at. -/
def reuseSlot (retained : List RetainedSlot) (reuse : Option (ℕ × ℕ)) : Option RetainedSlot :=
  reuse.bind fun r => retained[r.1]?

variable {retained : List RetainedSlot} {reuse : Option (ℕ × ℕ)} {pos : ℕ} {victim : RetainedSlot}

/-- Evicting another slot moves the match along with its slot. -/
theorem reuseSlot_evict (hv : retained[pos]? = some victim) (hkeep : some victim.seq ≠ reuseSeq retained reuse) :
    reuseSlot (retained.eraseIdx pos) (reuse.map fun r => (if pos < r.1 then r.1 - 1 else r.1, r.2)) =
      reuseSlot retained reuse := by
  cases reuse with
  | none => rfl
  | some r =>
    obtain ⟨idx, lcp⟩ := r
    have hne : pos ≠ idx := by
      rintro rfl
      apply hkeep
      simp only [reuseSeq, Option.bind_some, hv, Option.map_some]
    simp only [reuseSlot, Option.map_some, Option.bind_some]
    rcases Nat.lt_or_gt_of_ne hne with hlt | hgt
    · rw [if_pos hlt, List.getElem?_eraseIdx, if_neg (by omega), Nat.sub_add_cancel (by omega)]
    · rw [if_neg (by omega), List.getElem?_eraseIdx, if_pos hgt]

theorem ReuseOk.evict {prompt : List Token} (hr : ReuseOk retained prompt reuse) (hv : retained[pos]? = some victim)
    (hkeep : some victim.seq ≠ reuseSeq retained reuse) :
    ReuseOk (retained.eraseIdx pos) prompt (reuse.map fun r => (if pos < r.1 then r.1 - 1 else r.1, r.2)) := by
  intro r hmem
  simp only [Option.mem_def, Option.map_eq_some_iff] at hmem
  obtain ⟨⟨idx, lcp⟩, rfl, rfl⟩ := hmem
  obtain ⟨slot, hslot, h1, h2⟩ := hr (idx, lcp) rfl
  exact ⟨slot, (reuseSlot_evict hv hkeep).trans hslot, h1, h2⟩

/-- **Eviction** forgets retained slots other than the match, and nothing else; the match names the same slot
after it as before. -/
theorem makeRoom_ok (used budget nCtx n : ℕ) (prompt : List Token) (h : Host) (reuse : Option (ℕ × ℕ))
    (hnodup : (h.retained.map RetainedSlot.seq).Nodup) (hr : ReuseOk h.retained prompt reuse) :
    Evicted h (makeRoom used budget nCtx n h reuse).1 ∧
      ReuseOk (makeRoom used budget nCtx n h reuse).1.retained prompt (makeRoom used budget nCtx n h reuse).2 ∧
      reuseSlot (makeRoom used budget nCtx n h reuse).1.retained (makeRoom used budget nCtx n h reuse).2 =
        reuseSlot h.retained reuse := by
  induction n generalizing h reuse with
  | zero => exact ⟨.refl h, hr, rfl⟩
  | succ n ih =>
    simp only [makeRoom]
    split
    · exact ⟨.refl h, hr, rfl⟩
    · split
      · exact ⟨.refl h, hr, rfl⟩
      · rename_i pos hpos
        split
        · exact ⟨.refl h, hr, rfl⟩
        · rename_i victim hv
          have hkeep : some victim.seq ≠ reuseSeq h.retained reuse := by
            obtain ⟨hlt, hp, -⟩ := List.findIdx?_eq_some_iff_getElem.mp hpos
            obtain ⟨_, hget⟩ := List.getElem?_eq_some_iff.mp hv
            simpa [hget] using hp
          have hev := evicted_one hnodup hv
          obtain ⟨h1, h2, h3⟩ := ih _ _ (hnodup.sublist (hev.sublist.map _)) (hr.evict hv hkeep)
          exact ⟨hev.trans h1, h2, h3.trans (reuseSlot_evict hv hkeep)⟩

/-! ### Slot choice -/

theorem perm_eraseIdx {α : Type*} {l : List α} {pos : ℕ} {a : α} (ha : l[pos]? = some a) :
    (a :: l.eraseIdx pos).Perm l := by
  obtain ⟨hlt, hget⟩ := List.getElem?_eq_some_iff.mp ha
  rw [← hget]
  exact getElem_cons_eraseIdx_perm hlt

theorem perm_swapRemove {α : Type*} {l : List α} {pos : ℕ} {a : α} (ha : l[pos]? = some a) :
    (a :: swapRemove l pos).Perm l := by
  rcases eq_nil_or_concat l with rfl | ⟨init, x, rfl⟩
  · simp at ha
  · simp only [concat_eq_append, swapRemove, List.getLast?_append, List.getLast?_singleton,
      Option.some_or, dropLast_concat] at ha ⊢
    by_cases hlt : pos < init.length
    · rw [List.getElem?_append_left hlt] at ha
      have hset : (init.set pos x).Perm (x :: init.eraseIdx pos) := set_perm_cons_eraseIdx hlt x
      calc (a :: init.set pos x).Perm (a :: x :: init.eraseIdx pos) := hset.cons a
        _ |>.Perm (x :: a :: init.eraseIdx pos) := .swap x a _
        _ |>.Perm (x :: init) := (perm_eraseIdx ha).cons x
        _ |>.Perm (init ++ [x]) := (perm_append_singleton x init).symm
    · rw [List.getElem?_append_right (by omega)] at ha
      have hx : x = a := by
        have := mem_of_getElem? ha
        simpa [eq_comm] using this
      rw [set_eq_of_length_le (by omega), hx]
      exact (perm_append_singleton a init).symm

theorem coldSlot_ok {free : List SeqId} {retained : List RetainedSlot} (hfree : free ≠ [])
    (hret : ∀ r ∈ retained, r.seq ∈ free) :
    ∃ pos seq kept, coldSlot free retained = some (pos, kept) ∧ free[pos]? = some seq ∧
      kept.Sublist retained := by
  unfold coldSlot rposition
  cases hpos : free.reverse.findIdx? fun s => !retained.any fun r => r.seq == s with
  | some i =>
    obtain ⟨hlt, -, -⟩ := List.findIdx?_eq_some_iff_getElem.mp hpos
    rw [length_reverse] at hlt
    exact ⟨free.length - 1 - i, _, retained, rfl, List.getElem?_eq_getElem (by omega), .refl _⟩
  | none =>
    simp only [Option.map_none]
    -- every free slot has a cache, so there is a cache, and its slot is free
    match hr : retained with
    | [] =>
      obtain ⟨s, hs⟩ := exists_mem_of_ne_nil free hfree
      have := List.findIdx?_eq_none_iff.mp hpos s (by simpa using hs)
      simp at this
    | oldest :: rest =>
      simp only
      cases hf : free.findIdx? fun s => s == oldest.seq with
      | none =>
        have := List.findIdx?_eq_none_iff.mp hf oldest.seq (hret oldest (by simp))
        simp at this
      | some pos =>
        obtain ⟨hlt, -, -⟩ := List.findIdx?_eq_some_iff_getElem.mp hf
        exact ⟨pos, _, rest, rfl, List.getElem?_eq_getElem hlt, sublist_cons_self _ _⟩

/-- A slot was taken: its cache is the reused beginning of the prompt, and no history
is recorded for it any more. -/
structure Taken (h : Host) (reuse : Option (ℕ × ℕ)) (prompt : List Token) (h' : Host) (seq : SeqId)
    (reused : ℕ) : Prop where
  /-- Only the clock, the caches and the slot lists differ. -/
  same : h' = { h with clock := h'.clock, kv := h'.kv, free := h'.free, retained := h'.retained }
  clock : h.clock ≤ h'.clock
  perm : (seq :: h'.free).Perm h.free
  sublist : h'.retained.Sublist h.retained
  ne : ∀ r ∈ h'.retained, r.seq ≠ seq
  kv : ∀ s, s ≠ seq → h'.kv s = h.kv s
  cache : h'.kv seq = layout (prompt.take reused)
  reused_le : reused ≤ prompt.length - 1
  /-- The histories left are the ones the headroom check counted. -/
  room : (h'.retained.map fun r => r.history.length).sum ≤
    cachedOthers h.retained (reuseSeq h.retained reuse)

theorem sum_length_le {l l' : List RetainedSlot} (hs : l'.Sublist l) :
    (l'.map fun r => r.history.length).sum ≤ (l.map fun r => r.history.length).sum :=
  (hs.map _).sum_le_sum fun _ _ => Nat.zero_le _

/-- **A slot is found** whenever one is free. -/
theorem takeSlot_ok {h : Host} {reuse : Option (ℕ × ℕ)} {prompt : List Token} (hfree : h.free ≠ [])
    (hnodup : h.free.Nodup) (hret : ∀ r ∈ h.retained, r.seq ∈ h.free)
    (hrnodup : (h.retained.map RetainedSlot.seq).Nodup)
    (hkv : ∀ r ∈ h.retained, h.kv r.seq = layout r.history) (hr : ReuseOk h.retained prompt reuse) :
    ∃ h' seq reused, takeSlot env h reuse = some (h', seq, reused) ∧ Taken h reuse prompt h' seq reused ∧
      (reuse = none → reused = 0) := by
  match reuse with
  | some (idx, lcp) =>
    obtain ⟨slot, hslot, hlcp, hlen⟩ := hr (idx, lcp) rfl
    simp only at hslot hlcp hlen
    have hmem : slot ∈ h.retained := mem_of_getElem? hslot
    have hperm : (slot.seq :: h.free.filter fun s => s ≠ slot.seq).Perm h.free := by
      have herase : h.free.filter (fun s => s ≠ slot.seq) = h.free.erase slot.seq := by
        rw [hnodup.erase_eq_filter]
        exact filter_congr fun s _ => by by_cases hs : s = slot.seq <;> simp [hs]
      rw [herase]
      exact (perm_cons_erase (hret slot hmem)).symm
    have hroom : ((h.retained.eraseIdx idx).map fun r => r.history.length).sum ≤
        cachedOthers h.retained (reuseSeq h.retained (some (idx, lcp))) := by
      have hfilter : (h.retained.eraseIdx idx).Sublist
          (h.retained.filter fun r => some r.seq ≠ reuseSeq h.retained (some (idx, lcp))) := by
        have : (h.retained.eraseIdx idx).filter
            (fun r => some r.seq ≠ reuseSeq h.retained (some (idx, lcp))) = h.retained.eraseIdx idx := by
          rw [filter_eq_self]
          intro r hr'
          simpa [reuseSeq, hslot] using seq_ne_of_mem_eraseIdx hrnodup hslot hr'
        rw [← this]
        exact (eraseIdx_sublist _ _).filter _
      exact sum_length_le hfilter
    have htaken : ∀ clock kv reused, h.clock ≤ clock → (∀ s, s ≠ slot.seq → kv s = h.kv s) →
        kv slot.seq = layout (prompt.take reused) → reused ≤ prompt.length - 1 →
        Taken h (some (idx, lcp)) prompt { h with
          clock := clock, kv := kv, free := h.free.filter fun s => s ≠ slot.seq
          retained := h.retained.eraseIdx idx } slot.seq reused := by
      intro clock kv reused hclock hother hcache hle
      exact ⟨rfl, hclock, hperm, eraseIdx_sublist _ _,
        fun r hr' => seq_ne_of_mem_eraseIdx hrnodup hslot hr', hother, hcache, hle, hroom⟩
    simp only [takeSlot, hslot, seqRm]
    cases env.seqRmFails h.clock with
    | some =>
      refine ⟨_, _, _, rfl, htaken (h.clock + 1) (Function.update h.kv slot.seq []) 0 (by omega) ?_ ?_ (by omega),
        by simp⟩
      · exact fun s hs => Function.update_of_ne hs _ _
      · simp
    | none =>
      refine ⟨_, _, _, rfl, htaken (h.clock + 1)
        (Function.update h.kv slot.seq (trim (h.kv slot.seq) lcp)) lcp (by omega) ?_ ?_ hlen, by simp⟩
      · exact fun s hs => Function.update_of_ne hs _ _
      · rw [Function.update_self, hkv slot hmem, trim_layout, take_commonPrefixLen _ _ _ hlcp]
  | none =>
    obtain ⟨pos, seq, kept, hcold, hpos, hsub⟩ := coldSlot_ok hfree hret
    have htake : takeSlot env h none = some ({ h with
        free := swapRemove h.free pos
        retained := kept.filter fun r => r.seq ≠ seq }.clearSeq seq, seq, 0) := by
      simp [takeSlot, hcold, hpos]
    refine ⟨_, seq, 0, htake, ⟨rfl, le_rfl, perm_swapRemove hpos, ?_, ?_, ?_, ?_, by omega, ?_⟩, fun _ => rfl⟩
    · exact filter_sublist.trans hsub
    · exact fun r hr' => by simpa using (mem_filter.mp hr').2
    · exact fun s hs => Function.update_of_ne hs _ _
    · simp [Host.clearSeq]
    · have : cachedOthers h.retained (reuseSeq h.retained none) =
          (h.retained.map fun r => r.history.length).sum := by
        simp [cachedOthers, reuseSeq]
      rw [this]
      exact sum_length_le (filter_sublist.trans hsub)

end OneBrain.Engine
