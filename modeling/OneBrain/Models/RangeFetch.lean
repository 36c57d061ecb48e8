import OneBrain.Models.RangeStore

/-!
# Fetching ranges: complete, and then idempotent

A range store is split between range files, partial files and `ranges.json`, which are written
at different moments; a fetch may be stopped between any two of them, and the next one starts
from what it left. The record on disk is always in order (`Dir.Sound`), whatever stopped the
programs before. That is all a fetch needs: the rest it checks itself.

* `rangeAttempt_spec`, `attempts_spec` — what one range's attempts leave.
* `fetchRange_spec` — one turn of the loop.
* `fetch_complete_and_idempotent` — a fetch that returns is complete, and not repeated.
-/

namespace OneBrain.Models

open List Lib Program

/-! ## The record -/

/-- Entries in order, none twice. -/
structure RangeManifest.Ordered (m : RangeManifest) : Prop where
  unique : (m.ranges.map RangeEntry.range).Nodup
  sorted : m.ranges.Pairwise entryLe

instance : Std.Total entryLe where
  total a b := by
    unfold entryLe
    omega

instance : IsTrans RangeEntry entryLe where
  trans a b c := by
    unfold entryLe
    omega

namespace RangeManifest

variable {m : RangeManifest} {r : ByteRange} {e : RangeEntry} {blake3 : String}

theorem find_mem (h : m.find r = some e) : e ∈ m.ranges ∧ e.range = r :=
  ⟨mem_of_find?_eq_some h, by simpa using List.find?_some h⟩

theorem find_eq_none : m.find r = none ↔ ∀ e ∈ m.ranges, e.range ≠ r := by
  simp [find, List.find?_eq_none]

end RangeManifest

theorem map_range_setHash (r : ByteRange) (blake3 : String) (es : List RangeEntry) :
    (setHash r blake3 es).map RangeEntry.range = es.map RangeEntry.range := by
  induction es with
  | nil => rfl
  | cons e es ih =>
    unfold setHash
    split
    · rfl
    · rw [map_cons, map_cons, ih]

theorem pairwise_entryLe (es : List RangeEntry) : es.Pairwise entryLe ↔ (es.map RangeEntry.range).Pairwise
      fun a b => a.start < b.start ∨ a.start = b.start ∧ a.stop ≤ b.stop := by
  rw [pairwise_map]
  exact Iff.rfl

theorem ordered_upsertRange {m : RangeManifest} (r : ByteRange) (blake3 : String)
    (hm : m.Ordered) : (upsertRange m r blake3).Ordered := by
  unfold upsertRange
  split
  · have hmap := map_range_setHash r blake3 m.ranges
    refine ⟨?_, ?_⟩
    · show ((setHash r blake3 m.ranges).map RangeEntry.range).Nodup
      rw [hmap]
      exact hm.unique
    · show (setHash r blake3 m.ranges).Pairwise entryLe
      rw [pairwise_entryLe, hmap, ← pairwise_entryLe]
      exact hm.sorted
  · rename_i hfind
    have hnone := RangeManifest.find_eq_none.mp hfind
    have hperm := perm_insertionSort entryLe (m.ranges ++ [RangeEntry.mk r.start r.stop blake3])
    refine ⟨?_, pairwise_insertionSort entryLe _⟩
    rw [(hperm.map RangeEntry.range).nodup_iff, map_append, nodup_append]
    refine ⟨hm.unique, nodup_singleton _, ?_⟩
    intro a ha b hb heq
    obtain ⟨e, he, rfl⟩ := mem_map.mp ha
    obtain rfl := mem_singleton.mp hb
    exact hnone e he heq

variable (m)

theorem totalSize_upsertRange (r : ByteRange) (blake3 : String) :
    (upsertRange m r blake3).totalSize = m.totalSize := by
  unfold upsertRange
  split <;> rfl

variable {r : ByteRange} {d : Dir} {f : RangesDir → RangesDir}

theorem find_setHash_self {es : List RangeEntry} (blake3 : String) (h : ∃ e ∈ es, e.range = r) :
    ((setHash r blake3 es).find? fun e => e.range == r).map RangeEntry.blake3 = some blake3 := by
  induction es with
  | nil =>
    obtain ⟨e, he, -⟩ := h
    cases he
  | cons a es ih =>
    unfold setHash
    split
    · rename_i ha
      rw [List.find?_cons_of_pos (by simpa [RangeEntry.range] using ha)]
      rfl
    · rename_i ha
      rw [List.find?_cons_of_neg (by simpa using ha)]
      obtain ⟨e, he, hrange⟩ := h
      rcases mem_cons.mp he with rfl | he
      · exact absurd hrange ha
      · exact ih ⟨e, he, hrange⟩

theorem find_setHash_ne {r' : ByteRange} (blake3 : String) (es : List RangeEntry) (hne : r' ≠ r) :
    ((setHash r blake3 es).find? fun e => e.range == r') = es.find? fun e => e.range == r' := by
  induction es with
  | nil => rfl
  | cons a es ih =>
    unfold setHash
    split
    · rename_i ha
      have hother : (a.range == r') = false := by simpa [ha] using hne.symm
      have hset : (RangeEntry.range { a with blake3 } == r') = false := hother
      rw [List.find?_cons, List.find?_cons, hother, hset]
    · rw [List.find?_cons, List.find?_cons, ih]

/-- Sorting keeps the order of the entries of one range: the first of them is the first. -/
theorem find_insertionSort (r : ByteRange) (es : List RangeEntry) :
    ((es.insertionSort entryLe).find? fun e => e.range == r) = es.find? fun e => e.range == r := by
  have hle : (es.filter fun e => e.range == r).Pairwise entryLe := by
    refine pairwise_of_forall_mem_list fun a ha b hb => ?_
    have hsame : a.range = b.range := by
      rw [mem_filter] at ha hb
      exact (beq_iff_eq.mp ha.2).trans (beq_iff_eq.mp hb.2).symm
    obtain ⟨hstart, hstop⟩ := ByteRange.mk.inj hsame
    exact .inr ⟨hstart, hstop.le⟩
  have hsub := (sublist_insertionSort hle filter_sublist).filter fun e => e.range == r
  rw [filter_filter] at hsub
  simp only [Bool.and_self] at hsub
  have hlen := ((perm_insertionSort entryLe es).filter fun e => e.range == r).length_eq
  rw [← List.head?_filter, ← List.head?_filter, hsub.eq_of_length hlen.symm]

theorem find_upsertRange_self (r : ByteRange) (blake3 : String) :
    ((upsertRange m r blake3).find r).map RangeEntry.blake3 = some blake3 := by
  unfold upsertRange
  split
  · rename_i e hfind
    exact find_setHash_self blake3 ⟨e, RangeManifest.find_mem hfind⟩
  · rename_i hfind
    show (((m.ranges ++ [RangeEntry.mk r.start r.stop blake3]).insertionSort entryLe).find? _).map _ = _
    rw [find_insertionSort, List.find?_append, show m.ranges.find? _ = none from hfind]
    simp [RangeEntry.range]

theorem find_upsertRange_ne {r' : ByteRange} (blake3 : String) (hne : r' ≠ r) :
    (upsertRange m r blake3).find r' = m.find r' := by
  unfold upsertRange
  split
  · exact find_setHash_ne blake3 m.ranges hne
  · show ((m.ranges ++ [RangeEntry.mk r.start r.stop blake3]).insertionSort entryLe).find? _ = _
    rw [find_insertionSort, List.find?_append, RangeManifest.find]
    have hother : [RangeEntry.mk r.start r.stop blake3].find? (fun e => e.range == r') = none := by
      simpa [RangeEntry.range] using hne.symm
    rw [hother, Option.or_none]

variable {m}

/-! ## The directory -/

section Rules

variable {α : Type} {I P : Store → Prop} {Q : α → Store → Prop}

theorem triple_look {f : Dir → α} (hI : ∀ s, P s → I s) (h : ∀ s, P s → Q (f s.dir) s) :
    Triple I P (Fs.look f) Q :=
  triple_act hI fun s _ => h s

theorem triple_change {f : Dir → Dir} {Q : Unit → Store → Prop} (hI : ∀ s, P s → I s)
    (h : ∀ s, P s → Q () { s with dir := f s.dir }) : Triple I P (Fs.change f) Q :=
  triple_act hI fun s _ => h s

theorem triple_request {first last : ℕ} {Q : Answer → Store → Prop} (hI : ∀ s, P s → I s)
    (h : ∀ s answer, P s → Q answer { s with requests := s.requests ++ [(first, last)] }) :
    Triple I P (Fs.request first last) Q :=
  triple_act hI h

end Rules

/-- All but one range is as it was: the other files, the record and the range files. -/
structure Outside (r : ByteRange) (d₀ d : Dir) : Prop where
  files : d.files = d₀.files
  rangesJson : d.rangesJson = d₀.rangesJson
  /-- The directory `ranges/` is there. -/
  made : d.ranges.isSome
  others : ∀ r', r' ≠ r → d.file r' = d₀.file r'

theorem Outside.refl (h : d.ranges.isSome) : Outside r d d :=
  ⟨rfl, rfl, h, fun _ _ => rfl⟩

/-- A change of one range's files keeps what is outside. -/
theorem Outside.mapRanges {d₀ : Dir} (h : Outside r d₀ d)
    (hf : ∀ rd r', r' ≠ r → (f rd).files.lookup r' = rd.files.lookup r') :
    Outside r d₀ (d.mapRanges f) := by
  refine ⟨h.files, h.rangesJson, by simpa [Dir.mapRanges] using h.made, fun r' hne => ?_⟩
  rw [← h.others r' hne]
  obtain ⟨rd, hrd⟩ := Option.isSome_iff_exists.mp h.made
  simp only [Dir.file, Dir.mapRanges, hrd, Option.map_some, Option.bind_some, hf rd r' hne]

theorem part_mapRanges : (d.mapRanges f).part r = d.ranges.bind fun rd => (f rd).parts.lookup r := by
  cases hd : d.ranges <;> simp [Dir.part, Dir.mapRanges, hd]

theorem file_mapRanges : (d.mapRanges f).file r = d.ranges.bind fun rd => (f rd).files.lookup r := by
  cases hd : d.ranges <;> simp [Dir.file, Dir.mapRanges, hd]

/-! ## One range -/

section OneRange

variable {r : ByteRange} {d₀ : Dir}

/-- The partial file has this many bytes. -/
def PartHas (r : ByteRange) (n : ℕ) (d : Dir) : Prop :=
  ∃ bytes, d.part r = some bytes ∧ bytes.length = n

/-- After an attempt: if it succeeded, the partial file has the length of the range. -/
def Attempted (r : ByteRange) (d₀ : Dir) (a : Attempt) (d : Dir) : Prop :=
  Outside r d₀ d ∧ (a.2 = .ok () → PartHas r r.len d)

theorem attempted_error {n : ℕ} {e : AttemptOutcome} {d : Dir} (h : Outside r d₀ d) :
    Attempted r d₀ (n, .error e) d :=
  ⟨h, fun hok => by cases hok⟩

theorem partHas_append {n : ℕ} {d : Dir} (h : PartHas r n d) (bytes : Bytes) :
    PartHas r (n + bytes.length) (d.mapRanges fun rd =>
      { rd with parts := rd.parts.insert r ((rd.parts.lookup r).getD [] ++ bytes) }) := by
  obtain ⟨old, hold, rfl⟩ := h
  obtain ⟨rd, hrd, hlookup⟩ := Option.bind_eq_some_iff.mp hold
  refine ⟨old ++ bytes, ?_, length_append⟩
  rw [part_mapRanges, hrd]
  simp only [Option.bind_some, AList.lookup_insert, hlookup, Option.getD_some]

/-- The loop over the body: what has been received and what remains are the range. -/
theorem receive_spec (body : List Chunk) (remaining written n : ℕ) : Triple (fun s => Outside r d₀ s.dir)
      (fun s => Outside r d₀ s.dir ∧ ∃ k, PartHas r k s.dir ∧ k + remaining = r.len)
      (receive r remaining written n body) (fun a s => Attempted r d₀ a s.dir) := by
  induction body generalizing remaining written n with
  | nil =>
    unfold receive
    split
    · exact triple_pure fun s hs => attempted_error hs.1
    · rename_i hnone
      refine triple_pure fun s hs => ⟨hs.1, fun _ => ?_⟩
      obtain ⟨k, hk, hsum⟩ := hs.2
      rwa [show r.len = k by omega]
  | cons chunk body ih =>
    unfold receive
    split
    · cases chunk with
      | error => exact triple_pure fun s hs => attempted_error hs.1
      | ok bytes =>
        refine triple_bind (triple_change (fun s hs => hs.1) fun s hs => ?_)
          (fun _ => ih (remaining - min bytes.length remaining)
            (written + min bytes.length remaining) (n + min bytes.length remaining))
        obtain ⟨houtside, k, hk, hsum⟩ := hs
        have hlen : (bytes.take (min bytes.length remaining)).length = min bytes.length remaining := by
          rw [length_take]
          omega
        refine ⟨houtside.mapRanges fun _ _ _ => rfl, k + min bytes.length remaining, ?_, by omega⟩
        have happ := partHas_append hk (bytes.take (min bytes.length remaining))
        rwa [hlen] at happ
    · rename_i hnone
      refine triple_pure fun s hs => ⟨hs.1, fun _ => ?_⟩
      obtain ⟨k, hk, hsum⟩ := hs.2
      rwa [show r.len = k by omega]

theorem openPart_spec (truncate : Bool) (existing : ℕ) : Triple (fun s => Outside r d₀ s.dir)
      (fun s => Outside r d₀ s.dir ∧ (s.dir.part r).elim 0 List.length = existing) (openPart r truncate)
      (fun _ s => Outside r d₀ s.dir ∧ PartHas r (if truncate then 0 else existing) s.dir) := by
  refine triple_change (fun s hs => hs.1) fun s ⟨houtside, hlen⟩ => ?_
  refine ⟨houtside.mapRanges fun _ _ _ => rfl, ?_⟩
  obtain ⟨rd, hrd⟩ := Option.isSome_iff_exists.mp houtside.made
  refine ⟨_, by rw [part_mapRanges, hrd, Option.bind_some, AList.lookup_insert], ?_⟩
  cases truncate with
  | true => rfl
  | false =>
    simp only [Bool.false_eq_true, ↓reduceIte]
    rw [← hlen, Dir.part, hrd, Option.bind_some]
    cases rd.parts.lookup r <;> rfl

theorem takeResponse_spec (url : String) (existing n status : ℕ) (body : List Chunk)
    (hshort : existing < r.len) : Triple (fun s => Outside r d₀ s.dir)
      (fun s => Outside r d₀ s.dir ∧ (s.dir.part r).elim 0 List.length = existing)
      (takeResponse url r existing n status body) (fun a s => Attempted r d₀ a s.dir) := by
  unfold takeResponse
  split_ifs
  · refine triple_bind (openPart_spec false existing) fun _ => ?_
    refine (receive_spec body (r.len - existing) existing n).mono (fun s hs => ?_)
      (fun _ _ h => h) (fun _ h => h)
    exact ⟨hs.1, existing, hs.2, by omega⟩
  · exact triple_pure fun s hs => attempted_error hs.1
  · refine triple_bind (openPart_spec true existing) fun _ => ?_
    refine (receive_spec body r.len 0 n).mono (fun s hs => ?_) (fun _ _ h => h) (fun _ h => h)
    exact ⟨hs.1, 0, hs.2, Nat.zero_add _⟩
  · refine triple_bind (triple_change (fun s hs => hs.1) fun s hs => ?_)
      fun _ => triple_pure fun s hs => attempted_error hs
    exact hs.1.mapRanges fun _ _ _ => rfl
  · exact triple_pure fun s hs => attempted_error hs.1
  · exact triple_pure fun s hs => attempted_error hs.1

theorem dropOverlong_spec (hpos : 0 < r.len) (found : ℕ) : Triple (fun s => Outside r d₀ s.dir)
      (fun s => Outside r d₀ s.dir ∧ (s.dir.part r).elim 0 List.length = found) (dropOverlong r found)
      (fun existing s => existing < r.len ∧ Outside r d₀ s.dir ∧
        (s.dir.part r).elim 0 List.length = existing) := by
  unfold dropOverlong
  split_ifs with hlong
  · refine triple_bind (Q := fun _ s => Outside r d₀ s.dir ∧ s.dir.part r = none)
      (triple_change (fun s hs => hs.1) fun s hs => ?_)
      fun _ => triple_pure fun s hs => ⟨hpos, hs.1, by rw [hs.2]; rfl⟩
    refine ⟨hs.1.mapRanges fun _ _ _ => rfl, ?_⟩
    rw [part_mapRanges]
    cases hd : s.dir.ranges <;> simp [AList.lookup_erase]
  · exact triple_pure fun s hs => ⟨by omega, hs.1, hs.2⟩

/-- **One attempt**, whatever the server answers. -/
theorem rangeAttempt_spec (url : String) (n : ℕ) (hpos : 0 < r.len) :
    Triple (fun s => Outside r d₀ s.dir) (fun s => Outside r d₀ s.dir) (rangeAttempt url r n)
      (fun a s => Attempted r d₀ a s.dir) := by
  unfold rangeAttempt
  refine triple_bind (Q := fun found s => Outside r d₀ s.dir ∧
      (s.dir.part r).elim 0 List.length = found)
    (triple_look (fun s hs => hs) fun s hs => ⟨hs, rfl⟩) fun found => ?_
  refine triple_bind (dropOverlong_spec hpos found) fun existing => ?_
  refine triple_bind (Q := fun _ s => existing < r.len ∧ Outside r d₀ s.dir ∧
      (s.dir.part r).elim 0 List.length = existing)
    (triple_request (fun s hs => hs.2.1) fun s _ hs => hs) fun answer => ?_
  cases answer with
  | unreachable => exact triple_pure fun s hs => attempted_error hs.2.1
  | response status body =>
    intro s os hs
    exact takeResponse_spec url existing n status body hs.1 s os hs.2

/-- The file of a range is there, with this hash, and no other range changed. -/
def Landed (hash : Bytes → String) (r : ByteRange) (d₀ : Dir) (blake3 : String) (d : Dir) : Prop :=
  Outside r d₀ d ∧ ∃ bytes, d.file r = some bytes ∧ bytes.length = r.len ∧ blake3 = hash bytes

/-- **All attempts.** -/
theorem attempts_spec (hash : Bytes → String) (url : String) (expected : Option String)
    (hpos : 0 < r.len) (left : ℕ) (lastError : String) (n : ℕ) :
    Triple (fun s => Outside r d₀ s.dir) (fun s => Outside r d₀ s.dir)
      (attempts hash url r expected lastError n left) (fun f s => Landed hash r d₀ f.blake3 s.dir) := by
  induction left generalizing lastError n with
  | zero => exact triple_fail fun s hs => hs
  | succ left ih =>
    unfold attempts
    refine triple_bind (rangeAttempt_spec url n hpos) fun attempt => ?_
    obtain ⟨n, outcome⟩ := attempt
    cases outcome with
    | error e =>
      cases e with
      | fatal => exact triple_fail fun s hs => hs.1
      | transient message => exact (ih message n).mono (fun s hs => hs.1) (fun _ _ h => h) (fun _ h => h)
    | ok =>
      refine triple_bind (Q := fun actual s => Outside r d₀ s.dir ∧
          ∃ bytes, s.dir.part r = some bytes ∧ bytes.length = r.len ∧ actual = hash bytes)
        (triple_look (fun s hs => hs.1) fun s hs => ?_) fun actual => ?_
      · obtain ⟨bytes, hpart, hlen⟩ := hs.2 rfl
        exact ⟨hs.1, bytes, hpart, hlen, by rw [hpart]; rfl⟩
      · split_ifs
        · refine triple_bind (Q := fun _ s => Landed hash r d₀ actual s.dir)
            (triple_change (fun s hs => hs.1) fun s hs => ?_) fun _ => triple_pure fun s hs => hs
          obtain ⟨houtside, bytes, hpart, hlen, rfl⟩ := hs
          obtain ⟨rd, hrd, hlookup⟩ := Option.bind_eq_some_iff.mp hpart
          refine ⟨houtside.mapRanges fun rd' r' hne => ?_, bytes, ?_, hlen, rfl⟩
          · cases rd'.parts.lookup r with
            | none => rfl
            | some => exact AList.lookup_insert_ne hne
          · rw [file_mapRanges, hrd, Option.bind_some, hlookup]
            exact AList.lookup_insert _
        · refine triple_bind (Q := fun _ s => Outside r d₀ s.dir)
            (triple_change (fun s hs => hs.1) fun s hs => ?_) fun _ => ih _ n
          exact hs.1.mapRanges fun _ _ _ => rfl

end OneRange

/-! ## The loop -/

/-- The record on disk, if it can be read, is in order. -/
def Dir.Sound (d : Dir) : Prop := ∀ m, d.rangesJson = .manifest m → m.Ordered

/-- A range that is recorded, with a file of its hash. -/
def Kept (hash : Bytes → String) (m : RangeManifest) (d : Dir) (r : ByteRange) : Prop :=
  ∃ bytes, d.file r = some bytes ∧ bytes.length = r.len ∧
    (m.find r).map RangeEntry.blake3 = some (hash bytes)

/-- The record on disk has the same ranges, for a file of the same size. -/
def Agrees (m : RangeManifest) (d : Dir) : Prop :=
  ∃ disk, d.rangesJson = .manifest disk ∧ disk.ranges = m.ranges ∧ disk.totalSize = m.totalSize

/-- There is no record on disk that could be used: none at all, or one of a file of another
size, whose ranges have been removed. -/
def Unrecorded (plan : RangePlan) (d : Dir) : Prop :=
  d.rangesJson.load = none ∨
    ∃ stale, d.rangesJson.load = some stale ∧ stale.totalSize ≠ plan.totalSize ∧ d.ranges = some ∅

/-- The loop has dealt with some ranges. Nothing is written before the first of them. -/
structure Progress (hash : Bytes → String) (plan : RangePlan) (done : List ByteRange)
    (m : RangeManifest) (d : Dir) : Prop where
  ordered : m.Ordered
  total : m.totalSize = plan.totalSize
  sound : d.Sound
  made : d.ranges.isSome
  kept : ∀ r ∈ done, Kept hash m d r
  written : Agrees m d ∨ done = [] ∧ m.ranges = [] ∧ Unrecorded plan d

section Loop

variable {hash : Bytes → String} {plan : RangePlan} {done : List ByteRange} {m : RangeManifest}
  {d d₀ : Dir} {r : ByteRange}

theorem Outside.sound (h : Outside r d₀ d) (hsound : d₀.Sound) : d.Sound := by
  intro m hm
  exact hsound m (h.rangesJson ▸ hm)

/-- Another range is kept, with what is outside of this one. -/
theorem Kept.outside {r' : ByteRange} (h : Kept hash m d₀ r') (hout : Outside r d₀ d)
    (hne : r' ≠ r) : Kept hash m d r' := by
  obtain ⟨bytes, hfile, hrest⟩ := h
  exact ⟨bytes, by rw [hout.others r' hne, hfile], hrest⟩

theorem Kept.upsert {r' : ByteRange} (h : Kept hash m d r') (blake3 : String)
    (hne : r' ≠ r) : Kept hash (upsertRange m r blake3) d r' := by
  obtain ⟨bytes, hfile, hlen, hhash⟩ := h
  exact ⟨bytes, hfile, hlen, by rw [find_upsertRange_ne m blake3 hne, hhash]⟩

theorem storeRangeManifest_spec (m : RangeManifest) {p : Dir → Prop} (hp : ∀ d, p d → d.Sound) :
    Triple (fun s => s.dir.Sound) (fun s => p s.dir) (storeRangeManifest m)
      (fun _ s => ∃ d, p d ∧ s.dir = { d with rangesJson := .manifest m }) := by
  unfold storeRangeManifest
  refine triple_bind (Q := fun _ s => ∃ d, p d ∧ s.dir = { d with rangesJson := .corrupt })
    (triple_change (fun s hs => hp _ hs) fun s hs => ⟨s.dir, hs, rfl⟩) fun _ => ?_
  refine triple_change (fun s hs => ?_) fun s hs => ?_
  · obtain ⟨d, -, hd⟩ := hs
    intro m' hm'
    rw [hd] at hm'
    cases hm'
  · obtain ⟨d, hpd, hd⟩ := hs
    exact ⟨d, hpd, by rw [hd]⟩

theorem Progress.record (hm : m.Ordered) (htotal : m.totalSize = plan.totalSize)
    (hmade : d.ranges.isSome) {bytes : Bytes} (hfile : d.file r = some bytes)
    (hlen : bytes.length = r.len) (hkept : ∀ r' ∈ done, r' ≠ r → Kept hash m d r') :
    Progress hash plan (done ++ [r]) (upsertRange m r (hash bytes))
      { d with rangesJson := .manifest (upsertRange m r (hash bytes)) } := by
  have hordered := ordered_upsertRange r (hash bytes) hm
  refine ⟨hordered, by rw [totalSize_upsertRange, htotal], ?_, hmade, ?_, .inl ⟨_, rfl, rfl, rfl⟩⟩
  · intro m' hm'
    cases hm'
    exact hordered
  · intro r' hr'
    by_cases hne : r' = r
    · subst hne
      exact ⟨bytes, hfile, hlen, find_upsertRange_self m r' (hash bytes)⟩
    · have hold : r' ∈ done := (mem_append.mp hr').resolve_right (by simpa using hne)
      exact (hkept r' hold hne).upsert (hash bytes) hne

variable (url : String)

/-- **A range that is fetched** is kept, with those from before. -/
theorem download_spec (expected : Option String) (hpos : 0 < r.len)
    (hm : m.Ordered) (htotal : m.totalSize = plan.totalSize) (hsound : d₀.Sound)
    (hmade : d₀.ranges.isSome) (hkept : ∀ r' ∈ done, r' ≠ r → Kept hash m d₀ r') :
    Triple (fun s => s.dir.Sound) (fun s => s.dir = d₀) (download hash url m r expected)
      (fun result s => Progress hash plan (done ++ [r]) result.1 s.dir) := by
  unfold download
  refine triple_bind (Q := fun f s => Landed hash r d₀ f.blake3 s.dir) ?_ fun fetched => ?_
  · refine (attempts_spec hash url expected hpos (maxRetries + 1) "no attempt made" 0).mono
      (fun s hs => ?_) (fun _ _ h => h) (fun s h => h.sound hsound)
    rw [hs]
    exact Outside.refl hmade
  · refine triple_bind (storeRangeManifest_spec (upsertRange m r fetched.blake3)
      (p := Landed hash r d₀ fetched.blake3) fun d h => h.1.sound hsound) fun _ => ?_
    refine triple_pure fun s hs => ?_
    obtain ⟨d, ⟨hout, bytes, hfile, hlen, hhash⟩, hd⟩ := hs
    rw [hd, hhash]
    exact Progress.record hm htotal hout.made hfile hlen
      fun r' hr' hne => (hkept r' hr' hne).outside hout hne

theorem removeFile_spec (hsound : d₀.Sound) :
    Triple (fun s => s.dir.Sound) (fun s => s.dir = d₀) (removeFile r)
      (fun _ s => s.dir = d₀.mapRanges fun rd => { rd with files := rd.files.erase r }) :=
  triple_change (fun s hs => hs ▸ hsound) fun s hs => by rw [hs]

theorem outside_removeFile (hmade : d₀.ranges.isSome) :
    Outside r d₀ (d₀.mapRanges fun rd => { rd with files := rd.files.erase r }) :=
  (Outside.refl hmade).mapRanges fun _ _ hne => AList.lookup_erase_ne hne

theorem refetch_spec (expected : Option String) (hpos : 0 < r.len) (h : Progress hash plan done m d₀) :
    Triple (fun s => s.dir.Sound) (fun s => s.dir = d₀) (do
        removeFile r
        download hash url m r expected) (fun result s => Progress hash plan (done ++ [r]) result.1 s.dir) := by
  have hout := outside_removeFile (r := r) h.made
  exact triple_bind (removeFile_spec h.sound) fun _ =>
    download_spec url expected hpos h.ordered h.total (hout.sound h.sound) hout.made
      fun r' hr' hne => (h.kept r' hr').outside hout hne

theorem Progress.found (h : Progress hash plan done m d) {bytes : Bytes}
    (hfile : d.file r = some bytes) (hlen : bytes.length = r.len)
    (hhash : (m.find r).map RangeEntry.blake3 = some (hash bytes)) :
    Progress hash plan (done ++ [r]) m d := by
  refine ⟨h.ordered, h.total, h.sound, h.made, ?_, .inl ?_⟩
  · intro r' hr'
    rcases mem_append.mp hr' with hold | hnew
    · exact h.kept r' hold
    · obtain rfl := mem_singleton.mp hnew
      exact ⟨bytes, hfile, hlen, hhash⟩
  · rcases h.written with hagrees | ⟨-, hempty, -⟩
    · exact hagrees
    · -- the range is in the record, so the record is not the empty one
      obtain ⟨e, he, -⟩ := Option.map_eq_some_iff.mp hhash
      have hmem := (RangeManifest.find_mem he).1
      rw [hempty] at hmem
      cases hmem

/-- **One turn of the loop.** -/
theorem fetchRange_spec (hpos : 0 < r.len) (h : Progress hash plan done m d₀) :
    Triple (fun s => s.dir.Sound) (fun s => s.dir = d₀) (fetchRange hash url m r)
      (fun result s => Progress hash plan (done ++ [r]) result.1 s.dir) := by
  have hcrash : ∀ s : Store, s.dir = d₀ → s.dir.Sound := fun s hs => hs ▸ h.sound
  unfold fetchRange
  refine triple_bind (Q := fun size s => size = (d₀.file r).map List.length ∧ s.dir = d₀)
    (triple_look hcrash fun s hs => ⟨by rw [hs], hs⟩) fun size => ?_
  cases hfile : d₀.file r with
  | none =>
    cases size with
    | some => exact fun s os hs => absurd hs.1 (by simp)
    | none =>
      exact (download_spec url _ hpos h.ordered h.total h.sound h.made
        fun r' hr' _ => h.kept r' hr').mono (fun s hs => hs.2) (fun _ _ hq => hq) (fun _ hi => hi)
  | some bytes =>
    cases size with
    | none => exact fun s os hs => absurd hs.1 (by simp)
    | some len =>
      by_cases hlen : len = r.len
      · simp only [hlen, ↓reduceIte]
        refine triple_bind (Q := fun actual s => actual = hash bytes ∧ bytes.length = r.len ∧ s.dir = d₀)
          (triple_look (fun s hs => hcrash s hs.2) fun s hs => ?_) fun actual => ?_
        · refine ⟨by rw [hs.2, hfile, Option.getD_some], ?_, hs.2⟩
          have hsize := hs.1
          simp only [Option.map_some, Option.some.injEq] at hsize
          exact hsize.symm
        · cases hexp : (m.find r).map RangeEntry.blake3 with
          | none =>
            refine triple_bind (storeRangeManifest_spec (upsertRange m r actual)
              (p := fun d => actual = hash bytes ∧ bytes.length = r.len ∧ d = d₀)
              fun d hd => hd.2.2 ▸ h.sound) fun _ => ?_
            refine triple_pure fun s hs => ?_
            obtain ⟨d, ⟨rfl, hbytes, rfl⟩, hd⟩ := hs
            rw [hd]
            exact Progress.record h.ordered h.total h.made hfile hbytes fun r' hr' _ => h.kept r' hr'
          | some e =>
            by_cases hsame : e = actual
            · simp only [hsame, ↓reduceIte]
              refine triple_pure fun s hs => ?_
              obtain ⟨rfl, hbytes, hd⟩ := hs
              rw [hd]
              exact h.found hfile hbytes (by rw [hexp, hsame])
            · simp only [hsame, ↓reduceIte]
              exact (refetch_spec url _ hpos h).mono (fun s hs => hs.2.2) (fun _ _ hq => hq)
                (fun _ hi => hi)
      · simp only [hlen, ↓reduceIte]
        exact (refetch_spec url _ hpos h).mono (fun s hs => hs.2) (fun _ _ hq => hq) (fun _ hi => hi)

/-- **The loop.** -/
theorem fetchAll_spec (rs : List ByteRange) (hpos : ∀ r ∈ rs, 0 < r.len) (n : ℕ) (h : Progress hash plan done m d₀) :
    Triple (fun s => s.dir.Sound) (fun s => s.dir = d₀) (fetchAll hash url rs m n)
      (fun _ s => ∃ m', Progress hash plan (done ++ rs) m' s.dir) := by
  induction rs generalizing done m d₀ n with
  | nil =>
    refine triple_pure fun s hs => ⟨m, ?_⟩
    rw [hs, append_nil]
    exact h
  | cons r rs ih =>
    unfold fetchAll
    refine triple_bind (fetchRange_spec url (hpos r mem_cons_self) h) fun result => ?_
    obtain ⟨m', k⟩ := result
    intro s os hs
    have hrest := ih (fun r' hr' => hpos r' (mem_cons_of_mem _ hr')) (n + k) hs
    rw [append_assoc, singleton_append] at hrest
    exact hrest s os rfl

theorem removeEach_spec {p : Store → Prop} {remove : ByteRange → Fs Unit}
    (hremove : ∀ r, Triple p p (remove r) (fun _ => p)) (rs : List ByteRange) :
    Triple p p (removeEach remove rs) (fun _ => p) := by
  induction rs with
  | nil => exact triple_pure fun _ hs => hs
  | cons r rs ih => exact triple_bind (hremove r) fun _ => ih

theorem removeRangesDir_spec (j : RangesFile) :
    Triple (fun s => s.dir.rangesJson = j) (fun s => s.dir.rangesJson = j) removeRangesDir
      (fun _ s => s.dir.rangesJson = j ∧ s.dir.ranges = none) := by
  unfold removeRangesDir
  refine triple_bind (Q := fun _ s => s.dir.rangesJson = j)
    (triple_look (fun _ hs => hs) fun _ hs => hs) fun names => ?_
  refine triple_bind (removeEach_spec (fun r => triple_change (fun _ hs => hs) fun _ hs => hs) names.1)
    fun _ => ?_
  refine triple_bind (removeEach_spec (fun r => triple_change (fun _ hs => hs) fun _ hs => hs) names.2)
    fun _ => ?_
  exact triple_change (fun _ hs => hs) fun _ hs => ⟨hs, rfl⟩

/-- **The record a fetch starts from.** -/
theorem startManifest_spec (hash : Bytes → String) (url : String) (hsound : d₀.Sound) (hmade : d₀.ranges.isSome) :
    Triple (fun s => s.dir.Sound) (fun s => s.dir = d₀) (startManifest url plan)
      (fun m s => Progress hash plan [] m s.dir) := by
  have hnone : ∀ (m : RangeManifest) (d : Dir), ∀ r ∈ ([] : List ByteRange), Kept hash m d r :=
    fun _ _ r hr => absurd hr not_mem_nil
  unfold startManifest
  refine triple_bind (Q := fun loaded s => loaded = d₀.rangesJson.load ∧ s.dir = d₀)
    (triple_look (fun s hs => hs ▸ hsound) fun s hs => ⟨by rw [hs], hs⟩) fun loaded => ?_
  cases loaded with
  | none =>
    refine triple_pure fun s hs => ?_
    obtain ⟨hload, hd⟩ := hs
    rw [hd]
    exact ⟨⟨nodup_nil, List.Pairwise.nil⟩, rfl, hsound, hmade, hnone _ _,
      .inr ⟨rfl, rfl, .inl hload.symm⟩⟩
  | some disk =>
    have hdisk : ∀ {j : RangesFile}, some disk = j.load → j = .manifest disk := by
      intro j hj
      cases j with
      | missing | corrupt => cases hj
      | manifest => rw [Option.some.inj hj]
    by_cases htotal : disk.totalSize = plan.totalSize
    · simp only [htotal, ↓reduceIte]
      refine triple_pure fun s hs => ?_
      obtain ⟨hload, hd⟩ := hs
      have hordered := hsound disk (hdisk hload)
      rw [hd]
      exact ⟨⟨hordered.unique, hordered.sorted⟩, rfl, hsound, hmade, hnone _ _,
        .inl ⟨disk, hdisk hload, rfl, htotal⟩⟩
    · simp only [htotal, ↓reduceIte]
      have hkeeps : ∀ s : Store, s.dir.rangesJson = d₀.rangesJson → s.dir.Sound :=
        fun s hs m' hm' => hsound m' (hs ▸ hm')
      refine triple_bind (Q := fun _ s => (some disk = d₀.rangesJson.load ∧
          s.dir.rangesJson = d₀.rangesJson) ∧ s.dir.ranges = none) ?_ fun _ => ?_
      · intro s os hs
        have hremove : Triple (fun s => s.dir.Sound) (fun s => s.dir = d₀) removeRangesDir
            (fun _ s => (some disk = d₀.rangesJson.load ∧ s.dir.rangesJson = d₀.rangesJson) ∧
              s.dir.ranges = none) :=
          (removeRangesDir_spec d₀.rangesJson).mono (fun s hs => by rw [hs]) (fun _ s h => ⟨⟨hs.1, h.1⟩, h.2⟩) hkeeps
        exact hremove s os hs.2
      · refine triple_bind (Q := fun _ s => (some disk = d₀.rangesJson.load ∧
            s.dir.rangesJson = d₀.rangesJson) ∧ s.dir.ranges = some ∅)
          (triple_change (fun s hs => hkeeps s hs.1.2) fun s hs => ⟨hs.1, ?_⟩) fun _ => ?_
        · show some (s.dir.ranges.getD ∅) = _
          rw [hs.2, Option.getD_none]
        · refine triple_pure fun s hs => ?_
          obtain ⟨⟨hload, hjson⟩, hranges⟩ := hs
          refine ⟨⟨nodup_nil, List.Pairwise.nil⟩, rfl, hkeeps s hjson, by rw [hranges]; rfl,
            hnone _ _, .inr ⟨rfl, rfl, .inr ⟨disk, ?_, htotal, hranges⟩⟩⟩
          rw [hjson]
          exact hload.symm

end Loop

/-! ## A fetch -/

/-- The directory has the whole model file. -/
def HasFull (plan : RangePlan) (d : Dir) : Prop :=
  ∃ name, d.findModelFile = some (name, plan.totalSize)

/-- What a fetch leaves when it returns. -/
def Settled (hash : Bytes → String) (plan : RangePlan) (d : Dir) : Prop :=
  (∀ r ∈ plan.ranges, invalid plan r = false) ∧
    (HasFull plan d ∨ ∃ m, Progress hash plan plan.ranges m d)

section Fetch

variable {hash : Bytes → String} {plan : RangePlan} {d₀ : Dir}

theorem hasFull_iff (plan : RangePlan) (d : Dir) :
    (d.findModelFile.any fun f => f.2 == plan.totalSize) = true ↔ HasFull plan d := by
  unfold HasFull
  constructor
  · intro h
    obtain ⟨⟨name, size⟩, hfind, hsize⟩ := (Option.any_eq_true _ _).mp h
    obtain rfl : size = plan.totalSize := by simpa using hsize
    exact ⟨name, hfind⟩
  · rintro ⟨name, hfind⟩
    rw [hfind]
    simp

theorem pos_of_valid {r : ByteRange} (h : invalid plan r = false) : 0 < r.len := by
  simp only [invalid, Bool.or_eq_false_iff, decide_eq_false_iff_not, not_le] at h
  unfold ByteRange.len
  omega

variable (url : String)

/-- **A fetch**: the record on disk stays in order wherever it is stopped, and when it returns
all planned ranges are there. -/
theorem fetchRanges_spec (hsound : d₀.Sound) :
    Triple (fun s => s.dir.Sound) (fun s => s.dir = d₀) (fetchRanges hash url plan)
      (fun _ s => s.dir.Sound ∧ Settled hash plan s.dir) := by
  have hcrash : ∀ s : Store, s.dir = d₀ → s.dir.Sound := fun s hs => hs ▸ hsound
  unfold fetchRanges
  cases hinvalid : plan.ranges.find? (invalid plan) with
  | some => exact triple_fail hcrash
  | none =>
    have hvalid : ∀ r ∈ plan.ranges, invalid plan r = false := by
      simpa using List.find?_eq_none.mp hinvalid
    refine triple_bind (Q := fun full s => full = d₀.findModelFile ∧ s.dir = d₀)
      (triple_look hcrash fun s hs => ⟨by rw [hs], hs⟩) fun full => ?_
    split_ifs with hfull
    · refine triple_pure fun s hs => ⟨hcrash s hs.2, hvalid, .inl ?_⟩
      rw [hs.2]
      rw [hs.1] at hfull
      exact (hasFull_iff plan d₀).mp hfull
    · refine triple_bind (Q := fun _ s => s.dir = d₀.createRangesDir)
        (triple_change (fun s hs => hcrash s hs.2) fun s hs => by rw [hs.2]) fun _ => ?_
      refine triple_bind (startManifest_spec hash url
        (show d₀.createRangesDir.Sound from hsound) rfl) fun m => ?_
      intro s os hs
      have hall := fetchAll_spec url plan.ranges (fun r hr => pos_of_valid (hvalid r hr)) 0 hs
      rw [nil_append] at hall
      exact hall.mono (fun _ h => h) (fun _ s ⟨m, h⟩ => ⟨h.sound, hvalid, .inr ⟨m, h⟩⟩)
        (fun _ h => h) s os rfl

/-! ## A second fetch -/

variable {O : Answer → Prop} {s : Store} {m : RangeManifest}

theorem ends_look {α : Type} (f : Dir → α) : Ends O (Fs.look f) s (.ok (f s.dir)) s :=
  ends_act fun _ _ => rfl

theorem ends_change (f : Dir → Dir) : Ends O (Fs.change f) s (.ok ()) { s with dir := f s.dir } :=
  ends_act fun _ _ => rfl

theorem ends_fetchRange {r : ByteRange}
    (h : Kept hash m s.dir r) : Ends O (fetchRange hash url m r) s (.ok (m, 0)) s := by
  obtain ⟨bytes, hfile, hlen, hhash⟩ := h
  unfold fetchRange
  refine (ends_look _).bind ?_
  simp only [hfile, Option.map_some, hlen, ↓reduceIte]
  refine (ends_look _).bind ?_
  simp only [hfile, Option.getD_some, hhash, ↓reduceIte]
  exact ends_pure _

theorem ends_fetchAll (rs : List ByteRange) (h : ∀ r ∈ rs, Kept hash m s.dir r) (n : ℕ) :
    Ends O (fetchAll hash url rs m n) s (.ok n) s := by
  induction rs generalizing n with
  | nil => exact ends_pure n
  | cons r rs ih =>
    unfold fetchAll
    exact (ends_fetchRange url (h r mem_cons_self)).bind
      (ih (fun r' hr' => h r' (mem_cons_of_mem _ hr')) n)

theorem ends_removeRangesDir (h : s.dir.ranges = some ∅) :
    Ends O removeRangesDir s (.ok ()) { s with dir := { s.dir with ranges := none } } := by
  unfold removeRangesDir
  refine (ends_look _).bind ?_
  simp only [h, Option.elim_some]
  refine Ends.bind (m := removeEach removeFile []) (a := ()) (ends_pure ()) ?_
  refine Ends.bind (m := removeEach removePart []) (a := ()) (ends_pure ()) ?_
  exact ends_change _

theorem ends_startManifest (h : Progress hash plan plan.ranges m s.dir) :
    ∃ m', Ends O (startManifest url plan) s (.ok m') s ∧ ∀ r ∈ plan.ranges, Kept hash m' s.dir r := by
  unfold startManifest
  rcases h.written with ⟨disk, hdisk, hranges, htotal⟩ | ⟨hnone, -, hload | ⟨stale, hload, hsize, hempty⟩⟩
  · refine ⟨{ disk with url, headerLen := plan.headerLen }, (ends_look _).bind ?_, fun r hr => ?_⟩
    · simp only [hdisk, RangesFile.load, htotal.trans h.total, ↓reduceIte]
      exact ends_pure _
    · obtain ⟨bytes, hfile, hlen, hhash⟩ := h.kept r hr
      refine ⟨bytes, hfile, hlen, ?_⟩
      rw [← hhash]
      simp only [RangeManifest.find, hranges]
  · refine ⟨freshManifest url plan, (ends_look _).bind ?_, fun r hr => ?_⟩
    · simp only [hload]
      exact ends_pure _
    · rw [hnone] at hr
      exact absurd hr not_mem_nil
  · refine ⟨freshManifest url plan, (ends_look _).bind ?_, fun r hr => ?_⟩
    · simp only [hload, hsize, ↓reduceIte]
      refine (ends_removeRangesDir hempty).bind ((ends_change _).bind ?_)
      have hsame : s.dir = { s.dir with ranges := some ∅ } := by rw [← hempty]
      have hback : Store.mk (Dir.createRangesDir { s.dir with ranges := none }) s.requests = s := by
        show Store.mk { s.dir with ranges := some ∅ } s.requests = s
        rw [← hsame]
      rw [hback]
      exact ends_pure _
    · rw [hnone] at hr
      exact absurd hr not_mem_nil

/-- **A fetch of what is there** makes no request and changes nothing. -/
theorem Settled.ends (h : Settled hash plan s.dir) (url : String) :
    Ends O (fetchRanges hash url plan) s (.ok 0) s := by
  obtain ⟨hvalid, hthere⟩ := h
  have hnone : plan.ranges.find? (invalid plan) = none :=
    List.find?_eq_none.mpr fun r hr => by simp [hvalid r hr]
  unfold fetchRanges
  simp only [hnone]
  refine (ends_look _).bind ?_
  split_ifs with hfull
  · exact ends_pure 0
  · obtain ⟨m, hm⟩ := hthere.resolve_left fun hhas => hfull ((hasFull_iff plan s.dir).mpr hhas)
    have hmade : s.dir.createRangesDir = s.dir := by
      obtain ⟨rd, hrd⟩ := Option.isSome_iff_exists.mp hm.made
      show ({ s.dir with ranges := some (s.dir.ranges.getD ∅) } : Dir) = s.dir
      rw [hrd, Option.getD_some, ← hrd]
    have hstore : ({ s with dir := s.dir.createRangesDir } : Store) = s := by rw [hmade]
    refine (ends_change _).bind ?_
    rw [hstore]
    obtain ⟨m', hstart, hkept⟩ := ends_startManifest (O := O) url hm
    exact hstart.bind (ends_fetchAll url plan.ranges hkept 0)

end Fetch

/-! ## Histories -/

/-- One call: what it was asked, and what the server answered before it returned, failed or
was stopped. -/
structure Call where
  url : String
  plan : RangePlan
  choices : List Answer

/-- The directory a call leaves. -/
def leaves (hash : Bytes → String) (d : Dir) (call : Call) : Dir :=
  (fetchRanges hash call.url call.plan ⟨d, []⟩ call.choices).state.dir

/-- Whatever happened before, the record on disk is in order. -/
theorem sound_leaves (hash : Bytes → String) (history : List Call) (d : Dir) (h : d.Sound) :
    (history.foldl (leaves hash) d).Sound := by
  induction history generalizing d with
  | nil => exact h
  | cons call history ih =>
    refine ih (leaves hash d call) ?_
    exact (fetchRanges_spec call.url h).keeps (fun _ s hs => hs.1) (s := ⟨d, []⟩) rfl call.choices

/-- What a fetch that returns promises: a full file of the planned size, or for every planned
range a file of exactly its length and an entry with that file's hash; and the entries of the
record are unique and sorted by start. -/
structure Complete (hash : Bytes → String) (plan : RangePlan) (d : Dir) : Prop where
  there : HasFull plan d ∨ ∀ r ∈ plan.ranges, ∃ bytes m e, d.file r = some bytes ∧
    bytes.length = r.len ∧ d.rangesJson = .manifest m ∧ e ∈ m.ranges ∧ e.range = r ∧
    e.blake3 = hash bytes
  inOrder : ∀ m, d.rangesJson = .manifest m →
    (m.ranges.map RangeEntry.range).Nodup ∧ m.ranges.Pairwise fun a b => a.start ≤ b.start

theorem Settled.complete {hash : Bytes → String} {plan : RangePlan}
    (hsound : d.Sound) (h : Settled hash plan d) : Complete hash plan d where
  there := by
    rcases h.2 with hfull | ⟨m, hm⟩
    · exact .inl hfull
    right
    intro r hr
    obtain ⟨bytes, hfile, hlen, hhash⟩ := hm.kept r hr
    obtain ⟨e, he, hblake⟩ := Option.map_eq_some_iff.mp hhash
    obtain ⟨hmem, hrange⟩ := RangeManifest.find_mem he
    rcases hm.written with ⟨disk, hdisk, hranges, -⟩ | ⟨hnone, -, -⟩
    · exact ⟨bytes, disk, e, hfile, hlen, hdisk, hranges ▸ hmem, hrange, hblake⟩
    · rw [hnone] at hr
      exact absurd hr not_mem_nil
  inOrder m hm := by
    refine ⟨(hsound m hm).unique, (hsound m hm).sorted.imp fun {a b} hab => ?_⟩
    unfold entryLe at hab
    omega

/-- **The range cache is complete and idempotent.** After any calls for any plans, each
stopped anywhere, and whatever the servers answered: a fetch that returns leaves its plan
complete, and another one for the same plan returns without a request and without a change. -/
theorem fetch_complete_and_idempotent (hash : Bytes → String) (history : List Call) (url : String)
    (plan : RangePlan) (choices : List Answer) (n : ℕ) (s : Store) (rest : List Answer)
    (h : fetchRanges hash url plan ⟨history.foldl (leaves hash) Dir.empty, []⟩ choices
      = .ended (.ok n) s rest) : Complete hash plan s.dir ∧
      ∀ url', Ends (fun _ => True) (fetchRanges hash url' plan) s (.ok 0) s := by
  have hstart : (history.foldl (leaves hash) Dir.empty).Sound :=
    sound_leaves hash history Dir.empty fun m hm => by cases hm
  obtain ⟨hsound, hsettled⟩ := (fetchRanges_spec url hstart).of_ended rfl h
  exact ⟨hsettled.complete hsound, fun url' => hsettled.ends url'⟩

/-- A plan of two ranges. -/
def twoRanges : RangePlan := ⟨4, 2, [⟨0, 2⟩, ⟨2, 4⟩]⟩

/-- A hash that tells the empty file from others. -/
def emptiness (bytes : Bytes) : String := if bytes = [] then "empty" else "filled"

/-- The server sends two bytes. -/
def twoBytes : Answer := .response 206 [.ok [1, 2]]

/-- A fetch that is stopped when the first range has its file and not yet its entry. -/
def cutShort : Call := ⟨"u", twoRanges, List.replicate 10 twoBytes⟩

theorem fetch_complete_after_cut :
    ∃ n s rest, fetchRanges emptiness "u" twoRanges ⟨[cutShort].foldl (leaves emptiness) Dir.empty, []⟩
        (List.replicate 21 twoBytes) = .ended (.ok n) s rest ∧ Complete emptiness twoRanges s.dir ∧
      Ends (fun _ => True) (fetchRanges emptiness "u" twoRanges) s (.ok 0) s := by
  have hreturned : (fetchRanges emptiness "u" twoRanges
      ⟨[cutShort].foldl (leaves emptiness) Dir.empty, []⟩ (List.replicate 21 twoBytes)).returned
        = true := by decide +kernel
  obtain ⟨n, s, rest, hend⟩ := Halt.of_returned hreturned
  obtain ⟨hcomplete, hagain⟩ := fetch_complete_and_idempotent emptiness [cutShort] "u" twoRanges
    (List.replicate 21 twoBytes) n s rest hend
  exact ⟨n, s, rest, hend, hcomplete, hagain "u"⟩

end OneBrain.Models
