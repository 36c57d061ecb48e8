import OneBrain.Models.SplitNames

/-!
# The keys models have on the wire

A daemon asks its peers for a model by a key: the id of a cache entry, or `<id>/parts/<stem>` for
one part of a split model. The id of an entry is made from a reference with every character
outside a small alphabet replaced; the stem of a part is the name of its file as the repository
has it; and a key is resolved only if every component keeps to the alphabet. So a part whose name
does not is cached under a directory that no key leads to.

Names are texts, and a path is the list of its components.

* `model_keys` — what keys resolve to, and when the key of a part leads to its directory.
* `part_not_found` — a part whose name has a blank in it.
-/

namespace OneBrain.Logistics.ModelKeys

open List OneBrain.Lib OneBrain.Models

/-- The components of a path. -/
abbrev Path := List (List Char)

/-- The alphabet of a component. -/
def safeChar (c : Char) : Bool := c.isAlphanum || c == '.' || c == '-' || c == '_'

/-- One component of a key. -/
def safeComponent (s : List Char) : Bool := s ≠ [] && s ≠ ['.'] && s ≠ ['.', '.'] && s.all safeChar

/-- A name with everything outside the alphabet replaced. -/
def sanitizeComponent (s : List Char) : List Char := s.map fun c => if safeChar c then c else '-'

/-- The name without this ending, if it has it. -/
def stripEnd (ending name : List Char) : Option (List Char) :=
  if ending.isSuffixOf name then some (name.take (name.length - ending.length)) else none

/-- What a reference is downloaded as. -/
structure DownloadSpec where
  cacheKey : List Char
  fileName : List Char

/-- The entry a file is downloaded to. -/
def resolve (org repo file : List Char) : DownloadSpec :=
  let fileName := (file.splitOn '/').getLastD file
  let stem := (stripEnd ".gguf".toList fileName).getD fileName
  { cacheKey := sanitizeComponent ("hf--".toList ++ org ++ "--".toList ++ repo ++ "--".toList ++ stem), fileName }

/-! ## Keys and directories -/

/-- The key of a part of a split model. -/
def modelKeyForPart (id part : List Char) : List Char :=
  let stem := ((stripEnd ".gguf".toList part).or (stripEnd ".GGUF".toList part)).getD part
  ['/'].intercalate [id, "parts".toList, stem]

/-- The directory a key leads to. -/
def resolveModelDir (root : Path) (model : List Char) : Option Path :=
  match model.splitOn '/' with
  | [id] => if safeComponent id then some (root ++ [id]) else none
  | [id, mid, stem] =>
    if mid = "parts".toList ∧ safeComponent id ∧ safeComponent stem then some (root ++ [id, "parts".toList, stem])
    else none
  | _ => none

/-- An id is one component. -/
def validateId (id : List Char) : Bool :=
  !(id == [] || id.contains '/' || id.contains '\\' || id == ['.'] || id == ['.', '.'])

/-- The directory a part is downloaded to; the error is the id that is not valid. -/
def splitPartDir (root : Path) (id part : List Char) : Except (List Char) Path := do
  if !validateId id then throw id
  if !validateId part then throw part
  return root ++ [id, "parts".toList, partStem part]

/-! ## What a key leads to -/

/-- A component that names an entry of its directory and nothing else. -/
structure Plain (c : List Char) : Prop where
  ne : c ∉ [[], ['.'], ['.', '.']]
  chars : '/' ∉ c ∧ '\\' ∉ c ∧ ':' ∉ c

variable {root : Path} {c : List Char}

theorem long_not_mem (h : 3 ≤ c.length) : c ∉ [[], ['.'], ['.', '.']] := by
  intro hmem
  simp only [mem_cons, not_mem_nil, or_false] at hmem
  rcases hmem with rfl | rfl | rfl <;> simp at h

theorem safeComponent_iff : safeComponent c ↔ c ∉ [[], ['.'], ['.', '.']] ∧ ∀ x ∈ c, safeChar x := by
  simp [safeComponent, safeChar, and_assoc]

theorem plain_of_safe (hc : safeComponent c) : Plain c := by
  obtain ⟨hne, hchars⟩ := safeComponent_iff.mp hc
  refine ⟨hne, ?_, ?_, ?_⟩ <;> exact fun h => absurd (hchars _ h) (by decide)

theorem resolveModelDir_plain {model : List Char} {dir : Path} (h : resolveModelDir root model = some dir) :
    ∃ below, dir = root ++ below ∧ (below.length = 1 ∨ below.length = 3) ∧ ∀ c ∈ below, Plain c := by
  unfold resolveModelDir at h
  split at h
  · obtain ⟨hid, heq⟩ := Option.ite_none_right_eq_some.mp h
    cases heq
    exact ⟨_, rfl, .inl rfl, by simpa using plain_of_safe hid⟩
  · obtain ⟨⟨-, hid, hstem⟩, heq⟩ := Option.ite_none_right_eq_some.mp h
    cases heq
    have hparts : Plain "parts".toList := plain_of_safe (by decide)
    exact ⟨_, rfl, .inr rfl, by simpa using ⟨plain_of_safe hid, hparts, plain_of_safe hstem⟩⟩
  · cases h

/-! ## The key of a part -/

theorem stripEnd_append (ending name : List Char) : stripEnd ending (name ++ ending) = some name := by
  have : ending.isSuffixOf (name ++ ending) := isSuffixOf_iff_suffix.mpr (suffix_append _ _)
  simp [stripEnd, this]

/-- The numbers of a part keep to the alphabet, so its name does if that of the set does. -/
theorem safeComponent_stem {s : SplitName} {i : ℕ} : safeComponent (s.stem i) ↔ ∀ x ∈ s.namePrefix, safeChar x := by
  have hdecimal (n : ℕ) : ∀ x ∈ decimal 5 n, safeChar x := fun x hx => by
    simp [safeChar, Char.isAlphanum, decimal_digits 5 n x hx]
  have hdash : ∀ x ∈ "-of-".toList, safeChar x := by simp [safeChar]
  have htail : ∀ x ∈ s.tail i, safeChar x := by
    simp only [SplitName.tail, mem_append]
    rintro x (((hx | hx) | hx) | hx)
    · exact hdash x (mem_of_mem_take (i := 1) hx)
    · exact hdecimal i x hx
    · exact hdash x hx
    · exact hdecimal _ x hx
  rw [safeComponent_iff]
  refine ⟨fun h x hx => h.2 x (mem_append_left _ hx), fun h => ⟨long_not_mem ?_, fun x hx => ?_⟩⟩
  · simp [SplitName.stem, SplitName.tail]
    omega
  · exact (mem_append.mp hx).elim (h x) (htail x)

theorem safeComponent_cacheKey (org repo file : List Char) : safeComponent (resolve org repo file).cacheKey := by
  refine safeComponent_iff.mpr ⟨long_not_mem ?_, fun x hx => ?_⟩
  · simp [resolve, sanitizeComponent]
  · obtain ⟨y, -, rfl⟩ := mem_map.mp hx
    split
    · assumption
    · decide

theorem validateId_iff : validateId c ↔ c ∉ [[], ['.'], ['.', '.']] ∧ '/' ∉ c ∧ '\\' ∉ c := by
  simp [validateId, and_assoc, and_comm, and_left_comm]

theorem Plain.validateId (hc : Plain c) : validateId c := validateId_iff.mpr ⟨hc.ne, hc.chars.1, hc.chars.2.1⟩

theorem splitPartDir_eq_ok {id part : List Char} {dir : Path} : splitPartDir root id part = .ok dir ↔
    validateId id ∧ validateId part ∧ dir = root ++ [id, "parts".toList, partStem part] := by
  unfold splitPartDir
  cases validateId id <;> cases validateId part <;> simp [bind, Except.bind, pure, Except.pure, throw, throwThe,
    MonadExceptOf.throw, eq_comm]

/-- **The keys of models.** What a key leads to lies below the root, one or three plain components
deep; and the key of a part leads to the directory the part is cached in exactly if the name of its
split set keeps to the alphabet of components. -/
theorem model_keys (root : Path) : (∀ model dir, resolveModelDir root model = some dir →
      ∃ below, dir = root ++ below ∧ (below.length = 1 ∨ below.length = 3) ∧ ∀ c ∈ below, Plain c) ∧
    ∀ org repo file s, parseSplitName (resolve org repo file).fileName = some s → ∀ i, 1 ≤ i → i ≤ s.count →
      ((∃ dir, splitPartDir root (resolve org repo file).cacheKey (s.partFileName i) = .ok dir ∧
        resolveModelDir root (modelKeyForPart (resolve org repo file).cacheKey (s.partFileName i)) = some dir) ↔
      ∀ x ∈ s.namePrefix, safeChar x) := by
  refine ⟨fun _ _ h => resolveModelDir_plain h, fun org repo file s _ i _ _ => ?_⟩
  have hid := safeComponent_cacheKey org repo file
  generalize (resolve org repo file).cacheKey = id at hid
  have hkey : modelKeyForPart id (s.partFileName i) = ['/'].intercalate [id, "parts".toList, s.stem i] := by
    simp only [modelKeyForPart, SplitName.partFileName, stripEnd_append, Option.some_or, Option.getD_some]
  -- without a slash in the part's name the key has three components
  have hresolve : '/' ∉ s.stem i → resolveModelDir root (modelKeyForPart id (s.partFileName i)) =
      if safeComponent (s.stem i) then some (root ++ [id, "parts".toList, s.stem i]) else none := by
    intro hslash
    rw [hkey, resolveModelDir, splitOn_intercalate]
    · simp [hid]
    · simpa using ⟨(plain_of_safe hid).chars.1, hslash⟩
    · simp
  rw [← safeComponent_stem (i := i)]
  refine ⟨?_, fun hstem => ?_⟩
  · rintro ⟨dir, hdir, hfound⟩
    obtain ⟨-, hpart, -⟩ := splitPartDir_eq_ok.mp hdir
    have hslash : '/' ∉ s.stem i := fun h => (validateId_iff.mp hpart).2.1 (mem_append_left _ h)
    rw [hresolve hslash] at hfound
    exact (Option.ite_none_right_eq_some.mp hfound).1
  · have hpart : Plain (s.partFileName i) := by
      obtain ⟨-, hslash, hback, hcolon⟩ := plain_of_safe hstem
      refine ⟨long_not_mem ?_, ?_⟩
      · simp [SplitName.partFileName]
      · simp [SplitName.partFileName, hslash, hback, hcolon]
    refine ⟨_, splitPartDir_eq_ok.mpr ⟨(plain_of_safe hid).validateId, hpart.validateId, rfl⟩, ?_⟩
    rw [hresolve (plain_of_safe hstem).chars.1, if_pos hstem, partStem_partFileName]

/-- The second part of a set with a plain name. -/
theorem model_keys_second :
    ∃ dir, splitPartDir [] (resolve ['o'] ['r'] "m-00001-of-00002.gguf".toList).cacheKey
        ((SplitName.mk ['m'] 1 2).partFileName 2) = .ok dir ∧
      resolveModelDir [] (modelKeyForPart (resolve ['o'] ['r'] "m-00001-of-00002.gguf".toList).cacheKey
        ((SplitName.mk ['m'] 1 2).partFileName 2)) = some dir :=
  ((model_keys []).2 ['o'] ['r'] "m-00001-of-00002.gguf".toList ⟨['m'], 1, 2⟩ (by decide +kernel) 2 (by decide)
    (by decide)).mpr (by simp [safeChar])

/-- A blank in a file name stays in the name of the part's directory, and no key has one. -/
theorem part_not_found :
    parseSplitName (resolve ['o'] ['r'] "a b-00001-of-00002.gguf".toList).fileName = some ⟨"a b".toList, 1, 2⟩ ∧
    (∃ dir, splitPartDir [] (resolve ['o'] ['r'] "a b-00001-of-00002.gguf".toList).cacheKey
      "a b-00001-of-00002.gguf".toList = .ok dir) ∧
    resolveModelDir [] (modelKeyForPart (resolve ['o'] ['r'] "a b-00001-of-00002.gguf".toList).cacheKey
      "a b-00001-of-00002.gguf".toList) = none :=
  ⟨by decide +kernel, ⟨_, rfl⟩, by decide +kernel⟩

end OneBrain.Logistics.ModelKeys
