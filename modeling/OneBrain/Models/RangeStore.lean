import Mathlib.Data.List.AList
import Mathlib.Data.List.Sort
import OneBrain.Lib.Interrupt

/-!
# The range store of a model directory

A node that runs some layers of a model does not need the whole file. It keeps the byte ranges
it needs as files `ranges/<start>-<end>`, with a record of them and of their hashes in
`ranges.json`, and fetches the ones it lacks over HTTP range requests.

`fetch_ranges` and what it calls are programs (`Lib.Program`) on the directory: every access
to a file, and every request, is an action, and the program may be stopped before any of
them. What the server answers is the choice at a request: any status, any chunks, an error at
any point of the stream, or no connection. A write of a chunk that is cut off is the write of
a shorter chunk; a write of `ranges.json` first truncates it, so that it may be left unreadable.

The hash of a file is a parameter. Range files are named by their range, and partial files
likewise. Local file operations succeed; the progress reports to the caller are left out.
-/

namespace OneBrain.Models

open Lib

/-! ## The directory -/

/-- The content of a file. -/
abbrev Bytes := List UInt8

/-- A half-open range of the model file; `stop` is exclusive. -/
structure ByteRange where
  start : ℕ
  stop : ℕ
deriving DecidableEq, Repr

/-- The number of bytes. -/
def ByteRange.len (r : ByteRange) : ℕ := r.stop - r.start

/-- A fetched range, with its hash. -/
structure RangeEntry where
  start : ℕ
  stop : ℕ
  blake3 : String
deriving DecidableEq, Repr

/-- The bytes it is about. -/
def RangeEntry.range (e : RangeEntry) : ByteRange := ⟨e.start, e.stop⟩

/-- The content of `ranges.json`. -/
structure RangeManifest where
  url : String
  /-- The size of the complete remote file. -/
  totalSize : ℕ
  headerLen : ℕ
  ranges : List RangeEntry
deriving DecidableEq, Repr

/-- The ranges a node needs. -/
structure RangePlan where
  totalSize : ℕ
  headerLen : ℕ
  ranges : List ByteRange
deriving DecidableEq, Repr

/-- What is at the path of `ranges.json`. -/
inductive RangesFile where
  | missing
  | corrupt
  | manifest (m : RangeManifest)
deriving DecidableEq, Repr

/-- What the lenient reader makes of it. -/
def RangesFile.load : RangesFile → Option RangeManifest
  | .manifest m => some m
  | _ => none

/-- The directory of the ranges. -/
structure RangesDir where
  files : AList fun _ : ByteRange => Bytes
  parts : AList fun _ : ByteRange => Bytes
deriving DecidableEq

instance : EmptyCollection RangesDir := ⟨⟨∅, ∅⟩⟩

/-- A download directory. -/
structure Dir where
  /-- Its regular files but `ranges.json`. -/
  files : AList fun _ : String => Bytes
  rangesJson : RangesFile
  ranges : Option RangesDir
deriving DecidableEq

/-- A directory with nothing in it. -/
def Dir.empty : Dir := ⟨∅, .missing, none⟩

namespace Dir

/-- The file of a range. -/
def file (d : Dir) (r : ByteRange) : Option Bytes := d.ranges.bind fun rd => rd.files.lookup r

/-- The partial file of a range. -/
def part (d : Dir) (r : ByteRange) : Option Bytes := d.ranges.bind fun rd => rd.parts.lookup r

/-- A name that `find_model_file` passes over. -/
def skipped (name : String) : Bool :=
  name == "manifest.json" || name == "ranges.json" || ".part".toList.isSuffixOf name.toList

/-- The largest of the model files, the first of them in the order of the directory. -/
def findModelFile (d : Dir) : Option (String × ℕ) :=
  d.files.entries.foldl
    (fun best f =>
      if skipped f.1 then best
      else
        match best with
        | some b => if f.2.length ≤ b.2 then some b else some (f.1, f.2.length)
        | none => some (f.1, f.2.length))
    none

/-- Change the directory `ranges/`, if it is there. -/
def mapRanges (f : RangesDir → RangesDir) (d : Dir) : Dir := { d with ranges := d.ranges.map f }

/-- Make the directory `ranges/`, unless it is there. -/
def createRangesDir (d : Dir) : Dir := { d with ranges := some (d.ranges.getD ∅) }

end Dir

/-! ## The server -/

/-- A piece of a response's body, or the error that ends it. -/
abbrev Chunk := Except String Bytes

/-- What happens to a request. -/
inductive Answer where
  /-- It could not be sent, or no response came. -/
  | unreachable (error : String)
  | response (status : ℕ) (body : List Chunk)
deriving DecidableEq

/-- The directory, and the requests made so far with the first and the last byte asked for. -/
structure Store where
  dir : Dir
  requests : List (ℕ × ℕ)
deriving DecidableEq

/-- Why a fetch failed. -/
inductive RangeError where
  | invalidRange (start stop : ℕ)
  | notPresent (start stop : ℕ)
  /-- The server answered a request for the middle of the file with the whole file. -/
  | rangeUnsupported (url : String)
  | httpStatus (status : ℕ) (url : String)
  | exhausted (url : String) (attempts : ℕ) (lastError : String)
deriving DecidableEq, Repr

/-- Why an attempt failed. -/
inductive AttemptOutcome where
  | fatal (e : RangeError)
  | transient (message : String)
deriving DecidableEq, Repr

/-- What is done to a store while the server answers. -/
abbrev Fs := Program Store Answer RangeError

namespace Fs

/-- Read something of the directory. -/
def look {α : Type} (f : Dir → α) : Fs α := Program.act fun s _ => (f s.dir, s)

/-- Change the directory. -/
def change (f : Dir → Dir) : Fs Unit := Program.act fun s _ => ((), { s with dir := f s.dir })

/-- Send a request for the bytes from `first` to `last`. -/
def request (first last : ℕ) : Fs Answer :=
  Program.act fun s answer => (answer, { s with requests := s.requests ++ [(first, last)] })

end Fs

/-! ## Operations -/

/-- How much of a range was received. -/
def partLen (r : ByteRange) : Fs ℕ := Fs.look fun d => (d.part r).elim 0 List.length

/-- Remove the partial file. -/
def removePart (r : ByteRange) : Fs Unit :=
  Fs.change (Dir.mapRanges fun rd => { rd with parts := rd.parts.erase r })

/-- Open the partial file to append to it, or truncate it. -/
def openPart (r : ByteRange) (truncate : Bool) : Fs Unit :=
  Fs.change (Dir.mapRanges fun rd =>
    { rd with parts := rd.parts.insert r (if truncate then [] else (rd.parts.lookup r).getD []) })

/-- Write what was received. -/
def appendPart (r : ByteRange) (bytes : Bytes) : Fs Unit :=
  Fs.change (Dir.mapRanges fun rd =>
    { rd with parts := rd.parts.insert r ((rd.parts.lookup r).getD [] ++ bytes) })

/-- Make the partial file the file of its range. -/
def renamePart (r : ByteRange) : Fs Unit :=
  Fs.change (Dir.mapRanges fun rd =>
    match rd.parts.lookup r with
    | some bytes => ⟨rd.files.insert r bytes, rd.parts.erase r⟩
    | none => rd)

/-- Remove the file of a range. -/
def removeFile (r : ByteRange) : Fs Unit :=
  Fs.change (Dir.mapRanges fun rd => { rd with files := rd.files.erase r })

/-- Remove some files one after the other. -/
def removeEach (remove : ByteRange → Fs Unit) : List ByteRange → Fs Unit
  | [] => pure ()
  | r :: rs => do
    remove r
    removeEach remove rs

/-- Remove the directory of the ranges. -/
def removeRangesDir : Fs Unit := do
  let (files, parts) ← Fs.look fun d => d.ranges.elim ([], []) fun rd => (rd.files.keys, rd.parts.keys)
  removeEach removeFile files
  removeEach removePart parts
  Fs.change fun d => { d with ranges := none }

/-- Write `ranges.json`: it is truncated and then written. -/
def storeRangeManifest (m : RangeManifest) : Fs Unit := do
  Fs.change fun d => { d with rangesJson := .corrupt }
  Fs.change fun d => { d with rangesJson := .manifest m }

/-- The order of the entries. -/
def entryLe (a b : RangeEntry) : Prop := a.start < b.start ∨ a.start = b.start ∧ a.stop ≤ b.stop

instance : DecidableRel entryLe := fun a b => by
  unfold entryLe
  infer_instance

/-- The entry of a range. -/
def RangeManifest.find (m : RangeManifest) (r : ByteRange) : Option RangeEntry :=
  m.ranges.find? fun e => e.range == r

/-- Put another hash in the entry of a range. -/
def setHash (r : ByteRange) (blake3 : String) : List RangeEntry → List RangeEntry
  | [] => []
  | e :: es => if e.range = r then { e with blake3 } :: es else e :: setHash r blake3 es

/-- Record a range. -/
def upsertRange (m : RangeManifest) (r : ByteRange) (blake3 : String) : RangeManifest :=
  match m.find r with
  | some _ => { m with ranges := setHash r blake3 m.ranges }
  | none => { m with ranges := (m.ranges ++ [RangeEntry.mk r.start r.stop blake3]).insertionSort entryLe }

/-- A record without ranges. -/
def freshManifest (url : String) (plan : RangePlan) : RangeManifest :=
  { url, totalSize := plan.totalSize, headerLen := plan.headerLen, ranges := [] }

/-! ## One range -/

/-- What an attempt returns: the bytes received so far, and how it ended. -/
abbrev Attempt := ℕ × Except AttemptOutcome Unit

/-- The loop over the body: at most `remaining` bytes are kept. -/
def receive (r : ByteRange) (remaining written n : ℕ) : List Chunk → Fs Attempt
  | [] =>
    if 0 < remaining then
      pure (n, .error (.transient
        s!"connection closed early at {written}/{r.len} bytes of range {r.start}-{r.stop}"))
    else pure (n, .ok ())
  | chunk :: body =>
    if 0 < remaining then
      match chunk with
      | .error e =>
        pure (n, .error (.transient s!"connection interrupted after {written} bytes: {e}"))
      | .ok bytes => do
        let kept := min bytes.length remaining
        appendPart r (bytes.take kept)
        receive r (remaining - kept) (written + kept) (n + kept) body
    else pure (n, .ok ())

/-- The canonical reason of a server error, which is shown with its code. -/
def serverErrorReason : ℕ → String
  | 500 => "Internal Server Error"
  | 501 => "Not Implemented"
  | 502 => "Bad Gateway"
  | 503 => "Service Unavailable"
  | 504 => "Gateway Timeout"
  | 505 => "HTTP Version Not Supported"
  | 506 => "Variant Also Negotiates"
  | 507 => "Insufficient Storage"
  | 508 => "Loop Detected"
  | 510 => "Not Extended"
  | 511 => "Network Authentication Required"
  | _ => "<unknown status code>"

/-- What is done with a response. -/
def takeResponse (url : String) (r : ByteRange) (existing n status : ℕ) (body : List Chunk) :
    Fs Attempt :=
  if status = 206 then do
    openPart r false
    receive r (r.len - existing) existing n body
  else if status = 200 then
    -- the whole file from its first byte: only a range that starts there can use it
    if 0 < r.start then pure (n, .error (.fatal (.rangeUnsupported url)))
    else do
      openPart r true
      receive r r.len 0 n body
  else if status = 416 then do
    removePart r
    pure (n, .error (.transient
      s!"server rejected range {r.start + existing}-{r.stop - 1} (HTTP 416); restarting the range"))
  else if 500 ≤ status ∧ status < 600 then
    pure (n, .error (.transient s!"HTTP {status} {serverErrorReason status}"))
  else pure (n, .error (.fatal (.httpStatus status url)))

/-- A partial file that is not shorter than the range is a crash artifact: it is removed. -/
def dropOverlong (r : ByteRange) (found : ℕ) : Fs ℕ :=
  if r.len ≤ found then do
    removePart r
    pure 0
  else pure found

/-- One attempt; `n` counts the bytes received. -/
def rangeAttempt (url : String) (r : ByteRange) (n : ℕ) : Fs Attempt := do
  let found ← partLen r
  let existing ← dropOverlong r found
  let answer ← Fs.request (r.start + existing) (r.stop - 1)
  match answer with
  | .unreachable e => pure (n, .error (.transient s!"request failed: {e}"))
  | .response status body => takeResponse url r existing n status body

/-- Retries after the first attempt. -/
def maxRetries : ℕ := 3

/-- The hash of a fetched range, and the bytes that came over the network. -/
structure FetchedRange where
  blake3 : String
  networkBytes : ℕ

section hash

variable (hash : Bytes → String)

/-- The hash of what was received. -/
def hashPart (r : ByteRange) : Fs String := Fs.look fun d => hash ((d.part r).getD [])

/-- The hash of the file of a range. -/
def hashFile (r : ByteRange) : Fs String := Fs.look fun d => hash ((d.file r).getD [])

/-- Try to fetch a range, so many times at most. -/
def attempts (url : String) (r : ByteRange) (expected : Option String) (lastError : String) (n : ℕ) :
    ℕ → Fs FetchedRange
  | 0 => Program.fail (.exhausted url (maxRetries + 1) lastError)
  | left + 1 => do
    let (n, outcome) ← rangeAttempt url r n
    match outcome with
    | .ok () => do
      let actual ← hashPart hash r
      if expected.all fun e => e == actual then do
        renamePart r
        pure ⟨actual, n⟩
      else do
        -- other bytes than the verified copy this node once held
        removePart r
        let wanted := expected.getD ""
        attempts url r expected
          s!"range {r.start}-{r.stop} failed BLAKE3 verification (expected {wanted}, got {actual})"
          n left
    | .error (.fatal e) => Program.fail e
    | .error (.transient message) => attempts url r expected message n left

/-- Fetch a range. -/
def fetchOneRange (url : String) (r : ByteRange) (expected : Option String) : Fs FetchedRange :=
  attempts hash url r expected "no attempt made" 0 (maxRetries + 1)

/-! ## All ranges of a plan -/

/-- Fetch a range and record it. -/
def download (url : String) (m : RangeManifest) (r : ByteRange) (expected : Option String) :
    Fs (RangeManifest × ℕ) := do
  let fetched ← fetchOneRange hash url r expected
  let m := upsertRange m r fetched.blake3
  storeRangeManifest m
  pure (m, fetched.networkBytes)

/-- One turn of the loop of `fetch_ranges`: the record after it, and the bytes it took. -/
def fetchRange (url : String) (m : RangeManifest) (r : ByteRange) : Fs (RangeManifest × ℕ) := do
  let expected := (m.find r).map RangeEntry.blake3
  let size ← Fs.look fun d => (d.file r).map List.length
  match size with
  | some len =>
    if len = r.len then do
      let actual ← hashFile hash r
      match expected with
      | some e =>
        if e = actual then pure (m, 0)
        else do
          -- a corrupt range is fetched again
          removeFile r
          download hash url m r expected
      | none => do
        -- a crash landed the file before its entry: it is adopted
        let m := upsertRange m r actual
        storeRangeManifest m
        pure (m, 0)
    else do
      removeFile r
      download hash url m r expected
  | none => download hash url m r expected

/-- The loop of `fetch_ranges`; `n` counts the bytes received. -/
def fetchAll (url : String) : List ByteRange → RangeManifest → ℕ → Fs ℕ
  | [], _, n => pure n
  | r :: rs, m, n => do
    let (m, k) ← fetchRange hash url m r
    fetchAll url rs m (n + k)

/-- The record that a fetch starts from: the one on disk, or an empty one. A record of a file
of another size is stale, and so are the ranges. -/
def startManifest (url : String) (plan : RangePlan) : Fs RangeManifest := do
  let loaded ← Fs.look fun d => d.rangesJson.load
  match loaded with
  | some m =>
    if m.totalSize = plan.totalSize then pure { m with url, headerLen := plan.headerLen }
    else do
      removeRangesDir
      Fs.change Dir.createRangesDir
      pure (freshManifest url plan)
  | none => pure (freshManifest url plan)

/-- A range that is not in the file. -/
def invalid (plan : RangePlan) (r : ByteRange) : Bool := r.stop ≤ r.start || plan.totalSize < r.stop

/-- Fetch every range of the plan that is not there; the bytes it took. -/
def fetchRanges (url : String) (plan : RangePlan) : Fs ℕ :=
  match plan.ranges.find? (invalid plan) with
  | some r => Program.fail (.invalidRange r.start r.stop)
  | none => do
    let full ← Fs.look Dir.findModelFile
    if full.any fun f => f.2 == plan.totalSize then pure 0
    else do
      Fs.change Dir.createRangesDir
      let m ← startManifest url plan
      fetchAll hash url plan.ranges m 0

end hash

end OneBrain.Models
