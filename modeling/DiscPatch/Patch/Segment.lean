/-
Segments: the contiguous pieces of a patch. Their bytes are given outright, assembled from source,
read from hexadecimal text with labels, or taken from a file.
-/
import DiscPatch.Edit
import DiscPatch.Relocation

namespace DiscPatch.Patch

/-- Where a segment's bytes come from. -/
inductive Source where
  /-- The description itself. -/
  | inline
  /-- A file of a fixed length, chosen by the user. -/
  | chosenFile (path? : Option Path) (expected : UInt32)
  /-- A whole file that replaces the sector from its start. -/
  | stream (path : Path)
  deriving DecidableEq, Repr

/-- A contiguous piece of a patch. -/
structure Segment where
  sector : Sector
  offset : UInt32
  /-- The address the segment is assembled for. -/
  ram : UInt32
  bytes : Bytes
  source : Source := .inline
  /-- Assembly source. -/
  assembly? : Option String := none
  /-- Hexadecimal text with labels in it. -/
  labelledHex? : Option String := none
  /-- The name under which other segments can refer to this one. -/
  label? : Option String := none
  isData : Bool := false
  /-- Whether the offset was taken from the end of the segment before. -/
  isChained : Bool := false
  /-- Whether moves leave the words in the segment alone. -/
  movesSimply : Bool := false
  /-- Whether the bytes were found to be code. -/
  isCode : Bool := false
  /-- What is wrong with the source. -/
  faultText : String := ""
  /-- What is wrong with the code. -/
  codeFaults : String := ""
  deriving DecidableEq, Repr

namespace Segment

/-! ## Making segments -/

/-- A segment of given bytes, assembled for the address equal to its offset. -/
def ofBytes (sector : Sector) (offset : UInt32) (bytes : Bytes) : Segment where
  sector
  offset
  ram := offset
  bytes

/-- A segment that waits for a file of the given length. -/
def awaitingFile (sector : Sector) (offset expected : UInt32) : Segment :=
  { ofBytes sector offset [] with source := .chosenFile none expected }

/-- A segment that replaces a sector by a file. -/
def ofStream (sector : Sector) (path : Path) (bytes : Bytes) : Segment :=
  { ofBytes sector 0 bytes with source := .stream path }

/-- The segment with assembly source; such a segment moves simply unless told otherwise. -/
def assembled (s : Segment) (source : String) : Segment :=
  { s with assembly? := some source, movesSimply := true }

/-- The segment under a label; an empty label is none. -/
def labelled (s : Segment) (label : String) : Segment :=
  { s with label? := if label = "" then none else some label }

/-! ## Looking at segments -/

/-- The offset behind the last byte. -/
def stop (s : Segment) : Nat :=
  s.offset.toNat + s.bytes.length

/-- The length a chosen file has to have, where the segment takes one. -/
def expected? (s : Segment) : Option UInt32 :=
  match s.source with
  | .chosenFile _ expected => some expected
  | _ => none

/-- Whether the segment takes a file chosen by the user. -/
def takesFile (s : Segment) : Bool :=
  s.expected?.isSome

/-- The file the bytes were taken from. -/
def path? (s : Segment) : Option Path :=
  match s.source with
  | .inline => none
  | .chosenFile path? _ => path?
  | .stream path => some path

/-- The segment as a write. -/
def toEdit (s : Segment) : Edit :=
  ⟨s.sector, s.offset, s.bytes⟩

end Segment
end DiscPatch.Patch
