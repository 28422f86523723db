/-
Edits put bytes into the files of a disc image. A list of edits is checked as a whole before the
first byte is written, and later edits win over earlier ones. Positions in an image have 64 bits.
-/
import DiscPatch.AddressSpace
import DiscPatch.Bytes
import DiscPatch.Json

namespace DiscPatch

/-- One contiguous write: bytes at an offset in a sector. -/
structure Edit where
  sector : Sector
  offset : UInt32
  bytes : Bytes
  deriving DecidableEq, Repr

/-- How the program was built. This decides what becomes of a sum of positions that does not fit
into 64 bits. -/
inductive Build where
  /-- The run breaks off. -/
  | debug
  /-- The sum is taken modulo `2 ^ 64`. -/
  | release
  deriving DecidableEq, Repr

/-- The image with `bytes` from position `pos` on; what would lie past its end is left out. -/
def overwrite (image : ByteArray) (pos : Nat) : Bytes → ByteArray
  | [] => image
  | b :: bs => overwrite (image.set! pos b) (pos + 1) bs

namespace Edit

/-- The offset behind the last byte. -/
def stop (e : Edit) : Nat :=
  e.offset.toNat + e.bytes.length

/-- The error of an edit that does not fit. -/
def misfit (e : Edit) : Error :=
  .outOfBounds e.sector e.offset.toNat e.bytes.length

/-- Writes the edit into the bytes of its own sector file. -/
def writeTo (e : Edit) (buffer : ByteArray) : Except Error ByteArray :=
  if e.stop ≤ buffer.size then .ok (overwrite buffer e.offset.toNat e.bytes)
  else .error e.misfit

/-! ## Whole images -/

/-- Why edits are not written. -/
inductive Obstacle where
  /-- An edit has no place in the image. -/
  | refused (error : Error)
  /-- The run breaks off at an edit. -/
  | brokenOff (e : Edit)
  deriving DecidableEq, Repr

/-- The error in the obstacle; an edit at which the run breaks off counts as one that does not
fit. -/
def Obstacle.error : Obstacle → Error
  | refused error => error
  | brokenOff e => e.misfit

/-- The position of the edit in an image of the given size. -/
def place (build : Build) (space : AddressSpace) (size : Nat) (e : Edit) : Except Obstacle Nat :=
  match space.position? e.sector with
  | none => .error (.refused (.unknownSector e.sector.text))
  | some base =>
    -- An image has fewer than `2 ^ 64` bytes, so up to its end no sum overflows.
    if base + e.stop ≤ size then .ok (base + e.offset.toNat)
    else if base + e.stop < UInt64.size then .error (.refused e.misfit)
    else
      match build with
      | .debug => .error (.brokenOff e)
      | .release =>
        let start : UInt64 := .ofNat base + e.offset.toUInt64
        let stop : UInt64 := start + .ofNat e.bytes.length
        if size < stop.toNat then .error (.refused e.misfit) else .ok start.toNat

/-- Writes the edit to a position that was found for it. The run breaks off where the edit reaches
past the image after all. -/
def writeAt (pos : Nat) (e : Edit) (image : ByteArray) : Except Obstacle ByteArray :=
  if pos + e.bytes.length ≤ image.size then .ok (overwrite image pos e.bytes)
  else .error (.brokenOff e)

/-- Writes edits into an image, all of them or none, as a build of the program does. -/
def writeAs (build : Build) (space : AddressSpace) (edits : List Edit) (image : ByteArray) :
    Except Obstacle ByteArray := do
  let places ← edits.mapM (place build space image.size)
  (places.zip edits).foldlM (fun image (pos, e) => writeAt pos e image) image

/-- Writes edits into an image, all of them or none. -/
def writeAll (space : AddressSpace) (edits : List Edit) (image : ByteArray) :
    Except Error ByteArray :=
  (writeAs .debug space edits image).mapError Obstacle.error

/-! ## JSON -/

/-- The edit as JSON. -/
def toJson (e : Edit) : Json :=
  Json.record [
    ("sector", Json.record [
      ("platform", Json.text e.sector.platform.name),
      ("id", Json.ofNat e.sector.id.toNat)]),
    ("offset", Json.ofNat e.offset.toNat),
    ("bytes", Json.ofBytes e.bytes)]

end Edit
end DiscPatch
