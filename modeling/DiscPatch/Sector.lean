/-
Sectors name the files of a disc image: a number on the disc of one console.
-/
import DiscPatch.Text.Number

namespace DiscPatch

/-- The console whose disc is patched. -/
inductive Platform where
  | psx
  | psp
  deriving DecidableEq, Repr, Inhabited

namespace Platform

/-- The high address bits that the console's code uses for its RAM. -/
def uncachedBits : Platform → UInt32
  | psx => 0x80000000
  | psp => 0

/-- The platform's name in texts. -/
def name : Platform → String
  | psx => "psx"
  | psp => "psp"

/-- The platform of that name. -/
def ofName? : String → Option Platform
  | "psx" => some psx
  | "psp" => some psp
  | _ => none

/-- The bytes between the starts of two neighbouring sectors. -/
def sectorSize : Nat := 2048

end Platform

/-- A file on the disc, by the number of its first sector. -/
structure Sector where
  platform : Platform
  id : UInt32
  deriving DecidableEq, Repr, Inhabited

/-- The sector in messages, such as `psx:0x18`. -/
def Sector.text (s : Sector) : String :=
  s.platform.name ++ ":" ++ Text.hexMarked s.id.toNat

end DiscPatch
