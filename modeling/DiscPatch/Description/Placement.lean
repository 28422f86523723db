/-
Where the elements of a description go. An element lists places with their sectors, or lists
offsets in one sector, or continues where the element before it ended. A missing sector is that of
the entry before, of the patch, or of the element before.
-/
import DiscPatch.Description.Values
import DiscPatch.Patch.Variable
import DiscPatch.Text.Lines

namespace DiscPatch.Description

open Text Xml Patch

/-- Where the element before ended. -/
structure Previous where
  sector : Sector
  stop : Nat
  deriving DecidableEq, Repr

/-- The places of an element, and whether it starts exactly where the one before ended. -/
structure Placement where
  places : List Place
  sequential : Bool
  deriving DecidableEq, Repr

/-! ## Sectors and offsets -/

/-- Reads the entries of a list of places, each with the text of its offset; `last` is the sector
of the entry before. -/
def readEntries (space : AddressSpace) (last : Option Sector) :
    List (List Char) → Except Error (List (Sector × String))
  | [] => .ok []
  | entry :: rest => do
    let (sector, offset) ← match cutAt? ':' entry, last with
      | some (front, back), _ =>
        (space.ofIdOrName (String.ofList front)).map (·, String.ofList back)
      | none, some sector => .ok (sector, String.ofList entry)
      | none, none => .error (.address (.entryWithoutSector (String.ofList entry)))
    let more ← readEntries space (some sector) rest
    return (sector, offset) :: more

/-- The list of places of an element, empty where it gives none. -/
def entries (space : AddressSpace) (n : Node) (standard : Option Sector) :
    Except Error (List (Sector × String)) :=
  match compactAttr n "specific" with
  | [] => .ok []
  | text => readEntries space standard (text.splitOn ',')

/-- The offset at which an element continues the one before: the first multiple of its alignment
from the end of that one on. -/
def chainedOffset (tag : String) (previous : Option Previous) (align : Nat) :
    Except Error (UInt32 × Bool) :=
  match previous with
  | none => .error (.address (.noOffset tag))
  | some p =>
    let aligned := align = 0 ∨ p.stop % align = 0
    let offset := if aligned then p.stop else p.stop + (align - p.stop % align)
    if offset ≤ maxWord then .ok (UInt32.ofNat offset, aligned)
    else .error (.address (.pastRange tag))

/-- The sector of an element that lists no places. -/
def sectorOf (space : AddressSpace) (n : Node) (standard : Option Sector)
    (previous : Option Previous) : Except Error Sector := do
  let named ← namedSector space n
  match named.or (standard.or (previous.map (·.sector))) with
  | some sector => return sector
  | none => .error (.address (.noSector n.tag))

/-- The place of an offset in a sector. -/
def placeOfFile (space : AddressSpace) (sector : Sector) (offset : UInt32) : Place :=
  ⟨sector, offset, space.toRam sector offset⟩

/-- The place of a RAM address in a sector. -/
def placeOfRam (space : AddressSpace) (sector : Sector) (ram : UInt32) : Place :=
  ⟨sector, space.toFile sector ram, ram ||| space.uncachedBits⟩

/-! ## Elements -/

/-- Whether the offsets of an element are RAM addresses. -/
def countsInRam (n : Node) : Bool :=
  match n.attr? "offsetMode" with
  | some mode => sameIgnoringCase (trim mode) "ram"
  | none => false

/-- Finds the places of an element. -/
def placement (space : AddressSpace) (n : Node) (standard : Option Sector)
    (previous : Option Previous) (align : Nat) : Except Error Placement := do
  let place := if countsInRam n then placeOfRam space else placeOfFile space
  match ← entries space n standard, compactAttr n "offset" with
  | [], [] =>
    let (offset, sequential) ← chainedOffset n.tag previous align
    let sector ← sectorOf space n standard previous
    return ⟨[placeOfFile space sector offset], sequential⟩
  | [], text =>
    let offsets ← (text.splitOn ',').mapM fun o => hexNumber .offset (String.ofList o)
    let sector ← sectorOf space n standard previous
    return ⟨offsets.map (place sector), false⟩
  | listed, _ =>
    let places ← listed.mapM fun (sector, offset) =>
      (hexNumber .offset offset).map (place sector)
    return ⟨places, false⟩

end DiscPatch.Description
