/-
Where the sectors of a disc lie: their bytes in the image, the RAM they are loaded to, and their
names. Addresses for code carry the console's uncached bits; file offsets do not.
-/
import DiscPatch.Error
import DiscPatch.Text.Ascii

namespace DiscPatch

open Text

/-- What is known about the sectors of one platform. -/
structure AddressSpace where
  platform : Platform
  /-- The position of a sector's first byte in the image. -/
  position? : Sector → Option Nat
  /-- The RAM address of a sector's first byte, if the sector is loaded. -/
  loadAddress? : Sector → Option UInt32
  named? : String → Option Sector
  nameOf? : Sector → Option String
  /-- The bits set in every RAM address. -/
  uncachedBits : UInt32

namespace AddressSpace

/-! ## Addresses -/

/-- The RAM address of a sector's first byte, zero where the sector is not loaded. -/
def loadAddress (space : AddressSpace) (s : Sector) : UInt32 :=
  (space.loadAddress? s).getD 0

/-- The RAM address of an offset in a sector, modulo `2 ^ 32`. -/
def toRam (space : AddressSpace) (s : Sector) (offset : UInt32) : UInt32 :=
  (offset + space.loadAddress s) ||| space.uncachedBits

/-- The offset in a sector of a RAM address, modulo `2 ^ 32`. -/
def toFile (space : AddressSpace) (s : Sector) (ram : UInt32) : UInt32 :=
  (ram &&& ~~~space.uncachedBits) - space.loadAddress s

/-! ## Names -/

/-- The sector of that name. -/
def ofName (space : AddressSpace) (name : String) : Except Error Sector :=
  match space.named? name with
  | some s => .ok s
  | none => .error (.unknownSector (trim name))

/-- The sector of that hexadecimal number. -/
def ofHexId (space : AddressSpace) (text : String) : Except Error Sector :=
  match hexWord? text with
  | some id => .ok ⟨space.platform, id⟩
  | none => .error (.description (.sectorNumber (trim text)))

/-- The sector of that decimal number or, failing that, of that name. -/
def ofIdOrName (space : AddressSpace) (text : String) : Except Error Sector :=
  match decimalWord? text with
  | some id => .ok ⟨space.platform, id⟩
  | none => space.ofName text

/-- What names the sector in descriptions: its name or, failing that, its decimal number. -/
def display (space : AddressSpace) (s : Sector) : String :=
  (space.nameOf? s).getD (decimal s.id.toNat)

end AddressSpace
end DiscPatch
