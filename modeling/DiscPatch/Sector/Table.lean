/-
Sector tables: the named files of one platform's disc. Two tables are built in; others are read
from JSON. A sector that no entry lists still has its place in the image.
-/
import DiscPatch.AddressSpace
import DiscPatch.Json.Parser
import DiscPatch.Json.Shape

namespace DiscPatch

open Text

/-- A named file of the disc. -/
structure NamedSector where
  name : String
  id : UInt32
  loadAddress? : Option UInt32
  /-- The position in the image, for files that do not start where their sector does. -/
  position? : Option UInt64
  deriving DecidableEq, Repr

/-- The named files of a platform's disc. -/
structure SectorTable where
  platform : Platform
  /-- The bits set in RAM addresses, where they are not those of the platform. -/
  uncachedBits? : Option UInt32
  sectors : List NamedSector
  deriving DecidableEq, Repr

namespace SectorTable

/-! ## Built-in tables -/

/-- The files of the PSX disc. -/
def psx : SectorTable where
  platform := .psx
  uncachedBits? := none
  sectors := [
    ⟨"SCUS_942_21", 24, some 0xF800, none⟩,
    ⟨"BATTLE_BIN", 1000, some 0x67000, none⟩,
    ⟨"WORLD_WORLD_BIN", 62, some 0xE0000, none⟩,
    ⟨"EVENT_TEST_EVT", 3707, none, none⟩,
    ⟨"EVENT_ATTACK_OUT", 2448, some 0x1BF000, none⟩]

/-- The files of the PSP disc. -/
def psp : SectorTable where
  platform := .psp
  uncachedBits? := none
  sectors := [
    ⟨"PSP_GAME_SYSDIR_BOOT_BIN", 0x5C4, some 0x08803F60, none⟩,
    ⟨"PSP_GAME_SYSDIR_EBOOT_BIN", 0x3A2, some 0x08803F60, none⟩]

/-- The built-in table of a platform. -/
def ofPlatform : Platform → SectorTable
  | .psx => psx
  | .psp => psp

/-! ## Lookups -/

/-- The first entry for a sector of the table's platform. -/
def entry? (table : SectorTable) (s : Sector) : Option NamedSector :=
  if s.platform = table.platform then table.sectors.find? (·.id = s.id) else none

/-- The position of a sector in the image: its entry's, or else as many sectors in as its number
says. -/
def position? (table : SectorTable) (s : Sector) : Option Nat :=
  if s.platform = table.platform then
    match (table.entry? s).bind (·.position?) with
    | some base => some base.toNat
    | none => some (s.id.toNat * Platform.sectorSize)
  else none

/-- The sector of that name, blanks around it and the case of letters aside. -/
def named? (table : SectorTable) (name : String) : Option Sector :=
  (table.sectors.find? fun e => sameIgnoringCase e.name (trim name)).map
    fun e => ⟨table.platform, e.id⟩

/-- What the table tells about sectors. -/
def space (table : SectorTable) : AddressSpace where
  platform := table.platform
  position? := table.position?
  loadAddress? s := (table.entry? s).bind (·.loadAddress?)
  named? := table.named?
  nameOf? s := (table.entry? s).map (·.name)
  uncachedBits := table.uncachedBits?.getD table.platform.uncachedBits

/-! ## JSON -/

/-- Reads an entry. -/
def entryOfJson? (j : Json) : Option NamedSector := do
  let [name, id, loadAddress, position] ← j.fields? ["name", "id", "ram_base", "file_base"] | none
  let name ← name.bind Json.text?
  let id ← id.bind Json.word?
  let loadAddress ← Json.fieldOr none (Json.orNull Json.word?) loadAddress
  let position ← Json.fieldOr none (Json.orNull Json.longWord?) position
  return ⟨name, id, loadAddress, position⟩

/-- Reads a table. -/
def ofJson? (j : Json) : Option SectorTable := do
  let [platform, mask, sectors] ← j.fields? ["platform", "uncached_mask", "sectors"] | none
  let platform ← platform.bind (Json.choice? Platform.ofName?)
  let mask ← Json.fieldOr none (Json.orNull Json.word?) mask
  let sectors ← (← sectors.bind Json.items?).mapM entryOfJson?
  return ⟨platform, mask, sectors⟩

/-- The table of a JSON text. -/
def ofText (text : String) : Except Error SectorTable :=
  match (Json.parse? text).bind ofJson? with
  | some table => .ok table
  | none => .error .malformedJson

/-- The table in the JSON file at `path`. -/
def load (files : Files) (path : Path) : Except Error SectorTable := do
  let text ← FileFault.lift (files.readText path)
  ofText text

/-- A member for a number that may be missing. -/
def numberMember (key : String) : Option Nat → List (String × Json)
  | some n => [(key, Json.ofNat n)]
  | none => []

/-- The table as JSON; numbers that are missing have no member. -/
def toJson (table : SectorTable) : Json :=
  Json.record <|
    [("platform", Json.text table.platform.name)]
      ++ numberMember "uncached_mask" (table.uncachedBits?.map UInt32.toNat)
      ++ [("sectors", .array (table.sectors.map fun e => Json.record <|
        [("name", Json.text e.name), ("id", Json.ofNat e.id.toNat)]
          ++ numberMember "ram_base" (e.loadAddress?.map UInt32.toNat)
          ++ numberMember "file_base" (e.position?.map UInt64.toNat)))]

end SectorTable
end DiscPatch
