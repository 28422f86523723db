/-
The settings of the program, kept in a JSON file: the platform, and where the sector table, the
tables of command layouts and the patches are. Whatever the file leaves out has a standard value,
and so has everything where there is no file.
-/
import DiscPatch.Command.TableDocument
import DiscPatch.Files.Tree
import DiscPatch.Json.Printer
import DiscPatch.Sector.Table

namespace DiscPatch

/-- The documents of command layouts, by the kind of script. -/
structure TablePaths where
  battle? : Option Path := none
  world? : Option Path := none
  event? : Option Path := none
  deriving DecidableEq, Repr

/-- The settings of the program. -/
structure Settings where
  platform : Platform := .psx
  /-- The sector table; the built-in one of the platform stands in for a missing one. -/
  sectorTable? : Option Path := none
  layoutPaths : TablePaths := {}
  patchDirectory? : Option Path := none
  deriving DecidableEq, Repr

namespace Settings

/-! ## JSON -/

/-- A path, or null for none. -/
def path? (j : Json) : Option (Option Path) :=
  Json.orNull (fun j => j.text?.map Path.mk) j

/-- Reads the paths of tables. -/
def tablePathsOfJson? (j : Json) : Option TablePaths := do
  let [battle, world, event] ← j.fields? ["battle", "world", "event"] | none
  return {
    battle? := ← Json.fieldOr none path? battle
    world? := ← Json.fieldOr none path? world
    event? := ← Json.fieldOr none path? event }

/-- Reads settings. -/
def ofJson? (j : Json) : Option Settings := do
  let keys := ["platform", "sector_table", "command_tables", "patch_dir"]
  let [platform, table, tables, dir] ← j.fields? keys | none
  return {
    platform := ← Json.fieldOr .psx (Json.choice? Platform.ofName?) platform
    sectorTable? := ← Json.fieldOr none path? table
    layoutPaths := ← Json.fieldOr {} tablePathsOfJson? tables
    patchDirectory? := ← Json.fieldOr none path? dir }

/-- A path as JSON, null for none. -/
def pathToJson (path? : Option Path) : Json :=
  Json.textOrNull (path?.map (·.text))

/-- The settings as JSON. -/
def toJson (s : Settings) : Json :=
  Json.record [
    ("platform", Json.text s.platform.name),
    ("sector_table", pathToJson s.sectorTable?),
    ("command_tables", Json.record [
      ("battle", pathToJson s.layoutPaths.battle?),
      ("world", pathToJson s.layoutPaths.world?),
      ("event", pathToJson s.layoutPaths.event?)]),
    ("patch_dir", pathToJson s.patchDirectory?)]

/-! ## Files -/

/-- Reads the settings at `path`. -/
def load (files : Files) (path : Path) : Except Error Settings :=
  match files.readText path with
  | .ok text =>
    match (Json.parse? text).bind ofJson? with
    | some settings => .ok settings
    | none => .error .malformedJson
  | .error .notFound => .ok {}
  | .error fault => .error (.file fault)

/-- Writes the settings to `path`; directories that are missing are made, and stay where the file
itself cannot be written. -/
def save (s : Settings) (tree : FileTree) (path : Path) : FileTree.Change :=
  let made : FileTree.Change := match path.parent? with
    | some dir => tree.makeDirectories dir
    | none => { tree }
  made.andThen (·.write path s.toJson.indented.toUTF8)

/-! ## What the settings name -/

/-- The sector table. -/
def sectorTable (s : Settings) (files : Files) : Except Error SectorTable :=
  match s.sectorTable? with
  | some path => SectorTable.load files path
  | none => .ok (SectorTable.ofPlatform s.platform)

/-- The document of command layouts of a kind. -/
def layoutPath? (s : Settings) : Command.Kind → Option Path
  | .battleConditional => s.layoutPaths.battle?
  | .worldConditional => s.layoutPaths.world?
  | .eventCommand => s.layoutPaths.event?

/-- The command layouts of a kind, where the settings name a document of them. -/
def layouts (s : Settings) (files : Files) (kind : Command.Kind) :
    Except Error (Option Command.Table) :=
  match s.layoutPath? kind with
  | some path => (Command.Table.load files kind path).map some
  | none => .ok none

end Settings
end DiscPatch
