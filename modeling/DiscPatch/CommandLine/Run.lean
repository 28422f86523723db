/-
Runs of the program on a disk, from which it reads and to which it may write. How a run ends is
its output, or the failure that stopped it.
-/
import DiscPatch.Assembly.Directives
import DiscPatch.Command.Sets
import DiscPatch.Command.Slots
import DiscPatch.CommandLine.Arguments
import DiscPatch.CommandLine.Help
import DiscPatch.Description.Directory
import DiscPatch.Patch.Edits
import DiscPatch.Patch.Export
import DiscPatch.Patch.Update
import DiscPatch.Settings

namespace DiscPatch.CommandLine

open Text

/-! ## Failures -/

/-- Why a run failed: an error, or what the program was about when one came up. -/
inductive Failure where
  | error (e : Error)
  /-- The run broke off before it came to an end. -/
  | brokenOff
  | readingSettings (path : Path)
  | readingLayouts (path : Path)
  | reading (path : Path)
  | loadingPatches (dir : Path)
  | readingImage (path : Path)
  | collectingEdits (patch : String)
  | writing (path : Path)
  | notHex (name value : String)
  | noDirectoryGiven
  | noLayouts (kind : Command.Kind)
  | noPatch (name : String)
  | noVariable (name : String)
  | notSelected (patch : String)
  deriving DecidableEq, Repr

/-- The kind of script in messages. -/
def kindText : Command.Kind → String
  | .battleConditional => "BattleConditional"
  | .worldConditional => "WorldConditional"
  | .eventCommand => "EventCommand"

/-- The failure in words. A run that breaks off has none of its own. -/
def Failure.message : Failure → String
  | error e => e.message
  | brokenOff => ""
  | readingSettings path => "reading settings " ++ path.text
  | readingLayouts path => "reading templates " ++ path.text
  | reading path => "reading " ++ path.text
  | loadingPatches dir => "loading patches from " ++ dir.text
  | readingImage path => "reading image " ++ path.text
  | collectingEdits patch => "collecting edits for " ++ quoted patch
  | writing path => "writing " ++ path.text
  | notHex name value => "value for " ++ name ++ " is not hex: " ++ value
  | noDirectoryGiven => "no patch directory given; pass --dir or set patch_dir"
  | noLayouts kind =>
    "no template table configured for " ++ kindText kind ++ "; pass --templates"
  | noPatch name => "no patch named " ++ quoted name
  | noVariable name => "no selected patch has a variable named " ++ quoted name
  | notSelected patch => "import patch " ++ quoted patch ++ " is not selected"

/-- The line that reports a failure. -/
def failureText : Failure → String
  | .brokenOff => ""
  | failure => "Error: " ++ failure.message

/-- The code that a run ends with when it fails. -/
def Failure.code : Failure → Nat
  | brokenOff => 101
  | _ => 1

/-! ## Steps -/

/-- A step that fails with `failure` whatever its error is. -/
def during {ε α : Type} (failure : Failure) : Except ε α → Except Failure α
  | .ok a => .ok a
  | .error _ => .error failure

/-- A step that fails with its own error. -/
def orFail {α : Type} : Except Error α → Except Failure α
  | .ok a => .ok a
  | .error e => .error (.error e)

variable {m : Type → Type} [Monad m]

/-- A step that makes something of the files there are. -/
def look {α : Type} (disk : Disk m) (step : Files → Except Failure α) : ExceptT Failure m α := do
  let files ← disk.files
  step files

/-- A step that writes a file. -/
def save (disk : Disk m) (path : Path) (content : ByteArray) : ExceptT Failure m Unit := do
  match ← disk.write path content with
  | .ok () => return
  | .error _ => throw (.writing path)

/-! ## Patches -/

/-- The sector table of the settings, and the patches of a directory. -/
def patchesOf (files : Files) (settings : Settings) (dir? : Option Path) :
    Except Failure (SectorTable × List Patch) := do
  let table ← orFail (settings.sectorTable files)
  match dir?.or settings.patchDirectory? with
  | none => .error .noDirectoryGiven
  | some dir =>
    let reader : Description.Reader := {
      space := table.space, assembler := Assembly.directives, files }
    let patches ← during (.loadingPatches dir) (Description.loadDirectory reader dir)
    return (table, patches)

/-- The marks of a patch in a listing. -/
def marks (p : Patch) : String :=
  let words := (if p.isHidden then ["hidden"] else [])
    ++ (if p.hiddenByDefault then ["hide-in-default"] else [])
    ++ (if p.isImport then ["import"] else [])
  if words = [] then "" else "(" ++ ", ".intercalate words ++ ")"

/-- The lines of a patch in a listing. -/
def listing (p : Patch) : List String :=
  [p.name ++ " [" ++ p.filename ++ "] " ++ marks p]
    ++ (if p.description = p.name then [] else ["    " ++ p.description])
    ++ (p.vars.filter (!·.isDerived)).map (fun v =>
      "    " ++ v.name ++ " = " ++ hex v.value.toNat)
    ++ (lines p.faultText.toList).map (fun line => "    ! " ++ String.ofList line)

/-- Lists patches. -/
def runList (disk : Disk m) (settings : Settings) (dir? : Option Path) :
    ExceptT Failure m String := do
  let (_, patches) ← look disk (patchesOf · settings dir?)
  return String.join ((patches.flatMap listing).map (· ++ "\n"))

/-- Writes patches as one document. -/
def runExport (disk : Disk m) (settings : Settings) (dir? : Option Path) (output : Path) :
    ExceptT Failure m String := do
  let (table, patches) ← look disk (patchesOf · settings dir?)
  save disk output (Patch.documentText table.space patches).toUTF8
  return ""

/-! ## Applying patches -/

/-- Whether two names are the same, blanks around them and the case of letters aside. -/
def namesAgree (a b : String) : Bool :=
  sameIgnoringCase (trim a) (trim b)

/-- The patches that are asked for by name; with no names, those that are visible and complete. -/
def select (patches : List Patch) (names : List String) : Except Failure (List Patch) :=
  if names = [] then .ok (patches.filter fun p => !p.isHidden && !p.isImport)
  else names.mapM fun name =>
    match patches.find? (namesAgree ·.name name) with
    | some p => .ok p
    | none => .error (.noPatch name)

/-- The text behind all marks `0x` at its front. -/
def afterMarks : List Char → List Char
  | '0' :: 'x' :: cs => afterMarks cs
  | cs => cs

/-- Sets a variable in each patch that has it. -/
def setEverywhere (patches : List Patch) (assignment : String × String) :
    Except Failure (List Patch) := do
  let (name, text) := assignment
  let value ← during (.notHex name text) (readWord 16 (afterMarks text.toList))
  let changed ← patches.mapM fun p =>
    if (p.find? name).isSome then orFail (p.setVariable name value) else .ok p
  if patches.any fun p => (p.find? name).isSome then return changed
  else .error (.noVariable name)

/-- Gives an input file to the first patch of that name. -/
def giveFile (files : Files) (assignment : String × String) :
    List Patch → Except Failure (List Patch)
  | [] => .error (.notSelected assignment.1)
  | p :: rest =>
    if namesAgree p.name assignment.1 then do
      let p ← orFail (p.giveFile files ⟨assignment.2⟩)
      return p :: rest
    else (giveFile files assignment rest).map (p :: ·)

/-- What a patch writes once it is up to date. -/
def editsOf (p : Patch) : Except Failure (List Edit) :=
  during (.collectingEdits p.name) (p.update Assembly.directives).edits

/-- A step that writes edits. -/
def written {α : Type} : Except Edit.Obstacle α → Except Failure α
  | .ok a => .ok a
  | .error (.refused e) => .error (.error e)
  | .error (.brokenOff _) => .error .brokenOff

/-- The image with the patches applied. -/
def patchedImage (disk : Disk m) (build : Build) (settings : Settings) (image : Path)
    (dir? : Option Path) (names : List String) (sets inputs : List (String × String)) :
    ExceptT Failure m ByteArray := do
  let (table, patches) ← look disk (patchesOf · settings dir?)
  let selected ← select patches names
  let selected ← sets.foldlM (fun selected set => setEverywhere selected set) selected
  let selected ← inputs.foldlM (fun selected input => look disk (giveFile · input selected))
    selected
  let content ← look disk fun files => during (.readingImage image) (files.read image)
  let edits ← selected.mapM fun p => editsOf p
  written (Edit.writeAs build table.space edits.flatten content)

/-- Applies patches to an image. -/
def runApply (disk : Disk m) (build : Build) (settings : Settings) (image : Path)
    (output? dir? : Option Path) (names : List String) (sets inputs : List (String × String)) :
    ExceptT Failure m String := do
  let patched ← patchedImage disk build settings image dir? names sets inputs
  save disk (output?.getD image) patched
  return ""

/-! ## Scripts -/

/-- The command layouts of a kind, from a document or from the settings. -/
def layoutsOf (files : Files) (settings : Settings) (kind : Command.Kind)
    (path? : Option Path) : Except Failure Command.Table := do
  match path? with
  | some path => during (.readingLayouts path) (Command.Table.load files kind path)
  | none =>
    match ← orFail (settings.layouts files kind) with
    | some table => return table
    | none => .error (.noLayouts kind)

/-- A step that decodes scripts. -/
def decoded {α : Type} (step : Except Command.Fault α) : Except Failure α :=
  orFail (step.mapError Error.script)

/-- Shows a file of conditional scripts. -/
def runConditionals (disk : Disk m) (settings : Settings) (inBattle : Bool) (input : Path)
    (layouts? : Option Path) : ExceptT Failure m String := do
  let kind := if inBattle then .battleConditional else .worldConditional
  let table ← look disk (layoutsOf · settings kind layouts?)
  let content ← look disk fun files => during (.reading input) (files.read input)
  let sets ← decoded (Command.ConditionalSet.decodeFile table content.data.toList)
  return (Json.array (sets.map (·.toJson))).indented ++ "\n"

/-- Shows a file of event scripts. -/
def runEvents (disk : Disk m) (settings : Settings) (input : Path) (layouts? : Option Path) :
    ExceptT Failure m String := do
  let table ← look disk (layoutsOf · settings .eventCommand layouts?)
  let content ← look disk fun files => during (.reading input) (files.read input)
  let events ← decoded (Command.Event.decodeFile table content.data.toList)
  return (Json.array (events.map (·.toJson))).indented ++ "\n"

/-! ## Runs -/

/-- The settings of a run. -/
def settingsOf (files : Files) (invocation : Invocation) : Except Failure Settings := do
  let path := invocation.config
  let settings ← during (.readingSettings path) (Settings.load files path)
  return { settings with
    platform := invocation.platform?.getD settings.platform
    sectorTable? := invocation.sectors?.or settings.sectorTable? }

/-- Runs the program and returns its output. -/
def run (disk : Disk m) (build : Build) (invocation : Invocation) : ExceptT Failure m String := do
  let settings ← look disk (settingsOf · invocation)
  match invocation.action with
  | .list dir? => runList disk settings dir?
  | .apply image output? dir? patches sets inputs =>
    runApply disk build settings image output? dir? patches sets inputs
  | .exportAll dir? output => runExport disk settings dir? output
  | .conditionals inBattle input layouts? =>
    runConditionals disk settings inBattle input layouts?
  | .events input layouts? => runEvents disk settings input layouts?

/-- What a call of the program ends with. -/
structure Result where
  code : Nat
  output : String
  failure : String
  tree : FileTree

/-- Calls the program in a working directory. -/
def call (tree : FileTree) (args : List String) (build : Build := .release) : Result :=
  match readArguments args with
  | .unusable => ⟨2, "", "", tree⟩
  | .version => ⟨0, versionText, "", tree⟩
  | .help topic? => ⟨0, helpText topic?, "", tree⟩
  | .run invocation =>
    match (run FileTree.disk build invocation).run tree with
    | (.ok output, tree) => ⟨0, output, "", tree⟩
    | (.error failure, tree) => ⟨failure.code, "", failureText failure, tree⟩

end DiscPatch.CommandLine
