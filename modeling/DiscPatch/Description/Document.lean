/-
Documents of patch descriptions. Patches come before patches that import a file; any fault rejects
the whole document. A patch can include the segments and variables of patches before it.
-/
import DiscPatch.Description.Location
import DiscPatch.Description.VariableElement
import DiscPatch.Text.Lowercase
import DiscPatch.Xml.Parser

namespace DiscPatch.Description

open Text Xml Patch

/-- What all patches of a document share. -/
structure Heading where
  filename : String
  hiddenByDefault : Bool
  isHidden : Bool

/-! ## Included patches -/

/-- A patch's name as includes compare it. -/
def includeKey (name : String) : String :=
  lowercase (trim name)

/-- The variables of a patch behind those that are known, names that are known left out. -/
def addVariables (known : List Variable) (p : Patch) : List Variable :=
  p.vars.foldl (fun known v =>
    if known.any (·.name = v.name) then known else known ++ [v]) known

/-- The patches that an element includes. -/
def includedPatches (earlier : List Patch) (n : Node) : List Patch :=
  (n.elements "Include").flatMap fun reference =>
    match reference.attr? "patch" with
    | some name => earlier.filter fun p => includeKey p.name = includeKey name
    | none => []

/-- The segments that a patch gives to those that include it. -/
def includable (p : Patch) : List Segment :=
  p.segments.filter (!·.takesFile)

/-! ## Patches -/

/-- Reads a file that replaces a sector. -/
def readStream (reader : Reader) (n : Node) : Except Error Segment := do
  let some sector ← namedSector reader.space n | .error (.address (.noSector "STRLocation"))
  let path := reader.resolve (← required n "input")
  let content ← FileFault.lift (reader.files.read path)
  return { Segment.ofStream sector path content.data.toList with
    ram := reader.space.toRam sector 0 }

/-- Reads a patch, given those before it. -/
def readPatch (reader : Reader) (heading : Heading) (earlier : List Patch) (n : Node) :
    Except Error Patch := do
  let (name, description) ← titleOf n
  let standard ← namedSector reader.space n
  let included := includedPatches earlier n
  let vars ← readVariables reader.space standard (included.foldl addVariables [])
    (n.elements "Variable")
  let segments := included.flatMap includable
  let own ← readLocations reader name standard segments vars (n.elements "Location")
  let streams ← (n.elements "STRLocation").mapM (readStream reader)
  Draft.build {
    name
    filename := heading.filename
    description? := some description
    segments := segments ++ own ++ streams
    vars
    hiddenByDefault := flag n "hideInDefault" || heading.hiddenByDefault
    isHidden := flag n "hidden" || heading.isHidden
    faultText := faultsOf own }

/-- Reads a patch that imports a file; there is none unless exactly one file is named. -/
def readImport (reader : Reader) (heading : Heading) (n : Node) :
    Except Error (Option Patch) := do
  let (name, description) ← titleOf n
  match n.elements "ImportFile" with
  | [file] =>
    let some sector ← namedSector reader.space file
      | .error (.address (.importWithoutSector name))
    let offset ← hexNumber .offset (← required file "offset")
    let expected ← hexNumber .expectedLength (← required file "expectedLength")
    let segment := { Segment.awaitingFile sector offset expected with
      ram := reader.space.toRam sector offset }
    let patch ← Draft.build {
      name
      filename := heading.filename
      description? := some description
      segments := [segment]
      hiddenByDefault := heading.hiddenByDefault
      isHidden := heading.isHidden }
    return some patch
  | _ => return none

/-! ## Documents -/

/-- Whether a patch element is to be left out. -/
def ignored (n : Node) : Except Error Bool :=
  match n.attr? "ignore" with
  | none => .ok false
  | some text =>
    match truth? text with
    | some value => .ok value
    | none => .error (.description (.ignoreValue text))

/-- Reads the patches under a root element. -/
def readRoot (reader : Reader) (filename : String) (root : Node) : Except Error (List Patch) := do
  if root.tag ≠ "Patches" then .error (.description (.root root.tag))
  let heading : Heading := ⟨filename, flag root "hideInDefault", flag root "hidden"⟩
  let patches ← (root.elements "Patch").foldlM (fun earlier n => do
    if ← ignored n then return earlier
    let patch ← readPatch reader heading earlier n
    return earlier ++ [patch]) []
  let imports ← (root.elements "ImportFilePatch").mapM (readImport reader heading)
  return patches ++ imports.filterMap id

/-- Reads a document; the file name is recorded in every patch. -/
def parse (reader : Reader) (text filename : String) : Except Error (List Patch) :=
  match Xml.parse? text with
  | some root => readRoot reader filename root
  | none => .error .malformedXml

/-- Reads a document from a file. Files that it names are sought beside it unless the reader has a
directory of its own. -/
def load (reader : Reader) (path : Path) : Except Error (List Patch) := do
  let text ← FileFault.lift (reader.files.readText path)
  let reader := { reader with directory? := reader.directory?.or path.parent? }
  parse reader text (path.fileName?.getD "")

end DiscPatch.Description
