/-
Directories of patch descriptions. The XML files anywhere below a directory are read in the order
of their paths, name by name; a file that cannot be read contributes nothing.
-/
import DiscPatch.Description.Document

namespace DiscPatch.Description

open Text

/-- Whether a path names an XML file. -/
def isDescription (path : Path) : Bool :=
  match path.extension? with
  | some ext => sameIgnoringCase ext "xml"
  | none => false

/-- The order of paths, name by name. -/
def pathLe (a b : List String) : Bool :=
  !decide (b < a)

/-- The XML files below a directory, in the order in which they are read. -/
def descriptionFiles (files : Files) (dir : Path) : List Path :=
  (((files.below dir).mergeSort pathLe).map fun names => names.foldl (·.join ⟨·⟩) dir).filter
    isDescription

/-- The patches of one file of a directory; a fault of the file gives none. -/
def readListed (reader : Reader) (path : Path) : Except Error (List Patch) :=
  match load reader path with
  | .ok patches => .ok patches
  | .error e => if e.dropsFile then .ok [] else .error e

/-- Reads the descriptions below a directory. The files that a description names are sought beside
it, whatever directory the reader has. -/
def loadDirectory (reader : Reader) (dir : Path) : Except Error (List Patch) := do
  let reader := { reader with directory? := none }
  if reader.files.isDirectory dir then
    let patches ← (descriptionFiles reader.files dir).mapM (readListed reader)
    return patches.flatten
  else .error (.description (.noDirectory dir))

end DiscPatch.Description
