/-
The files that a description names: the content of its locations and the files that replace whole
sectors.
-/
import DiscPatch.Description.Location
import DiscPatch.Xml.Parser

namespace DiscPatch.Description

open Xml

/-- The file names in a patch element. -/
def namesIn (patch : Node) : List String :=
  (patch.elements "Location").filterMap (·.attr? "inputFile")
    ++ (patch.elements "STRLocation").filterMap (·.attr? "input")

/-- The files that the document at `path` names, seen from where it is. -/
def sources (path : Path) (text : String) : List Path :=
  match Xml.parse? text with
  | none => []
  | some root => ((root.elements "Patch").flatMap namesIn).map (resolveIn path.parent?)

end DiscPatch.Description
