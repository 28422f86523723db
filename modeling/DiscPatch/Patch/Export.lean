/-
Patches as descriptions: documents that read back as equal patches. Every element stands on a line
of its own, four spaces in for each level.
-/
import DiscPatch.Bytes.Hex
import DiscPatch.Patch.Basic
import DiscPatch.Xml.Printer

namespace DiscPatch.Patch

open Text Xml

/-! ## Elements -/

/-- An attribute without qualifier. -/
def attr (key value : String) : Attribute := ⟨Name.plain key, value⟩

/-- An element without qualifier. -/
def element (tag : String) (attributes : List Attribute) (children : List Node) : Node :=
  .element (Name.plain tag) attributes children

/-- Nodes on lines of their own, indented by `margin`, inside an element that is indented by
`outer`. -/
def onLines (outer margin : String) (nodes : List Node) : List Node :=
  .text "\n" :: nodes.flatMap (fun n => [.text margin, n, .text "\n"])
    ++ if outer = "" then [] else [.text outer]

/-- The attribute that names a sector: its file where the table knows one, or else its number. -/
def sectorAttribute (space : AddressSpace) (s : Sector) : Attribute :=
  match space.nameOf? s with
  | some name => attr "file" name
  | none => attr "sector" (hex s.id.toNat)

/-- A flag that is only written when it is set. -/
def flagAttr (key : String) (value : Bool) : List Attribute :=
  if value then [attr key "true"] else []

/-! ## Parts of patches -/

/-- The mode of a location. -/
def modeAttr (s : Segment) : List Attribute :=
  if s.assembly?.isSome then [attr "mode" "asm"]
  else if s.isData then [attr "mode" "data"]
  else []

/-- What a location holds: its source as it was given, or else its bytes. -/
def contentText (s : Segment) : String :=
  match s.assembly?, s.labelledHex? with
  | some source, _ => source
  | none, some source => source
  | none, none => Bytes.toHex s.bytes

/-- A segment as an element. A chained one is written without its offset, so that it continues the
one before again. -/
def Segment.toXml (space : AddressSpace) (s : Segment) : Node :=
  match s.source with
  | .stream path =>
    element "STRLocation" [sectorAttribute space s.sector, attr "input" path.text] []
  | _ =>
    let isAssembly := s.assembly?.isSome
    let offset := if s.isChained then [] else [attr "offset" (hex s.offset.toNat)]
    let label := match s.label? with
      | some label => [attr "label" label]
      | none => []
    let movable :=
      if s.movesSimply = isAssembly then []
      else [attr "movable" (if s.movesSimply then "true" else "false")]
    let labels := flagAttr "replaceLabels" (!isAssembly && s.labelledHex?.isSome)
    element "Location" ([sectorAttribute space s.sector] ++ offset ++ modeAttr s ++ label ++ movable
      ++ labels) [.text (contentText s)]

/-- A place as it stands in a list of places. -/
def Place.entry (space : AddressSpace) (place : Place) : String :=
  space.display place.sector ++ ":" ++ hex place.offset.toNat

/-- A variable as an element. -/
def Variable.toXml (space : AddressSpace) (v : Variable) : Node :=
  let places :=
    if v.isPlaceless then attr "symbol" "true"
    else attr "specific" (",".intercalate (v.places.map (Place.entry space)))
  let value := match v.reference? with
    | some r =>
      [attr "reference" r.name]
        ++ (if r.operator = .copy then [] else [attr "operator" r.operator.symbol])
        ++ [attr "operand" (hex r.operand.toNat)]
    | none => [attr "default" (hex v.value.toNat)]
  element "Variable" ([attr "name" v.name, places, attr "bytes" (decimal v.size)] ++ value) []

/-! ## Patches -/

/-- The description as an element. -/
def descriptionXml (p : Patch) : Node :=
  element "Description" [] [.text p.description]

/-- A patch as an element; one that imports a file has an element of its own kind. -/
def toXml (space : AddressSpace) (p : Patch) : Node :=
  match p.segments.find? (·.takesFile) with
  | some s =>
    let file := element "ImportFile"
      [sectorAttribute space s.sector, attr "offset" (hex s.offset.toNat),
        attr "expectedLength" (hex ((s.expected?.getD 0).toNat))] []
    element "ImportFilePatch" [attr "name" p.name]
      (onLines "    " "        " [descriptionXml p, file])
  | none =>
    let flags := flagAttr "hideInDefault" p.hiddenByDefault ++ flagAttr "hidden" p.isHidden
    let description := if p.description = "" then [] else [descriptionXml p]
    element "Patch" (attr "name" p.name :: flags)
      (onLines "    " "        " (description ++ p.segments.map (Segment.toXml space)
        ++ p.vars.map (Variable.toXml space)))

/-- A patch as indented text. -/
def exportText (space : AddressSpace) (p : Patch) : String :=
  "    " ++ (p.toXml space).render ++ "\n"

/-- Patches as the root element of a document. -/
def documentXml (space : AddressSpace) (patches : List Patch) : Node :=
  element "Patches" [] (onLines "" "    " (patches.map (toXml space)))

/-- Patches as a document. -/
def documentText (space : AddressSpace) (patches : List Patch) : String :=
  "<?xml version=\"1.0\" encoding=\"utf-8\" ?>\n" ++ (documentXml space patches).render ++ "\n"

end DiscPatch.Patch
