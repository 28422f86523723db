/-
Locations of a description. They are encoded twice: while they are read, with the labels known so
far, which fixes their lengths for the locations that continue them, and once more at the end with
every label.
-/
import DiscPatch.Assembly.Assembler
import DiscPatch.Bytes.Hex
import DiscPatch.Description.Placement
import DiscPatch.Patch.Basic

namespace DiscPatch.Description

open Text Xml Patch Assembly

/-- What the reading of descriptions depends on. -/
structure Reader where
  space : AddressSpace
  assembler : Assembler
  files : Files
  /-- The directory that the files named in a description are sought in. -/
  directory? : Option Path := none

/-- The path of a file named in a description, seen from a directory where there is one. -/
def resolveIn (dir? : Option Path) (text : String) : Path :=
  match dir? with
  | some dir => dir.join ⟨trim text⟩
  | none => ⟨trim text⟩

/-- The path of a file named in a description. -/
def Reader.resolve (reader : Reader) (text : String) : Path :=
  resolveIn reader.directory? text

/-- A file named in a description. -/
def Reader.text (reader : Reader) (path : String) : Except Error String :=
  FileFault.lift (reader.files.readText (reader.resolve path))

/-! ## One location -/

/-- What a location asks for, apart from its places. -/
structure Wish where
  content : String
  isAssembly : Bool
  isData : Bool
  hasLabels : Bool
  label : String
  movesSimply : Bool
  deriving DecidableEq, Repr

/-- The mode of a location. -/
def modeOf (n : Node) : Option String :=
  (n.attr? "mode").map fun mode => lowerAscii (trim mode)

/-- Reads what a location asks for. -/
def readWish (reader : Reader) (n : Node) : Except Error Wish := do
  let content ← match n.attr? "inputFile" with
    | some path => reader.text path
    | none => .ok n.innerText
  let isAssembly := modeOf n = some "asm"
  return {
    content
    isAssembly
    isData := modeOf n = some "data"
    hasLabels := !isAssembly && flag n "replaceLabels"
    label := String.ofList (((n.attr? "label").getD "").toList.filter (· ≠ ' '))
    movesSimply := match n.attr? "movable" with
      | some text => (truth? text).getD false
      | none => isAssembly }

/-- The bytes of hexadecimal content. -/
def hexContent (patch text : String) : Except Error Bytes :=
  match Bytes.ofHex? text with
  | some bytes => .ok bytes
  | none => .error (.description (.hexContent patch))

/-- The segment of a location at one of its places, with the given symbols. -/
def segmentAt (reader : Reader) (patch : String) (symbols : Symbols) (wish : Wish)
    (sequential : Bool) (place : Place) : Except Error Segment := do
  let plain : Segment := {
    sector := place.sector
    offset := place.offset
    ram := place.ram
    bytes := []
    isData := wish.isData
    isChained := sequential
    movesSimply := wish.movesSimply }
  let plain := plain.labelled wish.label
  if wish.isAssembly then
    let encoded := reader.assembler.encode (symbols.prepend wish.content) place.ram
    return { plain with
      bytes := encoded.bytes
      assembly? := some wish.content
      faultText := encoded.faultText }
  else if wish.hasLabels then
    let bytes ← hexContent patch (reader.assembler.fillLabels wish.content symbols)
    return { plain with bytes, labelledHex? := some wish.content }
  else
    let bytes ← hexContent patch wish.content
    return { plain with bytes }

/-- Where a segment ends. -/
def endOfSegment (s : Segment) : Previous :=
  ⟨s.sector, s.stop⟩

/-- Reads a location behind the segments `own` of its patch; `included` are those of other
patches. -/
def readLocation (reader : Reader) (patch : String) (standard : Option Sector)
    (included : List Segment) (vars : List Variable) (own : List Segment) (n : Node) :
    Except Error (List Segment) := do
  let align := alignment n (if modeOf n = some "asm" then 4 else 0)
  let spot ← placement reader.space n standard (own.getLast?.map endOfSegment) align
  let wish ← readWish reader n
  spot.places.foldlM (fun own place => do
    let symbols := symbolsOf (included ++ own) vars
    let s ← segmentAt reader patch symbols wish spot.sequential place
    return own ++ [s]) own

/-! ## All locations -/

/-- The bytes of a segment with labels in its hexadecimal text, once all labels are known. -/
def relabel (reader : Reader) (patch : String) (symbols : Symbols) (s : Segment) :
    Except Error Segment :=
  match s.labelledHex? with
  | some source =>
    if allBlank source.toList then .ok s
    else do
      let bytes ← hexContent patch (reader.assembler.fillLabels source symbols)
      return { s with bytes }
  | none => .ok s

/-- A segment assembled again, once all labels are known. -/
def reassemble (reader : Reader) (symbols : Symbols) (s : Segment) : Segment :=
  match s.assembly? with
  | some source =>
    let encoded := reader.assembler.encode (symbols.prepend source) s.ram
    { s with bytes := encoded.bytes, faultText := encoded.faultText }
  | none => s

/-- A segment that is not marked as data, checked for code. -/
def check (reader : Reader) (s : Segment) : Segment :=
  if s.isData then s
  else
    let result := reader.assembler.inspect s.bytes s.ram
    if result.isCode then { s with isCode := true, codeFaults := result.faultText } else s

/-- The final form of a segment. -/
def finish (reader : Reader) (patch : String) (symbols : Symbols) (s : Segment) :
    Except Error Segment := do
  let s ← relabel reader patch symbols s
  return check reader (reassemble reader symbols s)

/-- Reads the locations of a patch. -/
def readLocations (reader : Reader) (patch : String) (standard : Option Sector)
    (included : List Segment) (vars : List Variable) (nodes : List Node) :
    Except Error (List Segment) := do
  let own ← nodes.foldlM (readLocation reader patch standard included vars) []
  own.mapM (finish reader patch (symbolsOf (included ++ own) vars))

end DiscPatch.Description
