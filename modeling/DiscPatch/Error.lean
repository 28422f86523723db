/-
Everything that can go wrong with patches, their descriptions and their targets: each error is a
cause, and its wording is in one place. Some errors drop a single description file when a whole
directory is loaded.
-/
import DiscPatch.Command.Fault
import DiscPatch.Files
import DiscPatch.Sector

namespace DiscPatch

open Text

/-! ## Causes -/

/-- A number of a description, by the attribute it stands in. -/
inductive Quantity where
  | offset
  | default
  | expectedLength
  deriving DecidableEq, Repr

/-- The quantity in messages. -/
def Quantity.text : Quantity → String
  | offset => "offset"
  | default => "default"
  | expectedLength => "expectedLength"

/-- Why a description, a template or a request makes no sense. -/
inductive DescriptionFault where
  /-- A sector number is not hexadecimal. -/
  | sectorNumber (text : String)
  /-- The document is no list of patches. -/
  | root (found : String)
  /-- An element lacks an attribute. -/
  | missingAttribute (element key : String)
  /-- A number is not hexadecimal. -/
  | number (quantity : Quantity) (text : String)
  /-- A flag is neither true nor false. -/
  | ignoreValue (text : String)
  /-- A variable's size is no number. -/
  | variableBytes (text owner : String)
  /-- A variable's size is not between one and four. -/
  | variableSize (owner : String) (size : Nat)
  /-- Two variables of a patch share a name. -/
  | duplicateVariable (owner patch : String)
  /-- The value of a derived variable was to be set. -/
  | derivedVariable (owner source : String)
  /-- The patch has no place for a file. -/
  | noFileTaken (patch : String)
  /-- The patch still waits for its file. -/
  | noFileLoaded (patch : String)
  /-- The content of a location is not hexadecimal. -/
  | hexContent (patch : String)
  /-- The document has no commands element. -/
  | noCommands
  /-- A field's width is not between one and four. -/
  | width (text element : String)
  /-- A command has a field whose width is not between one and four. -/
  | commandField (id : UInt32) (name : String)
  /-- A command's id needs more bytes than it has. -/
  | commandId (id : UInt32) (bytes : Nat)
  /-- Two commands share an id. -/
  | duplicateCommand (id : UInt32)
  /-- There is no such directory. -/
  | noDirectory (path : Path)
  deriving DecidableEq, Repr

/-- Why a location has no place. -/
inductive AddressFault where
  /-- The first entry of a list of places names no sector, and there is none to fall back on. -/
  | entryWithoutSector (entry : String)
  /-- There is no offset, and no location before to continue. -/
  | noOffset (element : String)
  /-- The location before ends where no offset can be written. -/
  | pastRange (element : String)
  /-- No sector is named anywhere. -/
  | noSector (element : String)
  /-- A patch that imports a file names no sector for it. -/
  | importWithoutSector (patch : String)
  deriving DecidableEq, Repr

/-- What can go wrong. -/
inductive Error where
  /-- A file cannot be read or written. -/
  | file (fault : FileFault)
  /-- A document is no well-formed XML. -/
  | malformedXml
  /-- A document is no JSON of the expected shape. -/
  | malformedJson
  | description (fault : DescriptionFault)
  | address (fault : AddressFault)
  | unknownSector (name : String)
  | unknownVariable (name : String)
  /-- An imported file has the wrong length. -/
  | inputLength (expected actual : Nat)
  /-- An edit reaches past its target. -/
  | outOfBounds (sector : Sector) (offset length : Nat)
  | script (fault : Command.Fault)
  deriving DecidableEq, Repr

/-! ## Wording -/

/-- A text between single quotes. -/
def quoted (s : String) : String :=
  "'" ++ s ++ "'"

/-- The fault in words. -/
def DescriptionFault.message : DescriptionFault → String
  | sectorNumber text => "invalid sector number " ++ quoted text
  | root found => "expected <Patches> root, found <" ++ found ++ ">"
  | missingAttribute element key =>
    "<" ++ element ++ "> is missing the " ++ quoted key ++ " attribute"
  | number quantity text => "invalid " ++ quantity.text ++ " " ++ quoted text
  | ignoreValue text => "invalid ignore value " ++ quoted text
  | variableBytes text owner => "invalid bytes " ++ quoted text ++ " on variable "
    ++ quoted owner
  | variableSize owner size =>
    "variable " ++ quoted owner ++ " must be 1 to 4 bytes, got " ++ decimal size
  | duplicateVariable owner patch =>
    "variable " ++ quoted owner ++ " is defined twice in patch " ++ quoted patch
  | derivedVariable owner source =>
    "variable " ++ quoted owner ++ " is derived from " ++ quoted source ++ " and cannot be set"
  | noFileTaken patch => quoted patch ++ " does not take an input file"
  | noFileLoaded patch => "no input file loaded for " ++ quoted patch
  | hexContent patch => "invalid hex content in patch " ++ quoted patch
  | noCommands => "template document has no <Commands>"
  | width text element => "invalid bytes " ++ quoted text ++ " on <" ++ element ++ ">"
  | commandField id name =>
    "command " ++ hexMarked id.toNat ++ " " ++ quoted name ++ " has a field outside 1 to 4 bytes"
  | commandId id bytes =>
    "command id " ++ hexMarked id.toNat ++ " does not fit in " ++ decimal bytes ++ " bytes"
  | duplicateCommand id => "duplicate command id " ++ hexMarked id.toNat
  | noDirectory path => "patch directory does not exist: " ++ path.text

/-- The fault in words. -/
def AddressFault.message : AddressFault → String
  | entryWithoutSector entry => "specific entry " ++ quoted entry ++ " has no sector"
  | noOffset element => "<" ++ element ++ "> has no offset"
  | pastRange element => "<" ++ element ++ "> chained past the address range"
  | noSector element => "<" ++ element ++ "> has no file or sector"
  | importWithoutSector patch => "import patch " ++ quoted patch ++ " has no file or sector"

namespace Error

/-- The error in words. Errors of files and of documents name only their kind. -/
def message : Error → String
  | file _ => "IO error:"
  | malformedXml => "malformed patch XML:"
  | malformedJson => "JSON error:"
  | description fault => "description error: " ++ fault.message
  | address fault => "address error: " ++ fault.message
  | unknownSector name => "unknown sector " ++ quoted name
  | unknownVariable name => "unknown variable " ++ quoted name
  | inputLength expected actual =>
    "input file is " ++ hexMarked actual ++ " bytes, expected " ++ hexMarked expected
  | outOfBounds sector offset length =>
    "edit of " ++ hexMarked length ++ " bytes at " ++ sector.text ++ " offset " ++ hexMarked offset
      ++ " is outside the target"
  | script fault => fault.message

/-- Whether the error drops a description file instead of ending the load of its directory. -/
def dropsFile : Error → Bool
  | file _ | malformedXml | description _ | address _ | unknownSector _ | unknownVariable _ => true
  | malformedJson | inputLength .. | outOfBounds .. | script _ => false

end Error

/-- Reads a file lookup as a step that can fail with an error. -/
def FileFault.lift {α : Type} : Except FileFault α → Except Error α
  | .ok a => .ok a
  | .error fault => .error (.file fault)

end DiscPatch
