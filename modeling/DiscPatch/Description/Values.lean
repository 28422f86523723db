/-
How the attributes of a description are read: flags, numbers, alignments and sectors.
-/
import DiscPatch.AddressSpace
import DiscPatch.Xml.Tree

namespace DiscPatch.Description

open Text Xml

/-- Whether an attribute is the word `true`, in any case of its letters and between blanks. -/
def flag (n : Node) (key : String) : Bool :=
  match n.attr? key with
  | some value => lowerAscii (trim value) = "true"
  | none => false

/-- The truth value of a text, in any case of its letters and between blanks. -/
def truth? (text : String) : Option Bool :=
  match lowerAscii (trim text) with
  | "true" => some true
  | "false" => some false
  | _ => none

/-- The value of an attribute that must be there. -/
def required (n : Node) (key : String) : Except Error String :=
  match n.attr? key with
  | some value => .ok value
  | none => .error (.description (.missingAttribute n.tag key))

/-- A hexadecimal number. -/
def hexNumber (quantity : Quantity) (text : String) : Except Error UInt32 :=
  match hexWord? text with
  | some n => .ok n
  | none => .error (.description (.number quantity text))

/-- The alignment of an element, or `standard` where none is given. What is no positive 32-bit
number stands for no alignment, which is zero. -/
def alignment (n : Node) (standard : Nat) : Nat :=
  match n.attr? "align" with
  | some text =>
    match readUnsigned 10 maxWord (trimmed text.toList) with
    | .ok a => a
    | .error _ => 0
  | none => standard

/-- The characters of an attribute without blanks; a missing attribute is empty. -/
def compactAttr (n : Node) (key : String) : List Char :=
  withoutBlanks ((n.attr? key).getD "").toList

/-- The sector that an element names by file or, failing that, by number. -/
def namedSector (space : AddressSpace) (n : Node) : Except Error (Option Sector) :=
  match n.attr? "file", n.attr? "sector" with
  | some name, _ => (space.ofName name).map some
  | none, some id => (space.ofHexId id).map some
  | none, none => .ok none

/-- The name of a patch element, and its description, for which the name stands in. -/
def titleOf (n : Node) : Except Error (String × String) := do
  let name ← required n "name"
  match n.elements "Description" with
  | [] => return (name, name)
  | d :: _ => return (name, trim d.innerText)

end DiscPatch.Description
