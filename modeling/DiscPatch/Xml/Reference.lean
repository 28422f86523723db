/-
Text and attribute values with their references resolved and their line ends and white space
normalised. Only the five named references and references by number are known.
-/
import DiscPatch.Text.Number
import DiscPatch.Xml.Chars

namespace DiscPatch.Xml

open Text

/-! ## References -/

/-- A character of text: one that was written itself, or one that a reference stands for. -/
inductive Letter where
  | literal (c : Char)
  | referred (c : Char)
  deriving DecidableEq, Repr

/-- The character of that number; numbers of no character give the replacement character. -/
def charOfNumber (n : Nat) : Char :=
  if n.isValidChar then Char.ofNat n else '\uFFFD'

/-- The character that a reference of this name stands for. -/
def named? (name : String) : Option Char :=
  match name with
  | "amp" => some '&'
  | "lt" => some '<'
  | "gt" => some '>'
  | "quot" => some '"'
  | "apos" => some '\''
  | _ => none

/-- The character that the text between `&` and `;` stands for. -/
def referred? (body : List Char) : Option Char :=
  let numbered (base : Nat) (ds : List Char) : Option Char :=
    if ds.all fun c => (digitValue? base c).isSome then
      match readWord base ds with
      | .ok n => some (charOfNumber n.toNat)
      | .error _ => none
    else none
  let c := match body with
    | '#' :: 'x' :: ds => numbered 16 ds
    | '#' :: ds => numbered 10 ds
    | name => named? (String.ofList name)
  c.filter isXmlChar

/-- Reads text character by character; `body` holds what stands behind an open `&`, the last
character first. -/
def lettersFrom : Option (List Char) → List Char → Option (List Letter)
  | none, [] => some []
  | some _, [] => none
  | none, c :: cs =>
    if c = '&' then lettersFrom (some []) cs else (lettersFrom none cs).map (.literal c :: ·)
  | some body, c :: cs =>
    if c = ';' then
      match referred? body.reverse with
      | some r => (lettersFrom none cs).map (.referred r :: ·)
      | none => none
    else lettersFrom (some (c :: body)) cs

/-- The characters of a text with references. -/
def letters? (cs : List Char) : Option (List Letter) :=
  lettersFrom none cs

/-! ## Line ends -/

/-- Text with its line ends made line feeds: a written carriage return becomes a line feed and
takes a written line feed behind it along. One that a reference stands for stays, and so does one
with a reference behind it, or between a reference and the end of the text. -/
def lineEnds : List Letter → List Char
  | [] => []
  | [.referred c, .literal '\r'] => [c, '\r']
  | .referred c :: rest => c :: lineEnds rest
  | [.literal '\r'] => ['\n']
  | .literal '\r' :: .literal '\n' :: rest => '\n' :: lineEnds rest
  | .literal '\r' :: .literal c :: rest => '\n' :: lineEnds (.literal c :: rest)
  | .literal c :: rest => c :: lineEnds rest

/-- The content of a piece of text. -/
def textContent? (raw : List Char) : Option (List Char) :=
  (letters? raw).map lineEnds

/-- The content of a character data section, in which nothing is a reference. -/
def dataContent (raw : List Char) : List Char :=
  lineEnds (raw.map .literal)

/-! ## Attribute values -/

/-- A value with each written line end or tab made a space; referred characters stay. -/
def spaces : List Letter → List Char
  | [] => []
  | .literal '\r' :: .literal '\n' :: rest => ' ' :: spaces rest
  | .literal c :: rest => (if isSpace c then ' ' else c) :: spaces rest
  | .referred c :: rest => c :: spaces rest

/-- The value of an attribute. -/
def valueContent? (raw : List Char) : Option (List Char) :=
  (letters? raw).map spaces

end DiscPatch.Xml
