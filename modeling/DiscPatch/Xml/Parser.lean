/-
Reading XML documents: a byte order mark and a declaration may stand in front, then comments,
instructions and white space around one element whose tags match.
-/
import DiscPatch.Xml.Namespace
import DiscPatch.Xml.Token

namespace DiscPatch.Xml

/-! ## Elements -/

/-- An element that is still open, with what it holds so far, the last node first. -/
structure Frame where
  name : Name
  attributes : List Attribute
  scope : Scope
  nodes : List Node

/-- The element of a frame. -/
def Frame.node (f : Frame) : Node :=
  .element f.name f.attributes f.nodes.reverse

/-- The frame with one more node. -/
def Frame.add (f : Frame) (n : Node) : Frame :=
  { f with nodes := n :: f.nodes }

/-- Puts a finished element into the innermost open one, or makes it the root. -/
def attach (n : Node) : List Frame → List Frame × Option Node
  | [] => ([], some n)
  | f :: rest => (f.add n :: rest, none)

/-- Builds the root element from tokens, given the open elements, the innermost first. Around the
root only white space is allowed. -/
def build : List Frame → Option Node → List Token → Option Node
  | [], root, [] => root
  | _ :: _, _, [] => none
  | open_, root, .start name attributes closed :: rest => do
    if open_.isEmpty && root.isSome then none
    let scope := (open_.head?.map (·.scope)).getD []
    let (scope, attributes) ← enter? scope name attributes
    if closed then
      let (open_, root) := attach (.element name attributes []) open_
      build open_ root rest
    else build (⟨name, attributes, scope, []⟩ :: open_) root rest
  | [], root, .text raw :: rest => if raw.all isSpace then build [] root rest else none
  | [], _, _ :: _ => none
  | f :: outer, root, .text raw :: rest => do
    let content ← textContent? raw
    build (f.add (.text (String.ofList content)) :: outer) root rest
  | f :: outer, root, .data raw :: rest =>
    build (f.add (.text (String.ofList (dataContent raw))) :: outer) root rest
  | f :: outer, _, .stop name :: rest =>
    if name = f.name then
      let (open_, root) := attach f.node outer
      build open_ root rest
    else none

/-! ## Documents -/

/-- Reads an attribute of the declaration whose name starts with `word`. -/
def skipDeclared (word : List Char) (cs : List Char) : Option (List Char) := do
  if word.isPrefixOf cs then
    let (_, rest) ← readName cs
    let (_, rest) ← readQuoted rest
    return rest
  else none

/-- Reads over white space, which has to be there unless the declaration or the text ends. -/
def skipGap (cs : List Char) : Option (List Char) :=
  if cs = [] ∨ (cs.head?.map isSpace).getD false ∨ ['?', '>'].isPrefixOf cs then
    some (skipSpace cs)
  else none

/-- Reads over the declaration, if the document starts with one. -/
def skipDeclaration (cs : List Char) : Option (List Char) :=
  match ['<', '?', 'x', 'm', 'l', ' '].isPrefixOf? cs with
  | none => some cs
  | some cs => do
    let cs ← skipDeclared ['v', 'e', 'r', 's', 'i', 'o', 'n'] (skipSpace cs)
    let cs ← skipGap cs
    let cs ← match skipDeclared ['e', 'n', 'c', 'o', 'd', 'i', 'n', 'g'] cs with
      | some rest => skipGap rest
      | none => some cs
    let cs := (skipDeclared ['s', 't', 'a', 'n', 'd', 'a', 'l', 'o', 'n', 'e'] cs).getD cs
    ['?', '>'].isPrefixOf? (skipSpace cs)

/-- The text without a byte order mark in front. -/
def skipMark : List Char → List Char
  | c :: cs => if c.toNat = 0xFEFF then cs else c :: cs
  | [] => []

/-- The root element of a document. -/
def parse? (s : String) : Option Node := do
  let cs := skipMark s.toList
  if cs.all isXmlChar then
    let cs ← skipDeclaration cs
    let tokens ← tokens? cs
    build [] none tokens
  else none

end DiscPatch.Xml
