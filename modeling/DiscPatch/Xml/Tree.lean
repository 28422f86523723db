/-
XML elements and the text between them. Elements are looked up by their names without the
namespace qualifier, attributes only where they have no qualifier.
-/
namespace DiscPatch.Xml

/-- The name of an element or attribute; an empty qualifier is none. -/
structure Name where
  qualifier : String
  base : String
  deriving DecidableEq, Repr

/-- A name without qualifier. -/
def Name.plain (base : String) : Name := ⟨"", base⟩

/-- The name as it is written. -/
def Name.text (name : Name) : String :=
  if name.qualifier = "" then name.base else name.qualifier ++ ":" ++ name.base

/-- A name with its value. -/
structure Attribute where
  name : Name
  value : String
  deriving DecidableEq, Repr

/-- Text, or an element with what it holds. -/
inductive Node where
  | text (content : String)
  | element (name : Name) (attributes : List Attribute) (children : List Node)
  deriving Repr, Inhabited

namespace Node

/-- The name of an element without its qualifier; text has none. -/
def tag? : Node → Option String
  | text _ => none
  | element name _ _ => some name.base

/-- The name of an element without its qualifier, for messages. -/
def tag (n : Node) : String :=
  n.tag?.getD ""

/-- What an element holds. -/
def children : Node → List Node
  | text _ => []
  | element _ _ children => children

/-- The value of an attribute without qualifier. -/
def attr? (n : Node) (key : String) : Option String :=
  match n with
  | text _ => none
  | element _ attributes _ => (attributes.find? (·.name = Name.plain key)).map (·.value)

/-- The child elements of that name, in order. -/
def elements (n : Node) (tag : String) : List Node :=
  n.children.filter (·.tag? = some tag)

mutual

/-- All text inside a node, in order. -/
def innerText : Node → String
  | text content => content
  | element _ _ children => innerTexts children

/-- All text inside the nodes of a list. -/
def innerTexts : List Node → String
  | [] => ""
  | n :: rest => innerText n ++ innerTexts rest

end

mutual

/-- The elements of that name in a node, itself included, in the order of their starts. -/
def withTag (tag : String) : Node → List Node
  | text _ => []
  | element name attributes children =>
    (if name.base = tag then [element name attributes children] else [])
      ++ allWithTag tag children

/-- The elements of that name in the nodes of a list. -/
def allWithTag (tag : String) : List Node → List Node
  | [] => []
  | n :: rest => withTag tag n ++ allWithTag tag rest

end

end Node
end DiscPatch.Xml
