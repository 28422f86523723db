/-
XML text of nodes. An element that holds nothing closes itself; five characters are written as
references wherever they stand.
-/
import DiscPatch.Xml.Tree

namespace DiscPatch.Xml

/-- A character in text or in a value. -/
def escapeChar (c : Char) : List Char :=
  match c with
  | '&' => ['&', 'a', 'm', 'p', ';']
  | '<' => ['&', 'l', 't', ';']
  | '>' => ['&', 'g', 't', ';']
  | '"' => ['&', 'q', 'u', 'o', 't', ';']
  | '\'' => ['&', 'a', 'p', 'o', 's', ';']
  | c => [c]

/-- A text with references for the special characters. -/
def escape (s : String) : String :=
  String.ofList (s.toList.flatMap escapeChar)

/-- An attribute, behind the blank that parts it from what stands before. -/
def Attribute.render (a : Attribute) : String :=
  " " ++ a.name.text ++ "=\"" ++ escape a.value ++ "\""

namespace Node

mutual

/-- The node as it is written. -/
def render : Node → String
  | text content => escape content
  | element name attributes children =>
    let head := "<" ++ name.text ++ String.join (attributes.map Attribute.render)
    match children with
    | [] => head ++ " />"
    | child :: rest => head ++ ">" ++ render child ++ renderAll rest ++ "</" ++ name.text ++ ">"

/-- The nodes of a list, one behind the other. -/
def renderAll : List Node → String
  | [] => ""
  | n :: rest => render n ++ renderAll rest

end

end Node
end DiscPatch.Xml
