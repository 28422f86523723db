/-
Namespaces: which qualifiers are bound where, and that no element has two attributes of one
meaning. Declarations of namespaces are no attributes.
-/
import DiscPatch.Xml.Tree

namespace DiscPatch.Xml

/-- The namespace that the qualifier `xml` of an attribute is bound to everywhere. -/
def xmlSpace : String := "http:" ++ "//www.w3.org/XML/1998/namespace"

/-- The namespace of declarations, which nothing may be bound to. -/
def declarationSpace : String := "http:" ++ "//www.w3.org/2000/xmlns/"

/-- Qualifiers and their namespaces, the innermost binding first. -/
abbrev Scope := List (String × String)

/-- The bindings that the attributes of one element declare, or none if one is not allowed. A
declaration of `xml` may repeat its binding, which adds none. -/
def declared? : List Attribute → Option Scope
  | [] => some []
  | a :: rest => do
    let later ← declared? rest
    if a.name.qualifier = "xmlns" then
      if a.value = declarationSpace then none
      else if a.name.base = "xml" then if a.value = xmlSpace then some later else none
      else if a.value = xmlSpace then none
      else if later.any (·.1 = a.name.base) then none
      else some ((a.name.base, a.value) :: later)
    else if a.name.base = "xmlns" then
      if a.value = xmlSpace ∨ a.value = declarationSpace then none else some later
    else some later

/-- Whether an attribute declares a namespace. -/
def Attribute.declares (a : Attribute) : Bool :=
  a.name.qualifier = "xmlns" || a.name.base = "xmlns"

/-- The namespace of an attribute's name; a name without qualifier has none. -/
def Attribute.space? (scope : Scope) (a : Attribute) : Option (Option String) :=
  if a.name.qualifier = "" then some none
  else if a.name.qualifier = "xml" then some (some xmlSpace)
  else (scope.lookup a.name.qualifier).map some

/-- Whether each attribute's qualifier is bound and no two attributes have one meaning. -/
def attributesAgree (scope : Scope) (attributes : List Attribute) : Bool :=
  match attributes.mapM fun a => (a.space? scope).map fun space => (space, a.name.base) with
  | none => false
  | some meanings => decide meanings.Nodup

/-- Whether an element may have that name. The qualifiers `xml` and `xmlns` are for attributes
only. -/
def elementAllowed (scope : Scope) (name : Name) : Bool :=
  name.qualifier = ""
    || (name.qualifier != "xmlns" && (scope.lookup name.qualifier).isSome)

/-- The scope inside an element and its attributes without the declarations, if its names are in
order. -/
def enter? (scope : Scope) (name : Name) (attributes : List Attribute) :
    Option (Scope × List Attribute) := do
  let own ← declared? attributes
  let inner := own ++ scope
  let plain := attributes.filter (!·.declares)
  if elementAllowed inner name && attributesAgree inner plain then return (inner, plain) else none

end DiscPatch.Xml
