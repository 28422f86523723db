/-
Variables of a description.
-/
import DiscPatch.Description.Placement

namespace DiscPatch.Description

open Text Xml Patch

/-- The size of a variable in bytes. -/
def variableSize (n : Node) (name : String) : Except Error Nat := do
  let size ← match n.attr? "bytes" with
    | none => .ok 1
    | some text =>
      match decimalWord? text with
      | some size => .ok (size.toNat % 256)
      | none => .error (.description (.variableBytes text name))
  if 1 ≤ size ∧ size ≤ 4 then return size
  else .error (.description (.variableSize name size))

/-- Whether the variable stands for a value only. -/
def marksSymbol (n : Node) : Bool :=
  match n.attr? "symbol" with
  | some text => lowerAscii (trim text) ∈ ["true", "1", "yes"]
  | none => false

/-- Where a variable ends at its last place. -/
def endOfVariable (v : Variable) : Option Previous :=
  v.places.getLast?.map fun place => ⟨place.sector, place.offset.toNat + v.size⟩

/-- What a derived variable refers to. -/
def referenceOf? (n : Node) : Option Reference :=
  (n.attr? "reference").map fun name => {
    name := trim name
    operator := Operator.ofText ((n.attr? "operator").getD "")
    operand := ((n.attr? "operand").bind hexWord?).getD 0 }

/-- Reads a variable, given the sector of its patch and the variable before. -/
def readVariable (space : AddressSpace) (standard : Option Sector) (last : Option Variable)
    (n : Node) : Except Error Variable := do
  let name ← required n "name"
  let size ← variableSize n name
  let places ←
    if marksSymbol n then .ok []
    else
      (placement space n standard (last.bind endOfVariable) (alignment n 0)).map (·.places)
  let value ← match n.attr? "default" with
    | some text => hexNumber .default text
    | none => .ok 0
  return { name, size, value := Bytes.fit size value, places, reference? := referenceOf? n }

/-- Reads variables behind those that are known. -/
def readVariables (space : AddressSpace) (standard : Option Sector) (known : List Variable)
    (nodes : List Node) : Except Error (List Variable) :=
  nodes.foldlM (fun known n => do
    let v ← readVariable space standard known.getLast? n
    return known ++ [v]) known

end DiscPatch.Description
