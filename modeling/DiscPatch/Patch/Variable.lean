/-
Variables: named little-endian values that a patch writes to any number of places. A variable is
set directly, or derived from another one by an operator and an operand.
-/
import DiscPatch.Edit
import DiscPatch.Text.Blank

namespace DiscPatch.Patch

open Text

/-! ## Derivation -/

/-- How a derived value is made from the one it refers to. -/
inductive Operator where
  | add
  | subtract
  | multiply
  | divide
  /-- The value itself. -/
  | copy
  deriving DecidableEq, Repr

namespace Operator

/-- The operator written so; whatever is no operator copies. -/
def ofText (text : String) : Operator :=
  match trim text with
  | "+" => add
  | "-" => subtract
  | "*" => multiply
  | "/" => divide
  | _ => copy

/-- The operator as it is written. -/
def symbol : Operator → String
  | add => "+"
  | subtract => "-"
  | multiply => "*"
  | divide => "/"
  | copy => ""

/-- The derived value, modulo `2 ^ 32`; a division by zero has none. -/
def result? (value operand : UInt32) : Operator → Option UInt32
  | add => some (value + operand)
  | subtract => some (value - operand)
  | multiply => some (value * operand)
  | divide => if operand = 0 then none else some (value / operand)
  | copy => some value

end Operator

/-- What a derived variable is made from. -/
structure Reference where
  name : String
  operator : Operator
  operand : UInt32
  deriving DecidableEq, Repr

/-! ## Variables -/

/-- A place that holds a variable's value. -/
structure Place where
  sector : Sector
  offset : UInt32
  ram : UInt32
  deriving DecidableEq, Repr

/-- A named value of `size` bytes and the places it is written to. -/
structure Variable where
  name : String
  size : Nat
  value : UInt32
  places : List Place
  reference? : Option Reference
  deriving DecidableEq, Repr

namespace Variable

/-- The variable with another value, of which only its size is kept. -/
def set (v : Variable) (value : UInt32) : Variable :=
  { v with value := Bytes.fit v.size value }

/-- The value in memory order. -/
def bytes (v : Variable) : Bytes :=
  Bytes.ofValue v.size v.value

/-- Whether the value is derived. -/
def isDerived (v : Variable) : Bool :=
  v.reference?.isSome

/-- Whether the variable stands for a value only and is written nowhere. -/
def isPlaceless (v : Variable) : Bool :=
  v.places.isEmpty

/-- The writes of the value, one for each place. -/
def edits (v : Variable) : List Edit :=
  v.places.map fun place => ⟨place.sector, place.offset, v.bytes⟩

end Variable
end DiscPatch.Patch
