/-
Reading JSON values of an expected shape. A record is an object, of which unknown members are
ignored and no known one may come twice, or an array of its first fields in order.
-/
import DiscPatch.Json

namespace DiscPatch.Json

open Text

/-- A whole number up to `bound`, written with digits only. -/
def nat? (bound : Nat) : Json → Option Nat
  | number literal =>
    if literal.toList.all Char.isDigit then (readUnsigned 10 bound literal.toList).toOption
    else none
  | _ => none

/-- A 32-bit number. -/
def word? (j : Json) : Option UInt32 :=
  (j.nat? maxWord).map UInt32.ofNat

/-- A 64-bit number. -/
def longWord? (j : Json) : Option UInt64 :=
  (j.nat? 0xFFFFFFFFFFFFFFFF).map UInt64.ofNat

/-- A text. -/
def text? : Json → Option String
  | string s => s
  | _ => none

/-- The items of an array. -/
def items? : Json → Option (List Json)
  | array items => some items
  | _ => none

/-- The values of one member; more than one is too many. -/
def member? (members : List (Option String × Json)) (key : String) : Option (Option Json) :=
  match members.filter (·.1 = some key) with
  | [] => some none
  | [(_, value)] => some (some value)
  | _ => none

/-- The fields of a record, by their names; each one may be missing. -/
def fields? (keys : List String) : Json → Option (List (Option Json))
  | object members =>
    if members.any (·.1.isNone) then none else keys.mapM (member? members)
  | array items =>
    if keys.length < items.length then none
    else some (items.map some ++ List.replicate (keys.length - items.length) none)
  | _ => none

/-- A field that may be missing, and then has a standard value. -/
def fieldOr {α : Type} (standard : α) (read : Json → Option α) : Option Json → Option α
  | none => some standard
  | some j => read j

/-- A value, or null for none. -/
def orNull {α : Type} (read : Json → Option α) : Json → Option (Option α)
  | null => some none
  | j => (read j).map some

/-- One of several named choices: its name, or an object with that one member, which is null. -/
def choice? {α : Type} (ofName? : String → Option α) : Json → Option α
  | string (some name) => ofName? name
  | object [(some name, null)] => ofName? name
  | _ => none

end DiscPatch.Json
