/-
JSON values. Numbers keep the text they were written with. A text may be missing where a string
spells none, because an escape in it is half of a surrogate pair.
-/
import DiscPatch.Text.Number

namespace DiscPatch

/-- A JSON value. -/
inductive Json where
  | null
  | bool (value : Bool)
  | number (literal : String)
  | string (text : Option String)
  | array (items : List Json)
  | object (members : List (Option String × Json))
  deriving Inhabited

namespace Json

/-- A number without sign and fraction. -/
def ofNat (n : Nat) : Json :=
  number (Text.decimal n)

/-- A string. -/
def text (s : String) : Json :=
  string (some s)

/-- An object with the given members, in their order. -/
def record (members : List (String × Json)) : Json :=
  object (members.map fun (key, value) => (some key, value))

/-- A text, or null where there is none. -/
def textOrNull : Option String → Json
  | some s => text s
  | none => null

/-- The byte values of a byte string. -/
def ofBytes (bytes : List UInt8) : Json :=
  array (bytes.map fun b => ofNat b.toNat)

end Json
end DiscPatch
