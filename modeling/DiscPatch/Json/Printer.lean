/-
JSON text. The compact form has no white space; the indented form puts every item on a line of
its own, two spaces deeper than what holds it.
-/
import DiscPatch.Json

namespace DiscPatch.Json

open Text

/-! ## Strings -/

/-- The four digits behind `\u`, in lower case. -/
def escapeDigits (n : Nat) : List Char :=
  (hexPadded 4 n).toList.map Char.toLower

/-- A character inside a string: quotes, backslashes and control characters are escaped. -/
def escapeChar (c : Char) : List Char :=
  if c = '"' then ['\\', '"']
  else if c = '\\' then ['\\', '\\']
  else if c = '\x08' then ['\\', 'b']
  else if c = '\x0c' then ['\\', 'f']
  else if c = '\n' then ['\\', 'n']
  else if c = '\r' then ['\\', 'r']
  else if c = '\t' then ['\\', 't']
  else if c.toNat < 32 then ['\\', 'u'] ++ escapeDigits c.toNat
  else [c]

/-- A text between quotes. -/
def quote (s : String) : String :=
  String.ofList ('"' :: s.toList.flatMap escapeChar ++ ['"'])

/-! ## Values -/

mutual

/-- The value without white space. -/
def compact : Json → String
  | null => "null"
  | bool true => "true"
  | bool false => "false"
  | number literal => literal
  | string s => quote (s.getD "")
  | array items => "[" ++ ",".intercalate (compactItems items) ++ "]"
  | object members => "\x7b" ++ ",".intercalate (compactMembers members) ++ "\x7d"

/-- Each item without white space. -/
def compactItems : List Json → List String
  | [] => []
  | item :: items => compact item :: compactItems items

/-- Each member without white space. -/
def compactMembers : List (Option String × Json) → List String
  | [] => []
  | (key, value) :: members =>
    (quote (key.getD "") ++ ":" ++ compact value) :: compactMembers members

end

/-- Parts on lines of their own between brackets; nothing stands between the brackets where there
are no parts. -/
def bracketed (margin first last : String) (parts : List String) : String :=
  if parts = [] then first ++ last
  else
    let inner := "\n" ++ margin ++ "  "
    first ++ inner ++ ("," ++ inner).intercalate parts ++ "\n" ++ margin ++ last

mutual

/-- The value over several lines, which start with `margin`. -/
def indentedAt (margin : String) : Json → String
  | array items => bracketed margin "[" "]" (indentedItems (margin ++ "  ") items)
  | object members => bracketed margin "\x7b" "\x7d" (indentedMembers (margin ++ "  ") members)
  | value => compact value

/-- Each item over several lines. -/
def indentedItems (margin : String) : List Json → List String
  | [] => []
  | item :: items => indentedAt margin item :: indentedItems margin items

/-- Each member over several lines. -/
def indentedMembers (margin : String) : List (Option String × Json) → List String
  | [] => []
  | (key, value) :: members =>
    (quote (key.getD "") ++ ": " ++ indentedAt margin value) :: indentedMembers margin members

end

/-- The value over several lines. -/
def indented (value : Json) : String :=
  indentedAt "" value

end DiscPatch.Json
