/-
Reading JSON text by the strict grammar: one value between white space, no comments, no trailing
commas, no leading zeros. Members keep their order, and one key may come twice.
-/
import DiscPatch.Json

namespace DiscPatch.Json

open Text

/-- JSON white space. -/
def isSpace (c : Char) : Bool :=
  c == ' ' || c == '\t' || c == '\n' || c == '\r'

/-- The text without the white space in front. -/
def skipSpace (cs : List Char) : List Char :=
  cs.dropWhile isSpace

/-! ## Strings -/

/-- A part of a string: a character, or sixteen bits given by number. -/
inductive Piece where
  | char (c : Char)
  | unit (n : Nat)

/-- The number of four hexadecimal digits. -/
def fourDigits? (a b c d : Char) : Option Nat := do
  let a ← digitValue? 16 a
  let b ← digitValue? 16 b
  let c ← digitValue? 16 c
  let d ← digitValue? 16 d
  return ((a * 16 + b) * 16 + c) * 16 + d

/-- The character that a backslash and this letter stand for. -/
def escaped? : Char → Option Char
  | '"' => some '"'
  | '\\' => some '\\'
  | '/' => some '/'
  | 'b' => some '\x08'
  | 'f' => some '\x0c'
  | 'n' => some '\n'
  | 'r' => some '\r'
  | 't' => some '\t'
  | _ => none

/-- Reads the parts of a string up to its closing quote; those read so far stand in `done`, the
last one first. -/
def readPieces (done : List Piece) : List Char → Option (List Piece × List Char)
  | [] => none
  | '"' :: cs => some (done.reverse, cs)
  | '\\' :: 'u' :: a :: b :: c :: d :: cs =>
    match fourDigits? a b c d with
    | some n => readPieces (.unit n :: done) cs
    | none => none
  | '\\' :: e :: cs =>
    match escaped? e with
    | some c => readPieces (.char c :: done) cs
    | none => none
  | c :: cs => if c.toNat < 32 || c == '\\' then none else readPieces (.char c :: done) cs

/-- Joins the halves of surrogate pairs; a half that stands alone spells no text. -/
def joinPieces : List Piece → Option (List Char)
  | [] => some []
  | .char c :: rest => (joinPieces rest).map (c :: ·)
  | .unit n :: rest =>
    if 0xD800 ≤ n ∧ n < 0xDC00 then
      match rest with
      | .unit m :: rest =>
        if 0xDC00 ≤ m ∧ m < 0xE000 then
          (joinPieces rest).map (Char.ofNat (0x10000 + (n - 0xD800) * 0x400 + (m - 0xDC00)) :: ·)
        else none
      | _ => none
    else if 0xDC00 ≤ n ∧ n < 0xE000 then none
    else (joinPieces rest).map (Char.ofNat n :: ·)

/-- Reads a string after its opening quote. -/
def readString (cs : List Char) : Option (Option String × List Char) := do
  let (pieces, rest) ← readPieces [] cs
  return ((joinPieces pieces).map String.ofList, rest)

/-! ## Numbers -/

/-- Reads at least one digit. -/
def readDigitRun (cs : List Char) : Option (List Char × List Char) :=
  match cs.span Char.isDigit with
  | ([], _) => none
  | run => some run

/-- Reads the digits before the point: a zero stands alone. -/
def readWhole (cs : List Char) : Option (List Char × List Char) :=
  match readDigitRun cs with
  | some ('0' :: _ :: _, _) => none
  | run => run

/-- Reads the point and the digits behind it, if there is a point. -/
def readFraction : List Char → Option (List Char × List Char)
  | '.' :: cs => do
    let (run, rest) ← readDigitRun cs
    return ('.' :: run, rest)
  | cs => some ([], cs)

/-- Reads the sign of an exponent, if there is one. -/
def readSign : List Char → List Char × List Char
  | '+' :: cs => (['+'], cs)
  | '-' :: cs => (['-'], cs)
  | cs => ([], cs)

/-- Reads an exponent, if there is one. -/
def readExponent : List Char → Option (List Char × List Char)
  | [] => some ([], [])
  | e :: cs =>
    if e = 'e' ∨ e = 'E' then do
      let (sign, cs) := readSign cs
      let (run, rest) ← readDigitRun cs
      return (e :: sign ++ run, rest)
    else some ([], e :: cs)

/-- Reads a number. -/
def readNumber (cs : List Char) : Option (String × List Char) := do
  let (sign, cs) := match cs with
    | '-' :: cs => (['-'], cs)
    | cs => ([], cs)
  let (whole, cs) ← readWhole cs
  let (fraction, cs) ← readFraction cs
  let (exponent, cs) ← readExponent cs
  return (String.ofList (sign ++ whole ++ fraction ++ exponent), cs)

/-! ## Values -/

/-- Reads a word that has to stand at the front. -/
def readWord? (word : List Char) (value : Json) (cs : List Char) : Option (Json × List Char) :=
  (word.isPrefixOf? cs).map fun rest => (value, rest)

mutual

/-- Reads a value that starts at the first character; `depth` bounds the steps left. -/
def readValue : Nat → List Char → Option (Json × List Char)
  | 0, _ => none
  | depth + 1, cs =>
    match cs with
    | '"' :: cs => do
      let (s, rest) ← readString cs
      return (string s, rest)
    | '[' :: cs =>
      match skipSpace cs with
      | ']' :: rest => some (array [], rest)
      | cs => do
        let (items, rest) ← readItems depth cs
        return (array items, rest)
    | '\x7b' :: cs =>
      match skipSpace cs with
      | '\x7d' :: rest => some (object [], rest)
      | cs => do
        let (members, rest) ← readMembers depth cs
        return (object members, rest)
    | 'n' :: _ => readWord? ['n', 'u', 'l', 'l'] null cs
    | 't' :: _ => readWord? ['t', 'r', 'u', 'e'] (bool true) cs
    | 'f' :: _ => readWord? ['f', 'a', 'l', 's', 'e'] (bool false) cs
    | _ => do
      let (literal, rest) ← readNumber cs
      return (number literal, rest)

/-- Reads at least one item and the closing bracket. -/
def readItems : Nat → List Char → Option (List Json × List Char)
  | 0, _ => none
  | depth + 1, cs => do
    let (item, cs) ← readValue depth cs
    match skipSpace cs with
    | ']' :: rest => return ([item], rest)
    | ',' :: cs =>
      let (items, rest) ← readItems depth (skipSpace cs)
      return (item :: items, rest)
    | _ => none

/-- Reads at least one member and the closing brace. -/
def readMembers : Nat → List Char → Option (List (Option String × Json) × List Char)
  | 0, _ => none
  | depth + 1, cs => do
    let (key, cs) ← match cs with
      | '"' :: cs => readString cs
      | _ => none
    let cs ← match skipSpace cs with
      | ':' :: cs => some (skipSpace cs)
      | _ => none
    let (value, cs) ← readValue depth cs
    match skipSpace cs with
    | '\x7d' :: rest => return ([(key, value)], rest)
    | ',' :: cs =>
      let (members, rest) ← readMembers depth (skipSpace cs)
      return ((key, value) :: members, rest)
    | _ => none

end

/-- Reads a text that is one JSON value. -/
def parse? (s : String) : Option Json :=
  let cs := s.toList
  match readValue (cs.length + 1) (skipSpace cs) with
  | some (value, rest) => if skipSpace rest = [] then some value else none
  | none => none

end DiscPatch.Json
