/-
Operands of directives: sums of terms with signs between them. A term is a label behind `@`, an
equate behind `%`, or a number. Pieces of nothing but blanks count only for the sign in front.
-/
import DiscPatch.Assembly.Fault
import DiscPatch.Assembly.Symbols

namespace DiscPatch.Assembly

open Text

/-- The characters of symbol names. -/
def inSymbolName (c : Char) : Bool :=
  c.isAlphanum || c == '_' || c == '.'

/-- Whether the text is a symbol name. -/
def isSymbolName (cs : List Char) : Bool :=
  !cs.isEmpty && cs.all inSymbolName

/-! ## Terms -/

/-- The value of the symbol behind a mark; `token` is the whole term. -/
def symbolValue (lookup : String → Option UInt32) (token name : List Char) : Except Cause Int :=
  if isSymbolName name then
    match lookup (String.ofList name) with
    | some v => .ok v.toNat
    | none => .error (.undefinedSymbol (String.ofList token))
  else .error (.badSymbol (String.ofList token))

/-- The value of a number, hexadecimal behind its mark and else decimal. -/
def numberValue (token : List Char) : Except Cause Int :=
  let read := match afterHexMark? token with
    | some ds => readWord 16 ds
    | none => readWord 10 token
  match read with
  | .ok v => .ok v.toNat
  | .error fault => .error (.notANumber (String.ofList token) fault)

/-- The value of a term without blanks around it. -/
def termValue (symbols : Symbols) (token : List Char) : Except Cause Int :=
  match token with
  | '@' :: name => symbolValue symbols.label? token name
  | '%' :: name => symbolValue symbols.equate? token name
  | _ => numberValue token

/-! ## Sums -/

/-- Whether the character is a plus or a minus sign. -/
def isSign (c : Char) : Bool :=
  c == '+' || c == '-'

/-- Cuts a text at its signs: the first piece, and each sign with the piece behind it. -/
def cutAtSigns : List Char → List Char × List (Char × List Char)
  | [] => ([], [])
  | c :: cs =>
    let (piece, rest) := cutAtSigns cs
    if isSign c then ([], (c, piece) :: rest) else (c :: piece, rest)

/-- Adds up pieces to `total`; `piece` comes next and counts with the factor `sign`. -/
def sumPieces (symbols : Symbols) (whole : List Char) (total sign : Int) (piece : List Char) :
    List (Char × List Char) → Except Cause Int
  | [] =>
    if allBlank piece then .error (.badSymbol (String.ofList (trimmed whole)))
    else do
      let v ← termValue symbols (trimmed piece)
      return total + sign * v
  | (c, next) :: rest =>
    if allBlank piece then
      sumPieces symbols whole total (if c = '-' then -sign else sign) next rest
    else do
      let v ← termValue symbols (trimmed piece)
      sumPieces symbols whole (total + sign * v) (if c = '-' then -1 else 1) next rest

/-- The value of an operand. -/
def evaluate (symbols : Symbols) (cs : List Char) : Except Cause Int :=
  let (piece, rest) := cutAtSigns cs
  sumPieces symbols cs 0 1 piece rest

end DiscPatch.Assembly
