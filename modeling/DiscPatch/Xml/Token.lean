/-
The tokens of an XML document: starts and ends of elements, text, and character data. Comments and
processing instructions are read over; document types are not taken.
-/
import DiscPatch.Xml.Reference
import DiscPatch.Xml.Tree

namespace DiscPatch.Xml

/-- A token. Text is as it was written. -/
inductive Token where
  | start (name : Name) (attributes : List Attribute) (closed : Bool)
  | stop (name : Name)
  | text (raw : List Char)
  | data (raw : List Char)
  deriving DecidableEq, Repr

/-! ## Names and values -/

/-- Whether the text can be a part of a name. -/
def startsName (cs : List Char) : Bool :=
  match cs with
  | [] => false
  | c :: _ => isNameStart c

/-- Reads a name; one colon may part it, and what stands before the colon may be empty. -/
def readName (cs : List Char) : Option (Name × List Char) :=
  let (front, rest) := cs.span isNameChar
  match rest with
  | ':' :: rest =>
    let (back, rest) := rest.span isNameChar
    if (front.isEmpty || startsName front) && startsName back && rest.head? ≠ some ':' then
      some (⟨String.ofList front, String.ofList back⟩, rest)
    else none
  | rest => if startsName front then some (⟨"", String.ofList front⟩, rest) else none

/-- Reads an equals sign and a value between quotes, which holds no `<`. -/
def readQuoted (cs : List Char) : Option (List Char × List Char) :=
  match skipSpace cs with
  | '=' :: cs =>
    match skipSpace cs with
    | q :: cs =>
      if q = '"' ∨ q = '\'' then
        let (raw, rest) := cs.span fun c => c != q && c != '<'
        if rest.head? = some q then some (raw, rest.tail) else none
      else none
    | [] => none
  | _ => none

/-- Reads the attributes of an element and the end of its tag, with at most `limit` steps; the
flag says whether the tag closes the element. Each attribute needs white space before it. -/
def readAttributes : Nat → List Char → Option (List Attribute × Bool × List Char)
  | 0, _ => none
  | limit + 1, cs =>
    match skipSpace cs with
    | '/' :: '>' :: rest => some ([], true, rest)
    | '>' :: rest => some ([], false, rest)
    | inner =>
      if (cs.head?.map isSpace).getD false then do
        let (name, rest) ← readName inner
        let (raw, rest) ← readQuoted rest
        let value ← valueContent? raw
        let (attributes, closed, rest) ← readAttributes limit rest
        return (⟨name, String.ofList value⟩ :: attributes, closed, rest)
      else none

/-! ## Tokens -/

/-- What stands before and after the first `mark`. -/
def cutAtMark? (mark : List Char) : List Char → Option (List Char × List Char)
  | [] => none
  | c :: cs =>
    match mark.isPrefixOf? (c :: cs) with
    | some rest => some ([], rest)
    | none => (cutAtMark? mark cs).map fun (front, rest) => (c :: front, rest)

/-- Whether `mark` stands somewhere in the text. -/
def holdsMark (mark cs : List Char) : Bool :=
  (cutAtMark? mark cs).isSome

/-- Reads over a comment after its opening; no double hyphen may stand in it. -/
def skipComment (cs : List Char) : Option (List Char) := do
  let (comment, rest) ← cutAtMark? ['-', '-', '>'] cs
  if holdsMark ['-', '-'] comment || comment.getLast? = some '-' then none else some rest

/-- Reads over a processing instruction after its opening; only the start of a document may hold
an XML declaration. -/
def skipInstruction (cs : List Char) : Option (List Char) := do
  if ['x', 'm', 'l', ' '].isPrefixOf cs then none
  if (cs.head?.map fun c => isNameStart c || c == ':').getD false then
    let (_, rest) ← cutAtMark? ['?', '>'] (cs.dropWhile fun c => isNameChar c || c == ':')
    return rest
  else none

/-- Reads what starts at the first character: a token, or something that is read over. -/
def readToken (cs : List Char) : Option (Option Token × List Char) :=
  match cs with
  | '<' :: '!' :: '-' :: '-' :: cs => (skipComment cs).map fun rest => (none, rest)
  | '<' :: '!' :: '[' :: 'C' :: 'D' :: 'A' :: 'T' :: 'A' :: '[' :: cs =>
    (cutAtMark? [']', ']', '>'] cs).map fun (raw, rest) => (some (.data raw), rest)
  | '<' :: '?' :: cs => (skipInstruction cs).map fun rest => (none, rest)
  | '<' :: '/' :: cs => do
    let (name, rest) ← readName cs
    match skipSpace rest with
    | '>' :: rest => return (some (.stop name), rest)
    | _ => none
  | '<' :: cs => do
    let (name, rest) ← readName cs
    let (attributes, closed, rest) ← readAttributes rest.length rest
    return (some (.start name attributes closed), rest)
  | cs =>
    let (raw, rest) := cs.span (· != '<')
    if holdsMark [']', ']', '>'] raw then none else some (some (.text raw), rest)

/-- The tokens of a text, with at most `limit` steps. -/
def readTokens : Nat → List Char → Option (List Token)
  | _, [] => some []
  | 0, _ :: _ => none
  | limit + 1, c :: cs => do
    let (token?, rest) ← readToken (c :: cs)
    let tokens ← readTokens limit rest
    return token?.toList ++ tokens

/-- The tokens of a text. -/
def tokens? (cs : List Char) : Option (List Token) :=
  readTokens cs.length cs

end DiscPatch.Xml
