/-
An assembler for data directives. Source is assembled line by line; a faulty line is reported and
the rest still assembled, and a faulty operand keeps its bytes as zeros, so that what follows
stays where it is.
-/
import DiscPatch.Assembly.Assembler
import DiscPatch.Assembly.Expression
import DiscPatch.Bytes.Hex
import DiscPatch.Text.Ascii
import DiscPatch.Text.Lines

namespace DiscPatch.Assembly

open Text

/-- The most bytes that one directive may make room for, and the largest alignment. -/
def largestRoom : Int := 0x100000

/-! ## One line -/

/-- The line up to its comment, which starts at `#`, `;` or `//`. -/
def withoutComment : List Char → List Char
  | [] => []
  | '#' :: _ => []
  | ';' :: _ => []
  | '/' :: '/' :: _ => []
  | c :: cs => c :: withoutComment cs

/-- What a line adds: its bytes, the symbols known after it, and what is wrong with it. -/
structure Step where
  symbols : Symbols
  bytes : Bytes := []
  causes : List Cause := []

/-- Whether a field of `width` bytes can hold the value, signed or unsigned. -/
def fits (width : Nat) (v : Int) : Bool :=
  -(Bytes.capacity width : Int) ≤ 2 * v && v < Bytes.capacity width

/-- Binds a name behind the mark `sigil` to the value behind the comma. -/
def bindSymbol (symbols : Symbols) (directive : Directive) (sigil : Char)
    (add : Symbols → String → UInt32 → Symbols) (rest : List Char) : Except Cause Symbols := do
  let some (front, expression) := cutAt? ',' rest | .error (.missingOperand directive)
  let name := trimmed front
  let bare := name.tail
  if name.head? = some sigil && isSymbolName bare then
    let v ← evaluate symbols expression
    if fits 4 v then return add symbols (String.ofList bare) (UInt32.ofInt v)
    else .error (.outOfRange (String.ofList (trimmed expression)) .word)
  else .error (.badSymbol (String.ofList name))

/-- The operands between commas, without the blank ones. -/
def operands (rest : List Char) : List (List Char) :=
  ((rest.splitOn ',').map trimmed).filter (· ≠ [])

/-- The field of an operand, or what is wrong with it. -/
def field (symbols : Symbols) (width : Nat) (range : Range) (operand : List Char) :
    Except Cause Bytes := do
  let v ← evaluate symbols operand
  if fits width v then return Bytes.ofValue width (UInt32.ofInt v)
  else .error (.outOfRange (String.ofList operand) range)

/-- Stores a field for each operand; a faulty one leaves its field zero. -/
def store (symbols : Symbols) (directive : Directive) (width : Nat) (range : Range)
    (rest : List Char) : Step :=
  match operands rest with
  | [] => { symbols, causes := [.missingOperand directive] }
  | operands =>
    let fields := operands.map (field symbols width range)
    { symbols
      bytes := fields.flatMap fun
        | .ok bytes => bytes
        | .error _ => List.replicate width 0
      causes := fields.filterMap fun
        | .ok _ => none
        | .error cause => some cause }

/-- The single operand of a directive that makes room, between `least` and `largestRoom`. -/
def room (symbols : Symbols) (directive : Directive) (least : Int) (range : Range)
    (rest : List Char) : Except Cause Nat := do
  if rest = [] then .error (.missingOperand directive)
  let n ← evaluate symbols rest
  if least ≤ n ∧ n ≤ largestRoom then return n.toNat
  else .error (.outOfRange (String.ofList rest) range)

/-- The step of a directive that only binds. -/
def Step.ofBinding (symbols : Symbols) : Except Cause Symbols → Step
  | .ok symbols => { symbols }
  | .error cause => { symbols, causes := [cause] }

/-- The step of a directive that only makes room. -/
def Step.ofRoom (symbols : Symbols) : Except Cause Nat → Step
  | .ok n => { symbols, bytes := List.replicate n 0 }
  | .error cause => { symbols, causes := [cause] }

/-- The bytes that are missing at `position` up to a multiple of `n`. -/
def padding (position n : Nat) : Nat :=
  (n - position % n) % n

/-- Carries out a directive at the given position. -/
def Directive.step (symbols : Symbols) (position : Nat) (rest : List Char) : Directive → Step
  | .label => .ofBinding symbols (bindSymbol symbols .label '@' Symbols.bindLabel rest)
  | .equate => .ofBinding symbols (bindSymbol symbols .equate '%' Symbols.bindEquate rest)
  | .word => store symbols .word 4 .word rest
  | .half => store symbols .half 2 .half rest
  | .byte => store symbols .byte 1 .byte rest
  | .align =>
    .ofRoom symbols ((room symbols .align 1 .alignment rest).map (padding position))
  | .space => .ofRoom symbols (room symbols .space 0 .space rest)

/-- Assembles one line at the given position. -/
def stepLine (symbols : Symbols) (position : Nat) (line : List Char) : Step :=
  let code := trimmed (withoutComment line)
  if code = [] then { symbols }
  else
    let head := String.ofList (code.takeWhile (!isBlank ·))
    let rest := trimmed (code.dropWhile (!isBlank ·))
    match Directive.ofName? (lowerAscii head) with
    | some directive => directive.step symbols position rest
    | none => { symbols, causes := [.unknownDirective head] }

/-! ## Source -/

/-- Assembles lines at the given position; `number` is that of the first one. -/
def assembleLines (symbols : Symbols) (position number : Nat) :
    List (List Char) → Bytes × List Fault
  | [] => ([], [])
  | line :: rest =>
    let step := stepLine symbols position line
    let (bytes, faults) :=
      assembleLines step.symbols (position + step.bytes.length) (number + 1) rest
    (step.bytes ++ bytes, step.causes.map (⟨number, ·⟩) ++ faults)

/-- Assembles source at an address, with some symbols bound already. -/
def assembleFrom (symbols : Symbols) (source : String) (address : UInt32) :
    Bytes × List Fault :=
  assembleLines symbols address.toNat 1 (lines source.toList)

/-- Assembles source at an address. -/
def assemble (source : String) (address : UInt32) : Bytes × List Fault :=
  assembleFrom Symbols.empty source address

/-- Assembles source at an address and puts each fault on a line of the error text. -/
def encode (source : String) (address : UInt32) : Encoding :=
  let (bytes, faults) := assemble source address
  ⟨bytes, String.join (faults.map fun fault => fault.message ++ "\n")⟩

/-! ## References -/

/-- The address that a stored word becomes: the first move that holds it takes it along. -/
def relocateWord (moves : List RamMove) (word : UInt32) : UInt32 :=
  match moves.find? (·.contains word) with
  | some m => m.relocate word
  | none => word

/-- Relocates the four-byte words of a byte string; a shorter rest stays. -/
def relocateWords (moves : List RamMove) : Bytes → Bytes
  | a :: b :: c :: d :: rest =>
    Bytes.ofValue 4 (relocateWord moves (Bytes.value [a, b, c, d])) ++ relocateWords moves rest
  | rest => rest

/-- Relocates the words that lie at multiples of four. -/
def followMoves (bytes : Bytes) (address : UInt32) (moves : List RamMove) : Bytes :=
  let lead := padding address.toNat 4
  bytes.take lead ++ relocateWords moves (bytes.drop lead)

/-! ## Labels in hexadecimal text -/

/-- Replaces each label, a name behind `@`, by the eight digits of its stored address, which is
zero for an unknown label. -/
def fillLabelsIn (symbols : Symbols) : List Char → List Char
  | [] => []
  | c :: cs =>
    if c = '@' then
      let name := String.ofList (cs.takeWhile inSymbolName)
      Bytes.hexDigits (Bytes.ofValue 4 ((symbols.label? name).getD 0))
        ++ fillLabelsIn symbols (cs.dropWhile inSymbolName)
    else c :: fillLabelsIn symbols cs
termination_by cs => cs.length
decreasing_by
  · have := (List.dropWhile_sublist inSymbolName (l := cs)).length_le
    simp only [List.length_cons]
    omega
  · simp

/-- Replaces the labels in a text. -/
def fillLabels (text : String) (symbols : Symbols) : String :=
  String.ofList (fillLabelsIn symbols text.toList)

/-- The assembler for data directives, which takes no bytes for code. -/
def directives : Assembler where
  encode := encode
  followMoves := followMoves
  inspect _ _ := ⟨false, ""⟩
  fillLabels := fillLabels

end DiscPatch.Assembly
