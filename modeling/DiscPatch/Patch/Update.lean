/-
Bringing a patch up to date: derived variables are computed in the order of their declaration,
then every segment with source is encoded again with the labels and values of the moment.
-/
import DiscPatch.Assembly.Assembler
import DiscPatch.Bytes.Hex
import DiscPatch.Patch.Basic

namespace DiscPatch.Patch

open Assembly

/-! ## Derived variables -/

/-- Why a derived variable keeps its old value. -/
inductive ReferenceFault where
  | unknownVariable (name referent : String)
  | divisionByZero (name : String)
  deriving DecidableEq, Repr

/-- The fault in words, on a line of its own. -/
def ReferenceFault.line : ReferenceFault → String
  | unknownVariable name referent =>
    "variable '" ++ name ++ "' refers to unknown variable '" ++ referent ++ "'\n"
  | divisionByZero name => "variable '" ++ name ++ "': division by zero\n"

/-- A variable with its derived value, given all variables as they are at that time. -/
def derive (vars : List Variable) (v : Variable) : Except ReferenceFault Variable :=
  match v.reference? with
  | none => .ok v
  | some r =>
    match lookup? vars r.name with
    | none => .error (.unknownVariable v.name r.name)
    | some referent =>
      match r.operator.result? referent.value r.operand with
      | some value => .ok (v.set value)
      | none => .error (.divisionByZero v.name)

/-- Derives the variables of a list one after the other; those in `done` come before them. -/
def deriveFrom (done : List Variable) : List Variable → List Variable × List ReferenceFault
  | [] => (done, [])
  | v :: rest =>
    match derive (done ++ v :: rest) v with
    | .ok v => deriveFrom (done ++ [v]) rest
    | .error fault =>
      let (vars, faults) := deriveFrom (done ++ [v]) rest
      (vars, fault :: faults)

/-! ## Segments -/

/-- A segment encoded again. Assembled words follow the relocations `moves` unless the segment
moves simply; where nothing but errors comes out, the old bytes stay. -/
def Segment.refresh (assembler : Assembler) (symbols : Symbols) (moves : List RamMove)
    (s : Segment) : Segment :=
  match s.labelledHex?, s.assembly? with
  | some source, _ =>
    match Bytes.ofHex? (assembler.fillLabels source symbols) with
    | some bytes => { s with bytes }
    | none => s
  | none, some source =>
    let encoded := assembler.encode (symbols.prepend source) s.ram
    let bytes :=
      if s.movesSimply ∨ moves = [] then encoded.bytes
      else assembler.followMoves encoded.bytes s.ram moves
    { s with
      bytes := if bytes = [] ∧ encoded.faultText ≠ "" then s.bytes else bytes
      faultText := encoded.faultText }
  | none, none => s

/-! ## Patches -/

/-- The patch with its derived variables and its encoded segments up to date. What is wrong ends
up in its error text. -/
def update (assembler : Assembler) (p : Patch) : Patch :=
  let (vars, faults) := deriveFrom [] p.vars
  let symbols := symbolsOf p.segments vars
  let segments := p.segments.map (Segment.refresh assembler symbols p.moves)
  { p with
    vars
    segments
    faultText := faultsOf segments ++ String.join (faults.map (·.line)) }

end DiscPatch.Patch
