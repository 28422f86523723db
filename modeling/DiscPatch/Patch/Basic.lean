/-
Patches: named lists of segments and variables, with the relocations applied to them so far. A
draft becomes a patch once its variables are checked: their sizes, that no two share a name, and
that each derived one refers to a variable of the patch.
-/
import DiscPatch.Assembly.Symbols
import DiscPatch.Patch.Segment
import DiscPatch.Patch.Variable

namespace DiscPatch

open Patch Assembly

/-- A patch. Its segments and variables stay the same in number and order once it is built. -/
structure Patch where
  name : String
  filename : String
  description : String
  segments : List Segment
  vars : List Variable
  /-- The relocations applied so far. -/
  moves : List RamMove
  hiddenByDefault : Bool
  isHidden : Bool
  /-- What is wrong with the patch. -/
  faultText : String
  deriving DecidableEq, Repr

namespace Patch

/-! ## Looking at patches -/

/-- The variable of that name among others. -/
def lookup? (vars : List Variable) (name : String) : Option Variable :=
  vars.find? (·.name = name)

/-- The variable of that name. -/
def find? (p : Patch) (name : String) : Option Variable :=
  lookup? p.vars name

/-- Whether the content is a file chosen by the user. -/
def isImport (p : Patch) : Bool :=
  p.segments.any (·.takesFile)

/-- How many variables are not derived. -/
def literalCount (p : Patch) : Nat :=
  p.vars.countP (!·.isDerived)

/-- The labels of segments and the values of variables. -/
def symbolsOf (segments : List Segment) (vars : List Variable) : Symbols :=
  let labels := segments.foldl (fun symbols s =>
    match s.label? with
    | some label => symbols.bindLabel label s.ram
    | none => symbols) Symbols.empty
  vars.foldl (fun symbols v => symbols.bindEquate v.name v.value) labels

/-- The symbols that the assembly source of the patch can use. -/
def symbols (p : Patch) : Symbols :=
  symbolsOf p.segments p.vars

/-- What is wrong with the segments, one after the other. -/
def faultsOf (segments : List Segment) : String :=
  String.join (segments.map fun s => s.faultText ++ s.codeFaults)

/-! ## Building patches -/

/-- A patch whose variables are not checked yet. -/
structure Draft where
  name : String
  filename : String := ""
  /-- The description; the name stands in for a missing one. -/
  description? : Option String := none
  segments : List Segment := []
  vars : List Variable := []
  hiddenByDefault : Bool := false
  isHidden : Bool := false
  faultText : String := ""

/-- Checks the sizes of variables, and their names against each other and against those in
`seen`. -/
def checkVariables (patch : String) (seen : List String) : List Variable → Except Error Unit
  | [] => .ok ()
  | v :: rest =>
    if v.size < 1 ∨ 4 < v.size then .error (.description (.variableSize v.name v.size))
    else if v.name ∈ seen then .error (.description (.duplicateVariable v.name patch))
    else checkVariables patch (v.name :: seen) rest

/-- Checks that derived variables refer to variables with one of the given names. -/
def checkReferences (names : List String) : List Variable → Except Error Unit
  | [] => .ok ()
  | v :: rest =>
    match v.reference? with
    | none => checkReferences names rest
    | some r =>
      if r.name ∈ names then checkReferences names rest else .error (.unknownVariable r.name)

/-- The patch, if its variables are in order. -/
def Draft.build (d : Draft) : Except Error Patch := do
  checkVariables d.name [] d.vars
  checkReferences (d.vars.map (·.name)) d.vars
  return {
    name := d.name
    filename := d.filename
    description := d.description?.getD d.name
    segments := d.segments
    vars := d.vars
    moves := []
    hiddenByDefault := d.hiddenByDefault
    isHidden := d.isHidden
    faultText := d.faultText }

/-! ## Settings made by the user -/

/-- The list with its first element that passes the test changed. -/
def changeFirst {α : Type} (test : α → Bool) (change : α → α) : List α → List α
  | [] => []
  | a :: rest => if test a then change a :: rest else a :: changeFirst test change rest

/-- The patch with another value for a variable, which must not be derived. -/
def setVariable (p : Patch) (name : String) (value : UInt32) : Except Error Patch :=
  match p.find? name with
  | none => .error (.unknownVariable name)
  | some v =>
    match v.reference? with
    | some r => .error (.description (.derivedVariable name r.name))
    | none =>
      .ok { p with vars := changeFirst (·.name = name) (·.set value) p.vars }

/-- The patch with the content of its input file, which must have the expected length. -/
def giveFile (files : Files) (p : Patch) (path : Path) : Except Error Patch :=
  match p.segments.findSome? (·.expected?) with
  | none => .error (.description (.noFileTaken p.name))
  | some expected => do
    let content ← FileFault.lift (files.read path)
    if content.size = expected.toNat then
      return { p with
        segments := changeFirst (·.takesFile) (fun s =>
          { s with source := .chosenFile (some path) expected, bytes := content.data.toList })
          p.segments }
    else .error (.inputLength expected.toNat content.size)

end Patch
end DiscPatch
