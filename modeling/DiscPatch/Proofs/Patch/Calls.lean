/-
Calls on a patch, one after the other. A call changes the patch in place and may fail, but it checks before it changes
anything, so a call that fails leaves the patch as it was. Main result: moves that were requested before are not
carried out again, whatever happened in between.
-/
import DiscPatch.Proofs.Patch.Invariant

namespace DiscPatch.Patch

open Assembly

/-! ## Calls -/

/-- What can be asked of a patch. -/
inductive Call where
  | update (assembler : Assembler)
  | move (assembler : Assembler) (space : AddressSpace) (requests : List MoveRequest)
  | setVariable (name : String) (value : UInt32)
  | giveFile (files : Files) (path : Path)

/-- What comes of a call. -/
def result (p : Patch) : Call → Except Error Patch
  | .update assembler => .ok (p.update assembler)
  | .move assembler space requests => .ok (p.move assembler space requests)
  | .setVariable name value => p.setVariable name value
  | .giveFile files path => p.giveFile files path

/-! ## Calls in place -/

/-- A call on a patch that it changes in place. What is changed before a failure stays changed. -/
abbrev InPlace := ExceptT Error (StateM Patch) Unit

/-- Sets a variable, once it is found and is not derived. -/
def setVariableInPlace (name : String) (value : UInt32) : InPlace := do
  let p ← get
  match p.find? name with
  | none => throw (.unknownVariable name)
  | some v =>
    match v.reference? with
    | some r => throw (.description (.derivedVariable name r.name))
    | none => modify fun p => { p with vars := changeFirst (·.name = name) (·.set value) p.vars }

/-- Changes the segment that takes a file. -/
def changeFileSegment (change : Segment → Segment) (p : Patch) : Patch :=
  { p with segments := changeFirst (·.takesFile) change p.segments }

/-- Reads a file and notes first its path and then its content, once its length is found to be the expected one. -/
def giveFileInPlace (files : Files) (path : Path) : InPlace := do
  let p ← get
  match p.segments.findSome? (·.expected?) with
  | none => throw (.description (.noFileTaken p.name))
  | some expected =>
    let content ← FileFault.lift (files.read path)
    if content.size = expected.toNat then
      modify (changeFileSegment fun s => { s with source := .chosenFile (some path) expected })
      modify (changeFileSegment fun s => { s with bytes := content.data.toList })
    else throw (.inputLength expected.toNat content.size)

/-- A call in place. Updates and moves cannot fail. -/
def Call.inPlace : Call → InPlace
  | .update assembler => modify (·.update assembler)
  | .move assembler space requests => modify (·.move assembler space requests)
  | .setVariable name value => setVariableInPlace name value
  | .giveFile files path => giveFileInPlace files path

/-- The patch after a call. -/
def after (p : Patch) (call : Call) : Patch :=
  (call.inPlace.run p).2

/-- The patch after calls one after the other. -/
def afterAll (p : Patch) (calls : List Call) : Patch :=
  calls.foldl after p

theorem run_get_bind (k : Patch → InPlace) (p : Patch) : (get >>= k : InPlace).run p = (k p).run p :=
  rfl

theorem setVariableInPlace_eq (p : Patch) (name : String) (value : UInt32) :
    (setVariableInPlace name value).run p =
      ((p.setVariable name value).map fun _ => (), (p.setVariable name value).toOption.getD p) := by
  unfold setVariableInPlace setVariable
  rw [run_get_bind]
  cases p.find? name with
  | none => rfl
  | some v =>
    dsimp only
    cases v.reference? <;> rfl

theorem giveFileInPlace_eq (files : Files) (p : Patch) (path : Path) :
    (giveFileInPlace files path).run p =
      ((p.giveFile files path).map fun _ => (), (p.giveFile files path).toOption.getD p) := by
  unfold giveFileInPlace giveFile
  rw [run_get_bind]
  cases p.segments.findSome? (·.expected?) with
  | none => rfl
  | some expected =>
    dsimp only
    cases FileFault.lift (files.read path) with
    | error e => rfl
    | ok content =>
      rw [ok_bind]
      show (if content.size = expected.toNat then _ else _ : InPlace).run p = _
      split
      · -- The segment still takes a file when its path is noted, so both changes go to the same one.
        show (Except.ok (), changeFileSegment _ (changeFileSegment _ p)) = _
        unfold changeFileSegment
        rw [changeFirst_changeFirst]
        · rfl
        · exact fun _ _ => rfl
      · rfl

/-- In place a call ends as it does otherwise, and where it fails the patch is still the old one. -/
theorem Call.inPlace_eq (p : Patch) (call : Call) :
    call.inPlace.run p = ((p.result call).map fun _ => (), (p.result call).toOption.getD p) := by
  cases call with
  | update | move => rfl
  | setVariable name value => exact setVariableInPlace_eq p name value
  | giveFile files path => exact giveFileInPlace_eq files p path

theorem after_of_ok {p q : Patch} {call : Call} (h : p.result call = .ok q) : p.after call = q := by
  unfold after
  rw [call.inPlace_eq, h]
  rfl

/-- A call that fails changes nothing. -/
theorem after_of_error {p : Patch} {call : Call} {e : Error} (h : p.result call = .error e) : p.after call = p := by
  unfold after
  rw [call.inPlace_eq, h]
  rfl

theorem step_of_result {p q : Patch} {call : Call} (h : p.result call = .ok q) : Step p q := by
  cases call with
  | update assembler =>
    cases h
    exact .update assembler p
  | move assembler space requests =>
    cases h
    exact .move assembler space p requests
  | setVariable => exact .setVariable h
  | giveFile => exact .giveFile h

theorem runs_after (p : Patch) (call : Call) : Runs p (p.after call) := by
  cases h : p.result call with
  | ok q =>
    rw [after_of_ok h]
    exact .single (step_of_result h)
  | error e =>
    rw [after_of_error h]
    exact .refl

theorem runs_afterAll (p : Patch) (calls : List Call) : Runs p (p.afterAll calls) := by
  induction calls generalizing p with
  | nil => exact .refl
  | cons call rest ih => exact (runs_after p call).trans (ih (p.after call))

/-! ## Requested moves -/

/-- The moves that a call requests. -/
def Call.ramMoves : Call → List RamMove
  | .move _ space requests => requests.map (·.ramMove space)
  | _ => []

theorem mem_moves_after {p : Patch} {call : Call} {m : RamMove} (h : m ∈ call.ramMoves) :
    m ∈ (p.after call).moves := by
  cases call with
  | move assembler space requests =>
    obtain ⟨r, hr, rfl⟩ := List.mem_map.1 h
    show _ ∈ (p.move assembler space requests).moves
    rw [moves_move]
    exact ramMove_mem_append_newMoves hr
  | update | setVariable | giveFile => cases h

/-- Whatever was requested in a run is recorded at its end. -/
theorem mem_moves_afterAll {p : Patch} {calls : List Call} {m : RamMove} (h : m ∈ calls.flatMap Call.ramMoves) :
    m ∈ (p.afterAll calls).moves := by
  induction calls generalizing p with
  | nil => cases h
  | cons call rest ih =>
    rw [List.flatMap_cons, List.mem_append] at h
    show m ∈ ((p.after call).afterAll rest).moves
    rcases h with hcall | hrest
    · exact (runs_afterAll (p.after call) rest).extends.moves.subset (mem_moves_after hcall)
    · exact ih hrest

/-- A call whose moves were all requested earlier in a run changes nothing, and a range named more than once
in a call counts at its first position only. -/
theorem move_of_requested (p : Patch) (calls : List Call) (assembler : Assembler) (space : AddressSpace)
    (requests : List MoveRequest) :
    ((∀ r ∈ requests, r.ramMove space ∈ calls.flatMap Call.ramMoves) →
      (p.afterAll calls).move assembler space requests = p.afterAll calls) ∧
    p.move assembler space requests = p.move assembler space requests.eraseDups := by
  constructor
  · intro hrequested
    exact move_of_known assembler fun r hr => mem_moves_afterAll (hrequested r hr)
  · exact move_congr assembler (freshMoves_eraseDups space p.moves requests).symm

/-- Both ranges moved in calls of their own, with an update and a failing call in between. -/
theorem move_of_requested_apart :
    let space := SectorTable.psx.space
    let calls : List Call := [.move directives space [upper], .update directives, .setVariable "size" 4,
      .move directives space [lower, upper]]
    let q := linked.afterAll calls
    (∀ r ∈ [lower, upper, lower], r.ramMove space ∈ calls.flatMap Call.ramMoves) ∧
      q.segments.map (·.ram) = [0x80010100, 0x80013800] ∧
      q.move directives space [lower, upper, lower] = q ∧
      linked.move directives space [lower, upper, lower] = linked.move directives space [lower, upper] := by
  intro space calls q
  have hrequested : ∀ r ∈ [lower, upper, lower], r.ramMove space ∈ calls.flatMap Call.ramMoves := by decide
  obtain ⟨hagain, htwice⟩ := move_of_requested linked calls directives space [lower, upper, lower]
  exact ⟨hrequested, by decide, hagain hrequested, htwice⟩

end DiscPatch.Patch
