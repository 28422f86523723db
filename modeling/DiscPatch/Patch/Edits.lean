/-
What a patch writes: its segments, neighbours merged into one run, then its variables, then its
input files.
-/
import DiscPatch.Patch.Basic

namespace DiscPatch.Patch

/-- Merges segments into runs; the run so far grows while segments continue it. -/
def runs : Option Edit → List Segment → List Edit
  | none, [] => []
  | some run, [] => [run]
  | none, s :: rest => runs (some s.toEdit) rest
  | some run, s :: rest =>
    if s.isChained ∧ run.sector = s.sector ∧ run.stop = s.offset.toNat then
      runs (some { run with bytes := run.bytes ++ s.bytes }) rest
    else run :: runs (some s.toEdit) rest

/-- The writes of the segments that take no input file, and of the variables. -/
def mergedEdits (p : Patch) : List Edit :=
  runs none (p.segments.filter (!·.takesFile)) ++ p.vars.flatMap (·.edits)

/-- The writes of the input files, all of which must be loaded. -/
def inputEdits (p : Patch) : Except Error (List Edit) :=
  (p.segments.filter (·.takesFile)).mapM fun s =>
    match s.path? with
    | some _ => .ok s.toEdit
    | none => .error (.description (.noFileLoaded p.name))

/-- Everything the patch writes. -/
def edits (p : Patch) : Except Error (List Edit) := do
  return p.mergedEdits ++ (← p.inputEdits)

end DiscPatch.Patch
