/-
Merged edits: a segment joins the run before it only where that ends, so the runs write what the segments
would write one by one.
-/
import DiscPatch.Patch.Edits
import DiscPatch.Proofs.Edit

namespace DiscPatch.Patch

/-- The segments whose bytes the patch has itself. -/
def ownSegments (p : Patch) : List Segment :=
  p.segments.filter (!·.takesFile)

/-- The writes of the segments and variables as they are, none of them merged. -/
def plainEdits (p : Patch) : List Edit :=
  p.ownSegments.map (·.toEdit) ++ p.vars.flatMap (·.edits)

theorem joined_runs_some (segments : List Segment) (run : Edit) :
    Edit.Joined (run :: segments.map (·.toEdit)) (runs (some run) segments) := by
  induction segments generalizing run with
  | nil => exact .refl _
  | cons s rest ih =>
    rw [List.map_cons, runs]
    split
    · rename_i h
      exact .join ⟨h.2.1, h.2.2⟩ (ih _)
    · exact .keep run (ih _)

theorem joined_runs (segments : List Segment) : Edit.Joined (segments.map (·.toEdit)) (runs none segments) := by
  cases segments with
  | nil => exact .nil
  | cons s rest => exact joined_runs_some rest s.toEdit

theorem joined_mergedEdits (p : Patch) : Edit.Joined p.plainEdits p.mergedEdits :=
  (joined_runs _).append (.refl _)

/-- Merged edits are written exactly when the plain ones are, and give the same image; the runs hold the
bytes of the segments, none lost, doubled or out of order. -/
theorem writeAll_mergedEdits_iff (space : AddressSpace) (p : Patch) (image result : ByteArray) :
    (Edit.writeAll space p.mergedEdits image = .ok result ↔ Edit.writeAll space p.plainEdits image = .ok result) ∧
      (runs none p.ownSegments).flatMap (·.bytes) = p.ownSegments.flatMap (·.bytes) := by
  refine ⟨p.joined_mergedEdits.writeAll_iff space image result, ?_⟩
  rw [(joined_runs p.ownSegments).flatMap_bytes, List.flatMap_map]
  rfl

end DiscPatch.Patch
