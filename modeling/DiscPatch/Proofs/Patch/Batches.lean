/-
A call with a list of relocations against one call for each of them. Where things end does not depend on
their words, so both are compared to an assembler that leaves the words alone: there a call for two lists is
exactly a call for the first and then one for the second.
-/
import DiscPatch.Proofs.Patch.Invariant
import DiscPatch.Proofs.Patch.SectorMoves

namespace DiscPatch.Patch

open Assembly

/-! ## The same but for words in code -/

namespace Segment

/-- Whether the words in the segment follow moves. -/
def followsMoves (s : Segment) : Bool :=
  !s.takesFile && s.isCode && !s.movesSimply

/-- Whether two segments differ at most in the words of code that follows moves. -/
structure SameButWords (s t : Segment) : Prop where
  rest : t = { s with bytes := t.bytes }
  length : t.bytes.length = s.bytes.length
  bytes : s.followsMoves = false → t.bytes = s.bytes

variable {s t u : Segment}

theorem SameButWords.refl (s : Segment) : s.SameButWords s :=
  ⟨rfl, rfl, fun _ => rfl⟩

theorem SameButWords.followsMoves (h : s.SameButWords t) : t.followsMoves = s.followsMoves := by
  rw [h.rest]
  rfl

theorem SameButWords.takesFile (h : s.SameButWords t) : t.takesFile = s.takesFile := by
  rw [h.rest]
  rfl

theorem SameButWords.symm (h : s.SameButWords t) : t.SameButWords s := by
  refine ⟨?_, h.length.symm, fun hstays => (h.bytes ?_).symm⟩
  · rw [h.rest]
  · rw [← h.followsMoves, hstays]

theorem SameButWords.trans (h : s.SameButWords t) (h' : t.SameButWords u) : s.SameButWords u := by
  refine ⟨?_, h'.length.trans h.length, fun hstays => ?_⟩
  · rw [h'.rest, h.rest]
  · rw [h'.bytes (h.followsMoves.trans hstays), h.bytes hstays]

end Segment

/-- Whether two patches differ at most in the words of code that follows moves. -/
structure SameButWords (p q : Patch) : Prop where
  rest : q = { p with segments := q.segments }
  segments : List.Forall₂ Segment.SameButWords p.segments q.segments

variable {p q t : Patch}

theorem SameButWords.refl (p : Patch) : p.SameButWords p :=
  ⟨rfl, List.forall₂_same.2 fun _ _ => .refl _⟩

theorem SameButWords.symm (h : p.SameButWords q) : q.SameButWords p := by
  refine ⟨?_, h.segments.flip.imp fun _ _ hs => hs.symm⟩
  rw [h.rest]

theorem SameButWords.trans (h : p.SameButWords q) (h' : q.SameButWords t) : p.SameButWords t := by
  refine ⟨?_, forall₂_trans (fun _ _ _ hs hs' => hs.trans hs') h.segments h'.segments⟩
  rw [h'.rest, h.rest]

/-! ## Whatever the words become -/

section

variable {a b : Assembler} {s t : Segment}

/-- A shift looks at the number of bytes only. -/
theorem Segment.SameButWords.shift (h : s.SameButWords t) (r : MoveRequest) : (s.shift r).SameButWords (t.shift r) := by
  have hmeets : r.meets t.sector t.offset t.bytes.length = r.meets s.sector s.offset s.bytes.length := by
    rw [h.length, h.rest]
  by_cases hr : r.meets s.sector s.offset s.bytes.length
  · rw [Segment.shift_of_meets hr, Segment.shift_of_meets (hmeets.trans hr)]
    refine ⟨?_, h.length, h.bytes⟩
    rw [h.rest]
  · rw [Segment.shift_of_not_meets (Bool.eq_false_iff.2 hr),
      Segment.shift_of_not_meets (hmeets.trans (Bool.eq_false_iff.2 hr))]
    exact h

theorem Segment.SameButWords.foldl_shift (h : s.SameButWords t) (requests : List MoveRequest) :
    (requests.foldl Segment.shift s).SameButWords (requests.foldl Segment.shift t) := by
  induction requests generalizing s t with
  | nil => exact h
  | cons r rest ih => exact ih (h.shift r)

theorem Segment.takesFile_foldl_shift (s : Segment) (requests : List MoveRequest) :
    (requests.foldl Segment.shift s).takesFile = s.takesFile := by
  rw [Segment.foldl_shift]
  rfl

theorem Segment.move_of_not_takesFile (h : s.takesFile = false) (requests : List MoveRequest) (moves : List RamMove) :
    s.move a requests moves =
      if (requests.foldl Segment.shift s).followsMoves then
        { requests.foldl Segment.shift s with
          bytes := a.followMoves (requests.foldl Segment.shift s).bytes (requests.foldl Segment.shift s).ram moves }
      else requests.foldl Segment.shift s := by
  unfold Segment.move Segment.followsMoves
  rw [if_neg (by rw [h]; decide), Segment.takesFile_foldl_shift, h]
  rfl

/-- Assemblers that keep lengths take segments to the same place. -/
theorem Segment.SameButWords.move (ha : KeepsLength a) (hb : KeepsLength b) (h : s.SameButWords t)
    (requests : List MoveRequest) (moves : List RamMove) :
    (s.move a requests moves).SameButWords (t.move b requests moves) := by
  cases hfile : s.takesFile with
  | true =>
    rw [Segment.move_of_takesFile hfile, Segment.move_of_takesFile (h.takesFile.trans hfile)]
    exact h
  | false =>
    have hshifted := h.foldl_shift requests
    rw [Segment.move_of_not_takesFile hfile, Segment.move_of_not_takesFile (h.takesFile.trans hfile),
      hshifted.followsMoves]
    split
    · rename_i hfollows
      refine ⟨?_, ?_, fun hstays => ?_⟩
      · rw [hshifted.rest]
      · show (b.followMoves _ _ _).length = (a.followMoves _ _ _).length
        rw [ha, hb, hshifted.length]
      · exact absurd (hstays.symm.trans hfollows) (by decide)
    · exact hshifted

theorem SameButWords.move (ha : KeepsLength a) (hb : KeepsLength b) (h : p.SameButWords q) (space : AddressSpace)
    (requests : List MoveRequest) : (p.move a space requests).SameButWords (q.move b space requests) := by
  have hmoves : q.moves = p.moves := by
    rw [h.rest]
  unfold Patch.move
  rw [hmoves]
  dsimp only
  split
  · exact h
  · refine ⟨?_, ?_⟩
    · rw [h.rest]
    · rw [List.forall₂_map_left_iff, List.forall₂_map_right_iff]
      exact h.segments.imp fun _ _ hs => hs.move ha hb _ _

theorem SameButWords.foldl_move (ha : KeepsLength a) (hb : KeepsLength b) (h : p.SameButWords q) (space : AddressSpace)
    (calls : List (List MoveRequest)) :
    (calls.foldl (Patch.move a space) p).SameButWords (calls.foldl (Patch.move b space) q) := by
  induction calls generalizing p q with
  | nil => exact h
  | cons requests rest ih => exact ih (h.move ha hb space requests)

end

/-! ## An assembler that leaves words alone -/

/-- The assembler that differs in that words do not follow moves. -/
def still (assembler : Assembler) : Assembler :=
  { assembler with followMoves := fun bytes _ _ => bytes }

theorem keepsLength_still (assembler : Assembler) : KeepsLength (still assembler) :=
  fun _ _ _ => rfl

section

variable {assembler : Assembler}

theorem Segment.move_still (requests : List MoveRequest) (moves : List RamMove) (s : Segment) :
    s.move (still assembler) requests moves = if s.takesFile then s else requests.foldl Segment.shift s := by
  unfold Segment.move
  exact ite_congr rfl (fun _ => rfl) fun _ => ite_self _

theorem Segment.move_still_append (requests more : List MoveRequest) (moves moves' moves'' : List RamMove)
    (s : Segment) : s.move (still assembler) (requests ++ more) moves =
      (s.move (still assembler) requests moves').move (still assembler) more moves'' := by
  rw [Segment.move_still, Segment.move_still, Segment.move_still]
  by_cases hfile : s.takesFile
  · rw [if_pos hfile, if_pos hfile, if_pos hfile]
  · rw [if_neg hfile, if_neg hfile, Segment.takesFile_foldl_shift, if_neg hfile, List.foldl_append]

theorem Variable.move_append (requests more : List MoveRequest) (v : Variable) :
    v.move (requests ++ more) = (v.move requests).move more := by
  unfold Variable.move
  rw [List.map_map]
  simp only [List.foldl_append]
  rfl

/-- Nothing to carry out is no special case. -/
theorem move_still (space : AddressSpace) (p : Patch) (requests : List MoveRequest) :
    p.move (still assembler) space requests =
      { p with
        segments := p.segments.map
          (Segment.move (still assembler) (carriedOut space p.moves requests) (newMoves space p.moves requests))
        vars := p.vars.map (Variable.move (carriedOut space p.moves requests))
        moves := p.moves ++ newMoves space p.moves requests } := by
  unfold Patch.move carriedOut newMoves
  dsimp only
  split
  · rename_i hnone
    rw [List.map_eq_nil_iff.1 hnone]
    have hsegments : p.segments.map (Segment.move (still assembler) [] []) = p.segments :=
      (List.map_congr_left fun s _ => (Segment.move_still [] [] s).trans (ite_self _)).trans (List.map_id _)
    have hvars : p.vars.map (Variable.move []) = p.vars :=
      (List.map_congr_left fun v _ => show { v with places := v.places.map id } = v by rw [List.map_id]).trans
        (List.map_id _)
    show p = { p with
      segments := p.segments.map (Segment.move (still assembler) [] [])
      vars := p.vars.map (Variable.move [])
      moves := p.moves ++ [] }
    rw [hsegments, hvars, List.append_nil]
  · rfl

theorem move_still_append (space : AddressSpace) (p : Patch) (requests more : List MoveRequest) :
    p.move (still assembler) space (requests ++ more) =
      (p.move (still assembler) space requests).move (still assembler) space more := by
  rw [move_still, move_still, move_still, carriedOut_append, newMoves_append]
  dsimp only
  rw [List.map_map, List.map_map, List.append_assoc]
  congr 1
  · exact List.map_congr_left fun s _ => Segment.move_still_append _ _ _ _ _ s
  · exact List.map_congr_left fun v _ => Variable.move_append _ _ v

theorem foldl_move_still (space : AddressSpace) (p : Patch) (calls : List (List MoveRequest)) :
    calls.foldl (Patch.move (still assembler) space) p = p.move (still assembler) space calls.flatten := by
  induction calls generalizing p with
  | nil =>
    show p = _
    exact (move_of_known _ (List.forall_mem_nil _)).symm
  | cons requests rest ih => rw [List.foldl_cons, ih, List.flatten_cons, move_still_append]

end

/-! ## Batches -/

/-- However requests are spread over calls, they place things alike. -/
theorem sameButWords_foldl_move {assembler : Assembler} (hkeeps : KeepsLength assembler) (space : AddressSpace)
    (p : Patch) (calls : List (List MoveRequest)) :
    (p.move assembler space calls.flatten).SameButWords (calls.foldl (Patch.move assembler space) p) := by
  have hbatch := (SameButWords.refl p).move hkeeps (keepsLength_still assembler) space calls.flatten
  rw [← foldl_move_still] at hbatch
  exact hbatch.trans ((SameButWords.refl p).foldl_move (keepsLength_still assembler) hkeeps space calls)

/-- One call with a list of requests, whether they overlap or are repeated, leaves what one call after the other
leaves for its elements in order, but for the words of code that follows moves. -/
theorem move_sameButWords_one_by_one (assembler : Assembler) (hkeeps : KeepsLength assembler) (space : AddressSpace)
    (p : Patch) (requests : List MoveRequest) :
    (p.move assembler space requests).SameButWords
      (requests.foldl (fun p r => p.move assembler space [r]) p) := by
  have hcalls := sameButWords_foldl_move hkeeps space p (requests.map ([·]))
  rw [List.foldl_map] at hcalls
  rwa [← List.flatMap_def, List.flatMap_singleton'] at hcalls

/-- A word that refers to what both ranges move follows both moves only when they are made one by one. -/
theorem move_one_by_one_linked :
    let space := SectorTable.psx.space
    let batch := linked.move directives space [lower, upper, lower]
    let sequence := [lower, upper, lower].foldl (fun p r => p.move directives space [r]) linked
    KeepsLength directives ∧ batch.SameButWords sequence ∧ sequence.segments.map (·.ram) = [0x80010200, 0x80013800] ∧
      sequence.moves = [lower.ramMove space, upper.ramMove space] ∧
      batch.segments.map (wordOf ·.bytes 0) = [0x04030201, 0x80010100] ∧
      sequence.segments.map (wordOf ·.bytes 0) = [0x04030201, 0x80010200] := by
  intro space batch sequence
  have hkeeps : KeepsLength directives := fun bytes address moves => length_followMoves bytes address moves
  exact ⟨hkeeps, move_sameButWords_one_by_one directives hkeeps space linked [lower, upper, lower], by decide,
    by decide, by decide, by decide⟩

end DiscPatch.Patch
