/-
The moves that a patch remembers against the calls that brought them. A call takes the words in code along by
its own moves; an update encodes the code again and takes each word along once, by the first of all moves that
holds it. The two agree where no word has to follow its block more than once.
-/
import DiscPatch.Proofs.Assembly.Literal
import DiscPatch.Proofs.Patch.LabelReference

namespace DiscPatch.Patch

open Text Assembly

/-! ## Code that lies outside -/

/-- Whether the segment is checked code that follows moves, as it came from its literal source. -/
structure Segment.IsEncoded (s : Segment) (source : String) : Prop where
  assembly : s.assembly? = some source
  labelledHex : s.labelledHex? = none
  literal : LiteralSource source
  isCode : s.isCode
  movesFully : s.movesSimply = false
  noFault : s.faultText = ""

/-- Whether the segment meets none of the ranges that some calls move where some moves are known already. -/
def Segment.Outside (s : Segment) (known : List RamMove) (calls : List (AddressSpace × List MoveRequest)) : Prop :=
  ∀ r ∈ requestsOfCalls known calls, r.meets s.sector s.offset s.bytes.length = false

instance (s : Segment) (known : List RamMove) (calls : List (AddressSpace × List MoveRequest)) :
    Decidable (s.Outside known calls) :=
  inferInstanceAs (Decidable (∀ r ∈ requestsOfCalls known calls, _))

/-- A call changes no more than the words of such code. -/
theorem Segment.move_of_outside {s : Segment} {requests : List MoveRequest} (hcode : s.isCode)
    (hfully : s.movesSimply = false) (hfile : s.takesFile = false)
    (houtside : ∀ r ∈ requests, r.meets s.sector s.offset s.bytes.length = false) (moves : List RamMove) :
    s.move directives requests moves = { s with bytes := followMoves s.bytes s.ram moves } := by
  have hstays : requests.foldl Segment.shift s = s := by
    rw [Segment.foldl_shift, Segment.carried_of_outside houtside, UInt32.add_zero, UInt32.add_zero]
  unfold Segment.move
  rw [if_neg (by rw [hfile]; decide), hstays]
  dsimp only
  rw [if_pos (by rw [hcode, hfully]; rfl)]
  rfl

theorem getElem?_move_of_outside {space : AddressSpace} {p : Patch} {requests : List MoveRequest} {i : Nat}
    {s : Segment} (hs : p.segments[i]? = some s) (hcode : s.isCode) (hfully : s.movesSimply = false)
    (hfile : s.takesFile = false)
    (houtside : ∀ r ∈ carriedOut space p.moves requests, r.meets s.sector s.offset s.bytes.length = false) :
    (p.move directives space requests).segments[i]? =
      some { s with bytes := followMoves s.bytes s.ram (newMoves space p.moves requests) } := by
  unfold Patch.move newMoves
  dsimp only
  split
  · rename_i hnone
    rw [hnone, followMoves_nil]
    exact hs
  · rw [List.getElem?_map, hs, ← Segment.move_of_outside hcode hfully hfile houtside]
    rfl

theorem getElem?_move_of_takesFile {space : AddressSpace} {p : Patch} (requests : List MoveRequest) {i : Nat}
    {s : Segment} (hs : p.segments[i]? = some s) (hfile : s.takesFile) :
    (p.move directives space requests).segments[i]? = some s := by
  unfold Patch.move
  dsimp only
  split
  · exact hs
  · rw [List.getElem?_map, hs]
    exact congrArg some (Segment.move_of_takesFile hfile)

/-! ## Calls one after the other -/

theorem moves_moveAll (assembler : Assembler) (p : Patch) (calls : List (AddressSpace × List MoveRequest)) :
    (p.moveAll assembler calls).moves = p.moves ++ (movesOfCalls p.moves calls).flatten := by
  unfold moveAll
  induction calls generalizing p with
  | nil => exact (List.append_nil _).symm
  | cons call calls ih =>
    rw [List.foldl_cons, ih, moves_move, movesOfCalls, List.flatten_cons, List.append_assoc]

/-- All moves at once take a word that settles where those known at first and then those of each call take it. -/
theorem relocateWord_moves_moveAll (assembler : Assembler) {p : Patch}
    {calls : List (AddressSpace × List MoveRequest)} {word : UInt32}
    (h : Settles (p.moves :: movesOfCalls p.moves calls) word) :
    relocateWord (p.moveAll assembler calls).moves word =
      relocateThrough (p.moves :: movesOfCalls p.moves calls) word := by
  rw [moves_moveAll]
  exact relocateWord_flatten h

/-- The lists of moves that take the words of a segment along, one after the other. -/
def Segment.chain (s : Segment) (known : List RamMove) (calls : List (AddressSpace × List MoveRequest)) :
    List (List RamMove) :=
  if s.takesFile then [] else movesOfCalls known calls

/-- Outside of all ranges, code goes through the moves of one call after the other. -/
theorem getElem?_moveAll_of_outside {p : Patch} {calls : List (AddressSpace × List MoveRequest)} {i : Nat}
    {s : Segment} (hs : p.segments[i]? = some s) (hcode : s.isCode) (hfully : s.movesSimply = false)
    (houtside : s.Outside p.moves calls) :
    (p.moveAll directives calls).segments[i]? = some { s with
      bytes := (s.chain p.moves calls).foldl (fun bytes moves => followMoves bytes s.ram moves) s.bytes } := by
  unfold moveAll Segment.chain
  induction calls generalizing p s with
  | nil =>
    show p.segments[i]? = _
    rw [hs]
    split <;> rfl
  | cons call calls ih =>
    obtain ⟨hcall, hcalls⟩ := List.forall_mem_append.1 houtside
    rw [List.foldl_cons]
    cases hfile : s.takesFile with
    | true =>
      have hlater : s.Outside (p.move directives call.1 call.2).moves calls := by
        rw [moves_move]
        exact hcalls
      rw [ih (getElem?_move_of_takesFile call.2 hs hfile) hcode hfully hlater, hfile]
      rfl
    | false =>
      -- the words change, so that as many bytes as before stand outside of the other ranges
      have hlater : Segment.Outside { s with bytes := followMoves s.bytes s.ram (newMoves call.1 p.moves call.2) }
          (p.move directives call.1 call.2).moves calls := by
        rw [moves_move]
        intro r hr
        show r.meets s.sector s.offset (followMoves s.bytes s.ram _).length = false
        rw [length_followMoves]
        exact hcalls r hr
      rw [ih (getElem?_move_of_outside hs hcode hfully hfile hcall) hcode hfully hlater, moves_move]
      show some { s with bytes := List.foldl _ _ (if s.takesFile then _ else _) } = _
      rw [hfile]
      rfl

/-! ## Updates -/

theorem oneLined_symbolsOf {segments : List Segment}
    (h : ∀ label ∈ segments.filterMap (·.label?), '\n' ∉ label.toList) (vars : List Variable) :
    (symbolsOf segments vars).OneLined := by
  rw [symbolsOf_eq]
  refine ⟨fun b hb => h _ ?_, oneLined_equates vars⟩
  rw [← map_fst_labelsOf]
  exact List.mem_map_of_mem hb

theorem labels_update (assembler : Assembler) (p : Patch) :
    (p.update assembler).segments.filterMap (·.label?) = p.segments.filterMap (·.label?) := by
  rw [← map_fst_labelsOf, ← map_fst_labelsOf]
  exact congrArg (List.map Prod.fst) (labelsOf_refresh ..)

/-- Encoded again, literal source goes through all moves at once, unless there is nothing to encode. -/
theorem Segment.bytes_refresh_of_literal {s : Segment} {source : String} {symbols : Symbols}
    (hassembly : s.assembly? = some source) (hhex : s.labelledHex? = none) (hfully : s.movesSimply = false)
    (hliteral : LiteralSource source) (hsymbols : symbols.OneLined) (moves : List RamMove) :
    (s.refresh directives symbols moves).bytes = followMoves (encode source s.ram).bytes s.ram moves ∨
      (encode source s.ram).bytes = [] ∧ (s.refresh directives symbols moves).faultText ≠ "" ∧
        (s.refresh directives symbols moves).bytes = s.bytes := by
  have hencoded : (encode (symbols.prepend source) s.ram).bytes = (encode source s.ram).bytes :=
    bytes_encode_prepend hsymbols hliteral s.ram
  have hmoved : (if s.movesSimply ∨ moves = [] then (encode source s.ram).bytes
      else followMoves (encode source s.ram).bytes s.ram moves) =
        followMoves (encode source s.ram).bytes s.ram moves := by
    split
    · rename_i hstays
      rw [hstays.resolve_left (by rw [hfully]; decide), followMoves_nil]
    · rfl
  unfold Segment.refresh
  rw [hhex, hassembly]
  dsimp only [directives]
  rw [hencoded, hmoved]
  split
  · -- old bytes stay where only errors come out
    rename_i hlost
    refine .inr ⟨?_, hlost.2, rfl⟩
    rw [← List.length_eq_zero_iff, ← length_followMoves, hlost.1]
    rfl
  · exact .inl rfl

/-- What an update leaves in a checked segment is its literal source behind the moves known so far. -/
theorem Segment.IsEncoded.bytes_eq {p : Patch} {i : Nat} {u : Segment} {source : String} (h : u.IsEncoded source)
    (hu : (p.update directives).segments[i]? = some u)
    (hlabels : ∀ label ∈ p.segments.filterMap (·.label?), '\n' ∉ label.toList) :
    u.bytes = followMoves (encode source u.ram).bytes u.ram p.moves := by
  obtain ⟨s, -, hrefresh⟩ := Option.map_eq_some_iff.1 (List.getElem?_map.symm.trans hu)
  obtain ⟨_, _, hkept⟩ := s.refresh_eq directives (symbolsOf p.segments (deriveFrom [] p.vars).1) p.moves
  have hsame : s.assembly? = u.assembly? ∧ s.labelledHex? = u.labelledHex? ∧ s.movesSimply = u.movesSimply ∧
      s.ram = u.ram := by
    rw [← hrefresh, hkept]
    exact ⟨rfl, rfl, rfl, rfl⟩
  obtain ⟨hassembly, hhex, hsimply, hram⟩ := hsame
  have hrefreshed := Segment.bytes_refresh_of_literal (hassembly.trans h.assembly) (hhex.trans h.labelledHex)
    (hsimply.trans h.movesFully) h.literal (oneLined_symbolsOf hlabels (deriveFrom [] p.vars).1) p.moves
  rw [hrefresh, hram] at hrefreshed
  exact hrefreshed.resolve_right fun hlost => hlost.2.1 h.noFault

/-- After an update, calls that move parts of a patch, and another update, checked code outside of all ranges is
as the calls left it exactly if all moves at once take each aligned word of its encoding to where those known at
first and then those of each call take it. Code in an input file stays out of the calls, but not of the update. -/
theorem bytes_update_moveAll_iff (p : Patch) (calls : List (AddressSpace × List MoveRequest)) (i : Nat) (u : Segment)
    (source : String) (hu : (p.update directives).segments[i]? = some u) (hencoded : u.IsEncoded source)
    (hlabels : ∀ label ∈ p.segments.filterMap (·.label?), '\n' ∉ label.toList) (houtside : u.Outside p.moves calls) :
    let q := (p.update directives).moveAll directives calls
    let encoded := (encode source u.ram).bytes
    ∃ v w, q.segments[i]? = some v ∧ (q.update directives).segments[i]? = some w ∧
      (w.bytes = v.bytes ↔ ∀ pos, (u.ram.toNat + pos) % 4 = 0 → pos + 4 ≤ encoded.length →
        relocateWord q.moves (wordOf encoded pos) =
          relocateThrough (p.moves :: u.chain p.moves calls) (wordOf encoded pos)) := by
  intro q encoded
  have hv := getElem?_moveAll_of_outside hu hencoded.isCode hencoded.movesFully houtside
  have hcalls : (u.chain p.moves calls).foldl (fun bytes moves => followMoves bytes u.ram moves) u.bytes =
      (p.moves :: u.chain p.moves calls).foldl (fun bytes moves => followMoves bytes u.ram moves) encoded := by
    rw [List.foldl_cons, hencoded.bytes_eq hu hlabels]
  have hlabelsLater : ∀ label ∈ q.segments.filterMap (·.label?), '\n' ∉ label.toList := by
    rw [labels_moveAll, labels_update]
    exact hlabels
  let v : Segment :=
    { u with bytes := (u.chain p.moves calls).foldl (fun bytes moves => followMoves bytes u.ram moves) u.bytes }
  let symbols := symbolsOf q.segments (deriveFrom [] q.vars).1
  refine ⟨v, v.refresh directives symbols q.moves, hv, ?_, ?_⟩
  · show (q.segments.map _)[i]? = _
    rw [List.getElem?_map, hv]
    rfl
  · rcases v.bytes_refresh_of_literal hencoded.assembly hencoded.labelledHex hencoded.movesFully hencoded.literal
      (oneLined_symbolsOf hlabelsLater _) q.moves with hbytes | ⟨hnone, -, hbytes⟩
    · rw [← followMoves_eq_foldl_iff, ← hcalls, hbytes]
    · -- no word was encoded that could be taken along
      refine iff_of_true hbytes fun pos _ hfits => ?_
      have hempty : encoded.length = 0 := congrArg List.length hnone
      omega

/-! ## A block that moves twice -/

/-- Checked code that refers to `0x80010000`. -/
def pointer : Segment :=
  { (Segment.ofBytes mainSector 0x4000 []).assembled ".word 0x80010000" with
    ram := 0x80013800, movesSimply := false, isCode := true }

def pointing : Patch := ⟨"pointing", "", "", [pointer], [], [], false, false, ""⟩

/-- The pointer after an update. -/
def encodedPointer : Segment :=
  { pointer with bytes := [0, 0, 1, 0x80] }

/-- A block of the file that moves on by `0x100`, in a call of its own. -/
def onward (start stop : UInt32) : AddressSpace × List MoveRequest :=
  (SectorTable.psx.space, [⟨mainSector, start, stop, 0x100⟩])

theorem isEncoded_encodedPointer : encodedPointer.IsEncoded ".word 0x80010000" :=
  ⟨rfl, rfl, by decide +kernel, rfl, rfl, rfl⟩

/-- Two calls with blocks that do not meet again leave what the next update leaves. -/
theorem bytes_update_moveAll_apart :
    let calls := [onward 0x800 0x900, onward 0x2000 0x2100]
    let q := (pointing.update directives).moveAll directives calls
    (pointing.update directives).segments[0]? = some encodedPointer ∧
      encodedPointer.IsEncoded ".word 0x80010000" ∧
      (∀ label ∈ pointing.segments.filterMap (·.label?), '\n' ∉ label.toList) ∧
      encodedPointer.Outside pointing.moves calls ∧
      ∃ v w, q.segments[0]? = some v ∧ (q.update directives).segments[0]? = some w ∧ w.bytes = v.bytes := by
  intro calls q
  have hupdated : (pointing.update directives).segments[0]? = some encodedPointer := by decide +kernel
  have hlabels : ∀ label ∈ pointing.segments.filterMap (·.label?), '\n' ∉ label.toList := by decide
  have houtside : encodedPointer.Outside pointing.moves calls := by decide +kernel
  obtain ⟨v, w, hv, hw, hiff⟩ := bytes_update_moveAll_iff pointing calls 0 encodedPointer ".word 0x80010000" hupdated
    isEncoded_encodedPointer hlabels houtside
  have hlength : (encode ".word 0x80010000" encodedPointer.ram).bytes.length = 4 := by decide +kernel
  refine ⟨hupdated, isEncoded_encodedPointer, hlabels, houtside, v, w, hv, hw, hiff.2 fun pos _ hfits => ?_⟩
  obtain rfl : pos = 0 := by omega
  exact relocateWord_moves_moveAll directives (p := pointing.update directives) (by decide +kernel)

/-- The second call moves on what the first one moved, which the next update forgets. -/
theorem bytes_update_moveAll_moved_on :
    let calls := [onward 0x800 0x900, onward 0x900 0xA00]
    let q := (pointing.update directives).moveAll directives calls
    (pointing.update directives).segments[0]? = some encodedPointer ∧
      encodedPointer.IsEncoded ".word 0x80010000" ∧ encodedPointer.Outside pointing.moves calls ∧
      (∀ call ∈ calls, ∀ r ∈ call.2, r.distance.toInt % 4 = 0) ∧
      ∃ v w, q.segments[0]? = some v ∧ (q.update directives).segments[0]? = some w ∧
        v.bytes = [0, 2, 1, 0x80] ∧ w.bytes = [0, 1, 1, 0x80] := by
  intro calls q
  exact ⟨by decide +kernel, isEncoded_encodedPointer, by decide +kernel, by decide,
    { pointer with bytes := [0, 2, 1, 0x80] }, { pointer with bytes := [0, 1, 1, 0x80] }, by decide +kernel,
    by decide +kernel, rfl, rfl⟩

end DiscPatch.Patch
