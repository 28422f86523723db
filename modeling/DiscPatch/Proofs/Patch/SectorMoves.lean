/-
Relocations of different sectors: each takes along what it meets in its own sector, as long as its block
of RAM has not moved before. Two sectors may be loaded to the same RAM, and the second request for one
block is passed over whatever its sector, so what stands in that sector stays behind.
-/
import DiscPatch.Proofs.Patch.FreshMoves
import DiscPatch.Proofs.Patch.Relocation

namespace DiscPatch.Patch

open Assembly

/-! ## Spans -/

/-- Bytes of a patch in their place. -/
structure Span where
  place : Place
  length : Nat
  /-- Whether relocations leave the bytes where they are, as they do with files chosen by the user. -/
  isFixed : Bool
  deriving DecidableEq

def Segment.span (s : Segment) : Span :=
  ⟨⟨s.sector, s.offset, s.ram⟩, s.bytes.length, s.takesFile⟩

def Variable.spans (v : Variable) : List Span :=
  v.places.map fun place => ⟨place, v.size, false⟩

/-- All spans of a patch. -/
def spans (p : Patch) : List Span :=
  p.segments.map Segment.span ++ p.vars.flatMap Variable.spans

namespace Span

/-- The span at a distance from its place. -/
def movedBy (x : Span) (distance : Int32) : Span :=
  { x with place :=
      { x.place with offset := shifted x.place.offset distance, ram := shifted x.place.ram distance } }

/-- Whether the span is to go with the requested range. -/
def meets (x : Span) (r : MoveRequest) : Bool :=
  !x.isFixed && r.meets x.place.sector x.place.offset x.length

/-- Shifts the span if it meets the requested range. -/
def shift (x : Span) (r : MoveRequest) : Span :=
  if x.meets r then x.movedBy r.distance else x

/-- Whether `y` is the span moved by each request that it meets, or the span itself if it meets none. -/
def GoesTo (requests : List MoveRequest) (x y : Span) : Prop :=
  (∀ r ∈ requests, x.meets r → y = x.movedBy r.distance) ∧ ((∀ r ∈ requests, x.meets r = false) → y = x)

instance (requests : List MoveRequest) (x y : Span) : Decidable (GoesTo requests x y) :=
  inferInstanceAs (Decidable (_ ∧ _))

variable {x : Span} {r : MoveRequest}

theorem shift_of_meets (h : x.meets r) : x.shift r = x.movedBy r.distance :=
  if_pos h

theorem shift_of_not_meets (h : x.meets r = false) : x.shift r = x :=
  if_neg (by rw [h]; decide)

theorem sector_of_meets (h : x.meets r) : x.place.sector = r.sector := by
  unfold meets at h
  rw [Bool.and_eq_true, MoveRequest.meets_iff] at h
  exact h.2.1

theorem movedBy_eq_self_iff {distance : Int32} : x.movedBy distance = x ↔ distance = 0 := by
  constructor
  · intro h
    have hoffset : shifted x.place.offset distance = x.place.offset :=
      congrArg (fun y : Span => y.place.offset) h
    unfold shifted at hoffset
    rw [UInt32.add_eq_left] at hoffset
    exact congrArg UInt32.toInt32 hoffset
  · rintro rfl
    unfold movedBy shifted
    show Span.mk ⟨x.place.sector, x.place.offset + 0, x.place.ram + 0⟩ x.length x.isFixed = x
    rw [UInt32.add_zero, UInt32.add_zero]

/-- Requests that the span does not meet leave it in place. -/
theorem foldl_shift_of_not_meets {requests : List MoveRequest} (h : ∀ r ∈ requests, x.meets r = false) :
    requests.foldl shift x = x := by
  induction requests with
  | nil => rfl
  | cons r rest ih =>
    obtain ⟨hr, hrest⟩ := List.forall_mem_cons.1 h
    rw [List.foldl_cons, shift_of_not_meets hr, ih hrest]

theorem foldl_shift_of_isFixed (h : x.isFixed) (requests : List MoveRequest) : requests.foldl shift x = x := by
  refine foldl_shift_of_not_meets fun r _ => ?_
  unfold meets
  rw [h]
  rfl

/-! ## Requests of different sectors -/

variable {requests : List MoveRequest}

/-- Of requests for different sectors, a span meets one at most, and it stays in that one's sector. -/
theorem foldl_shift_of_mem (hsectors : (requests.map (·.sector)).Nodup) (hr : r ∈ requests) (hmeets : x.meets r) :
    requests.foldl shift x = x.movedBy r.distance := by
  induction requests with
  | nil => cases hr
  | cons first rest ih =>
    rw [List.map_cons, List.nodup_cons] at hsectors
    obtain ⟨hfirst, hrest⟩ := hsectors
    rcases List.mem_cons.1 hr with rfl | hr
    · rw [List.foldl_cons, shift_of_meets hmeets]
      refine foldl_shift_of_not_meets fun r' hr' => Bool.eq_false_iff.2 fun hmeets' => ?_
      have hsector : x.place.sector = r.sector := sector_of_meets hmeets
      have hsector' : (x.movedBy r.distance).place.sector = r'.sector := sector_of_meets hmeets'
      exact hfirst (List.mem_map.2 ⟨r', hr', hsector'.symm.trans hsector⟩)
    · have hnot : x.meets first = false := Bool.eq_false_iff.2 fun hmeets' =>
        hfirst (List.mem_map.2 ⟨r, hr, (sector_of_meets hmeets).symm.trans (sector_of_meets hmeets')⟩)
      rw [List.foldl_cons, shift_of_not_meets hnot, ih hrest hr]

/-- If only some of the requests are carried out, a span ends where all of them would take it exactly
when the one it meets is carried out or moves by nothing. -/
theorem goesTo_foldl_shift_iff {done : List MoveRequest} (hsectors : (requests.map (·.sector)).Nodup)
    (hdone : done.Sublist requests) :
    x.GoesTo requests (done.foldl shift x) ↔ ∀ r ∈ requests, x.meets r → r ∉ done → r.distance = 0 := by
  have hdoneSectors : (done.map (·.sector)).Nodup := hsectors.sublist (hdone.map _)
  have honly : ∀ r ∈ requests, ∀ r' ∈ requests, x.meets r → x.meets r' → r = r' := by
    intro r hr r' hr' hmeets hmeets'
    exact List.inj_on_of_nodup_map hsectors hr hr' ((sector_of_meets hmeets).symm.trans (sector_of_meets hmeets'))
  -- where the only request that the span meets is not carried out, nothing moves it
  have hstays : ∀ r ∈ requests, x.meets r → r ∉ done → done.foldl shift x = x := by
    intro r hr hmeets hundone
    refine foldl_shift_of_not_meets fun r' hr' => Bool.eq_false_iff.2 fun hmeets' => hundone ?_
    rw [honly r hr r' (hdone.subset hr') hmeets hmeets']
    exact hr'
  constructor
  · rintro ⟨hmet, -⟩ r hr hmeets hundone
    rw [← movedBy_eq_self_iff (x := x), ← hmet r hr hmeets, hstays r hr hmeets hundone]
  · intro h
    constructor
    · intro r hr hmeets
      by_cases hmem : r ∈ done
      · exact foldl_shift_of_mem hdoneSectors hmem hmeets
      · rw [hstays r hr hmeets hmem, movedBy_eq_self_iff.2 (h r hr hmeets hmem)]
    · exact fun hnone => foldl_shift_of_not_meets fun r hr => hnone r (hdone.subset hr)

end Span

/-! ## One call -/

theorem Segment.span_foldl_shift {s : Segment} (h : s.takesFile = false) (requests : List MoveRequest) :
    (requests.foldl Segment.shift s).span = requests.foldl Span.shift s.span := by
  induction requests generalizing s with
  | nil => rfl
  | cons r rest ih =>
    have hmeets : s.span.meets r = r.meets s.sector s.offset s.bytes.length := by
      unfold Span.meets
      rw [show s.span.isFixed = false from h]
      rfl
    rw [List.foldl_cons, List.foldl_cons]
    by_cases hr : r.meets s.sector s.offset s.bytes.length
    · rw [Segment.shift_of_meets hr, Span.shift_of_meets (hmeets.trans hr), ih]
      · rfl
      · exact h
    · rw [Segment.shift_of_not_meets (Bool.eq_false_iff.2 hr),
        Span.shift_of_not_meets (hmeets.trans (Bool.eq_false_iff.2 hr)), ih h]

/-- Whether words that follow moves leave the number of bytes as it is. -/
def KeepsLength (assembler : Assembler) : Prop :=
  ∀ bytes address moves, (assembler.followMoves bytes address moves).length = bytes.length

theorem Segment.span_move {assembler : Assembler} (hkeeps : KeepsLength assembler) (requests : List MoveRequest)
    (moves : List RamMove) (s : Segment) :
    (s.move assembler requests moves).span = requests.foldl Span.shift s.span := by
  by_cases h : s.takesFile
  · rw [Segment.move_of_takesFile h, Span.foldl_shift_of_isFixed h]
  · rw [← Segment.span_foldl_shift (by simpa using h)]
    unfold Segment.move
    rw [if_neg h]
    dsimp only
    split
    · -- only the bytes differ, and there are as many of them
      unfold Segment.span
      dsimp only
      rw [hkeeps]
      rfl
    · rfl

theorem Place.span_foldl_shift (size : Nat) (requests : List MoveRequest) (place : Place) :
    Span.mk (requests.foldl (Place.shift size) place) size false =
      requests.foldl Span.shift ⟨place, size, false⟩ := by
  induction requests generalizing place with
  | nil => rfl
  | cons r rest ih =>
    rw [List.foldl_cons, List.foldl_cons, ih]
    congr 1
    unfold Place.shift Span.shift
    show Span.mk (if r.meets place.sector place.offset size then _ else _) _ _ =
      if r.meets place.sector place.offset size then _ else _
    split <;> rfl

theorem Variable.spans_move (requests : List MoveRequest) (v : Variable) :
    (v.move requests).spans = v.spans.map (requests.foldl Span.shift) := by
  unfold Variable.spans Variable.move
  rw [List.map_map, List.map_map]
  exact List.map_congr_left fun place _ => Place.span_foldl_shift v.size requests place

/-- Whether each span of one patch is where `f` takes the span of another one that it comes from. -/
structure MovedBy (f : Span → Span) (p q : Patch) : Prop where
  segments : q.segments.map Segment.span = p.segments.map fun s => f s.span
  vars : q.vars.map Variable.spans = p.vars.map fun v => v.spans.map f

theorem MovedBy.trans {f g : Span → Span} {p q t : Patch} (h : MovedBy f p q) (h' : MovedBy g q t) :
    MovedBy (g ∘ f) p t := by
  constructor
  · calc t.segments.map Segment.span
        = (q.segments.map Segment.span).map g := by rw [h'.segments, List.map_map]; rfl
      _ = p.segments.map fun s => g (f s.span) := by rw [h.segments, List.map_map]; rfl
  · calc t.vars.map Variable.spans
        = (q.vars.map Variable.spans).map (·.map g) := by rw [h'.vars, List.map_map]; rfl
      _ = p.vars.map fun v => v.spans.map (g ∘ f) := by
        rw [h.vars, List.map_map]
        exact List.map_congr_left fun v _ => List.map_map

/-- One call carries out its requests on every span. -/
theorem movedBy_move {assembler : Assembler} (hkeeps : KeepsLength assembler) (space : AddressSpace) (p : Patch)
    (requests : List MoveRequest) :
    MovedBy ((carriedOut space p.moves requests).foldl Span.shift) p (p.move assembler space requests) := by
  unfold move carriedOut
  dsimp only
  split
  · rename_i hnone
    rw [List.map_eq_nil_iff.1 hnone]
    exact ⟨rfl, List.map_congr_left fun v _ => (List.map_id _).symm⟩
  · constructor
    · rw [List.map_map]
      exact List.map_congr_left fun s _ => Segment.span_move hkeeps _ _ s
    · rw [List.map_map]
      exact List.map_congr_left fun v _ => Variable.spans_move _ v

/-! ## One call after the other -/

/-- Calls one after the other carry out what one call with all their requests would. -/
theorem movedBy_foldl_move {assembler : Assembler} (hkeeps : KeepsLength assembler) (space : AddressSpace) (p : Patch)
    (calls : List (List MoveRequest)) :
    MovedBy ((carriedOut space p.moves calls.flatten).foldl Span.shift) p (calls.foldl (move assembler space) p) := by
  induction calls generalizing p with
  | nil => exact ⟨rfl, List.map_congr_left fun v _ => (List.map_id _).symm⟩
  | cons requests rest ih =>
    have hrest := (movedBy_move hkeeps space p requests).trans (ih (p.move assembler space requests))
    rw [moves_move] at hrest
    -- the later calls know the moves of the first one, as the rest of a single call would
    rw [List.flatten_cons, carriedOut_append, funext fun x => List.foldl_append]
    exact hrest

/-! ## Two sectors -/

/-- Whether each span of a patch is, in another patch, where the requests that it meets take it. -/
structure MovesEach (requests : List MoveRequest) (p q : Patch) : Prop where
  segments : List.Forall₂ (Span.GoesTo requests) (p.segments.map Segment.span) (q.segments.map Segment.span)
  vars : List.Forall₂ (List.Forall₂ (Span.GoesTo requests)) (p.vars.map Variable.spans) (q.vars.map Variable.spans)

/-- Whether it makes no difference to the patch if the request is carried out. -/
def Idle (p : Patch) (r : MoveRequest) : Prop :=
  r.distance = 0 ∨ ∀ x ∈ p.spans, x.meets r = false

theorem MovedBy.movesEach_iff {f : Span → Span} {p q : Patch} (h : MovedBy f p q) (requests : List MoveRequest) :
    MovesEach requests p q ↔ ∀ x ∈ p.spans, x.GoesTo requests (f x) := by
  have hsegments : List.Forall₂ (Span.GoesTo requests) (p.segments.map Segment.span) (q.segments.map Segment.span) ↔
      ∀ x ∈ p.segments.map Segment.span, x.GoesTo requests (f x) := by
    rw [h.segments, List.forall₂_map_left_iff, List.forall₂_map_right_iff, List.forall₂_same, List.forall_mem_map]
  have hvars : List.Forall₂ (List.Forall₂ (Span.GoesTo requests)) (p.vars.map Variable.spans)
      (q.vars.map Variable.spans) ↔ ∀ x ∈ p.vars.flatMap Variable.spans, x.GoesTo requests (f x) := by
    rw [h.vars, List.forall₂_map_left_iff, List.forall₂_map_right_iff, List.forall₂_same]
    simp only [List.forall₂_map_right_iff, List.forall₂_same, List.mem_flatMap]
    exact ⟨fun h x ⟨v, hv, hx⟩ => h v hv x hx, fun h v hv x hx => h x ⟨v, hv, hx⟩⟩
  unfold spans
  rw [List.forall_mem_append, ← hsegments, ← hvars]
  exact ⟨fun h => ⟨h.segments, h.vars⟩, fun h => ⟨h.1, h.2⟩⟩

theorem mem_carriedOut_pair (space : AddressSpace) (known : List RamMove) {r r' : MoveRequest} (hne : r ≠ r') :
    (r ∈ carriedOut space known [r, r'] ↔ r.ramMove space ∉ known) ∧
      (r' ∈ carriedOut space known [r, r'] ↔ r'.ramMove space ∉ known ∧ r'.ramMove space ≠ r.ramMove space) := by
  have hne' : r' ≠ r := hne.symm
  unfold carriedOut freshMoves freshMoves freshMoves
  by_cases h : r.ramMove space ∈ known
  · by_cases h' : r'.ramMove space ∈ known
    · simp [h, h']
    · have hmoves : r'.ramMove space ≠ r.ramMove space := fun heq => h' (heq ▸ h)
      simp [h, h', hne, hmoves]
  · by_cases h' : r'.ramMove space ∈ r.ramMove space :: known
    · rw [List.mem_cons] at h'
      rcases h' with heq | h'
      · simp [h, heq, hne']
      · simp [h, h', hne']
    · rw [List.mem_cons, not_or] at h'
      simp [h, h'.1, h'.2]

/-- After requests for two sectors, in one call or in several, each span that meets the range of its
sector has gone with it and the others are where they were, except for a request whose block of RAM moved
as far before: that one has to be idle. -/
theorem movesEach_foldl_move_iff {assembler : Assembler} (hkeeps : KeepsLength assembler) (space : AddressSpace)
    (p : Patch) (r r' : MoveRequest) (hsectors : r.sector ≠ r'.sector) (calls : List (List MoveRequest))
    (hcalls : calls.flatten = [r, r']) :
    MovesEach [r, r'] p (calls.foldl (move assembler space) p) ↔
      (r.ramMove space ∈ p.moves → p.Idle r) ∧
        (r'.ramMove space ∈ p.moves ∨ r'.ramMove space = r.ramMove space → p.Idle r') := by
  have hnodup : ([r, r'].map (·.sector)).Nodup := by simpa using hsectors
  have hne : r ≠ r' := fun heq => hsectors (congrArg _ heq)
  obtain ⟨hmem, hmem'⟩ := mem_carriedOut_pair space p.moves hne
  have hspan : ∀ x : Span, x.GoesTo [r, r'] ((carriedOut space p.moves [r, r']).foldl Span.shift x) ↔
      (x.meets r → r.ramMove space ∈ p.moves → r.distance = 0) ∧
        (x.meets r' → r'.ramMove space ∈ p.moves ∨ r'.ramMove space = r.ramMove space → r'.distance = 0) := by
    intro x
    rw [Span.goesTo_foldl_shift_iff hnodup (carriedOut_sublist space p.moves [r, r']), List.forall_mem_cons,
      List.forall_mem_singleton, hmem, hmem']
    simp only [not_and_or, not_not, ne_eq]
  have hidle : ∀ known : Prop, ∀ r : MoveRequest,
      (∀ x ∈ p.spans, x.meets r → known → r.distance = 0) ↔ (known → p.Idle r) := by
    intro known r
    unfold Idle
    constructor
    · intro h hknown
      by_cases hzero : r.distance = 0
      · exact Or.inl hzero
      · exact Or.inr fun x hx => Bool.eq_false_iff.2 fun hmeets => hzero (h x hx hmeets hknown)
    · intro h x hx hmeets hknown
      rcases h hknown with hzero | hnone
      · exact hzero
      · rw [hnone x hx] at hmeets
        cases hmeets
  rw [(movedBy_foldl_move hkeeps space p calls).movesEach_iff, hcalls, ← hidle, ← hidle, ← forall₂_and]
  exact forall₂_congr fun x _ => hspan x

/-! ## Two files loaded to the same RAM -/

/-- Both files of the other console's disc are loaded to `0x08803F60`. -/
def bootSector : Sector := ⟨.psp, 0x5C4⟩
def ebootSector : Sector := ⟨.psp, 0x3A2⟩

/-- The same piece of both files. -/
def twins : Patch :=
  ⟨"twins", "", "", [{ Segment.ofBytes bootSector 0x100 [1, 2, 3, 4] with ram := 0x08804060 },
    { Segment.ofBytes ebootSector 0x100 [5, 6, 7, 8] with ram := 0x08804060 }], [], [], false, false, ""⟩

def inBoot : MoveRequest := ⟨bootSector, 0x100, 0x200, 0x100⟩
def inEboot : MoveRequest := ⟨ebootSector, 0x100, 0x200, 0x100⟩

/-- A range of another length is another block, so both pieces move. -/
theorem movesEach_foldl_move_other_block :
    let wide : MoveRequest := { inEboot with stop := 0x300 }
    KeepsLength directives ∧ inBoot.sector ≠ wide.sector ∧ [[inBoot], [wide]].flatten = [inBoot, wide] ∧
      MovesEach [inBoot, wide] twins ([[inBoot], [wide]].foldl (move directives SectorTable.psp.space) twins) := by
  intro wide
  have hkeeps : KeepsLength directives := fun bytes address moves => length_followMoves bytes address moves
  refine ⟨hkeeps, by decide, rfl, ?_⟩
  refine (movesEach_foldl_move_iff hkeeps SectorTable.psp.space twins inBoot wide (by decide) _ rfl).2 ⟨?_, ?_⟩
  · intro hmem
    cases hmem
  · intro hknown
    exact absurd hknown (by decide)

/-- The piece of the second file stays behind, in one call and in two. -/
theorem foldl_move_leaves_second_sector :
    twins.moves = [] ∧ inBoot.sector ≠ inEboot.sector ∧ inBoot.start < inBoot.stop ∧ inEboot.start < inEboot.stop ∧
      ∀ calls ∈ [[[inBoot, inEboot]], [[inBoot], [inEboot]]],
        (calls.foldl (move directives SectorTable.psp.space) twins).segments.map (·.offset) = [0x200, 0x100] ∧
          ¬ MovesEach [inBoot, inEboot] twins (calls.foldl (move directives SectorTable.psp.space) twins) := by
  refine ⟨rfl, by decide, by decide, by decide, fun calls hcalls => ?_⟩
  rcases List.mem_pair.1 hcalls with rfl | rfl
  · exact ⟨by decide, fun h => absurd h.segments (by decide)⟩
  · exact ⟨by decide, fun h => absurd h.segments (by decide)⟩

end DiscPatch.Patch
