/-
One call for relocations: where it takes a segment, and what becomes of a word that refers to one. A
segment is tested against each range where the ranges before it have taken it, a word only where it
was, so a reference follows exactly when the later ranges leave the segment in place.
-/
import DiscPatch.Assembly.Directives
import DiscPatch.Patch.Move
import DiscPatch.Proofs.Assembly.References
import DiscPatch.Proofs.Relocation
import DiscPatch.Sector.Table

namespace DiscPatch.Patch

open Assembly

/-! ## Shifting segments -/

/-- How far the requests take a segment, each tested where those before it have taken it. -/
def Segment.carried (s : Segment) : List MoveRequest → UInt32
  | [] => 0
  | r :: rest =>
    (if r.meets s.sector s.offset s.bytes.length then r.distance.toUInt32 else 0) + (s.shift r).carried rest

theorem Segment.shift_of_meets {s : Segment} {r : MoveRequest} (h : r.meets s.sector s.offset s.bytes.length) :
    s.shift r = { s with offset := shifted s.offset r.distance, ram := shifted s.ram r.distance } :=
  if_pos h

theorem Segment.shift_of_not_meets {s : Segment} {r : MoveRequest}
    (h : r.meets s.sector s.offset s.bytes.length = false) : s.shift r = s :=
  if_neg (by rw [h]; decide)

/-- All requests together take the offset and the address of a segment equally far. -/
theorem Segment.foldl_shift (s : Segment) (requests : List MoveRequest) :
    requests.foldl Segment.shift s =
      { s with offset := s.offset + s.carried requests, ram := s.ram + s.carried requests } := by
  induction requests generalizing s with
  | nil =>
    rw [Segment.carried, UInt32.add_zero, UInt32.add_zero]
    rfl
  | cons r rest ih =>
    rw [List.foldl_cons, ih, Segment.carried]
    by_cases h : r.meets s.sector s.offset s.bytes.length
    · rw [if_pos h, Segment.shift_of_meets h, ← UInt32.add_assoc, ← UInt32.add_assoc]
      rfl
    · rw [if_neg h, Segment.shift_of_not_meets (Bool.eq_false_iff.2 h), UInt32.zero_add]

theorem Segment.carried_append (s : Segment) (before after : List MoveRequest) :
    s.carried (before ++ after) = s.carried before + (before.foldl Segment.shift s).carried after := by
  induction before generalizing s with
  | nil => rw [Segment.carried, UInt32.zero_add]; rfl
  | cons r before ih =>
    rw [List.cons_append, Segment.carried, ih, Segment.carried, UInt32.add_assoc]
    rfl

theorem Segment.carried_of_outside {s : Segment} {requests : List MoveRequest}
    (h : ∀ r ∈ requests, r.meets s.sector s.offset s.bytes.length = false) : s.carried requests = 0 := by
  induction requests with
  | nil => rfl
  | cons r rest ih =>
    obtain ⟨hr, hrest⟩ := List.forall_mem_cons.1 h
    rw [Segment.carried, Segment.shift_of_not_meets hr, ih hrest, hr]
    rfl

/-- A segment in the range of one request, which no request before meets, goes with that one first. -/
theorem Segment.carried_of_covers {s : Segment} {before after : List MoveRequest} {r : MoveRequest}
    (hin : r.Covers s.sector s.offset s.bytes.length) (hapart : ∀ r' ∈ before, r'.Apart r) :
    s.carried (before ++ r :: after) = r.distance.toUInt32 + (s.shift r).carried after := by
  have hbefore : s.carried before = 0 :=
    Segment.carried_of_outside fun r' hr' => hin.not_meets (hapart r' hr')
  rw [Segment.carried_append, Segment.foldl_shift, hbefore, UInt32.zero_add, UInt32.add_zero, UInt32.add_zero,
    Segment.carried, if_pos hin.meets]

/-! ## Moving segments -/

section

variable {assembler : Assembler} {requests : List MoveRequest} {moves : List RamMove} {s : Segment}

theorem Segment.move_of_takesFile (h : s.takesFile) : s.move assembler requests moves = s := by
  unfold Segment.move
  rw [if_pos h]

theorem Segment.ram_move (h : s.takesFile = false) :
    (s.move assembler requests moves).ram = s.ram + s.carried requests := by
  unfold Segment.move
  rw [if_neg (by simp [h]), Segment.foldl_shift]
  dsimp only
  split <;> rfl

theorem Segment.bytes_move_of_code (h : s.takesFile = false) (hcode : s.isCode) (hsimple : s.movesSimply = false) :
    (s.move assembler requests moves).bytes =
      assembler.followMoves s.bytes (s.ram + s.carried requests) moves := by
  unfold Segment.move
  rw [if_neg (by simp [h]), Segment.foldl_shift]
  dsimp only
  rw [if_pos (by simp [hcode, hsimple])]

end

/-- A segment goes equally far in the file and in memory, and only its bytes may change besides. -/
theorem Segment.move_eq (assembler : Assembler) (requests : List MoveRequest) (moves : List RamMove) (s : Segment) :
    ∃ distance bytes, s.move assembler requests moves =
      { s with offset := s.offset + distance, ram := s.ram + distance, bytes } := by
  by_cases h : s.takesFile
  · refine ⟨0, s.bytes, ?_⟩
    rw [Segment.move_of_takesFile h, UInt32.add_zero, UInt32.add_zero]
  · unfold Segment.move
    rw [if_neg h, Segment.foldl_shift]
    dsimp only
    split
    · exact ⟨_, _, rfl⟩
    · exact ⟨_, _, rfl⟩

/-- A place goes equally far in the file and in memory. -/
theorem Place.foldl_shift (size : Nat) (requests : List MoveRequest) (place : Place) :
    ∃ distance, requests.foldl (Place.shift size) place =
      { place with offset := place.offset + distance, ram := place.ram + distance } := by
  induction requests generalizing place with
  | nil =>
    refine ⟨0, ?_⟩
    rw [List.foldl_nil, UInt32.add_zero, UInt32.add_zero]
  | cons r rest ih =>
    rw [List.foldl_cons]
    unfold Place.shift
    split
    · obtain ⟨distance, h⟩ := ih _
      refine ⟨r.distance.toUInt32 + distance, h.trans ?_⟩
      rw [← UInt32.add_assoc, ← UInt32.add_assoc]
      rfl
    · exact ih place

/-! ## One call -/

/-- Requests of one call that are new to the patch and do not get in each other's way. -/
structure Separate (space : AddressSpace) (p : Patch) (requests : List MoveRequest) : Prop where
  nonempty : ∀ r ∈ requests, r.start < r.stop
  apart : requests.Pairwise MoveRequest.Apart
  blocksApart : requests.Pairwise fun r r' => (r.ramMove space).Apart (r'.ramMove space)
  new : ∀ r ∈ requests, r.ramMove space ∉ p.moves
  /-- No address wraps: each offset of a range is loaded into its block. -/
  unwrapped : ∀ r ∈ requests, ∀ offset, r.start ≤ offset → offset < r.stop →
    (r.ramMove space).contains (space.toRam r.sector offset)

theorem freshMoves_eq {space : AddressSpace} {known : List RamMove} {requests : List MoveRequest}
    (hnew : ∀ r ∈ requests, r.ramMove space ∉ known)
    (hpairwise : requests.Pairwise fun r r' => r.ramMove space ≠ r'.ramMove space) :
    freshMoves space known requests = requests.map fun r => (r, r.ramMove space) := by
  induction requests generalizing known with
  | nil => rfl
  | cons r rest ih =>
    obtain ⟨hr, hrest⟩ := List.forall_mem_cons.1 hnew
    obtain ⟨hfirst, hpairwise⟩ := List.pairwise_cons.1 hpairwise
    rw [freshMoves, if_neg hr, List.map_cons, ih _ hpairwise]
    intro r' hr' hmem
    rcases List.mem_cons.1 hmem with heq | hmem
    · exact hfirst r' hr' heq.symm
    · exact hrest r' hr' hmem

/-- All requests of such a call are carried out, each by a move of its own. -/
theorem Separate.freshMoves {space : AddressSpace} {p : Patch} {requests : List MoveRequest}
    (h : Separate space p requests) :
    freshMoves space p.moves requests = requests.map fun r => (r, r.ramMove space) := by
  refine freshMoves_eq h.new ?_
  refine List.Pairwise.imp_of_mem ?_ h.blocksApart
  intro r r' hr _ hapart heq
  -- a block that is apart from itself does not hold its first address
  have hstart := h.unwrapped r hr r.start (UInt32.le_refl _) (h.nonempty r hr)
  rw [← heq] at hapart
  have hnot := hapart.not_contains hstart
  rw [hstart] at hnot
  cases hnot

theorem Separate.segments_move (assembler : Assembler) {space : AddressSpace} {p : Patch}
    {requests : List MoveRequest} (h : Separate space p requests) (hne : requests ≠ []) :
    (p.move assembler space requests).segments =
      p.segments.map (Segment.move assembler requests (requests.map (·.ramMove space))) := by
  unfold move
  rw [h.freshMoves]
  dsimp only
  rw [List.map_map, List.map_map, if_neg (by simpa using hne)]
  show p.segments.map (Segment.move assembler (requests.map id) _) = _
  rw [List.map_id]
  rfl

/-! ## References -/

/-- The segment `u` lies in the range of `r`, and the code `v` outside of all ranges holds the address
of `u` in its word at `k`. -/
structure Refers (space : AddressSpace) (requests : List MoveRequest) (r : MoveRequest) (u v : Segment)
    (k : Nat) : Prop where
  inside : r.Covers u.sector u.offset u.bytes.length
  loaded : u.ram = space.toRam u.sector u.offset
  outside : ∀ r' ∈ requests, r'.meets v.sector v.offset v.bytes.length = false
  isCode : v.isCode = true
  movesFully : v.movesSimply = false
  keepsBytes : v.takesFile = false
  aligned : (v.ram.toNat + k) % 4 = 0
  fits : k + 4 ≤ v.bytes.length
  word : wordOf v.bytes k = u.ram

/-- The word becomes the address to which the request takes the segment. -/
theorem Refers.relocateWord {space : AddressSpace} {p : Patch} {before after : List MoveRequest}
    {r : MoveRequest} {u v : Segment} {k : Nat} (hsep : Separate space p (before ++ r :: after))
    (h : Refers space (before ++ r :: after) r u v k) :
    relocateWord ((before ++ r :: after).map (·.ramMove space)) u.ram = u.ram + r.distance.toUInt32 := by
  obtain ⟨hsector, hstart, hstop⟩ := h.inside
  have hcontains : (r.ramMove space).contains u.ram := by
    rw [h.loaded, hsector]
    refine hsep.unwrapped r (by simp) u.offset (UInt32.le_iff_toNat_le.2 hstart) (UInt32.lt_iff_toNat_lt.2 ?_)
    omega
  have hbefore : ∀ m ∈ before.map (·.ramMove space), m.contains u.ram = false := by
    intro m hm
    obtain ⟨r', hr', rfl⟩ := List.mem_map.1 hm
    have hapart := (List.pairwise_append.1 hsep.blocksApart).2.2 r' hr' r (List.mem_cons_self ..)
    exact hapart.not_contains hcontains
  rw [List.map_append, List.map_cons]
  exact relocateWord_of_first hbefore hcontains

/-- A reference follows its segment exactly when the later ranges that the segment meets on its way
take it nowhere; a file chosen by the user stays, so its references must stay as well. -/
theorem move_follows_iff (space : AddressSpace) (p : Patch) (before after : List MoveRequest) (r : MoveRequest)
    (u v : Segment) (i j k : Nat) (hsep : Separate space p (before ++ r :: after))
    (hu : p.segments[i]? = some u) (hv : p.segments[j]? = some v)
    (href : Refers space (before ++ r :: after) r u v k) :
    ∃ u' v', (p.move directives space (before ++ r :: after)).segments[i]? = some u' ∧
      (p.move directives space (before ++ r :: after)).segments[j]? = some v' ∧
      wordOf v'.bytes k = shifted u.ram r.distance ∧
      (wordOf v'.bytes k = u'.ram ↔
        if u.takesFile then r.distance.toUInt32 = 0 else (u.shift r).carried after = 0) := by
  let requests := before ++ r :: after
  let moves := requests.map (·.ramMove space)
  have hsegments := hsep.segments_move directives (by simp)
  have hword : wordOf (v.move directives requests moves).bytes k = u.ram + r.distance.toUInt32 := by
    rw [Segment.bytes_move_of_code href.keepsBytes href.isCode href.movesFully,
      Segment.carried_of_outside href.outside, UInt32.add_zero]
    show wordOf (followMoves v.bytes v.ram moves) k = _
    rw [wordOf_followMoves moves href.aligned href.fits, href.word, href.relocateWord hsep]
  refine ⟨u.move directives requests moves, v.move directives requests moves, ?_, ?_, hword, ?_⟩
  · rw [hsegments, List.getElem?_map, hu]
    rfl
  · rw [hsegments, List.getElem?_map, hv]
    rfl
  · rw [hword]
    split
    · rw [Segment.move_of_takesFile ‹_›]
      exact UInt32.add_eq_left
    · have hapart : ∀ r' ∈ before, r'.Apart r := fun r' hr' =>
        (List.pairwise_append.1 hsep.apart).2.2 r' hr' r (List.mem_cons_self ..)
      rw [Segment.ram_move (by simpa using ‹¬ u.takesFile = true›),
        Segment.carried_of_covers href.inside hapart, ← UInt32.add_assoc, eq_comm]
      exact UInt32.add_eq_left

/-! ## Two neighbouring ranges -/

theorem separate_of_lt {space : AddressSpace} {p : Patch} {requests : List MoveRequest} {i : Nat}
    (hbits : 2 ^ i ∣ space.uncachedBits.toNat) (hi : i ≤ 32)
    (hlt : ∀ r ∈ requests, r.stop.toNat + (space.loadAddress r.sector).toNat < 2 ^ i)
    (nonempty : ∀ r ∈ requests, r.start < r.stop) (apart : requests.Pairwise MoveRequest.Apart)
    (blocksApart : requests.Pairwise fun r r' => (r.ramMove space).Apart (r'.ramMove space))
    (new : ∀ r ∈ requests, r.ramMove space ∉ p.moves) : Separate space p requests :=
  ⟨nonempty, apart, blocksApart, new, fun r hr _ hstart hstop =>
    MoveRequest.contains_toRam hbits hi (hlt r hr) hstart hstop⟩

/-- The first file of the disc, loaded at `0xF800`. -/
def mainSector : Sector := ⟨.psx, 24⟩

def callee : Segment := { Segment.ofBytes mainSector 0x800 [1, 2, 3, 4] with ram := 0x80010000 }

/-- Code that holds the address of `callee`. -/
def caller : Segment :=
  { Segment.ofBytes mainSector 0x4000 [0, 0, 1, 0x80] with ram := 0x80013800, isCode := true }

def linked : Patch := ⟨"linked", "", "", [callee, caller], [], [], false, false, ""⟩

/-- The range of `callee`, which moves to where `upper` starts. -/
def lower : MoveRequest := ⟨mainSector, 0x800, 0x900, 0x100⟩
def upper : MoveRequest := ⟨mainSector, 0x900, 0xA00, 0x100⟩

/-- With the upper range first, the segment is not carried on. -/
theorem move_follows_upper_first :
    Separate SectorTable.psx.space linked [upper, lower] ∧
      Refers SectorTable.psx.space [upper, lower] lower callee caller 0 ∧
      ∃ u' v', (linked.move directives SectorTable.psx.space [upper, lower]).segments[0]? = some u' ∧
        (linked.move directives SectorTable.psx.space [upper, lower]).segments[1]? = some v' ∧
        wordOf v'.bytes 0 = 0x80010100 ∧ wordOf v'.bytes 0 = u'.ram := by
  have hsep : Separate SectorTable.psx.space linked [upper, lower] :=
    separate_of_lt (i := 31) (by decide) (by decide) (by decide) (by decide) (by decide) (by decide) (by decide)
  have href : Refers SectorTable.psx.space [upper, lower] lower callee caller 0 :=
    ⟨by decide, by decide, by decide, rfl, rfl, rfl, by decide, by decide, by decide⟩
  obtain ⟨u', v', hu, hv, hword, hiff⟩ :=
    move_follows_iff SectorTable.psx.space linked [upper] [] lower callee caller 0 1 0 hsep rfl rfl href
  exact ⟨hsep, href, u', v', hu, hv, hword, hiff.2 (by decide)⟩

/-- With the lower range first, the upper one carries the segment on, and its reference is lost. -/
theorem move_loses_lower_first :
    let q := linked.move directives SectorTable.psx.space [lower, upper]
    Separate SectorTable.psx.space linked [lower, upper] ∧
      (∀ r ∈ [lower, upper], r.distance.toInt % 4 = 0 ∧ 0 ≤ r.distance.toInt ∧
        r.stop.toNat + r.distance.toInt < 2 ^ 32 ∧
        (SectorTable.psx.space.toRam r.sector r.stop).toNat + r.distance.toInt < 2 ^ 32) ∧
      Refers SectorTable.psx.space [lower, upper] lower callee caller 0 ∧
      ∃ u' v', q.segments = [u', v'] ∧ u'.ram = 0x80010200 ∧ wordOf v'.bytes 0 = 0x80010100 ∧
        wordOf v'.bytes 0 ≠ u'.ram := by
  intro q
  have hsep : Separate SectorTable.psx.space linked [lower, upper] :=
    separate_of_lt (i := 31) (by decide) (by decide) (by decide) (by decide) (by decide) (by decide) (by decide)
  have href : Refers SectorTable.psx.space [lower, upper] lower callee caller 0 :=
    ⟨by decide, by decide, by decide, rfl, rfl, rfl, by decide, by decide, by decide⟩
  exact ⟨hsep, by decide, href, { callee with offset := 0xA00, ram := 0x80010200 },
    { caller with bytes := [0, 1, 1, 0x80] }, by decide, rfl, by decide, by decide⟩

end DiscPatch.Patch
