/-
What no run of a patch changes: `Extends` between its states, one lemma for each operation, and the
invariant `Sound` of each state. What a segment or a variable is stays as it was built; its place drifts by
the same distance in the file and in memory, and the recorded moves grow.
-/
import DiscPatch.Proofs.Bytes.Field
import DiscPatch.Proofs.Patch.FreshMoves
import DiscPatch.Proofs.Patch.Relocation
import DiscPatch.Proofs.Patch.Run

namespace DiscPatch.Patch

open Assembly

/-! ## Definitions -/

/-- How a place may drift: not to another sector, and equally far in the file and in memory. -/
structure Place.Drifts (x y : Place) : Prop where
  sector : y.sector = x.sector
  ram : y.ram - y.offset = x.ram - x.offset

/-- The source apart from which file was chosen. -/
def Source.withoutChoice : Source → Source
  | .chosenFile _ expected => .chosenFile none expected
  | source => source

/-- What is fixed about a segment. -/
structure Segment.Signature where
  sector : Sector
  source : Source
  assembly? : Option String
  labelledHex? : Option String
  label? : Option String
  isData : Bool
  isChained : Bool
  movesSimply : Bool
  isCode : Bool
  deriving DecidableEq

namespace Segment

def signature (s : Segment) : Signature where
  sector := s.sector
  source := s.source.withoutChoice
  assembly? := s.assembly?
  labelledHex? := s.labelledHex?
  label? := s.label?
  isData := s.isData
  isChained := s.isChained
  movesSimply := s.movesSimply
  isCode := s.isCode

def place (s : Segment) : Place :=
  ⟨s.sector, s.offset, s.ram⟩

/-- Whether a chosen file fills the segment, unless there is source that replaces its content. -/
def Filled (s : Segment) : Prop :=
  ∀ path expected, s.source = .chosenFile (some path) expected → s.assembly? = none → s.labelledHex? = none →
    s.bytes.length = expected.toNat

/-- How a segment may evolve. -/
structure Evolves (s t : Segment) : Prop where
  signature : t.signature = s.signature
  place : s.place.Drifts t.place
  filled : s.Filled → t.Filled

end Segment

/-- What is fixed about a variable. -/
structure Variable.Signature where
  name : String
  size : Nat
  reference? : Option Reference
  deriving DecidableEq

namespace Variable

/-- The variable apart from its value and its places. -/
def signature (v : Variable) : Signature :=
  ⟨v.name, v.size, v.reference?⟩

/-- Whether the value needs no more bytes than the variable has. -/
def Fits (v : Variable) : Prop :=
  v.value.toNat < 256 ^ v.size

/-- How a variable may evolve. -/
structure Evolves (v w : Variable) : Prop where
  signature : w.signature = v.signature
  places : List.Forall₂ Place.Drifts v.places w.places
  fits : v.Fits → w.Fits

end Variable

/-- `q` extends `p`: it has the same segments and variables as far as they are fixed, and remembers the moves
of `p` and new ones behind them. -/
structure Extends (p q : Patch) : Prop where
  segments : List.Forall₂ Segment.Evolves p.segments q.segments
  vars : List.Forall₂ Variable.Evolves p.vars q.vars
  moves : p.moves <+: q.moves
  distinct : p.moves.Nodup → q.moves.Nodup

/-- Variables with names of their own, the derived ones referring to variables among them. -/
structure Resolved (vars : List Variable) : Prop where
  names : (vars.map (·.name)).Nodup
  references : ∀ v ∈ vars, ∀ r, v.reference? = some r → r.name ∈ vars.map (·.name)

/-- What holds of a patch in each state. -/
structure Sound (p : Patch) : Prop where
  resolved : Resolved p.vars
  values : ∀ v ∈ p.vars, v.Fits
  moves : p.moves.Nodup
  files : ∀ s ∈ p.segments, s.Filled

/-! ## Extends is a preorder -/

theorem forall₂_trans {α : Type} {R : α → α → Prop} (htrans : ∀ a b c, R a b → R b c → R a c) :
    ∀ {l m n : List α}, List.Forall₂ R l m → List.Forall₂ R m n → List.Forall₂ R l n
  | [], [], [], _, _ => .nil
  | _ :: _, _ :: _, _ :: _, .cons h hrest, .cons h' hrest' =>
    .cons (htrans _ _ _ h h') (forall₂_trans htrans hrest hrest')

theorem Place.Drifts.refl (x : Place) : x.Drifts x :=
  ⟨rfl, rfl⟩

theorem Place.Drifts.trans {x y z : Place} (h : x.Drifts y) (h' : y.Drifts z) : x.Drifts z :=
  ⟨h'.sector.trans h.sector, h'.ram.trans h.ram⟩

theorem Segment.Evolves.refl (s : Segment) : s.Evolves s :=
  ⟨rfl, .refl _, id⟩

theorem Segment.Evolves.trans {s t u : Segment} (h : s.Evolves t) (h' : t.Evolves u) : s.Evolves u :=
  ⟨h'.signature.trans h.signature, h.place.trans h'.place, h'.filled ∘ h.filled⟩

theorem Variable.Evolves.refl (v : Variable) : v.Evolves v :=
  ⟨rfl, List.forall₂_same.2 fun _ _ => .refl _, id⟩

theorem Variable.Evolves.trans {v w x : Variable} (h : v.Evolves w) (h' : w.Evolves x) : v.Evolves x :=
  ⟨h'.signature.trans h.signature, forall₂_trans (fun _ _ _ h h' => h.trans h') h.places h'.places,
    h'.fits ∘ h.fits⟩

theorem Extends.refl (p : Patch) : p.Extends p :=
  ⟨List.forall₂_same.2 fun _ _ => .refl _, List.forall₂_same.2 fun _ _ => .refl _, List.prefix_rfl, id⟩

theorem Extends.trans {p q t : Patch} (h : p.Extends q) (h' : q.Extends t) : p.Extends t :=
  ⟨forall₂_trans (fun _ _ _ h h' => h.trans h') h.segments h'.segments,
    forall₂_trans (fun _ _ _ h h' => h.trans h') h.vars h'.vars, h.moves.trans h'.moves,
    h'.distinct ∘ h.distinct⟩

/-- One element that evolves among others that stay. -/
theorem forall₂_middle {α : Type} {R : α → α → Prop} (hrefl : ∀ a, R a a) (before : List α) {a b : α} (h : R a b)
    (after : List α) : List.Forall₂ R (before ++ a :: after) (before ++ b :: after) :=
  List.rel_append (List.forall₂_same.2 fun _ _ => hrefl _) (.cons h (List.forall₂_same.2 fun _ _ => hrefl _))

/-! ## Updates -/

theorem Variable.fits_set (v : Variable) (value : UInt32) : (v.set value).Fits := by
  show (Bytes.fit v.size value).toNat < 256 ^ v.size
  calc (Bytes.fit v.size value).toNat
      = value.toNat % 256 ^ min v.size 4 := Bytes.toNat_fit v.size value
    _ < 256 ^ min v.size 4 := Nat.mod_lt _ (by positivity)
    _ ≤ 256 ^ v.size := Nat.pow_le_pow_right (by decide) (Nat.min_le_left ..)

theorem Variable.evolves_set (v : Variable) (value : UInt32) : v.Evolves (v.set value) :=
  ⟨rfl, List.forall₂_same.2 fun _ _ => .refl _, fun _ => v.fits_set value⟩

theorem evolves_of_derive {vars : List Variable} {v w : Variable} (h : derive vars v = .ok w) : v.Evolves w := by
  unfold derive at h
  split at h
  · cases h
    exact .refl v
  · split at h
    · cases h
    · split at h
      · cases h
        exact v.evolves_set _
      · cases h

/-- A derivation keeps the variables in front and changes at most the values of the others. -/
theorem deriveFrom_evolves (rest done : List Variable) :
    ∃ new, (deriveFrom done rest).1 = done ++ new ∧ List.Forall₂ Variable.Evolves rest new := by
  induction rest generalizing done with
  | nil => exact ⟨[], by rw [deriveFrom, List.append_nil], .nil⟩
  | cons v rest ih =>
    rw [deriveFrom]
    split
    · rename_i w hw
      obtain ⟨new, hnew, hevolves⟩ := ih (done ++ [w])
      exact ⟨w :: new, by rw [hnew, List.append_assoc]; rfl, .cons (evolves_of_derive hw) hevolves⟩
    · obtain ⟨new, hnew, hevolves⟩ := ih (done ++ [v])
      refine ⟨v :: new, ?_, .cons (.refl v) hevolves⟩
      show (deriveFrom (done ++ [v]) rest).1 = _
      rw [hnew, List.append_assoc]
      rfl

/-- Encoding again changes the bytes of a segment and what is wrong with them, and nothing else. -/
theorem Segment.refresh_eq (assembler : Assembler) (symbols : Symbols) (moves : List RamMove) (s : Segment) :
    ∃ bytes faultText, s.refresh assembler symbols moves = { s with bytes, faultText } := by
  unfold Segment.refresh
  split
  · split <;> exact ⟨_, _, rfl⟩
  · exact ⟨_, _, rfl⟩
  · exact ⟨_, _, rfl⟩

theorem Segment.refresh_of_no_source {s : Segment} (hassembly : s.assembly? = none) (hhex : s.labelledHex? = none)
    (assembler : Assembler) (symbols : Symbols) (moves : List RamMove) : s.refresh assembler symbols moves = s := by
  unfold Segment.refresh
  rw [hassembly, hhex]

/-- Text with labels in it gives the bytes, where it gives any. -/
theorem Segment.refresh_of_labelled {s : Segment} {source : String} (hsource : s.labelledHex? = some source)
    (assembler : Assembler) (symbols : Symbols) (moves : List RamMove) : s.refresh assembler symbols moves =
      ((Bytes.ofHex? (assembler.fillLabels source symbols)).map fun bytes => { s with bytes }).getD s := by
  unfold Segment.refresh
  rw [hsource]
  dsimp only
  cases Bytes.ofHex? (assembler.fillLabels source symbols) <;> rfl

theorem Segment.evolves_refresh (assembler : Assembler) (symbols : Symbols) (moves : List RamMove) (s : Segment) :
    s.Evolves (s.refresh assembler symbols moves) := by
  obtain ⟨bytes, faultText, heq⟩ := s.refresh_eq assembler symbols moves
  refine ⟨by rw [heq]; rfl, by rw [heq]; exact .refl _, fun hfilled path expected hsource hassembly hhex => ?_⟩
  -- a segment without source is not encoded
  have hassembly' : s.assembly? = none := by rw [heq] at hassembly; exact hassembly
  have hhex' : s.labelledHex? = none := by rw [heq] at hhex; exact hhex
  rw [Segment.refresh_of_no_source hassembly' hhex'] at hsource ⊢
  exact hfilled path expected hsource hassembly' hhex'

theorem extends_update (assembler : Assembler) (p : Patch) : p.Extends (p.update assembler) := by
  obtain ⟨new, hnew, hevolves⟩ := deriveFrom_evolves p.vars []
  have hvars : (p.update assembler).vars = new := hnew
  refine ⟨?_, by rw [hvars]; exact hevolves, List.prefix_rfl, id⟩
  exact List.forall₂_map_right_iff.2 (List.forall₂_same.2 fun s _ => s.evolves_refresh ..)

/-! ## Moves -/

theorem Place.drifts_add (place : Place) (distance : UInt32) :
    place.Drifts { place with offset := place.offset + distance, ram := place.ram + distance } :=
  ⟨rfl, by grind⟩

theorem Segment.evolves_move (assembler : Assembler) (requests : List MoveRequest) (moves : List RamMove)
    (s : Segment) : s.Evolves (s.move assembler requests moves) := by
  by_cases h : s.takesFile
  · rw [Segment.move_of_takesFile h]
    exact .refl s
  · obtain ⟨distance, bytes, heq⟩ := s.move_eq assembler requests moves
    rw [heq]
    refine ⟨rfl, s.place.drifts_add distance, fun _ path expected hsource => ?_⟩
    -- only a segment that takes no file moves
    rw [Segment.takesFile, Segment.expected?, show s.source = _ from hsource] at h
    exact absurd rfl h

theorem Variable.evolves_move (requests : List MoveRequest) (v : Variable) : v.Evolves (v.move requests) := by
  refine ⟨rfl, List.forall₂_map_right_iff.2 (List.forall₂_same.2 fun place _ => ?_), id⟩
  obtain ⟨distance, heq⟩ := Place.foldl_shift v.size requests place
  rw [heq]
  exact place.drifts_add distance

theorem extends_move (assembler : Assembler) (space : AddressSpace) (p : Patch) (requests : List MoveRequest) :
    p.Extends (p.move assembler space requests) := by
  refine ⟨?_, ?_, ?_, ?_⟩
  · unfold move
    dsimp only
    split
    · exact (Extends.refl p).segments
    · exact List.forall₂_map_right_iff.2 (List.forall₂_same.2 fun s _ => s.evolves_move ..)
  · unfold move
    dsimp only
    split
    · exact (Extends.refl p).vars
    · exact List.forall₂_map_right_iff.2 (List.forall₂_same.2 fun v _ => v.evolves_move _)
  · rw [moves_move]
    exact List.prefix_append ..
  · intro h
    rw [moves_move]
    exact nodup_append_newMoves h requests

/-! ## Settings -/

theorem extends_setVariable {p q : Patch} {name : String} {value : UInt32} (h : p.setVariable name value = .ok q) :
    p.Extends q := by
  obtain ⟨before, v, after, hvars, -, -, -, rfl⟩ := setVariable_eq_ok h
  refine ⟨(Extends.refl p).segments, ?_, List.prefix_rfl, id⟩
  rw [hvars]
  exact forall₂_middle Variable.Evolves.refl before (v.evolves_set value) after

theorem Segment.evolves_filledFrom {s : Segment} {expected : UInt32} (hs : s.expected? = some expected) (path : Path)
    {content : Bytes} (hlength : content.length = expected.toNat) :
    s.Evolves (s.filledFrom path expected content) := by
  unfold Segment.expected? at hs
  split at hs
  · rename_i hsource
    cases hs
    refine ⟨?_, .refl _, fun _ path' expected' hsource' _ _ => ?_⟩
    · unfold Segment.signature Segment.filledFrom
      rw [hsource]
      rfl
    · cases hsource'
      exact hlength
  · cases hs

theorem extends_giveFile {files : Files} {p q : Patch} {path : Path} (h : p.giveFile files path = .ok q) :
    p.Extends q := by
  obtain ⟨before, s, after, expected, content, hsegments, -, hs, hlength, rfl⟩ := giveFile_eq_ok h
  refine ⟨?_, (Extends.refl p).vars, List.prefix_rfl, id⟩
  rw [hsegments]
  exact forall₂_middle Segment.Evolves.refl before (Segment.evolves_filledFrom hs path hlength) after

/-! ## Runs -/

theorem Step.extends {p q : Patch} (h : Step p q) : p.Extends q := by
  cases h with
  | update assembler => exact extends_update assembler p
  | move assembler space _ requests => exact extends_move assembler space p requests
  | setVariable h => exact extends_setVariable h
  | giveFile h => exact extends_giveFile h

theorem Runs.extends {p q : Patch} (h : Runs p q) : p.Extends q := by
  induction h with
  | refl => exact .refl p
  | tail _ hstep ih => exact ih.trans hstep.extends

theorem exists_of_forall₂_of_mem {α : Type} {R : α → α → Prop} {l m : List α} (h : List.Forall₂ R l m) {b : α}
    (hb : b ∈ m) : ∃ a ∈ l, R a b := by
  induction h with
  | nil => cases hb
  | cons hab _ ih =>
    rcases List.mem_cons.1 hb with rfl | hb
    · exact ⟨_, List.mem_cons_self .., hab⟩
    · obtain ⟨a, ha, hab⟩ := ih hb
      exact ⟨a, List.mem_cons_of_mem _ ha, hab⟩

theorem Extends.signatures {p q : Patch} (h : p.Extends q) :
    q.vars.map Variable.signature = p.vars.map Variable.signature := by
  rw [eq_comm, ← List.forall₂_eq_eq_eq, List.forall₂_map_left_iff, List.forall₂_map_right_iff]
  exact h.vars.imp fun _ _ hevolves => hevolves.signature.symm

theorem signatures_update (assembler : Assembler) (p : Patch) :
    (p.update assembler).vars.map Variable.signature = p.vars.map Variable.signature :=
  (extends_update assembler p).signatures

theorem Resolved.of_signatures {vars vars' : List Variable} (h : Resolved vars)
    (heq : vars'.map Variable.signature = vars.map Variable.signature) : Resolved vars' := by
  have hnames : vars'.map (·.name) = vars.map (·.name) := by
    have hmapped := congrArg (List.map Variable.Signature.name) heq
    rw [List.map_map, List.map_map] at hmapped
    exact hmapped
  refine ⟨hnames ▸ h.names, fun v hv r hr => ?_⟩
  obtain ⟨w, hw, hsignature⟩ := List.mem_map.1 (heq ▸ List.mem_map_of_mem (f := Variable.signature) hv)
  rw [hnames]
  exact h.references w hw r ((congrArg Variable.Signature.reference? hsignature).trans hr)

/-- A patch that extends a sound one is sound. -/
theorem Sound.of_extends {p q : Patch} (hp : p.Sound) (h : p.Extends q) : q.Sound := by
  refine ⟨hp.resolved.of_signatures h.signatures, fun w hw => ?_, h.distinct hp.moves, fun t ht => ?_⟩
  · obtain ⟨v, hv, hevolves⟩ := exists_of_forall₂_of_mem h.vars hw
    exact hevolves.fits (hp.values v hv)
  · obtain ⟨s, hs, hevolves⟩ := exists_of_forall₂_of_mem h.segments ht
    exact hevolves.filled (hp.files s hs)

theorem Sound.of_build {d : Draft} {p : Patch} (h : d.build = .ok p) (values : ∀ v ∈ p.vars, v.Fits)
    (files : ∀ s ∈ p.segments, s.Filled) : p.Sound := by
  obtain ⟨hvars, hmoves, hnodup, -, hrefs⟩ := Draft.build_eq_ok h
  exact ⟨hvars ▸ ⟨hnodup, hrefs⟩, values, by rw [hmoves]; exact List.nodup_nil, files⟩

/-- In each state of a run from a built patch, names are distinct and references resolve. -/
theorem Runs.resolved {d : Draft} {p q : Patch} (hbuild : d.build = .ok p) (h : Runs p q) : Resolved q.vars := by
  obtain ⟨hvars, -, hnodup, -, hrefs⟩ := Draft.build_eq_ok hbuild
  have hp : Resolved p.vars := hvars ▸ ⟨hnodup, hrefs⟩
  exact hp.of_signatures h.extends.signatures

/-! ## Unknown variables -/

theorem exists_lookup? {vars : List Variable} {name : String} (h : name ∈ vars.map (·.name)) :
    ∃ w, lookup? vars name = some w := by
  obtain ⟨w, hw, hname⟩ := List.mem_map.1 h
  exact Option.isSome_iff_exists.1 (List.find?_isSome.2 ⟨w, hw, by simpa using hname⟩)

theorem derive_eq_error {vars : List Variable} {v : Variable} {fault : ReferenceFault}
    (hrefs : ∀ r, v.reference? = some r → r.name ∈ vars.map (·.name)) (h : derive vars v = .error fault) :
    fault = .divisionByZero v.name := by
  unfold derive at h
  split at h
  · cases h
  · rename_i r hr
    split at h
    · rename_i hnone
      -- the variable that `r` names is there
      obtain ⟨w, hw⟩ := exists_lookup? (hrefs r hr)
      rw [hw] at hnone
      cases hnone
    · split at h
      · cases h
      · cases h
        rfl

/-- Where references resolve, a derivation fails at divisions by zero only. -/
theorem deriveFrom_faults (rest done : List Variable)
    (hrefs : ∀ v ∈ rest, ∀ r, v.reference? = some r → r.name ∈ (done ++ rest).map (·.name)) :
    ∃ names : List String, (deriveFrom done rest).2 = names.map ReferenceFault.divisionByZero := by
  induction rest generalizing done with
  | nil => exact ⟨[], rfl⟩
  | cons v rest ih =>
    obtain ⟨hv, hrest⟩ := List.forall_mem_cons.1 hrefs
    rw [deriveFrom]
    split
    · rename_i w hw
      have hname : w.name = v.name := congrArg Variable.Signature.name (evolves_of_derive hw).signature
      exact ih (done ++ [w]) (by simpa [hname] using hrest)
    · rename_i fault hfault
      obtain ⟨names, hnames⟩ := ih (done ++ [v]) (by simpa using hrest)
      refine ⟨v.name :: names, ?_⟩
      rw [derive_eq_error hv hfault]
      exact congrArg (_ :: ·) hnames

/-- An update of a sound patch has nothing to say of its variables but divisions by zero. -/
theorem Sound.faultText_update {p : Patch} (h : p.Sound) (assembler : Assembler) :
    ∃ names : List String, (p.update assembler).faultText = faultsOf (p.update assembler).segments ++
      String.join (names.map fun name => (ReferenceFault.divisionByZero name).line) := by
  obtain ⟨names, hnames⟩ := deriveFrom_faults p.vars [] h.resolved.references
  refine ⟨names, ?_⟩
  show faultsOf _ ++ String.join ((deriveFrom [] p.vars).2.map (·.line)) = _
  rw [hnames, List.map_map]
  rfl

end DiscPatch.Patch
