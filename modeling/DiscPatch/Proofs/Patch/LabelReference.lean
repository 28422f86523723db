/-
Labels in assembly source across relocations: what an update stores where a source names the label of a
segment, against the address at which that segment stands by then.
-/
import DiscPatch.Patch.Move
import DiscPatch.Patch.Update
import DiscPatch.Proofs.Assembly.Preamble
import DiscPatch.Proofs.Patch.Invariant
import DiscPatch.Sector.Table

namespace DiscPatch.Patch

open Text Assembly

/-! ## The symbols of a patch -/

/-- The labels of segments and the addresses they stand for. -/
def labelsOf (segments : List Segment) : List (String × UInt32) :=
  segments.filterMap fun s => s.label?.map (·, s.ram)

/-- Binding labels one after the other leaves them in the order of the segments. -/
theorem foldl_labels {bind : Symbols → Segment → Symbols}
    (h : ∀ symbols s, bind symbols s = { symbols with labels := symbols.labels ++ labelsOf [s] })
    (segments : List Segment) (symbols : Symbols) :
    segments.foldl bind symbols = { symbols with labels := symbols.labels ++ labelsOf segments } := by
  induction segments generalizing symbols with
  | nil => rw [List.foldl_nil, labelsOf, List.filterMap_nil, List.append_nil]
  | cons s segments ih =>
    have hcons : labelsOf ([s] ++ segments) = labelsOf [s] ++ labelsOf segments := List.filterMap_append
    rw [List.singleton_append] at hcons
    rw [List.foldl_cons, ih, h, hcons, List.append_assoc]

theorem foldl_equates (vars : List Variable) (symbols : Symbols) :
    vars.foldl (fun symbols v => symbols.bindEquate v.name v.value) symbols =
      { symbols with equates := symbols.equates ++ vars.map fun v => (equateKey v.name, v.value) } := by
  induction vars generalizing symbols with
  | nil => rw [List.foldl_nil, List.map_nil, List.append_nil]
  | cons v vars ih =>
    rw [List.foldl_cons, ih, Symbols.bindEquate, List.append_assoc]
    rfl

theorem symbolsOf_eq (segments : List Segment) (vars : List Variable) :
    symbolsOf segments vars = ⟨labelsOf segments, vars.map fun v => (equateKey v.name, v.value)⟩ := by
  unfold symbolsOf
  dsimp only
  rw [foldl_equates, foldl_labels]
  · rfl
  · intro symbols s
    cases hlabel : s.label? with
    | none => simp [labelsOf, hlabel]
    | some label => simp [labelsOf, hlabel, Symbols.bindLabel]

/-- Labels with names of their own that source can refer to. -/
structure LabelsValid (segments : List Segment) : Prop where
  distinct : (segments.filterMap (·.label?)).Nodup
  valid : ∀ label ∈ segments.filterMap (·.label?), isSymbolName label.toList

theorem map_fst_labelsOf (segments : List Segment) :
    (labelsOf segments).map Prod.fst = segments.filterMap (·.label?) := by
  simp [labelsOf, List.map_filterMap, Function.comp_def]

theorem lookup_of_mem {α β : Type} [BEq α] [LawfulBEq α] {l : List (α × β)} {a : α} {b : β}
    (hnodup : (l.map Prod.fst).Nodup) (h : (a, b) ∈ l) : l.lookup a = some b := by
  induction l with
  | nil => cases h
  | cons entry l ih =>
    rw [List.map_cons, List.nodup_cons] at hnodup
    rcases List.mem_cons.1 h with rfl | hmem
    · exact List.lookup_cons_self
    · have hne : a ≠ entry.1 := by
        rintro rfl
        exact hnodup.1 (List.mem_map.2 ⟨_, hmem, rfl⟩)
      rw [List.lookup_cons, beq_false_of_ne hne]
      exact ih hnodup.2 hmem

/-- A label stands for the address of its segment. -/
theorem LabelsValid.label? {segments : List Segment} (h : LabelsValid segments) (vars : List Variable) {u : Segment}
    (hu : u ∈ segments) {name : String} (hname : u.label? = some name) :
    (symbolsOf segments vars).label? name = some u.ram := by
  have hmem : (name, u.ram) ∈ labelsOf segments := List.mem_filterMap.2 ⟨u, hu, by rw [hname]; rfl⟩
  rw [symbolsOf_eq]
  refine lookup_of_mem ?_ (List.mem_reverse.2 hmem)
  rw [List.map_reverse, List.nodup_reverse, map_fst_labelsOf]
  exact h.distinct

/-- No name of a variable brings a line feed into the preamble. -/
theorem oneLined_equates (vars : List Variable) :
    ∀ b ∈ vars.map fun v => (equateKey v.name, v.value), '\n' ∉ b.1.toList := by
  intro b hb hmem
  obtain ⟨v, -, rfl⟩ := List.mem_map.1 hb
  simp only [equateKey, String.toList_ofList, List.mem_filter] at hmem
  exact absurd hmem.2 (by decide)

theorem LabelsValid.wellnamed {segments : List Segment} (h : LabelsValid segments) (vars : List Variable) :
    (symbolsOf segments vars).Wellnamed := by
  rw [symbolsOf_eq]
  refine ⟨fun b hb => h.valid _ ?_, oneLined_equates vars⟩
  rw [← map_fst_labelsOf]
  exact List.mem_map_of_mem hb

/-! ## What moves and updates keep of segments -/

theorem Segment.label?_move (assembler : Assembler) (requests : List MoveRequest) (moves : List RamMove) (s : Segment) :
    (s.move assembler requests moves).label? = s.label? := by
  obtain ⟨_, _, h⟩ := s.move_eq assembler requests moves
  rw [h]

theorem labels_move (assembler : Assembler) (space : AddressSpace) (p : Patch) (requests : List MoveRequest) :
    (p.move assembler space requests).segments.filterMap (·.label?) = p.segments.filterMap (·.label?) := by
  unfold Patch.move
  dsimp only
  split
  · rfl
  · rw [List.filterMap_map]
    exact congrArg (List.filterMap · p.segments) (funext fun s => Segment.label?_move ..)

theorem labelsOf_refresh (assembler : Assembler) (symbols : Symbols) (moves : List RamMove) (segments : List Segment) :
    labelsOf (segments.map (Segment.refresh assembler symbols moves)) = labelsOf segments := by
  unfold labelsOf
  rw [List.filterMap_map]
  refine congrArg (List.filterMap · segments) (funext fun s => ?_)
  obtain ⟨bytes, faultText, h⟩ := s.refresh_eq assembler symbols moves
  rw [Function.comp_apply, h]

/-- An update encodes with the symbols that the patch shows after it. -/
theorem symbols_update (assembler : Assembler) (p : Patch) :
    (p.update assembler).symbols = symbolsOf p.segments (deriveFrom [] p.vars).1 := by
  show symbolsOf (p.segments.map _) (deriveFrom [] p.vars).1 = _
  rw [symbolsOf_eq, symbolsOf_eq, labelsOf_refresh]

/-- The patch after calls that move parts of it. -/
def moveAll (assembler : Assembler) (p : Patch) (calls : List (AddressSpace × List MoveRequest)) : Patch :=
  calls.foldl (fun p call => p.move assembler call.1 call.2) p

theorem labels_moveAll (assembler : Assembler) (p : Patch) (calls : List (AddressSpace × List MoveRequest)) :
    (p.moveAll assembler calls).segments.filterMap (·.label?) = p.segments.filterMap (·.label?) := by
  unfold moveAll
  induction calls generalizing p with
  | nil => rfl
  | cons call calls ih => rw [List.foldl_cons, ih, labels_move]

/-! ## Stored labels -/

theorem relocateWord_eq_self_iff {moves : List RamMove} {word : UInt32} :
    relocateWord moves word = word ↔ ∀ m, moves.find? (·.contains word) = some m → m.distance = 0 := by
  unfold relocateWord
  cases moves.find? (·.contains word) with
  | none => simp
  | some m =>
    have hzero : m.distance.toUInt32 = 0 ↔ m.distance = 0 :=
      ⟨fun h => congrArg Int32.ofUInt32 h, fun h => congrArg Int32.toUInt32 h⟩
    simp only [Option.some.injEq, forall_eq', RamMove.relocate, shifted, UInt32.add_eq_left]
    exact hzero

/-- An update stores for a label what the recorded moves make of the address of its segment, unless the
segment that holds the reference moves simply: it is encoded for the address as it is by then. -/
theorem Segment.wordOf_refresh {symbols : Symbols} (hs : symbols.Wellnamed) (moves : List RamMove) {v : Segment}
    {source name : String} {n index : Nat} {address : UInt32} (hsource : v.assembly? = some source)
    (hhex : v.labelledHex? = none) (hname : isSymbolName name.toList) (hlabel : symbols.label? name = some address)
    (hrefers : RefersTo source n index name)
    (haligned : (v.ram.toNat + operandPosition symbols source v.ram n index) % 4 = 0) :
    operandPosition symbols source v.ram n index + 4 ≤ (v.refresh directives symbols moves).bytes.length ∧
      wordOf (v.refresh directives symbols moves).bytes (operandPosition symbols source v.ram n index) =
        if v.movesSimply then address else relocateWord moves address := by
  obtain ⟨hfits, hword⟩ := wordOf_encode hs hname hlabel hrefers v.ram
  generalize operandPosition symbols source v.ram n index = pos at *
  generalize hencoded : (encode (symbols.prepend source) v.ram) = encoded at hfits hword
  let bytes := if v.movesSimply ∨ moves = [] then encoded.bytes else followMoves encoded.bytes v.ram moves
  have hlength : bytes.length = encoded.bytes.length := by
    show (ite _ _ _ : Bytes).length = _
    split
    · rfl
    · exact length_followMoves ..
  have hrefresh : (v.refresh directives symbols moves).bytes = bytes := by
    have hne : ¬ (bytes = [] ∧ encoded.faultText ≠ "") := by
      rintro ⟨hnil, -⟩
      rw [hnil, List.length_nil] at hlength
      omega
    unfold Segment.refresh
    rw [hhex, hsource]
    dsimp only [directives]
    rw [hencoded]
    exact if_neg hne
  rw [hrefresh, hlength]
  refine ⟨hfits, ?_⟩
  show wordOf (if v.movesSimply ∨ moves = [] then encoded.bytes else followMoves encoded.bytes v.ram moves) pos = _
  by_cases hsimple : v.movesSimply = true
  · rw [if_pos (.inl hsimple), if_pos hsimple, hword]
  · rw [if_neg hsimple]
    split
    · rename_i hnone
      rw [hnone.resolve_left hsimple, hword]
      rfl
    · rw [wordOf_followMoves moves haligned hfits, hword]

/-- After any calls that move parts of a patch and an update, a word that names a label holds the address of
the labelled segment exactly when the segment it stands in moves simply, or the first recorded move that
holds this address, which the labelled segment has already moved to, leaves it where it is. -/
theorem wordOf_label_iff {p q : Patch} (hp : LabelsValid p.segments) {calls : List (AddressSpace × List MoveRequest)}
    (hq : (p.moveAll directives calls).update directives = q) {u v : Segment} (hu : u ∈ q.segments)
    (hv : v ∈ q.segments) {source name : String} {n index : Nat} (hname : u.label? = some name)
    (hsource : v.assembly? = some source) (hhex : v.labelledHex? = none) (hrefers : RefersTo source n index name)
    (haligned : (v.ram.toNat + operandPosition q.symbols source v.ram n index) % 4 = 0) :
    operandPosition q.symbols source v.ram n index + 4 ≤ v.bytes.length ∧
      wordOf v.bytes (operandPosition q.symbols source v.ram n index) =
        (if v.movesSimply then u.ram else relocateWord q.moves u.ram) ∧
      (wordOf v.bytes (operandPosition q.symbols source v.ram n index) = u.ram ↔
        v.movesSimply ∨ ∀ m, q.moves.find? (·.contains u.ram) = some m → m.distance = 0) := by
  subst hq
  have hmoved : LabelsValid (p.moveAll directives calls).segments := by
    refine ⟨?_, ?_⟩ <;> rw [labels_moveAll]
    · exact hp.distinct
    · exact hp.valid
  generalize hmovedEq : p.moveAll directives calls = moved at *
  have hsymbols := symbols_update directives moved
  obtain ⟨v₀, hv₀, hvEq⟩ := List.mem_map.1 hv
  obtain ⟨u₀, hu₀, huEq⟩ := List.mem_map.1 hu
  obtain ⟨_, _, hvKept⟩ := v₀.refresh_eq directives (symbolsOf moved.segments (deriveFrom [] moved.vars).1) moved.moves
  obtain ⟨_, _, huKept⟩ := u₀.refresh_eq directives (symbolsOf moved.segments (deriveFrom [] moved.vars).1) moved.moves
  have hram : u.ram = u₀.ram := by
    rw [← huEq, huKept]
  have hname₀ : u₀.label? = some name := by
    rw [← hname, ← huEq, huKept]
  have hkept : v.ram = v₀.ram ∧ v.movesSimply = v₀.movesSimply ∧ v.assembly? = v₀.assembly? ∧
      v.labelledHex? = v₀.labelledHex? := by
    rw [← hvEq, hvKept]
    exact ⟨rfl, rfl, rfl, rfl⟩
  obtain ⟨hvRam, hvSimple, hvSource, hvHex⟩ := hkept
  have hmoves : (moved.update directives).moves = moved.moves := rfl
  rw [hsymbols, hvRam] at haligned ⊢
  obtain ⟨hfits, hword⟩ := Segment.wordOf_refresh (hmoved.wellnamed _) moved.moves (hvSource ▸ hsource) (hvHex ▸ hhex)
    (hmoved.valid name (List.mem_filterMap.2 ⟨u₀, hu₀, hname₀⟩)) (hmoved.label? _ hu₀ hname₀) hrefers haligned
  rw [hvEq] at hfits hword
  rw [hword, hvSimple, hram, hmoves]
  refine ⟨hfits, rfl, ?_⟩
  cases v₀.movesSimply with
  | true => exact iff_of_true rfl (.inl rfl)
  | false => exact relocateWord_eq_self_iff.trans ⟨.inr, fun h => h.resolve_left Bool.false_ne_true⟩

/-! ## A label in the range that moved -/

/-- The segment that the label stands for, at `0x80010000`. -/
def target : Segment :=
  { Segment.ofBytes ⟨.psx, 24⟩ 0x800 [1, 2, 3, 4] with ram := 0x80010000, label? := some "target" }

/-- Source that refers to the label, and that is to follow moves. -/
def table : Segment :=
  { (Segment.ofBytes ⟨.psx, 24⟩ 0x2000 []).assembled ".word @target" with ram := 0x80011800, movesSimply := false }

def labelled : Patch := ⟨"labelled", "", "", [target, table], [], [], false, false, ""⟩

/-- Moves that much of the file in front of `table`. -/
def frontMove (stop : UInt32) : List (AddressSpace × List MoveRequest) :=
  [(SectorTable.psx.space, [⟨⟨.psx, 24⟩, 0x800, stop, 0x100⟩])]

theorem refersTo_target : RefersTo ".word @target" 0 0 "target" where
  operand := ⟨".word @target".toList, "@target".toList, by decide +kernel, by decide +kernel, by decide +kernel⟩
  unbound := fun _ hline => nomatch hline

theorem labelsValid_labelled : LabelsValid labelled.segments :=
  ⟨by decide, by decide⟩

/-- A target that leaves its range for good is found. -/
theorem wordOf_label_past_range :
    let q := (labelled.moveAll directives (frontMove 0x900)).update directives
    let u := { target with offset := 0x900, ram := 0x80010100 }
    let v := { table with bytes := [0, 1, 1, 0x80] }
    LabelsValid labelled.segments ∧ q.segments = [u, v] ∧ RefersTo ".word @target" 0 0 "target" ∧
      (v.ram.toNat + operandPosition q.symbols ".word @target" v.ram 0 0) % 4 = 0 ∧
      wordOf v.bytes (operandPosition q.symbols ".word @target" v.ram 0 0) = u.ram := by
  intro q u v
  have hsegments : q.segments = [u, v] := by decide +kernel
  have haligned : (v.ram.toNat + operandPosition q.symbols ".word @target" v.ram 0 0) % 4 = 0 := by decide +kernel
  obtain ⟨-, -, hiff⟩ := wordOf_label_iff (q := q) labelsValid_labelled rfl (u := u) (v := v)
    (hsegments ▸ List.mem_cons_self ..) (hsegments ▸ List.mem_cons_of_mem _ (List.mem_cons_self ..)) rfl rfl rfl
    refersTo_target haligned
  exact ⟨labelsValid_labelled, hsegments, refersTo_target, haligned, hiff.2 (.inr (by decide +kernel))⟩

/-- A target that now stands in a range moved before is taken along once more. -/
theorem wordOf_label_within_range :
    let q := (labelled.moveAll directives (frontMove 0x1800)).update directives
    let u := { target with offset := 0x900, ram := 0x80010100 }
    let v := { table with bytes := [0, 2, 1, 0x80] }
    LabelsValid labelled.segments ∧ q.segments = [u, v] ∧ v.faultText = "" ∧ RefersTo ".word @target" 0 0 "target" ∧
      operandPosition q.symbols ".word @target" v.ram 0 0 = 0 ∧ wordOf v.bytes 0 = 0x80010200 ∧
      wordOf v.bytes 0 ≠ u.ram := by
  intro q u v
  exact ⟨labelsValid_labelled, by decide +kernel, rfl, refersTo_target, by decide +kernel, by decide, by decide⟩

end DiscPatch.Patch
