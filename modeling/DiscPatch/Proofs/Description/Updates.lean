/-
A patch that was just read, brought up to date by the assembler it was read with. The last encoding of the
reader and the update are written apart, but they find the same symbols and encode the same source. Only
blank text with labels in it is treated apart: the reader leaves it as it first was, the update does not.
-/
import DiscPatch.Proofs.Description.Chaining
import DiscPatch.Proofs.Patch.Derivation

namespace DiscPatch.Description

open Text Xml Patch Assembly

variable {reader : Reader} {patch : String} {symbols : Symbols} {included own : List Segment} {vars : List Variable}
  {s s' : Segment}

/-! ## The final form of a segment -/

theorem faultText_check (reader : Reader) (s : Segment) : (check reader s).faultText = s.faultText := by
  unfold check
  split
  · rfl
  · dsimp only
    split <;> rfl

/-- What is assembled in the end is what was encoded with all symbols, errors and all. -/
theorem encoded_of_finish (h : finish reader patch symbols s = .ok s') {source : String}
    (hsource : s'.assembly? = some source) :
    s'.bytes = (reader.assembler.encode (symbols.prepend source) s'.ram).bytes ∧
      s'.faultText = (reader.assembler.encode (symbols.prepend source) s'.ram).faultText := by
  have hkeeps := (keeps_finish h).segment
  have hassembly : s'.assembly? = s.assembly? := by rw [hkeeps]
  have hram : s'.ram = s.ram := by rw [hkeeps]
  obtain ⟨relabelled, hrelabel, h⟩ := bind_eq_ok h
  have hkept := (keeps_relabel hrelabel).segment
  have hassembly' : relabelled.assembly? = some source := by rw [hkept, ← hsource, hassembly]
  have hram' : relabelled.ram = s'.ram := by rw [hkept, hram]
  cases h
  rw [bytes_check, faultText_check, ← hram']
  unfold reassemble
  rw [hassembly']
  exact ⟨rfl, rfl⟩

/-- Text that is not blank ends up with all labels filled in; blank text is left as it was. -/
theorem filled_of_finish (hexclusive : s.labelledHex?.isSome → s.assembly? = none)
    (h : finish reader patch symbols s = .ok s') {source : String} (hsource : s'.labelledHex? = some source) :
    if allBlank source.toList then s'.bytes = s.bytes
    else Bytes.ofHex? (reader.assembler.fillLabels source symbols) = some s'.bytes := by
  have hlabelled : s.labelledHex? = some source := by
    rw [← hsource, (keeps_finish h).segment]
  obtain ⟨relabelled, hrelabel, h⟩ := bind_eq_ok h
  have hplain : relabelled.assembly? = none := by
    rw [(keeps_relabel hrelabel).segment, hexclusive (by rw [hlabelled]; rfl)]
  cases h
  rw [bytes_check]
  unfold reassemble
  rw [hplain]
  unfold relabel at hrelabel
  rw [hlabelled] at hrelabel
  dsimp only at hrelabel ⊢
  split
  · rename_i hblank
    rw [if_pos hblank] at hrelabel
    cases hrelabel
    rfl
  · rename_i hblank
    rw [if_neg hblank] at hrelabel
    obtain ⟨bytes, hbytes, hrelabel⟩ := bind_eq_ok hrelabel
    cases hrelabel
    exact ofHex?_of_hexContent hbytes

/-! ## Encoding a segment again -/

/-- Whether filling in the labels again leaves the bytes of the segment as they are, if its text is blank. -/
def BlankSettled (assembler : Assembler) (symbols : Symbols) (s : Segment) : Prop :=
  ∀ source, s.labelledHex? = some source → allBlank source.toList →
    ∀ bytes, Bytes.ofHex? (assembler.fillLabels source symbols) = some bytes → bytes = s.bytes

theorem refresh_of_labelled_iff {assembler : Assembler} {source : String} (hsource : s.labelledHex? = some source)
    (moves : List RamMove) : s.refresh assembler symbols moves = s ↔
      ∀ bytes, Bytes.ofHex? (assembler.fillLabels source symbols) = some bytes → bytes = s.bytes := by
  rw [Segment.refresh_of_labelled hsource]
  cases Bytes.ofHex? (assembler.fillLabels source symbols) with
  | none => exact iff_of_true rfl fun _ hnone => (by cases hnone)
  | some bytes =>
    constructor
    · rintro heq _ ⟨⟩
      exact congrArg Segment.bytes heq
    · intro hbytes
      show { s with bytes } = s
      rw [hbytes bytes rfl]

theorem refresh_of_encoded {assembler : Assembler} {source : String} (hhex : s.labelledHex? = none)
    (hsource : s.assembly? = some source)
    (hbytes : s.bytes = (assembler.encode (symbols.prepend source) s.ram).bytes)
    (hfault : s.faultText = (assembler.encode (symbols.prepend source) s.ram).faultText) :
    s.refresh assembler symbols [] = s := by
  unfold Segment.refresh
  split
  · simp_all
  · rename_i source' _ hsource'
    cases hsource.symm.trans hsource'
    dsimp only
    -- with nothing moved, the bytes are the same whether errors keep the old ones or not
    rw [if_pos (Or.inr rfl : s.movesSimply ∨ [] = []), ← hbytes, ← hfault, ite_self]
  · rfl

/-- A segment in its final form is up to date, unless its text is blank and labels make something else of it. -/
theorem refresh_of_finish_iff (hexclusive : s.labelledHex?.isSome → s.assembly? = none)
    (h : finish reader patch symbols s = .ok s') :
    s'.refresh reader.assembler symbols [] = s' ↔ BlankSettled reader.assembler symbols s' := by
  unfold BlankSettled
  cases hhex : s'.labelledHex? with
  | some source =>
    rw [refresh_of_labelled_iff hhex]
    have hfilled := filled_of_finish hexclusive h hhex
    by_cases hblank : allBlank source.toList
    · constructor
      · rintro hsettled _ ⟨⟩ -
        exact hsettled
      · exact fun hsettled => hsettled source rfl hblank
    · rw [if_neg hblank] at hfilled
      rw [hfilled]
      refine iff_of_true ?_ ?_
      · rintro _ ⟨⟩
        rfl
      · rintro _ ⟨⟩ hblank'
        exact absurd hblank' hblank
  | none =>
    refine iff_of_true ?_ fun _ hsome => by cases hsome
    cases hassembly : s'.assembly? with
    | some source =>
      obtain ⟨hbytes, hfault⟩ := encoded_of_finish h hassembly
      exact refresh_of_encoded hhex hassembly hbytes hfault
    | none => exact Segment.refresh_of_no_source hassembly hhex ..

/-! ## Blank text -/

/-- Whether symbols do not matter where text is blank. -/
def FillsBlankAlike (assembler : Assembler) : Prop :=
  ∀ text : String, allBlank text.toList → ∀ symbols symbols', assembler.fillLabels text symbols =
    assembler.fillLabels text symbols'

/-- Blank text refers to no label, so the assembler for data directives leaves it as it is. -/
theorem fillsBlankAlike_directives : FillsBlankAlike directives := by
  have hkept : ∀ symbols (cs : List Char), '@' ∉ cs → fillLabelsIn symbols cs = cs := by
    intro symbols cs hcs
    induction cs with
    | nil => rw [fillLabelsIn]
    | cons c cs ih =>
      obtain ⟨hc, hcs⟩ := not_or.1 (List.mem_cons.not.1 hcs)
      rw [fillLabelsIn, if_neg (Ne.symm hc), ih hcs]
  intro text hblank symbols symbols'
  have hnone : '@' ∉ text.toList := fun hmem => absurd (List.all_eq_true.1 hblank _ hmem) (by decide)
  show fillLabels text symbols = fillLabels text symbols'
  unfold fillLabels
  rw [hkept symbols _ hnone, hkept symbols' _ hnone]

/-- Where symbols do not matter, what blank text was at first is what it is with all labels. -/
theorem ReadBehind.blankSettled (hfills : FillsBlankAlike reader.assembler)
    (hs : ReadBehind reader patch included vars own s) (h : Description.finish reader patch symbols s = .ok s') :
    BlankSettled reader.assembler symbols s' := by
  intro source hsource hblank bytes hbytes
  have hfilled := filled_of_finish hs.exclusive h hsource
  rw [if_pos hblank] at hfilled
  have hlabelled : s.labelledHex? = some source := by
    rw [← hsource, (keeps_finish h).segment]
  have hfirst := ofHex?_of_hexContent (hs.labelled source hlabelled)
  rw [hfills source hblank _ symbols, hbytes] at hfirst
  exact (Option.some.inj hfirst).trans hfilled.symm

/-! ## Patches -/

/-- Whether a patch element includes no patch and derives no variable. -/
structure Unlinked (n : Node) : Prop where
  includes : n.elements "Include" = []
  vars : ∀ v ∈ n.elements "Variable", v.attr? "reference" = none

instance (n : Node) : Decidable (Unlinked n) :=
  decidable_of_iff ((n.elements "Include").isEmpty ∧ ∀ v ∈ n.elements "Variable", v.attr? "reference" = none)
    ⟨fun h => ⟨List.isEmpty_iff.1 h.1, h.2⟩, fun h => ⟨List.isEmpty_iff.2 h.includes, h.vars⟩⟩

/-- What an update finds in a patch that was just read: nothing moved, nothing to derive, all errors collected,
and segments that have no source or are in their final form. -/
structure JustRead (reader : Reader) (p : Patch) : Prop where
  moves : p.moves = []
  vars : ∀ v ∈ p.vars, v.reference? = none
  faultText : p.faultText = faultsOf p.segments
  segments : ∀ s ∈ p.segments, s.assembly? = none ∧ s.labelledHex? = none ∨ ∃ patch own first,
    ReadBehind reader patch [] p.vars own first ∧ finish reader patch p.symbols first = .ok s

section

variable {heading : Heading} {earlier : List Patch} {n : Node} {p : Patch}

theorem JustRead.update_iff (h : JustRead reader p) :
    p.update reader.assembler = p ↔ ∀ s ∈ p.segments, BlankSettled reader.assembler p.symbols s := by
  have hupdate : p.update reader.assembler = { p with
      segments := p.segments.map (Segment.refresh reader.assembler p.symbols [])
      faultText := faultsOf (p.segments.map (Segment.refresh reader.assembler p.symbols [])) } := by
    unfold update
    rw [deriveFrom_of_literal h.vars]
    show { p with
      segments := p.segments.map (Segment.refresh reader.assembler p.symbols p.moves)
      faultText := faultsOf (p.segments.map (Segment.refresh reader.assembler p.symbols p.moves)) ++ "" } = _
    rw [String.append_empty, h.moves]
  have hmap : p.segments.map (Segment.refresh reader.assembler p.symbols []) = p.segments ↔
      ∀ s ∈ p.segments, s.refresh reader.assembler p.symbols [] = s := by
    conv_lhs => rhs; rw [← List.map_id p.segments]
    exact List.map_inj_left
  have hsegment : ∀ s ∈ p.segments, s.refresh reader.assembler p.symbols [] = s ↔
      BlankSettled reader.assembler p.symbols s := by
    intro s hs
    rcases h.segments s hs with ⟨hassembly, hhex⟩ | ⟨patch, own, first, hfirst, hfinish⟩
    · refine iff_of_true (Segment.refresh_of_no_source hassembly hhex ..) fun source hsource => ?_
      rw [hhex] at hsource
      cases hsource
    · exact refresh_of_finish_iff hfirst.exclusive hfinish
  rw [← forall₂_congr hsegment, ← hmap, hupdate]
  constructor
  · exact fun heq => congrArg Patch.segments heq
  · intro heq
    rw [heq, ← h.faultText]

theorem JustRead.blankSettled (hfills : FillsBlankAlike reader.assembler) (h : JustRead reader p) :
    ∀ s ∈ p.segments, BlankSettled reader.assembler p.symbols s := by
  intro s hs
  rcases h.segments s hs with ⟨-, hhex⟩ | ⟨patch, own, first, hfirst, hfinish⟩
  · intro source hsource
    rw [hhex] at hsource
    cases hsource
  · exact hfirst.blankSettled hfills hfinish

/-- Segments without faults add nothing to the error text. -/
theorem faultsOf_append {front back : List Segment} (h : ∀ s ∈ back, s.faultText ++ s.codeFaults = "") :
    faultsOf (front ++ back) = faultsOf front := by
  have hnone : (back.map fun s => s.faultText ++ s.codeFaults).flatMap String.toList = [] := by
    simpa [List.flatMap_eq_nil_iff] using h
  unfold faultsOf
  rw [← String.toList_inj, String.toList_join, String.toList_join, List.map_append, List.flatMap_append, hnone,
    List.append_nil]

theorem literal_of_readVariables {space : AddressSpace} {standard : Option Sector} {nodes : List Node}
    (hnodes : ∀ n ∈ nodes, n.attr? "reference" = none) (h : readVariables space standard [] nodes = .ok vars) :
    ∀ v ∈ vars, v.reference? = none := by
  refine foldlM_induction (motive := fun vars => ∀ v ∈ vars, v.reference? = none)
    (fun n hn known known' hknown hstep => ?_) (List.forall_mem_nil _) h
  obtain ⟨v, hv, hstep⟩ := bind_eq_ok hstep
  cases hstep
  rw [readVariable_eq] at hv
  obtain ⟨name, -, hv⟩ := bind_eq_ok hv
  obtain ⟨size, -, hv⟩ := bind_eq_ok hv
  obtain ⟨places, -, hv⟩ := bind_eq_ok hv
  obtain ⟨value, -, hv⟩ := bind_eq_ok hv
  cases hv
  refine List.forall_mem_append.2 ⟨hknown, List.forall_mem_singleton.2 ?_⟩
  show referenceOf? n = none
  unfold referenceOf?
  rw [hnodes n hn]
  rfl

theorem justRead_of_readPatch (hn : Unlinked n) (h : readPatch reader heading earlier n = .ok p) :
    JustRead reader p := by
  obtain ⟨title, standard, vars, own, streams, hsteps, hbuild⟩ := readSteps_of_readPatch h
  have hvars := hsteps.readVariables
  have hown := hsteps.readLocations
  rw [includedPatches_eq_nil hn.includes] at hvars hown hbuild
  have hp := Draft.eq_patch_of_build hbuild
  have hsegments : p.segments = own ++ streams := by
    rw [hp]
    rfl
  have hpvars : p.vars = vars := by
    rw [hp]
    rfl
  have hstream := hsteps.exists_ofStream
  refine ⟨by rw [hp]; rfl, hpvars ▸ literal_of_readVariables hn.vars hvars, ?_, fun s hs => ?_⟩
  · rw [hsegments, faultsOf_append, hp]
    · rfl
    · intro s hs
      obtain ⟨_, _, _, rfl⟩ := hstream s hs
      rfl
  · rw [hsegments] at hs
    rcases List.mem_append.1 hs with hs | hs
    · -- the symbols of the last encoding are those of the patch
      obtain ⟨first, hfirst, hfinish⟩ := bind_eq_ok hown
      have hnone : labelsOf streams = labelsOf [] := by
        refine List.filterMap_eq_nil_iff.2 fun s hs => ?_
        obtain ⟨_, _, _, rfl⟩ := hstream s hs
        rfl
      have hfinished : symbolsOf ([] ++ own) vars = symbolsOf ([] ++ first) vars := symbolsOf_finish hfinish
      have hsymbols : p.symbols = symbolsOf ([] ++ first) vars := by
        rw [Patch.symbols, hsegments, hpvars, symbolsOf_append_congr hnone, List.append_nil]
        exact hfinished
      have hbehind := eachBehind_of_readAll hfirst
      obtain ⟨s₀, hs₀, hstep⟩ := mem_of_mapM_eq_ok hfinish hs
      obtain ⟨before, after, hsplit⟩ := List.append_of_mem hs₀
      refine .inr ⟨title.1, before, s₀, hpvars ▸ hbehind before s₀ after hsplit, ?_⟩
      rw [hsymbols]
      exact hstep
    · obtain ⟨_, _, _, rfl⟩ := hstream s hs
      exact .inl ⟨rfl, rfl⟩

theorem justRead_of_readImport (h : readImport reader heading n = .ok (some p)) : JustRead reader p := by
  obtain ⟨_, _, sector, offset, expected, -, -, -, hbuild⟩ := readImport_eq_ok h
  rw [Draft.eq_patch_of_build hbuild]
  exact ⟨rfl, List.forall_mem_nil _, rfl, List.forall_mem_singleton.2 (.inl ⟨rfl, rfl⟩)⟩

end

/-! ## Documents -/

/-- Bringing a patch of a document that includes no patches and derives no variables up to date, right after it was
read, changes nothing at all, errors included, if symbols do not matter to the assembler where text is blank. With
any assembler it changes nothing exactly if each blank text is filled in again as it was. -/
theorem update_of_parse (reader : Reader) (text filename : String) (root : Node) (hroot : Xml.parse? text = some root)
    (hunlinked : ∀ n ∈ root.elements "Patch", ignored n = .ok false → Unlinked n) (ps : List Patch)
    (hread : parse reader text filename = .ok ps) (p : Patch) (hp : p ∈ ps) :
    (FillsBlankAlike reader.assembler → p.update reader.assembler = p) ∧
      (p.update reader.assembler = p ↔ ∀ s ∈ p.segments, BlankSettled reader.assembler p.symbols s) := by
  have hjust : JustRead reader p := by
    unfold parse at hread
    rw [hroot] at hread
    obtain ⟨patches, imports, rfl, hpatches, himports⟩ := readRoot_eq_ok hread
    rcases List.mem_append.1 hp with hp | hp
    · obtain ⟨n, hn, earlier, hignored, hread⟩ := hpatches p hp
      exact justRead_of_readPatch (hunlinked n hn hignored) hread
    · obtain ⟨n, -, hread⟩ := himports p hp
      exact justRead_of_readImport hread
  exact ⟨fun hfills => hjust.update_iff.2 (hjust.blankSettled hfills), hjust.update_iff⟩

/-- A patch with source of which one line is no directive, text with a label, and blank text. -/
def mixedDocument : String :=
  "<Patches><Patch name=\"x\" sector=\"18\"><Location offset=\"8\" mode=\"asm\">.half 1\n.x</Location>"
    ++ "<Location label=\"a\" replaceLabels=\"true\">@a</Location><Location replaceLabels=\"true\"> </Location>"
    ++ "</Patch></Patches>"

theorem update_of_parse_mixed : ∃ root ps, Xml.parse? mixedDocument = some root ∧
    (∀ n ∈ root.elements "Patch", ignored n = .ok false → Unlinked n) ∧
    parse plainReader mixedDocument "a.xml" = .ok ps ∧ FillsBlankAlike plainReader.assembler ∧
    ps.map (·.segments.map (·.bytes.length)) = [[2, 4, 0]] ∧ ps.map (·.faultText == "") = [false] ∧
    ∀ p ∈ ps, p.update plainReader.assembler = p := by
  have hsample : readsAs plainReader mixedDocument fun root ps => decide ((∀ n ∈ root.elements "Patch", Unlinked n) ∧
      ps.map (·.segments.map (·.bytes.length)) = [[2, 4, 0]] ∧ ps.map (·.faultText == "") = [false]) := by
    decide +kernel
  obtain ⟨root, ps, hroot, -, hread, hall⟩ := exists_of_readsAs hsample
  obtain ⟨hunlinked, hlengths, hfaults⟩ := of_decide_eq_true hall
  have hunlinked : ∀ n ∈ root.elements "Patch", ignored n = .ok false → Unlinked n :=
    fun n hn _ => hunlinked n hn
  exact ⟨root, ps, hroot, hunlinked, hread, fillsBlankAlike_directives, hlengths, hfaults, fun p hp =>
    (update_of_parse plainReader mixedDocument "a.xml" root hroot hunlinked ps hread p hp).1
      fillsBlankAlike_directives⟩

/-- An assembler that tells in place of blank text whether there are labels. -/
def labelTelling : Assembler :=
  { directives with
    fillLabels := fun text symbols =>
      if allBlank text.toList then if symbols.labels = [] then "00" else "01" else fillLabels text symbols }

/-- Blank text in front of the only label. -/
def blankDocument : String :=
  "<Patches><Patch name=\"x\" sector=\"18\"><Location offset=\"0\" replaceLabels=\"true\"> </Location>"
    ++ "<Location label=\"a\">00</Location></Patch></Patches>"

/-- The reader fills in blank text while it knows the labels in front of it only, an update fills it in with all. -/
theorem update_ne_of_blank : ∃ root ps, Xml.parse? blankDocument = some root ∧
    (∀ n ∈ root.elements "Patch", ignored n = .ok false → Unlinked n) ∧
    parse { plainReader with assembler := labelTelling } blankDocument "a.xml" = .ok ps ∧
    ∃ p ∈ ps, p.segments.map (·.bytes) = [[0], [0]] ∧
      (p.update labelTelling).segments.map (·.bytes) = [[1], [0]] ∧ p.update labelTelling ≠ p := by
  have hsample : readsAs { plainReader with assembler := labelTelling } blankDocument fun root ps =>
      decide (∀ n ∈ root.elements "Patch", Unlinked n) && ps.any fun p => decide
        (p.segments.map (·.bytes) = [[0], [0]] ∧ (p.update labelTelling).segments.map (·.bytes) = [[1], [0]]) := by
    decide +kernel
  obtain ⟨root, ps, hroot, -, hread, hall⟩ := exists_of_readsAs hsample
  obtain ⟨hunlinked, hany⟩ := Bool.and_eq_true_iff.1 hall
  obtain ⟨p, hp, hbytes⟩ := List.any_eq_true.1 hany
  obtain ⟨hbefore, hafter⟩ := of_decide_eq_true hbytes
  refine ⟨root, ps, hroot, fun n hn _ => of_decide_eq_true hunlinked n hn, hread, p, hp, hbefore, hafter, ?_⟩
  intro hsame
  rw [hsame, hbefore] at hafter
  cases hafter

end DiscPatch.Description
