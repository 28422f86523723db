/-
Hexadecimal text with labels in it, from its first reading to every update. What can be read while only the labels
in front are known can be read with any others and has as many bytes, so the last encoding of a description refuses
nothing, and no update falls back on bytes that a segment had before. A label on its own is the word that source
stores for it, unless the name of another label disturbs the preamble of the source.
-/
import DiscPatch.Proofs.Description.Chaining
import DiscPatch.Proofs.Description.Reading

namespace DiscPatch.Description

open Text Patch Assembly

variable {reader : Reader} {patch : String} {included own : List Segment} {vars : List Variable} {s s' : Segment}

/-- The text of a segment if it has labels in it, and how many bytes it gave. -/
def hexRoom (s : Segment) : Option (String × Nat) :=
  s.labelledHex?.map (·, s.bytes.length)

theorem HexSized.of_hexRoom (h : HexSized s) (hroom : hexRoom s' = hexRoom s) : HexSized s' := by
  intro source hsource symbols
  obtain ⟨source', hsource', hsame⟩ := Option.map_eq_some_iff.1 (hroom.symm.trans (congrArg (Option.map _) hsource))
  obtain ⟨rfl, hlength⟩ := Prod.mk.inj hsame
  rw [← hlength]
  exact h source' hsource' symbols

theorem hexSized_of_no_hex (h : s.labelledHex? = none) : HexSized s := by
  intro source hsource
  rw [h] at hsource
  cases hsource

/-! ## Reading -/

/-- The last encoding refuses no segment that the first one read, and leaves labels in text their room. -/
theorem ReadBehind.exists_finish (hassembler : reader.assembler = directives)
    (hs : ReadBehind reader patch included vars own s) (symbols : Symbols) :
    ∃ s', Description.finish reader patch symbols s = .ok s' ∧ hexRoom s' = hexRoom s := by
  obtain ⟨relabelled, hrelabel, -⟩ := (hs.hexSized hassembler).relabel hassembler patch symbols
  have hfinish : Description.finish reader patch symbols s =
      .ok (check reader (reassemble reader symbols relabelled)) := by
    unfold Description.finish
    rw [hrelabel]
    rfl
  generalize check reader (reassemble reader symbols relabelled) = s' at hfinish
  have hkeeps := (keeps_finish hfinish).segment
  have hhex : s'.labelledHex? = s.labelledHex? := by rw [hkeeps]
  have hassembly : s'.assembly? = s.assembly? := by rw [hkeeps]
  refine ⟨s', hfinish, ?_⟩
  unfold hexRoom
  rw [hhex]
  cases hsource : s.labelledHex? with
  | none => rfl
  | some source =>
    have hnone := hassembly.trans (hs.exclusive (Option.isSome_of_eq_some hsource))
    rw [(hs.finish hassembler hfinish).2 hnone]

/-- Locations that were read with the labels in front of them are read. -/
theorem exists_readLocations (hassembler : reader.assembler = directives) {standard : Option Sector}
    {nodes : List Xml.Node} (h : nodes.foldlM (readLocation reader patch standard included vars) [] = .ok own) :
    ∃ own', readLocations reader patch standard included vars nodes = .ok own' ∧
      own'.map hexRoom = own.map hexRoom := by
  unfold readLocations
  rw [h, ok_bind]
  refine exists_mapM_iff.2 fun s hs => ?_
  obtain ⟨before, after, hsplit⟩ := List.append_of_mem hs
  exact (eachBehind_of_readAll h before s after hsplit).exists_finish hassembler _

theorem hexSized_of_readLocations (hassembler : reader.assembler = directives) {standard : Option Sector}
    {nodes : List Xml.Node} (h : readLocations reader patch standard included vars nodes = .ok own) :
    ∀ s ∈ own, HexSized s := by
  obtain ⟨first, hfirst, h⟩ := bind_eq_ok h
  intro s hs
  obtain ⟨s₀, hs₀, hfinish⟩ := mem_of_mapM_eq_ok h hs
  obtain ⟨before, after, hsplit⟩ := List.append_of_mem hs₀
  have hbehind := eachBehind_of_readAll hfirst before s₀ after hsplit
  obtain ⟨s', hs', hroom⟩ := hbehind.exists_finish hassembler (symbolsOf (included ++ first) vars)
  cases hs'.symm.trans hfinish
  exact (hbehind.hexSized hassembler).of_hexRoom hroom

theorem hexSized_of_readPatch (hassembler : reader.assembler = directives) {heading : Heading} {earlier : List Patch}
    {n : Xml.Node} {p : Patch} (hearlier : ∀ q ∈ earlier, ∀ s ∈ q.segments, HexSized s)
    (h : readPatch reader heading earlier n = .ok p) : ∀ s ∈ p.segments, HexSized s := by
  obtain ⟨_, _, _, _, own, hown, hsegments⟩ := segments_of_readPatch h
  intro s hs
  rcases hsegments s hs with ⟨q, hq, hs, -⟩ | hs | ⟨location, -, hread⟩
  · exact hearlier q hq s hs
  · exact hexSized_of_readLocations hassembler hown s hs
  · obtain ⟨_, _, _, rfl⟩ := readStream_eq_ok hread
    exact hexSized_of_no_hex rfl

theorem hexSized_of_parse (hassembler : reader.assembler = directives) {text filename : String} {ps : List Patch}
    (h : parse reader text filename = .ok ps) : ∀ p ∈ ps, ∀ s ∈ p.segments, HexSized s := by
  unfold parse at h
  split at h
  · refine readRoot_induction (fun _ _ _ _ _ => hexSized_of_readPatch hassembler) (fun _ _ _ p himport => ?_) h
    obtain ⟨_, _, _, _, _, -, -, -, hbuild⟩ := readImport_eq_ok himport
    rw [Draft.eq_patch_of_build hbuild]
    exact List.forall_mem_singleton.2 (hexSized_of_no_hex rfl)
  · cases h

/-! ## Updates -/

/-- The text of a segment is the same in each state of a run. -/
theorem exists_segment_of_runs {p q : Patch} (h : Runs p q) {i : Nat} (hs : p.segments[i]? = some s) :
    ∃ t, q.segments[i]? = some t ∧ t.labelledHex? = s.labelledHex? := by
  obtain ⟨hi, rfl⟩ := List.getElem?_eq_some_iff.1 hs
  have hi' : i < q.segments.length := h.extends.segments.length_eq ▸ hi
  have hevolves : p.segments[i].Evolves q.segments[i] := h.extends.segments.get hi hi'
  exact ⟨q.segments[i], List.getElem?_eq_getElem hi', congrArg Segment.Signature.labelledHex? hevolves.signature⟩

/-- In each state of a run an update takes the bytes that the text gives, as many as it gave at first. -/
theorem HexSized.update {p q : Patch} (h : HexSized s) (hruns : Runs p q) {i : Nat} (hs : p.segments[i]? = some s)
    {source : String} (hsource : s.labelledHex? = some source) :
    ∃ t bytes, q.segments[i]? = some t ∧
      Bytes.ofHex? (fillLabels source (q.update directives).symbols) = some bytes ∧
      bytes.length = s.bytes.length ∧ (q.update directives).segments[i]? = some { t with bytes } := by
  obtain ⟨t, ht, hhex⟩ := exists_segment_of_runs hruns hs
  obtain ⟨bytes, hbytes, hlength⟩ := h source hsource (q.update directives).symbols
  refine ⟨t, bytes, ht, hbytes, hlength, ?_⟩
  have hrefresh : t.refresh directives (q.update directives).symbols q.moves = { t with bytes } := by
    rw [Segment.refresh_of_labelled (hhex.trans hsource), show directives.fillLabels = fillLabels from rfl, hbytes]
    rfl
  rw [← hrefresh, symbols_update]
  show (q.segments.map _)[i]? = _
  rw [List.getElem?_map, ht]
  rfl

/-! ## Texts, segments and words -/

/-- Whether a text with labels in it can be read, and how many bytes it gives, does not depend on what the labels
stand for. So locations that were read with the labels in front of them are not refused with all labels known, and
keep these numbers, and an update of a patch that was read takes what the text gives in each state of a run. A label
alone gives its address, which is the word that source stores for it exactly when the preamble of the source adds no
bytes and leaves the label bound to this address; names of labels without blanks and commas see to that. -/
theorem labelledHex_sized_and_word_iff (reader : Reader) (hassembler : reader.assembler = directives) :
    (∀ text symbols symbols', (Bytes.ofHex? (fillLabels text symbols)).map List.length =
      (Bytes.ofHex? (fillLabels text symbols')).map List.length) ∧
    (∀ patch standard included vars nodes first,
      nodes.foldlM (readLocation reader patch standard included vars) [] = .ok first →
        ∃ own, readLocations reader patch standard included vars nodes = .ok own ∧
          own.map hexRoom = first.map hexRoom) ∧
    (∀ text filename ps, parse reader text filename = .ok ps → ∀ p ∈ ps, ∀ q, Runs p q →
      ∀ (i : Nat) (s : Segment) (source : String), p.segments[i]? = some s → s.labelledHex? = some source →
        ∃ t bytes, q.segments[i]? = some t ∧
          Bytes.ofHex? (fillLabels source (q.update directives).symbols) = some bytes ∧
          bytes.length = s.bytes.length ∧ (q.update directives).segments[i]? = some { t with bytes }) ∧
    ∀ symbols name v address, isSymbolName name.toList → symbols.label? name = some v →
      Bytes.ofHex? (fillLabels ("@" ++ name) symbols) = some (Bytes.ofValue 4 v) ∧
      ((assemble (symbols.prepend (".word @" ++ name)) address).1 = Bytes.ofValue 4 v ↔
        (assemble symbols.preamble address).1 = [] ∧ ((knownAt symbols "" address 0).label? name).getD 0 = v) ∧
      ((∀ b ∈ symbols.labels, Plain b.1) → (∀ b ∈ symbols.equates, '\n' ∉ b.1.toList) →
        (assemble (symbols.prepend (".word @" ++ name)) address).1 = Bytes.ofValue 4 v) := by
  refine ⟨length_ofHex?_fillLabels, ?_, ?_, ?_⟩
  · intro patch standard included vars nodes first hfirst
    exact exists_readLocations hassembler hfirst
  · intro text filename ps hread p hp q hruns i s source hs hsource
    have hsized := hexSized_of_parse hassembler hread p hp s (List.mem_of_getElem? hs)
    exact hsized.update hruns hs hsource
  · intro symbols name v address hname hv
    refine ⟨?_, assemble_word_eq_iff hname address, ?_⟩
    · rw [ofHex?_fillLabels_label hname, hv]
      rfl
    · intro hlabels hequates
      exact assemble_word_of_plain hlabels hequates hname hv address

/-! ## A label that is known late, and one that disturbs the preamble -/

/-- A document with a reference to a label further on. -/
def forwardText : String :=
  "<Patches><Patch name=\"x\" sector=\"18\"><Location offset=\"800\" replaceLabels=\"true\">01 @hook 0 2</Location>"
    ++ "<Location label=\"hook\">00000000</Location></Patch></Patches>"

/-- The reference is zero at first and the address in the end, both times in six bytes, and after a move and an
update it has followed its label. -/
theorem labelledHex_sized_and_word_forward : ∃ ps p s q t bytes, parse plainReader forwardText "a.xml" = .ok ps ∧
    p ∈ ps ∧ p.segments[0]? = some s ∧ s.bytes = [1, 6, 0, 1, 0x80, 2] ∧ Runs p q ∧ q.segments[0]? = some t ∧
    bytes.length = s.bytes.length ∧ (q.update directives).segments[0]? = some { t with bytes } ∧ bytes ≠ t.bytes ∧
    (assemble (q.symbols.prepend ".word @hook") 0).1 = Bytes.ofValue 4 0x80010106 := by
  let requests : List MoveRequest := [⟨⟨.psx, 24⟩, 0x806, 0x80A, 0x100⟩]
  have hsample : readsAs plainReader forwardText fun _ ps => ps.any fun p => p.segments[0]?.any fun s : Segment =>
      let q := p.move directives plainReader.space requests
      decide (s.labelledHex? = some "01 @hook 0 2" ∧ s.bytes = [1, 6, 0, 1, 0x80, 2] ∧
        q.symbols = ⟨[("hook", 0x80010106)], []⟩ ∧ q.segments[0]? = some s ∧
        (q.update directives).segments[0]? = some { s with bytes := [1, 6, 1, 1, 0x80, 2] }) := by
    decide +kernel
  obtain ⟨-, ps, -, -, hread, hall⟩ := exists_of_readsAs hsample
  obtain ⟨p, hp, hall⟩ := List.any_eq_true.1 hall
  obtain ⟨s, hs, hall⟩ := (Option.any_eq_true _ _).1 hall
  obtain ⟨hsource, hfirst, hsymbols, hq, hupdated⟩ := of_decide_eq_true hall
  obtain ⟨-, -, hupdate, hword⟩ := labelledHex_sized_and_word_iff plainReader rfl
  have hruns : Runs p (p.move directives plainReader.space requests) := .single (.move _ _ p requests)
  obtain ⟨t, bytes, ht, -, hlength, hbytes⟩ := hupdate forwardText "a.xml" ps hread p hp _ hruns 0 s _ hs hsource
  obtain rfl : s = t := Option.some.inj (hq.symm.trans ht)
  have hnew : bytes = [1, 6, 1, 1, 0x80, 2] :=
    congrArg Segment.bytes (Option.some.inj (hbytes.symm.trans hupdated))
  refine ⟨ps, p, s, _, s, bytes, hread, hp, hs, hfirst, hruns, hq, hlength, hbytes, ?_, ?_⟩
  · rw [hnew, hfirst]
    decide
  · rw [hsymbols]
    exact (hword ⟨[("hook", 0x80010106)], []⟩ "hook" 0x80010106 0 (by decide) (by decide)).2.2 (by decide) (by decide)

/-- A document with two labels. Up to the mark of a comment, the name of the second one binds the first one again. -/
def reboundText : String :=
  "<Patches><Patch name=\"x\" sector=\"18\"><Location offset=\"800\" label=\"hook\">00000000</Location>"
    ++ "<Location label=\"hook,5#\">00000000</Location><Location replaceLabels=\"true\">@hook</Location>"
    ++ "<Location mode=\"asm\">.word @hook</Location></Patch></Patches>"

/-- Text and source refer to the same label, with the same symbols, and get other bytes without any fault. -/
theorem word_of_rebound_label :
    let s : Symbols := ⟨[("hook", 0x80010000), ("hook,5#", 0x80010004)], []⟩
    isSymbolName "hook".toList ∧ s.label? "hook" = some 0x80010000 ∧
      Bytes.ofHex? (fillLabels "@hook" s) = some [0, 0, 1, 0x80] ∧
      assemble (s.prepend ".word @hook") 0x8001000C = ([5, 0, 0, 0], []) ∧
      ∃ ps p, parse plainReader reboundText "a.xml" = .ok ps ∧ p ∈ ps ∧ p.symbols = s ∧ p.faultText = "" ∧
        p.segments.map (·.bytes) = [[0, 0, 0, 0], [0, 0, 0, 0], [0, 0, 1, 0x80], [5, 0, 0, 0]] := by
  intro s
  have hsample : readsAs plainReader reboundText fun _ ps => ps.any fun p => decide (p.symbols = s ∧ p.faultText = "" ∧
      p.segments.map (·.bytes) = [[0, 0, 0, 0], [0, 0, 0, 0], [0, 0, 1, 0x80], [5, 0, 0, 0]]) := by
    decide +kernel
  obtain ⟨-, ps, -, -, hread, hall⟩ := exists_of_readsAs hsample
  obtain ⟨p, hp, hfound⟩ := List.any_eq_true.1 hall
  exact ⟨by decide, by decide, by decide +kernel, by decide +kernel, ps, p, hread, hp, of_decide_eq_true hfound⟩

end DiscPatch.Description
