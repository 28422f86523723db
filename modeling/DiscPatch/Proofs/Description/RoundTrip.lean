/-
Documents read again: the patches of a document whose patches stand alone come out with the same segments from
the document that is written for them, exactly where no assembly source that continues a segment starts inside
a word.
-/
import DiscPatch.Assembly.Directives
import DiscPatch.Proofs.Description.Patches

namespace DiscPatch.Description

open Text Xml Patch Assembly

variable {reader : Reader} {ps : List Patch}

/-! ## Documents -/

/-- The heading that all patches under a root element share. -/
def headingOf (filename : String) (root : Node) : Heading :=
  ⟨filename, flag root "hideInDefault", flag root "hidden"⟩

/-- What is read under a root element: first the patches that are not left out, then the imports. -/
theorem readRoot_eq_ok {filename : String} {root : Node} (h : readRoot reader filename root = .ok ps) :
    ∃ patches imports, ps = patches ++ imports ∧
      (∀ p ∈ patches, ∃ n ∈ root.elements "Patch", ∃ earlier,
        ignored n = .ok false ∧ readPatch reader (headingOf filename root) earlier n = .ok p) ∧
      ∀ p ∈ imports, ∃ n ∈ root.elements "ImportFilePatch",
        readImport reader (headingOf filename root) n = .ok (some p) := by
  unfold readRoot at h
  dsimp only at h
  split at h
  · cases h
  · obtain ⟨patches, hpatches, h⟩ := bind_eq_ok h
    obtain ⟨imports, himports, h⟩ := bind_eq_ok h
    cases h
    refine ⟨patches, imports.filterMap id, rfl, ?_, fun p hp => ?_⟩
    · refine foldlM_induction (motive := fun patches => ∀ p ∈ patches, ∃ n ∈ root.elements "Patch", ∃ earlier,
        ignored n = .ok false ∧ readPatch reader (headingOf filename root) earlier n = .ok p)
        (fun n hn earlier patches hearlier hstep => ?_) (List.forall_mem_nil _) hpatches
      obtain ⟨leftOut, hleftOut, hstep⟩ := bind_eq_ok hstep
      split at hstep
      · cases hstep
        exact hearlier
      · rename_i hfalse
        obtain ⟨p, hp, hstep⟩ := bind_eq_ok hstep
        cases hstep
        rw [Bool.eq_false_iff.2 hfalse] at hleftOut
        exact List.forall_mem_append.2 ⟨hearlier, List.forall_mem_singleton.2 ⟨n, hn, earlier, hleftOut, hp⟩⟩
    · obtain ⟨import?, himport, heq⟩ := List.mem_filterMap.1 hp
      obtain ⟨n, hn, hstep⟩ := mem_of_mapM_eq_ok himports himport
      exact ⟨n, hn, heq ▸ hstep⟩

/-- Under a root element that leaves no patch out, every element gives its patch, in order. -/
theorem forall₂_of_readRoot {filename : String} {root : Node} (h : readRoot reader filename root = .ok ps)
    (hkept : ∀ n ∈ root.elements "Patch", ignored n = .ok false) :
    ∃ patches imports, ps = patches ++ imports.filterMap id ∧
      List.Forall₂ (fun n p => ∃ earlier, readPatch reader (headingOf filename root) earlier n = .ok p)
        (root.elements "Patch") patches ∧
      List.Forall₂ (fun n import? => readImport reader (headingOf filename root) n = .ok import?)
        (root.elements "ImportFilePatch") imports := by
  unfold readRoot at h
  dsimp only at h
  split at h
  · cases h
  · obtain ⟨patches, hpatches, h⟩ := bind_eq_ok h
    obtain ⟨imports, himports, h⟩ := bind_eq_ok h
    cases h
    have hstep : ∀ n ∈ root.elements "Patch", ∀ earlier patches : List Patch, (do
        if ← ignored n then return earlier
        let patch ← readPatch reader (headingOf filename root) earlier n
        return earlier ++ [patch]) = Except.ok patches → ∃ p, patches = earlier ++ [p] ∧
          ∃ earlier, readPatch reader (headingOf filename root) earlier n = .ok p := by
      intro n hn earlier patches hstep
      rw [hkept n hn, ok_bind] at hstep
      obtain ⟨p, hp, hstep⟩ := bind_eq_ok hstep
      cases hstep
      exact ⟨p, rfl, earlier, hp⟩
    obtain ⟨more, heq, hmore⟩ := forall₂_of_foldlM hstep hpatches
    rw [List.nil_append] at heq
    exact ⟨more, imports, by rw [heq], hmore, mapM_eq_ok_iff.1 himports⟩

/-- Whether patches are those of a document whose patches stand alone: patches that do, and then imports. -/
structure Parts (reader : Reader) (patches imports : List Patch) : Prop where
  patches : ∀ p ∈ patches, Restorable reader p
  imports : ∀ p ∈ imports, Imports reader.space p

theorem parts_of_readRoot (hspace : reader.space.Named) {filename : String} {root : Node} (hclean : root.Clean)
    (halone : ∀ n ∈ root.elements "Patch", ignored n = .ok false → StandsAlone n)
    (h : readRoot reader filename root = .ok ps) :
    ∃ patches imports, ps = patches ++ imports ∧ Parts reader patches imports := by
  obtain ⟨patches, imports, hps, hpatches, himports⟩ := readRoot_eq_ok h
  refine ⟨patches, imports, hps, fun p hp => ?_, fun p hp => ?_⟩
  · obtain ⟨n, hn, earlier, hignored, hread⟩ := hpatches p hp
    exact restorable_of_readPatch hspace (hclean.elements hn) (halone n hn hignored) hread
  · obtain ⟨n, hn, hread⟩ := himports p hp
    exact imports_of_readImport hspace (hclean.elements hn) hread

/-! ## Written documents -/

section

variable {patches imports : List Patch}

theorem Parts.isImport (h : Parts reader patches imports) :
    (∀ p ∈ patches, p.isImport = false) ∧ ∀ p ∈ imports, p.isImport = true := by
  refine ⟨fun p hp => ?_, fun p hp => ?_⟩
  · refine List.any_eq_false.2 fun s hs => ?_
    rw [Segment.takesFile_of_inline ((h.patches p hp).segments s hs).inline]
    decide
  · obtain ⟨sector, offset, expected, -, hsegments⟩ := (h.imports p hp).segments
    rw [Patch.isImport, hsegments]
    rfl

theorem Parts.writable (h : Parts reader patches imports) : ∀ p ∈ patches ++ imports, p.Writable ContentText := by
  refine List.forall_mem_append.2 ⟨fun p hp => ?_, fun p hp => ?_⟩
  · have hrestorable := h.patches p hp
    exact ⟨hrestorable.name, hrestorable.description, fun s hs _ => (hrestorable.segments s hs).inline,
      fun s hs label hlabel => ((hrestorable.segments s hs).label label hlabel).1,
      fun s hs => (hrestorable.segments s hs).content, fun v hv => (hrestorable.vars v hv).1.name,
      fun v hv r hr => ((hrestorable.vars v hv).1.reference r hr).1⟩
  · exact (h.imports p hp).writable

theorem Parts.elements (h : Parts reader patches imports) (space : AddressSpace) :
    (documentXml space (patches ++ imports)).tidy.elements "Patch" = patches.map (fun p => (toXml space p).tidy) ∧
      (documentXml space (patches ++ imports)).tidy.elements "ImportFilePatch" =
        imports.map fun p => (toXml space p).tidy := by
  obtain ⟨hpatches, himports⟩ := elements_document space h.isImport.1 h.isImport.2
  rw [Node.elements_tidy, Node.elements_tidy, hpatches, himports, List.map_map, List.map_map]
  exact ⟨rfl, rfl⟩

/-- What is written for the patches of a document that all stand alone is read as the tree it was printed from. -/
theorem Parts.parse_documentText (hspace : reader.space.Named) (h : Parts reader patches imports) (filename : String) :
    parse reader (documentText reader.space (patches ++ imports)) filename =
      readRoot reader filename (documentXml reader.space (patches ++ imports)).tidy := by
  unfold parse
  rw [parse?_documentText (namesPrintable_of_named hspace) h.writable]

/-- A written document is read patch by patch. -/
theorem readRoot_written (h : Parts reader patches imports) (filename : String) :
    ∃ heading, readRoot reader filename (documentXml reader.space (patches ++ imports)).tidy = (do
      let qs ← (patches.map fun p => (toXml reader.space p).tidy).mapM (readPatch reader heading [])
      let more ← (imports.map fun p => (toXml reader.space p).tidy).mapM (readImport reader heading)
      return qs ++ more.filterMap id) := by
  have htag : (documentXml reader.space (patches ++ imports)).tidy.tag = "Patches" := rfl
  obtain ⟨hpatches, himports⟩ := h.elements reader.space
  generalize (documentXml reader.space (patches ++ imports)).tidy = root at *
  -- the patches read before do not matter, so the loop is a list of independent steps
  have hstep : ∀ n ∈ patches.map (fun p => (toXml reader.space p).tidy), ∀ earlier : List Patch, (do
      if ← ignored n then return earlier
      let patch ← readPatch reader (headingOf filename root) earlier n
      return earlier ++ [patch]) =
        (readPatch reader (headingOf filename root) [] n).map fun patch => earlier ++ [patch] := by
    intro n hn earlier
    obtain ⟨p, hp, rfl⟩ := List.mem_map.1 hn
    have hrestorable := h.patches p hp
    have hignored : ignored (toXml reader.space p).tidy = .ok false := by
      unfold ignored
      rw [(patchOf_toXml reader.space fun s hs => (hrestorable.segments s hs).inline).others "ignore" (by decide)]
    rw [hignored, ok_bind, readPatch_of_standsAlone (standsAlone_written hrestorable) _ earlier,
      ← readPatch_of_standsAlone (standsAlone_written hrestorable) _ []]
    cases readPatch reader (headingOf filename root) [] (toXml reader.space p).tidy <;> rfl
  have hloop := foldlM_append_eq_mapM hstep []
  refine ⟨headingOf filename root, ?_⟩
  unfold readRoot
  dsimp only
  rw [if_neg (not_not_intro htag), hpatches, himports]
  refine (congrArg (· >>= _) hloop).trans ?_
  cases (patches.map fun p => (toXml reader.space p).tidy).mapM (readPatch reader (headingOf filename root) []) <;> rfl

/-! ## Reading again -/

/-- The imports of a written document are read again. -/
theorem Parts.readImports (hspace : reader.space.Named) (h : Parts reader patches imports)
    (heading : Heading) :
    ∃ more, (imports.map fun p => (toXml reader.space p).tidy).mapM (readImport reader heading) = .ok more ∧
      (more.filterMap id).map (·.segments) = imports.map (·.segments) := by
  have hread : ∀ p ∈ imports, ∃ q : Option Patch, (readImport reader heading ∘ fun p => (toXml reader.space p).tidy) p =
      .ok q ∧ q.map (·.segments) = some p.segments := by
    intro p hp
    obtain ⟨q, hq, hsegments⟩ := readImport_written hspace (h.imports p hp) heading
    exact ⟨some q, hq, congrArg some hsegments⟩
  obtain ⟨more, hmore, hsome⟩ := exists_mapM_iff.2 hread
  refine ⟨more, List.mapM_map.trans hmore, ?_⟩
  have hsegments := congrArg (List.filterMap id) hsome
  rw [List.filterMap_map, List.filterMap_map] at hsegments
  rw [List.map_filterMap]
  exact hsegments.trans (congrFun List.filterMap_eq_map imports)

theorem Parts.startsAligned (h : Parts reader patches imports) :
    ∀ p ∈ imports, ∀ s ∈ p.segments, StartsAligned s := by
  intro p hp
  obtain ⟨sector, offset, expected, -, hsegments⟩ := (h.imports p hp).segments
  rw [hsegments, List.forall_mem_singleton]
  intro hassembly
  cases hassembly

/-- A written document is read with the same segments exactly where they start aligned. -/
theorem readRoot_written_iff (hspace : reader.space.Named) (h : Parts reader patches imports) (filename : String) :
    (∃ qs, readRoot reader filename (documentXml reader.space (patches ++ imports)).tidy = .ok qs ∧
        qs.map (·.segments) = (patches ++ imports).map (·.segments)) ↔
      ∀ p ∈ patches ++ imports, ∀ s ∈ p.segments, StartsAligned s := by
  obtain ⟨heading, hread⟩ := readRoot_written h filename
  obtain ⟨more, hmore, hsame⟩ := h.readImports hspace heading
  have hagain : (∃ qs, patches.mapM (readPatch reader heading [] ∘ fun p => (toXml reader.space p).tidy) = .ok qs ∧
      qs.map (·.segments) = patches.map (·.segments)) ↔ ∀ p ∈ patches, ∀ s ∈ p.segments, StartsAligned s :=
    exists_mapM_iff.trans (forall₂_congr fun p hp => readPatch_written_iff hspace (h.patches p hp) heading [])
  rw [List.forall_mem_append, and_iff_left h.startsAligned, ← hagain, hread, List.mapM_map]
  constructor
  · rintro ⟨qs, hqs, hsegments⟩
    obtain ⟨own, hown, hqs⟩ := bind_eq_ok hqs
    rw [hmore] at hqs
    cases hqs
    rw [List.map_append, List.map_append, hsame] at hsegments
    exact ⟨own, hown, List.append_cancel_right hsegments⟩
  · rintro ⟨own, hown, hsegments⟩
    refine ⟨own ++ more.filterMap id, ?_, ?_⟩
    · rw [hown, ok_bind, hmore]
      rfl
    · rw [List.map_append, List.map_append, hsame, hsegments]

end

/-- For a document over a built-in table whose patches stand alone, and which has no carriage returns and in
attribute values no tabs or line feeds, what is written for its patches is read again with the same segments, patch
by patch, if and only if every segment of assembly source that continues the one before starts on a word. -/
theorem parse_documentText_iff (platform : Platform) (reader : Reader)
    (hspace : reader.space = (SectorTable.ofPlatform platform).space) (text filename : String) (root : Node)
    (hroot : Xml.parse? text = some root)
    (hplain : root.Holds (fun c => c ≠ '\r') fun c => c ≠ '\r' ∧ c ≠ '\t' ∧ c ≠ '\n')
    (halone : ∀ n ∈ root.elements "Patch", ignored n = .ok false → StandsAlone n) (ps : List Patch)
    (hread : parse reader text filename = .ok ps) :
    (∃ qs, parse reader (documentText reader.space ps) filename = .ok qs ∧
        qs.map (·.segments) = ps.map (·.segments)) ↔
      ∀ p ∈ ps, ∀ s ∈ p.segments, s.assembly?.isSome → s.isChained → s.offset.toNat % 4 = 0 := by
  have hnamed : reader.space.Named := hspace ▸ SectorTable.named_ofPlatform platform
  have hclean : root.Clean := (valid_of_parse? hroot).clean hplain
  unfold parse at hread
  rw [hroot] at hread
  obtain ⟨patches, imports, rfl, hparts⟩ := parts_of_readRoot hnamed hclean halone hread
  rw [hparts.parse_documentText hnamed]
  exact readRoot_written_iff hnamed hparts filename

/-- A reader over a built-in table that finds no files. -/
def plainReader : Reader where
  space := (SectorTable.ofPlatform .psx).space
  assembler := directives
  files := ⟨fun _ => .error .notFound, fun _ => false, fun _ => []⟩

/-- What a reader finds out about a text. -/
def readsAs (reader : Reader) (text : String) (found : Node → List Patch → Bool) : Bool :=
  (Xml.parse? text).any fun root => (readRoot reader "a.xml" root).toOption.any (found root)

theorem exists_of_readsAs {reader : Reader} {text : String} {found : Node → List Patch → Bool}
    (h : readsAs reader text found) : ∃ root ps, Xml.parse? text = some root ∧
      readRoot reader "a.xml" root = .ok ps ∧ parse reader text "a.xml" = .ok ps ∧ found root ps := by
  obtain ⟨root, hroot, h⟩ := (Option.any_eq_true _ _).1 h
  obtain ⟨ps, hps, h⟩ := (Option.any_eq_true _ _).1 h
  have hread := toOption_eq_some_iff.1 hps
  refine ⟨root, ps, hroot, hread, ?_, h⟩
  unfold parse
  rw [hroot]
  exact hread

/-- A document with assembly source that continues given bytes, at the next even offset. -/
def continued (content : String) : String :=
  "<Patches><Patch name=\"x\" sector=\"18\"><Location offset=\"100\">" ++ content
    ++ "</Location><Location mode=\"asm\" align=\"2\">.half 1</Location></Patch></Patches>"

/-- Behind four bytes the source is read again where it was, but not behind two. -/
theorem parse_documentText_continued :
    (∃ ps, parse plainReader (continued "01020304") "a.xml" = .ok ps ∧
      ∃ qs, parse plainReader (documentText plainReader.space ps) "a.xml" = .ok qs ∧
        qs.map (·.segments) = ps.map (·.segments)) ∧
    ∃ ps, parse plainReader (continued "0102") "a.xml" = .ok ps ∧
      ¬ ∃ qs, parse plainReader (documentText plainReader.space ps) "a.xml" = .ok qs ∧
        qs.map (·.segments) = ps.map (·.segments) := by
  have hsample : ∀ content ∈ ["01020304", "0102"], (Xml.parse? (continued content)).any fun root =>
      decide (root.Holds (fun c => c ≠ '\r') fun c => c ≠ '\r' ∧ c ≠ '\t' ∧ c ≠ '\n') &&
        (decide (∀ n ∈ root.elements "Patch", StandsAlone n) &&
          (readRoot plainReader "a.xml" root).toOption.any fun ps => decide (content = "01020304") ==
            decide (∀ p ∈ ps, ∀ s ∈ p.segments, s.assembly?.isSome → s.isChained → s.offset.toNat % 4 = 0)) := by
    decide +kernel
  have hread : ∀ content ∈ ["01020304", "0102"], ∃ ps, parse plainReader (continued content) "a.xml" = .ok ps ∧
      ((∃ qs, parse plainReader (documentText plainReader.space ps) "a.xml" = .ok qs ∧
        qs.map (·.segments) = ps.map (·.segments)) ↔ content = "01020304") := by
    intro content hcontent
    obtain ⟨root, hroot, hall⟩ := (Option.any_eq_true _ _).1 (hsample content hcontent)
    obtain ⟨hplain, hall⟩ := Bool.and_eq_true_iff.1 hall
    obtain ⟨halone, haligned⟩ := Bool.and_eq_true_iff.1 hall
    have hparse : parse plainReader (continued content) "a.xml" = readRoot plainReader "a.xml" root := by
      unfold parse
      rw [hroot]
    cases hps : readRoot plainReader "a.xml" root with
    | error e =>
      rw [hps] at haligned
      cases haligned
    | ok ps =>
      rw [hps] at haligned
      refine ⟨ps, hparse.trans hps, (parse_documentText_iff .psx plainReader rfl (continued content) "a.xml" root hroot
        (of_decide_eq_true hplain) (fun n hn _ => of_decide_eq_true halone n hn) ps (hparse.trans hps)).trans ?_⟩
      exact (decide_eq_decide.1 (beq_iff_eq.1 haligned)).symm
  obtain ⟨ps, hps, hagain⟩ := hread "01020304" (by decide)
  obtain ⟨qs, hqs, hnot⟩ := hread "0102" (by decide)
  exact ⟨⟨ps, hps, hagain.2 rfl⟩, qs, hqs, fun h => absurd (hnot.1 h) (by decide)⟩

end DiscPatch.Description
