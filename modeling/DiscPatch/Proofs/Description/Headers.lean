/-
Headers read again: what of a patch's name, description, flags and kind comes back from the document that is
written for the patches of a document. A patch that imports a file loses its flags, and another one an empty
description; the blanks at the ends of a name that stands in for a description are lost too. All else comes back.
-/
import DiscPatch.Proofs.Description.Reading
import DiscPatch.Proofs.Description.RoundTrip

namespace DiscPatch.Patch

open Text Xml

/-! ## Headers -/

/-- What a patch is listed under, and whether it imports a file. -/
structure Header where
  name : String
  description : String
  hiddenByDefault : Bool
  isHidden : Bool
  isImport : Bool
  deriving DecidableEq, Repr

/-- What the patch is listed under. -/
def header (p : Patch) : Header where
  name := p.name
  description := p.description
  hiddenByDefault := p.hiddenByDefault
  isHidden := p.isHidden
  isImport := p.isImport

/-- What is read of a header that was written. -/
def Header.reread (h : Header) : Header where
  name := h.name
  description := if h.description = "" && !h.isImport then h.name else trim h.description
  hiddenByDefault := h.hiddenByDefault && !h.isImport
  isHidden := h.isHidden && !h.isImport
  isImport := h.isImport

/-- Whether all of a header comes back. -/
structure Header.Lasting (h : Header) : Prop where
  trimmed : trim h.description = h.description
  described : h.isImport = false → h.description = "" → h.name = ""
  shown : h.isImport = true → h.hiddenByDefault = false ∧ h.isHidden = false

theorem Header.reread_eq_self_iff {h : Header} : h.reread = h ↔ h.Lasting := by
  obtain ⟨name, description, hiddenByDefault, isHidden, isImport⟩ := h
  have hempty : trim "" = "" := rfl
  constructor
  · intro heq
    obtain ⟨-, hdescription, hdefault, hhidden, -⟩ := Header.mk.inj heq
    dsimp only at hdescription hdefault hhidden
    refine ⟨?_, fun himport hnone => ?_, fun himport => ?_⟩
    · by_cases hnone : description = ""
      · rw [hnone, hempty]
      · rwa [decide_eq_false hnone, Bool.false_and, if_neg (by decide)] at hdescription
    · dsimp only at himport hnone
      rw [himport, hnone] at hdescription
      exact hdescription
    · dsimp only at himport
      rw [himport, Bool.not_true, Bool.and_false] at hdefault hhidden
      exact ⟨hdefault.symm, hhidden.symm⟩
  · rintro ⟨htrimmed, hdescribed, hshown⟩
    dsimp only at htrimmed hdescribed hshown
    unfold Header.reread
    cases isImport with
    | true =>
      obtain ⟨rfl, rfl⟩ := hshown rfl
      simp [htrimmed]
    | false =>
      by_cases hnone : description = ""
      · simp [hnone, hdescribed rfl hnone]
      · simp [hnone, htrimmed]

/-! ## Written headers -/

/-- What the element of a patch says of its header. -/
structure HeaderOf (p : Patch) (n : Node) : Prop where
  name : n.attr? "name" = some p.name
  hiddenByDefault : n.attr? "hideInDefault" = if p.hiddenByDefault && !p.isImport then some "true" else none
  isHidden : n.attr? "hidden" = if p.isHidden && !p.isImport then some "true" else none
  ignore : n.attr? "ignore" = none
  description : n.elements "Description" = if p.description = "" && !p.isImport then [] else [descriptionXml p]

theorem tag?_segment (space : AddressSpace) (s : Segment) :
    (Segment.toXml space s).tag? ≠ some "Description" := by
  unfold Segment.toXml
  split
  · exact of_decide_eq_true rfl
  · exact of_decide_eq_true rfl

/-- An element of either kind holds its description in front of other parts, and has flags unless it imports a
file. -/
theorem exists_parts_toXml (space : AddressSpace) (p : Patch) : ∃ tag parts,
    toXml space p = element tag
      (attr "name" p.name :: (flagAttr "hideInDefault" (p.hiddenByDefault && !p.isImport) ++
        flagAttr "hidden" (p.isHidden && !p.isImport)))
      (onLines "    " "        " ((if p.description = "" && !p.isImport then [] else [descriptionXml p]) ++ parts)) ∧
    ∀ n ∈ parts, n.tag? ≠ some "Description" := by
  rw [isImport_eq_isSome_find?]
  unfold toXml
  cases p.segments.find? (·.takesFile) with
  | some s =>
    rw [Option.isSome_some, Bool.not_true, Bool.and_false, Bool.and_false, Bool.and_false, if_neg Bool.false_ne_true]
    exact ⟨_, _, rfl, List.forall_mem_singleton.2 (of_decide_eq_true rfl)⟩
  | none =>
    rw [Option.isSome_none, Bool.not_false, Bool.and_true, Bool.and_true, Bool.and_true]
    refine ⟨"Patch", p.segments.map (Segment.toXml space) ++ p.vars.map (Variable.toXml space), ?_, ?_⟩
    · dsimp only
      rw [List.append_assoc]
      simp only [decide_eq_true_eq]
    · exact List.forall_mem_append.2 ⟨List.forall_mem_map.2 fun s _ => tag?_segment space s,
        List.forall_mem_map.2 fun v _ => of_decide_eq_true rfl⟩

theorem headerOf_toXml (space : AddressSpace) (p : Patch) : HeaderOf p (toXml space p) := by
  obtain ⟨tag, parts, hxml, hparts⟩ := exists_parts_toXml space p
  rw [hxml]
  refine ⟨?_, ?_, ?_, ?_, ?_⟩
  case refine_5 =>
    show (onLines _ _ _).filter (·.tag? = some "Description") = _
    have hnone : parts.filter (·.tag? = some "Description") = [] :=
      List.filter_eq_nil_iff.2 fun n hn => by simpa using hparts n hn
    rw [filter_onLines, List.filter_append, hnone, List.append_nil]
    split <;> rfl
  all_goals
    rw [attr?_element]
    unfold flagAttr
    simp [valueIn_cons, valueIn_append, valueIn_nil, apply_ite (valueIn _)]

end DiscPatch.Patch

namespace DiscPatch.Description

open Text Xml Patch

variable {reader : Reader} {heading : Heading} {earlier : List Patch} {n : Node} {p q : Patch}

/-! ## Headers that were read -/

theorem inline_of_readLocations {patch : String} {standard : Option Sector} {included : List Segment}
    {vars : List Variable} {nodes : List Node} {own : List Segment}
    (h : readLocations reader patch standard included vars nodes = .ok own) : ∀ s ∈ own, s.source = .inline := by
  refine readLocations_induction (fun _ _ _ _ _ _ _ _ _ _ hreading => hreading.inline) (fun s s' hkeeps hs => ?_) h
  rw [hkeeps.segment]
  exact hs

theorem labels_of_readLocations {patch : String} {standard : Option Sector} {included : List Segment}
    {vars : List Variable} {nodes : List Node} {own : List Segment} (hnodes : ∀ n ∈ nodes, n.Clean)
    (h : readLocations reader patch standard included vars nodes = .ok own) :
    ∀ s ∈ own, ∀ label, s.label? = some label → ValueText label := by
  refine readLocations_induction (fun location hlocation _ _ wish _ hwish _ _ s hreading label hlabel => ?_)
    (fun s s' hkeeps hs => ?_) h
  · have hclear := ((wishRead_of_readWish hwish).label_clean (hnodes location hlocation)).1
    rw [hreading.label] at hlabel
    unfold labelOf? at hlabel
    split at hlabel
    · cases hlabel
    · cases hlabel
      exact hclear
  · rw [hkeeps.segment]
    exact hs

/-- The header of a patch that is read, whatever it includes. -/
theorem header_of_readPatch (h : readPatch reader heading earlier n = .ok p) : ∃ title, titleOf n = .ok title ∧
    p.header = ⟨title.1, title.2, flag n "hideInDefault" || heading.hiddenByDefault,
      flag n "hidden" || heading.isHidden, false⟩ := by
  obtain ⟨title, _, _, _, _, hsteps, hbuild⟩ := readSteps_of_readPatch h
  obtain ⟨_, _, _, _, own, hown, hsegments⟩ := segments_of_readPatch h
  have himport : p.isImport = false := by
    refine List.any_eq_false.2 fun s hs => ?_
    rw [Bool.not_eq_true]
    rcases hsegments s hs with ⟨q, -, -, hnone⟩ | hs | ⟨location, -, hread⟩
    · exact hnone
    · exact Segment.takesFile_of_inline (inline_of_readLocations hown s hs)
    · obtain ⟨_, _, _, rfl⟩ := readStream_eq_ok hread
      rfl
  refine ⟨title, hsteps.titleOf, ?_⟩
  rw [header, himport, Draft.eq_patch_of_build hbuild]
  rfl

/-- The header of an import that is read: its flags are those of the document. -/
theorem header_of_readImport (h : readImport reader heading n = .ok (some p)) : ∃ title, titleOf n = .ok title ∧
    p.header = ⟨title.1, title.2, heading.hiddenByDefault, heading.isHidden, true⟩ := by
  obtain ⟨title, _, sector, offset, expected, htitle, -, -, hbuild⟩ := readImport_eq_ok h
  refine ⟨title, htitle, ?_⟩
  rw [Draft.eq_patch_of_build hbuild]
  rfl

/-! ## Patches that can be written -/

/-- Whether a patch can be written, whatever texts of files it holds, and its description is read as it is. -/
structure Clear (p : Patch) : Prop where
  writable : p.Writable fun _ => True
  description : ContentText p.description

theorem clear_of_readPatch (hspace : reader.space.Named) (hclean : n.Clean) (hincludes : n.elements "Include" = [])
    (hstreams : n.elements "STRLocation" = []) (h : readPatch reader heading earlier n = .ok p) : Clear p := by
  obtain ⟨title, standard, vars, own, streams, hsteps, hbuild⟩ := readSteps_of_readPatch h
  have hincluded := includedPatches_eq_nil hincludes earlier
  have hnone : streams = [] := by
    have hread := hsteps.readStreams
    rw [hstreams] at hread
    exact (Except.ok.inj hread).symm
  have hvars := hsteps.readVariables
  rw [hincluded] at hvars
  have hstorable := storable_readVariables hspace (platform_namedSector hspace hsteps.namedSector)
    (fun v hv => hclean.elements hv) hvars
  have hlabels := labels_of_readLocations (fun location hlocation => hclean.elements hlocation) hsteps.readLocations
  obtain ⟨hname, hdescription⟩ := titleOf_eq_ok hclean hsteps.titleOf
  have hinline := inline_of_readLocations hsteps.readLocations
  rw [hincluded, hnone] at hbuild
  rw [Draft.eq_patch_of_build hbuild]
  have hsegments : ([] : List Patch).flatMap includable ++ own ++ [] = own := by
    rw [List.append_nil]
    rfl
  refine ⟨⟨hname, trivial, ?_, ?_, fun _ _ => trivial, fun v hv => (hstorable v hv).1.name,
    fun v hv r hr => ((hstorable v hv).1.reference r hr).1⟩, hdescription⟩
  · show ∀ s ∈ ([] : List Patch).flatMap includable ++ own ++ [], _
    rw [hsegments]
    exact fun s hs _ => hinline s hs
  · show ∀ s ∈ ([] : List Patch).flatMap includable ++ own ++ [], _
    rw [hsegments]
    exact hlabels

theorem clear_of_readImport (hspace : reader.space.Named) (hclean : n.Clean)
    (h : readImport reader heading n = .ok (some p)) : Clear p := by
  have himports := imports_of_readImport hspace hclean h
  exact ⟨himports.writable.imp fun _ _ => trivial, himports.description⟩

/-! ## Headers read again -/

theorem innerText_descriptionXml (h : ContentText p.description) :
    (descriptionXml p).readBack.innerText = p.description := by
  rw [Node.readBack_eq_tidy _ (printable_description h), Node.innerText_tidy]
  exact String.append_empty

theorem titleOf_written (space : AddressSpace) (h : ContentText p.description) :
    titleOf (toXml space p).readBack = .ok (p.name, p.header.reread.description) := by
  have hn := headerOf_toXml space p
  have hname : required (toXml space p).readBack "name" = .ok p.name :=
    required_eq_ok_iff.2 ((Node.attr?_readBack ..).trans hn.name)
  have hdescription : p.header.reread.description =
      if p.description = "" && !p.isImport then p.name else trim p.description := rfl
  unfold titleOf
  rw [hname, ok_bind, Node.elements_readBack, hn.description, hdescription]
  cases decide (p.description = "") && !p.isImport with
  | true => rfl
  | false =>
    show Except.ok (p.name, trim (descriptionXml p).readBack.innerText) = _
    rw [innerText_descriptionXml h]
    rfl

theorem flag_of_attr? {key : String} {value : Bool} (h : n.attr? key = if value then some "true" else none) :
    flag n key = value := by
  unfold flag
  rw [h]
  cases value <;> decide

theorem headingOf_document (filename : String) (space : AddressSpace) (ps : List Patch) :
    headingOf filename (documentXml space ps).readBack = ⟨filename, false, false⟩ := by
  have hnone : ∀ key, (documentXml space ps).readBack.attr? key = none := fun key => Node.attr?_readBack ..
  unfold headingOf flag
  rw [hnone, hnone]

theorem header_readPatch_written {filename : String} (h : ContentText p.description) (himport : p.isImport = false)
    (hread : readPatch reader ⟨filename, false, false⟩ earlier (toXml reader.space p).readBack = .ok q) :
    q.header = p.header.reread := by
  have hn := headerOf_toXml reader.space p
  obtain ⟨title, htitle, hheader⟩ := header_of_readPatch hread
  cases htitle.symm.trans (titleOf_written reader.space h)
  rw [hheader, flag_of_attr? ((Node.attr?_readBack ..).trans hn.hiddenByDefault),
    flag_of_attr? ((Node.attr?_readBack ..).trans hn.isHidden), Bool.or_false, Bool.or_false]
  unfold Header.reread header
  rw [himport]

theorem header_readImport_written {filename : String} (h : ContentText p.description) (himport : p.isImport = true)
    (hread : readImport reader ⟨filename, false, false⟩ (toXml reader.space p).readBack = .ok (some q)) :
    q.header = p.header.reread := by
  obtain ⟨title, htitle, hheader⟩ := header_of_readImport hread
  cases htitle.symm.trans (titleOf_written reader.space h)
  rw [hheader]
  unfold Header.reread header
  simp only [himport, Bool.not_true, Bool.and_false]

/-- An import is written with the one file that it takes. -/
theorem length_importFile (space : AddressSpace) (h : p.isImport = true) :
    ((toXml space p).readBack.elements "ImportFile").length = 1 := by
  rw [isImport_eq_isSome_find?] at h
  obtain ⟨s, hs⟩ := Option.isSome_iff_exists.1 h
  obtain ⟨file, hfile, -⟩ := (importOf_toXml space hs).file
  have hlength := congrArg List.length hfile
  rw [Node.elements_tidy, List.length_map] at hlength
  rw [Node.elements_readBack, List.length_map]
  exact hlength

/-! ## Documents -/

section

variable {patches imports qs : List Patch} {filename : String}

/-- What is written for patches, the imports behind the others, is read patch by patch, each with what comes back of
its header. -/
theorem headers_of_readRoot (hclear : ∀ p ∈ patches ++ imports, ContentText p.description)
    (hpatches : ∀ p ∈ patches, p.isImport = false) (himports : ∀ p ∈ imports, p.isImport = true)
    (h : readRoot reader filename (documentXml reader.space (patches ++ imports)).readBack = .ok qs) :
    qs.map header = (patches ++ imports).map (·.header.reread) := by
  obtain ⟨hclear, hclear'⟩ := List.forall_mem_append.1 hclear
  obtain ⟨helements, helements'⟩ := elements_document reader.space hpatches himports
  have hkept : ∀ n ∈ (documentXml reader.space (patches ++ imports)).readBack.elements "Patch",
      ignored n = .ok false := by
    rw [Node.elements_readBack, helements, List.map_map]
    refine List.forall_mem_map.2 fun p _ => ?_
    unfold ignored
    rw [Function.comp_apply, Node.attr?_readBack, (headerOf_toXml reader.space p).ignore]
  obtain ⟨more, again, rfl, hmore, hagain⟩ := forall₂_of_readRoot h hkept
  rw [headingOf_document, Node.elements_readBack, helements, List.map_map, List.forall₂_map_left_iff] at hmore
  rw [headingOf_document, Node.elements_readBack, helements', List.map_map, List.forall₂_map_left_iff] at hagain
  have hplain : more.map header = patches.map (·.header.reread) := by
    have heach := (List.forall₂_and_left ..).2 ⟨fun p hp => And.intro (hclear p hp) (hpatches p hp), hmore⟩
    rw [← List.forall₂_eq_eq_eq, List.forall₂_map_left_iff, List.forall₂_map_right_iff]
    exact (heach.imp fun p q ⟨⟨hp, himport⟩, earlier, hq⟩ => header_readPatch_written hp himport hq).flip
  have himport : again.map (Option.map header) = imports.map (some ·.header.reread) := by
    have heach := (List.forall₂_and_left ..).2 ⟨fun p hp => And.intro (hclear' p hp) (himports p hp), hagain⟩
    rw [← List.forall₂_eq_eq_eq, List.forall₂_map_left_iff, List.forall₂_map_right_iff]
    refine (heach.imp fun p import? ⟨⟨hp, himport⟩, hq⟩ => ?_).flip
    obtain ⟨-, hlength⟩ | ⟨q, _, _, _, _, _, rfl, -⟩ := readImport_cases hq
    · exact absurd (length_importFile reader.space himport) hlength
    · exact congrArg some (header_readImport_written hp himport hq)
  have hsome := congrArg (List.filterMap id) himport
  rw [List.filterMap_map, List.filterMap_map] at hsome
  rw [List.map_append, List.map_append, hplain, List.map_filterMap]
  exact congrArg (_ ++ ·) (hsome.trans (congrFun List.filterMap_eq_map imports))

end

/-- For a document over a built-in table whose patches include no patches and take no streams, and which has no
carriage returns and in attribute values no tabs or line feeds, what is written for its patches is read again, if it
is read at all, as equally many patches in the same order, each with what comes back of its header. So all headers are
the same if and only if each of them lasts. -/
theorem headers_of_parse_documentText (platform : Platform) (reader : Reader)
    (hspace : reader.space = (SectorTable.ofPlatform platform).space) (text filename : String) (root : Node)
    (hroot : Xml.parse? text = some root)
    (hplain : root.Holds (fun c => c ≠ '\r') fun c => c ≠ '\r' ∧ c ≠ '\t' ∧ c ≠ '\n')
    (hown : ∀ n ∈ root.elements "Patch", ignored n = .ok false →
      n.elements "Include" = [] ∧ n.elements "STRLocation" = []) (ps : List Patch)
    (hread : parse reader text filename = .ok ps) (filename' : String) (qs : List Patch)
    (hagain : parse reader (documentText reader.space ps) filename' = .ok qs) :
    qs.map header = ps.map (·.header.reread) ∧ (qs.map header = ps.map header ↔ ∀ p ∈ ps, p.header.Lasting) := by
  have hnamed : reader.space.Named := hspace ▸ SectorTable.named_ofPlatform platform
  have hclean : root.Clean := (valid_of_parse? hroot).clean hplain
  unfold parse at hread
  rw [hroot] at hread
  obtain ⟨patches, imports, rfl, hpatches, himports⟩ := readRoot_eq_ok hread
  have hclear : ∀ p ∈ patches ++ imports, Clear p := by
    refine List.forall_mem_append.2 ⟨fun p hp => ?_, fun p hp => ?_⟩
    · obtain ⟨n, hn, earlier, hignored, hread⟩ := hpatches p hp
      obtain ⟨hincludes, hstreams⟩ := hown n hn hignored
      exact clear_of_readPatch hnamed (hclean.elements hn) hincludes hstreams hread
    · obtain ⟨n, hn, hread⟩ := himports p hp
      exact clear_of_readImport hnamed (hclean.elements hn) hread
  have hplain : ∀ p ∈ patches, p.isImport = false := by
    intro p hp
    obtain ⟨n, -, earlier, -, hread⟩ := hpatches p hp
    obtain ⟨title, -, hheader⟩ := header_of_readPatch hread
    exact congrArg Header.isImport hheader
  have himport : ∀ p ∈ imports, p.isImport = true := by
    intro p hp
    obtain ⟨n, -, hread⟩ := himports p hp
    obtain ⟨title, -, hheader⟩ := header_of_readImport hread
    exact congrArg Header.isImport hheader
  have hprintable : (documentXml reader.space (patches ++ imports)).Printable fun _ => True :=
    printable_document (namesPrintable_of_named hnamed) (fun _ _ => trivial) fun p hp => (hclear p hp).writable
  have hheaders : qs.map header = (patches ++ imports).map (·.header.reread) := by
    unfold parse at hagain
    rw [documentText_eq, parse?_rendered hprintable rfl] at hagain
    split at hagain
    · rename_i root hroot
      split at hroot
      · cases hroot
        exact headers_of_readRoot (fun p hp => (hclear p hp).description) hplain himport hagain
      · cases hroot
    · cases hagain
  refine ⟨hheaders, ?_⟩
  rw [hheaders, List.map_inj_left]
  exact forall₂_congr fun p _ => Header.reread_eq_self_iff

/-! ## Samples -/

/-- What is found out by reading a text whose patches stand alone, and what is written for it. -/
def readsTwice (text : String) (found : List Patch → List Patch → Bool) : Bool :=
  readsAs plainReader text fun root ps =>
    decide ((root.Holds (fun c => c ≠ '\r') fun c => c ≠ '\r' ∧ c ≠ '\t' ∧ c ≠ '\n') ∧
      ∀ n ∈ root.elements "Patch", StandsAlone n) &&
      (readRoot plainReader "a.xml" (documentXml plainReader.space ps).tidy).toOption.any (found ps)

theorem exists_of_readsTwice {text : String} {found : List Patch → List Patch → Bool} (h : readsTwice text found) :
    ∃ root ps qs, Xml.parse? text = some root ∧
      root.Holds (fun c => c ≠ '\r') (fun c => c ≠ '\r' ∧ c ≠ '\t' ∧ c ≠ '\n') ∧
      (∀ n ∈ root.elements "Patch", n.elements "Include" = [] ∧ n.elements "STRLocation" = []) ∧
      parse plainReader text "a.xml" = .ok ps ∧
      parse plainReader (documentText plainReader.space ps) "a.xml" = .ok qs ∧ found ps qs := by
  obtain ⟨root, ps, hroot, hread, hparse, h⟩ := exists_of_readsAs h
  obtain ⟨hroots, h⟩ := Bool.and_eq_true_iff.1 h
  obtain ⟨hplain, halone⟩ := of_decide_eq_true hroots
  obtain ⟨qs, hqs, h⟩ := (Option.any_eq_true _ _).1 h
  have hnamed : plainReader.space.Named := SectorTable.named_ofPlatform .psx
  obtain ⟨patches, imports, rfl, hparts⟩ := parts_of_readRoot hnamed ((valid_of_parse? hroot).clean hplain)
    (fun n hn _ => halone n hn) hread
  exact ⟨root, patches ++ imports, qs, hroot, hplain, fun n hn => ⟨(halone n hn).includes, (halone n hn).streams⟩,
    hparse, (hparts.parse_documentText hnamed "a.xml").trans (toOption_eq_some_iff.1 hqs), h⟩

/-- A document with a patch and an import, and a flag on the patch. -/
def lastingDocument : String :=
  "<Patches><Patch name=\" x\" hidden=\"true\"><Description> a &amp; b </Description>"
    ++ "<Location sector=\"18\" offset=\"8\">01</Location></Patch><ImportFilePatch name=\"y\">"
    ++ "<ImportFile file=\"BATTLE_BIN\" offset=\"0\" expectedLength=\"10\"/></ImportFilePatch></Patches>"

theorem headers_of_parse_documentText_lasting : ∃ ps qs, parse plainReader lastingDocument "a.xml" = .ok ps ∧
    parse plainReader (documentText plainReader.space ps) "a.xml" = .ok qs ∧ qs.map header = ps.map header ∧
    ps.map header = [⟨" x", "a & b", false, true, false⟩, ⟨"y", "y", false, false, true⟩] := by
  have hsample : readsTwice lastingDocument fun ps _ => decide (
      ps.map header = [⟨" x", "a & b", false, true, false⟩, ⟨"y", "y", false, false, true⟩]) := by
    decide +kernel
  obtain ⟨root, ps, qs, hroot, hplain, hown, hps, hqs, hfound⟩ := exists_of_readsTwice hsample
  have hheaders := of_decide_eq_true hfound
  have hlasting : ∀ h ∈ ps.map header, h.Lasting := by
    rw [hheaders]
    exact List.forall_mem_cons.2 ⟨⟨rfl, nofun, nofun⟩, List.forall_mem_singleton.2 ⟨rfl, nofun, fun _ => ⟨rfl, rfl⟩⟩⟩
  exact ⟨ps, qs, hps, hqs, (headers_of_parse_documentText .psx plainReader rfl lastingDocument "a.xml" root hroot hplain
    (fun n hn _ => hown n hn) ps hps "a.xml" qs hqs).2.2 (List.forall_mem_map.1 hlasting), hheaders⟩

/-- A document with flags for all its patches, of which one has an empty description, one a name with a blank for its
description, and one imports a file. -/
def fleetingDocument : String :=
  "<Patches hideInDefault=\"true\" hidden=\"true\"><Patch name=\"x\"><Description/></Patch><Patch name=\" z\"/>"
    ++ "<ImportFilePatch name=\"y\"><ImportFile file=\"BATTLE_BIN\" offset=\"0\" expectedLength=\"10\"/>"
    ++ "</ImportFilePatch></Patches>"

/-- No header of that document is the same after it was written and read again. -/
theorem parse_documentText_loses_headers : ∃ root ps qs, Xml.parse? fleetingDocument = some root ∧
    root.Holds (fun c => c ≠ '\r') (fun c => c ≠ '\r' ∧ c ≠ '\t' ∧ c ≠ '\n') ∧
    (∀ n ∈ root.elements "Patch", n.elements "Include" = [] ∧ n.elements "STRLocation" = []) ∧
    parse plainReader fleetingDocument "a.xml" = .ok ps ∧
    parse plainReader (documentText plainReader.space ps) "a.xml" = .ok qs ∧
    ps.map header = [⟨"x", "", true, true, false⟩, ⟨" z", " z", true, true, false⟩, ⟨"y", "y", true, true, true⟩] ∧
    qs.map header =
      [⟨"x", "x", true, true, false⟩, ⟨" z", "z", true, true, false⟩, ⟨"y", "y", false, false, true⟩] := by
  have hsample : readsTwice fleetingDocument fun ps qs => decide (
      ps.map header = [⟨"x", "", true, true, false⟩, ⟨" z", " z", true, true, false⟩, ⟨"y", "y", true, true, true⟩] ∧
      qs.map header =
        [⟨"x", "x", true, true, false⟩, ⟨" z", "z", true, true, false⟩, ⟨"y", "y", false, false, true⟩]) := by
    decide +kernel
  obtain ⟨root, ps, qs, hroot, hplain, hown, hps, hqs, hfound⟩ := exists_of_readsTwice hsample
  obtain ⟨hheaders, hagain⟩ := of_decide_eq_true hfound
  exact ⟨root, ps, qs, hroot, hplain, hown, hps, hqs, hheaders, hagain⟩

end DiscPatch.Description
