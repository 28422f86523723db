/-
Streams read again: what is read of the files that replace sectors from the document that is written for the patches
of a document. The path that is written was seen from the reader's directory already, and is seen from it once more;
so a stream is found again only if that does not change its path.
-/
import DiscPatch.Files.Tree
import DiscPatch.Proofs.Description.Headers
import DiscPatch.Proofs.Files.Joining

namespace DiscPatch.Patch

open Text Xml

/-- The path of the file that replaces the sector, where one does. -/
def Segment.stream? (s : Segment) : Option Path :=
  match s.source with
  | .stream path => some path
  | _ => none

/-- The segments of a patch that replace sectors by files. -/
def streams (p : Patch) : List Segment :=
  p.segments.filter (·.stream?.isSome)

/-- What a segment puts into its sector, and the parts of the path of the file that it comes from. -/
def Segment.outcome (s : Segment) : Edit × Option (Bool × List String) :=
  (s.toEdit, s.stream?.map Path.parts)

/-! ## Written streams -/

section

variable {space : AddressSpace} {s : Segment} {path : Path}

theorem Segment.stream?_eq_some_iff : s.stream? = some path ↔ s.source = .stream path := by
  unfold Segment.stream?
  cases s.source <;> simp

theorem Segment.stream?_eq_none (h : ∀ path, s.source ≠ .stream path) : s.stream? = none := by
  cases hstream : s.stream? with
  | none => rfl
  | some path => exact absurd (stream?_eq_some_iff.1 hstream) (h path)

theorem toXml_stream (space : AddressSpace) (h : s.stream? = some path) :
    Segment.toXml space s =
      element "STRLocation" ([sectorAttribute space s.sector] ++ [attr "input" path.text]) [] := by
  unfold Segment.toXml
  rw [Segment.stream?_eq_some_iff.1 h]
  rfl

theorem tag?_segment_toXml (space : AddressSpace) (s : Segment) :
    (Segment.toXml space s).tag? = some (if s.stream?.isSome then "STRLocation" else "Location") := by
  unfold Segment.toXml Segment.stream?
  cases s.source <;> rfl

theorem printable_stream (hspace : NamesPrintable space) {kind : String → Prop} (h : s.stream? = some path)
    (hpath : ValueText path.text) : (Segment.toXml space s).Printable kind := by
  have hinput : (attr "input" path.text).Printable :=
    ⟨simple_plain (by decide), show "input" ≠ "xmlns" by decide, hpath⟩
  rw [toXml_stream space h]
  exact printable_element (by decide) (by decide) ((keyed_sectorAttribute hspace s.sector).append
    ⟨List.forall_mem_singleton.2 hinput, List.Sublist.refl ["input"]⟩) trivial

end

/-- Apart from its description and its variables, a patch that imports no file has the elements of its segments. -/
theorem elements_toXml (space : AddressSpace) {p : Patch} (h : p.isImport = false) {tag : String}
    (htag : tag ≠ "Description") (hvariable : tag ≠ "Variable") : (toXml space p).elements tag =
      (p.segments.filter fun s => (Segment.toXml space s).tag? = some tag).map (Segment.toXml space) := by
  rw [isImport_eq_isSome_find?, Option.isSome_eq_false_iff, Option.isNone_iff_eq_none] at h
  unfold toXml
  rw [h]
  dsimp only
  show (onLines "    " "        " _).filter (·.tag? = some tag) = _
  have hdescription : ∀ n ∈ (if p.description = "" then [] else [descriptionXml p]), n.tag? = some "Description" := by
    split
    · exact List.forall_mem_nil _
    · exact List.forall_mem_singleton.2 rfl
  have hnone {tag' : String} {nodes : List Node} (hnodes : ∀ n ∈ nodes, n.tag? = some tag') (hne : tag ≠ tag') :
      nodes.filter (·.tag? = some tag) = [] := by
    refine List.filter_eq_nil_iff.2 fun n hn => ?_
    rw [hnodes n hn, decide_eq_true_iff]
    exact fun heq => hne (Option.some.inj heq).symm
  rw [filter_onLines, List.filter_append, List.filter_append, hnone hdescription htag,
    hnone (List.forall_mem_map.2 fun v _ => show (Variable.toXml space v).tag? = some "Variable" from rfl) hvariable,
    List.nil_append, List.append_nil, List.filter_map]
  rfl

theorem elements_streams (space : AddressSpace) {p : Patch} (h : p.isImport = false) :
    (toXml space p).elements "STRLocation" = p.streams.map (Segment.toXml space) := by
  rw [elements_toXml space h (by decide) (by decide)]
  congr 1
  refine List.filter_congr fun s _ => ?_
  rw [tag?_segment_toXml]
  cases s.stream?.isSome <;> decide

theorem elements_includes (space : AddressSpace) {p : Patch} (h : p.isImport = false) :
    (toXml space p).elements "Include" = [] := by
  rw [elements_toXml space h (by decide) (by decide)]
  refine List.map_eq_nil_iff.2 (List.filter_eq_nil_iff.2 fun s _ => ?_)
  rw [tag?_segment_toXml]
  cases s.stream?.isSome <;> decide

end DiscPatch.Patch

namespace DiscPatch.Description

open Text Xml Patch Assembly

variable {reader : Reader} {heading : Heading} {earlier : List Patch} {n : Node} {p : Patch} {s : Segment}
  {sector : Sector} {path : Path} {text : String}

/-! ## Streams that were read -/

/-- The segment that replaces a sector by a file with the given content. -/
def streamOf (space : AddressSpace) (sector : Sector) (path : Path) (content : ByteArray) : Segment :=
  { Segment.ofStream sector path content.data.toList with ram := space.toRam sector 0 }

/-- The segment that replaces a sector by a file. -/
def streamAt (reader : Reader) (sector : Sector) (path : Path) : Except Error Segment := do
  let content ← FileFault.lift (reader.files.read path)
  return streamOf reader.space sector path content

theorem streamAt_eq_ok_iff : streamAt reader sector path = .ok s ↔
    ∃ content, reader.files.read path = .ok content ∧ s = streamOf reader.space sector path content := by
  unfold streamAt
  cases reader.files.read path with
  | error fault =>
    refine iff_of_false (fun h => nomatch h) ?_
    rintro ⟨_, h, -⟩
    cases h
  | ok content =>
    constructor
    · intro h
      exact ⟨content, rfl, (Except.ok.inj h).symm⟩
    · rintro ⟨_, hcontent, rfl⟩
      cases hcontent
      rfl

theorem readStream_eq (hsector : namedSector reader.space n = .ok (some sector))
    (hinput : n.attr? "input" = some text) :
    readStream reader n = streamAt reader sector (reader.resolve text) := by
  unfold readStream
  rw [hsector, ok_bind]
  dsimp only
  rw [required_eq_ok_iff.2 hinput, ok_bind]
  rfl

/-- A stream of the table's platform that was read under a text, at a path that can be written. -/
structure StreamRead (reader : Reader) (text : String) (s : Segment) : Prop where
  platform : s.sector.platform = reader.space.platform
  value : ValueText (reader.resolve text).text
  read : streamAt reader s.sector (reader.resolve text) = .ok s

theorem valueText_resolve (hdirectory : ∀ dir, reader.directory? = some dir → ValueText dir.text)
    (h : ValueText text) : ValueText (reader.resolve text).text := by
  have htrim : ValueText (trim text) := fun c hc => h c (toList_trim_subset text hc)
  have hslash : ValueText "/" := by
    unfold ValueText
    decide
  unfold Reader.resolve resolveIn
  cases hdir : reader.directory? with
  | none => exact htrim
  | some dir =>
    have hdir := hdirectory dir hdir
    dsimp only
    unfold Path.join
    split
    · exact htrim
    · split
      · exact valueText_append hdir htrim
      · exact valueText_append (valueText_append hdir hslash) htrim

theorem streamRead_of_readStream (hspace : reader.space.Named)
    (hdirectory : ∀ dir, reader.directory? = some dir → ValueText dir.text) (hclean : n.Clean)
    (h : readStream reader n = .ok s) : ∃ text, StreamRead reader text s := by
  obtain ⟨named, hnamed, hrest⟩ := bind_eq_ok h
  split at hrest
  · rename_i sector
    obtain ⟨text, htext, -⟩ := bind_eq_ok hrest
    have hinput := required_eq_ok_iff.1 htext
    rw [readStream_eq hnamed hinput] at h
    obtain ⟨content, -, rfl⟩ := streamAt_eq_ok_iff.1 h
    exact ⟨text, platform_namedSector hspace hnamed sector rfl, valueText_resolve hdirectory (hclean.attr? hinput), h⟩
  · cases hrest

theorem StreamRead.stream? (h : StreamRead reader text s) : s.stream? = some (reader.resolve text) := by
  obtain ⟨content, -, hs⟩ := streamAt_eq_ok_iff.1 h.read
  rw [hs]
  rfl

/-! ## Streams sought again -/

/-- What is read of a stream under the path that was written for it. -/
def sought (reader : Reader) (s : Segment) : Except Error Segment :=
  match s.stream? with
  | some path => streamAt reader s.sector (reader.resolve path.text)
  | none => .ok s

/-- Whether a stream is found again under the path that was written for it. There is no directory in front of it, or
the path starts at the root, or the directory is empty; or it is a dot, and the file is there under the longer path. -/
def StaysFound (reader : Reader) (s : Segment) : Prop :=
  ∀ path, s.stream? = some path → ∀ dir, reader.directory? = some dir → path.isAbsolute ∨ dir.text = "" ∨
    dir.lead.parts = (false, ["."]) ∧ reader.files.read (reader.resolve path.text) = reader.files.read path

/-- The element of a stream is read like the stream, at the path that is seen from the directory once more. -/
theorem readStream_written (hspace : reader.space.Named) (h : StreamRead reader text s) :
    readStream reader (Segment.toXml reader.space s).tidy = sought reader s := by
  have hattr (key : String) : (Segment.toXml reader.space s).tidy.attr? key =
      valueIn key ([sectorAttribute reader.space s.sector] ++ [attr "input" (reader.resolve text).text]) := by
    rw [Node.attr?_tidy, toXml_stream _ h.stream?]
    rfl
  unfold sectorAttribute at hattr
  have hsector : namedSector reader.space (Segment.toXml reader.space s).tidy = .ok (some s.sector) := by
    refine namedSector_of_written hspace h.platform ?_ fun hnone => ?_
    · rw [hattr]
      cases reader.space.nameOf? s.sector <;> simp [valueIn_cons, valueIn_nil]
    · rw [hattr, hnone]
      rfl
  have hinput : (Segment.toXml reader.space s).tidy.attr? "input" = some (reader.resolve text).text := by
    rw [hattr]
    cases reader.space.nameOf? s.sector <;> simp [valueIn_cons]
  rw [readStream_eq hsector hinput, sought, h.stream?]

theorem StreamRead.sought_eq (h : StreamRead reader text s) :
    sought reader s = streamAt reader s.sector (reader.resolve (reader.resolve text).text) := by
  unfold sought
  rw [h.stream?]

/-- A stream comes back from its element if and only if the path that was written counts as the same, and leads to the
same bytes. -/
theorem StreamRead.exists_sought_iff (h : StreamRead reader text s) :
    (∃ t, sought reader s = .ok t ∧ t.outcome = s.outcome) ↔
      (reader.resolve (reader.resolve text).text).parts = (reader.resolve text).parts ∧
        reader.files.read (reader.resolve (reader.resolve text).text) = reader.files.read (reader.resolve text) := by
  obtain ⟨content, hread, hs⟩ := streamAt_eq_ok_iff.1 h.read
  have houtcome : s.outcome = (⟨s.sector, 0, content.data.toList⟩, some (reader.resolve text).parts) := by
    rw [hs]
    rfl
  rw [h.sought_eq, houtcome]
  constructor
  · rintro ⟨t, ht, hsame⟩
    obtain ⟨content', hread', rfl⟩ := streamAt_eq_ok_iff.1 ht
    obtain ⟨hedit, hparts⟩ := Prod.mk.inj hsame
    have hbytes : content'.data.toList = content.data.toList := congrArg Edit.bytes hedit
    rw [hread', hread, ByteArray.ext (Array.toList_inj.1 hbytes)]
    exact ⟨Option.some.inj hparts, rfl⟩
  · rintro ⟨hparts, hagain⟩
    refine ⟨_, streamAt_eq_ok_iff.2 ⟨content, hagain.trans hread, rfl⟩, ?_⟩
    rw [← hparts]
    rfl

/-- Which paths are the same when they are resolved once more. -/
theorem resolve_resolve_iff (reader : Reader) (text : String) :
    ((reader.resolve (reader.resolve text).text).parts = (reader.resolve text).parts ∧
        reader.files.read (reader.resolve (reader.resolve text).text) = reader.files.read (reader.resolve text)) ↔
      ∀ dir, reader.directory? = some dir → (reader.resolve text).isAbsolute ∨ dir.text = "" ∨
        dir.lead.parts = (false, ["."]) ∧
          reader.files.read (reader.resolve (reader.resolve text).text) = reader.files.read (reader.resolve text) := by
  cases hdir : reader.directory? with
  | none =>
    have hresolve (text : String) : reader.resolve text = ⟨trim text⟩ := by
      unfold Reader.resolve resolveIn
      rw [hdir]
    rw [hresolve, hresolve, trim_trim]
    exact iff_of_true ⟨rfl, rfl⟩ fun _ hsome => nomatch hsome
  | some dir =>
    have hresolve (text : String) : reader.resolve text = dir.join ⟨trim text⟩ := by
      unfold Reader.resolve resolveIn
      rw [hdir]
    have hparts : (reader.resolve (reader.resolve text).text).parts = (reader.resolve text).parts ↔
        (reader.resolve text).isAbsolute ∨ dir.text = "" ∨ dir.lead.parts = (false, ["."]) := by
      rw [hresolve, hresolve]
      exact Path.parts_join_trim_iff (trim_trim text)
    have hsame (h : (reader.resolve text).isAbsolute ∨ dir.text = "") :
        reader.resolve (reader.resolve text).text = reader.resolve text := by
      rw [hresolve] at h ⊢
      rw [hresolve text]
      exact Path.join_trim_eq_self (trim_trim text) h
    simp only [Option.some.injEq, forall_eq']
    rw [hparts, or_and_right, or_and_right]
    constructor
    · rintro (⟨habsolute, -⟩ | ⟨hempty, -⟩ | hdot)
      · exact .inl habsolute
      · exact .inr (.inl hempty)
      · exact .inr (.inr hdot)
    · rintro (habsolute | hempty | hdot)
      · exact .inl ⟨habsolute, congrArg reader.files.read (hsame (.inl habsolute))⟩
      · exact .inr (.inl ⟨hempty, congrArg reader.files.read (hsame (.inr hempty))⟩)
      · exact .inr (.inr hdot)

/-- A stream comes back from its element with the same bytes from the same file if and only if it stays found. -/
theorem StreamRead.staysFound_iff (h : StreamRead reader text s) :
    (∃ t, sought reader s = .ok t ∧ t.outcome = s.outcome) ↔ StaysFound reader s := by
  rw [h.exists_sought_iff, resolve_resolve_iff]
  unfold StaysFound
  simp only [h.stream?, Option.some.injEq, forall_eq']

/-! ## Patches that can be written -/

/-- A segment that takes no file from the user and can be written. -/
inductive Legible (reader : Reader) (s : Segment) : Prop where
  | inline (source : s.source = .inline) (label : ∀ label, s.label? = some label → ValueText label)
  | stream (text : String) (read : StreamRead reader text s)

/-- A patch that can be written, whatever it includes, if only what its segments hold can be. -/
structure LegiblePatch (reader : Reader) (p : Patch) : Prop where
  name : ValueText p.name
  description : ContentText p.description
  segments : ∀ s ∈ p.segments, s.takesFile = false → Legible reader s
  vars : ∀ v ∈ p.vars, ValueText v.name ∧ ∀ r, v.reference? = some r → ValueText r.name

theorem LegiblePatch.streamRead (h : LegiblePatch reader p) (hs : s ∈ p.streams) :
    ∃ text, StreamRead reader text s := by
  obtain ⟨hs, hstream⟩ := List.mem_filter.1 hs
  obtain ⟨path, hpath⟩ := Option.isSome_iff_exists.1 hstream
  have hsource := Segment.stream?_eq_some_iff.1 hpath
  have hnone : s.takesFile = false := by
    rw [Segment.takesFile, Segment.expected?, hsource]
    rfl
  cases h.segments s hs hnone with
  | inline source label =>
    rw [hsource] at source
    cases source
  | stream text read => exact ⟨text, read⟩

section

variable (hspace : reader.space.Named) (hdirectory : ∀ dir, reader.directory? = some dir → ValueText dir.text)

include hspace

theorem LegiblePatch.printable (h : LegiblePatch reader p) (hcontents : ∀ s ∈ p.segments, ContentText (contentText s)) :
    (toXml reader.space p).Printable ContentText := by
  have hnames := namesPrintable_of_named hspace
  refine printable_toXml (by unfold ContentText; decide) hnames h.name h.description (fun s hs hnone => ?_)
    (fun v hv => (h.vars v hv).1) fun v hv => (h.vars v hv).2
  cases h.segments s hs hnone with
  | inline source label => exact printable_location hnames source label (hcontents s hs)
  | stream text read => exact printable_stream hnames read.stream? read.value

include hdirectory

theorem legible_of_readPatch (hclean : n.Clean) (hearlier : ∀ q ∈ earlier, LegiblePatch reader q)
    (h : readPatch reader heading earlier n = .ok p) : LegiblePatch reader p := by
  obtain ⟨_, _, _, _, own, hown, hsegments⟩ := segments_of_readPatch h
  obtain ⟨title, _, _, _, _, hsteps, hbuild⟩ := readSteps_of_readPatch h
  obtain ⟨hname, hdescription⟩ := titleOf_eq_ok hclean hsteps.titleOf
  obtain ⟨hpname, hpdescription, -, -⟩ := fields_of_build hbuild
  refine ⟨?_, ?_, fun s hs hnone => ?_, ?_⟩
  · rw [hpname]
    exact hname
  · rw [hpdescription]
    exact hdescription
  · rcases hsegments s hs with ⟨q, hq, hs, -⟩ | hs | ⟨location, hlocation, hread⟩
    · exact (hearlier q hq).segments s hs hnone
    · exact .inline (inline_of_readLocations hown s hs)
        (labels_of_readLocations (fun location hlocation => hclean.elements hlocation) hown s hs)
    · obtain ⟨text, hread⟩ := streamRead_of_readStream hspace hdirectory (hclean.elements hlocation) hread
      exact .stream text hread
  · refine vars_of_readPatch h (fun q hq => (hearlier q hq).vars) fun _ _ element helement v hv => ?_
    rw [readVariable_eq] at hv
    obtain ⟨name, hname, hv⟩ := bind_eq_ok hv
    obtain ⟨size, -, hv⟩ := bind_eq_ok hv
    obtain ⟨places, -, hv⟩ := bind_eq_ok hv
    obtain ⟨value, -, hv⟩ := bind_eq_ok hv
    cases hv
    have helement := hclean.elements helement
    exact ⟨helement.attr? (required_eq_ok_iff.1 hname), fun r hr => (referenceOf?_eq_some helement hr).1⟩

theorem legible_of_readRoot {filename : String} {root : Node} (hclean : root.Clean) {ps : List Patch}
    (h : readRoot reader filename root = .ok ps) : ∀ p ∈ ps, LegiblePatch reader p := by
  refine readRoot_induction (fun n hn _ _ _ => legible_of_readPatch hspace hdirectory (hclean.elements hn))
    (fun n hn _ p himport => ?_) h
  have himports := imports_of_readImport hspace (hclean.elements hn) himport
  obtain ⟨sector, offset, expected, -, hsegments⟩ := himports.segments
  refine ⟨himports.name, himports.description, ?_, ?_⟩
  · rw [hsegments]
    exact List.forall_mem_singleton.2 fun hnone => nomatch hnone
  · rw [himports.vars]
    exact List.forall_mem_nil _

end

/-! ## Documents -/

/-- What is read of the streams under a root element. -/
def readStreams (reader : Reader) (root : Node) : Except Error (List Segment) :=
  ((root.elements "Patch").flatMap (·.elements "STRLocation")).mapM (readStream reader)

theorem streams_of_readPatch (hnone : n.elements "Include" = []) (h : readPatch reader heading earlier n = .ok p) :
    (n.elements "STRLocation").mapM (readStream reader) = .ok p.streams := by
  obtain ⟨title, standard, vars, own, streams, hsteps, hbuild⟩ := readSteps_of_readPatch h
  have hown : own.filter (·.stream?.isSome) = [] := by
    refine List.filter_eq_nil_iff.2 fun s hs => ?_
    have hinline := inline_of_readLocations hsteps.readLocations s hs
    rw [Segment.stream?_eq_none fun path hpath => by rw [hinline] at hpath; cases hpath]
    decide
  have hstreams : streams.filter (·.stream?.isSome) = streams := by
    refine List.filter_eq_self.2 fun s hs => ?_
    obtain ⟨_, _, _, rfl⟩ := hsteps.exists_ofStream s hs
    rfl
  rw [hsteps.readStreams, Patch.streams, (fields_of_build hbuild).2.2.1, includedPatches_eq_nil hnone,
    List.filter_append, List.filter_append, hown, hstreams]
  rfl

theorem streams_of_readImport (h : readImport reader heading n = .ok (some p)) : p.streams = [] := by
  obtain ⟨_, _, sector, offset, expected, -, -, -, hbuild⟩ := readImport_eq_ok h
  rw [Draft.eq_patch_of_build hbuild]
  rfl

/-- What is read under a root element: first patches that import no file, and then imports, which replace no
sector. -/
theorem kinds_of_readRoot {filename : String} {root : Node} {ps : List Patch}
    (h : readRoot reader filename root = .ok ps) : ∃ patches imports, ps = patches ++ imports ∧
      (∀ p ∈ patches, p.isImport = false) ∧ ∀ p ∈ imports, p.isImport = true ∧ p.streams = [] := by
  obtain ⟨patches, imports, hps, hpatches, himports⟩ := readRoot_eq_ok h
  refine ⟨patches, imports, hps, fun p hp => ?_, fun p hp => ?_⟩
  · obtain ⟨n, -, earlier, -, hread⟩ := hpatches p hp
    obtain ⟨title, -, hheader⟩ := header_of_readPatch hread
    exact congrArg Header.isImport hheader
  · obtain ⟨n, -, hread⟩ := himports p hp
    obtain ⟨title, -, hheader⟩ := header_of_readImport hread
    exact ⟨congrArg Header.isImport hheader, streams_of_readImport hread⟩

/-- Where nothing is left out or included, the streams of the patches are those under the root element. -/
theorem readStreams_of_readRoot {filename : String} {root : Node} {qs : List Patch}
    (hroot : ∀ n ∈ root.elements "Patch", ignored n = .ok false ∧ n.elements "Include" = [])
    (h : readRoot reader filename root = .ok qs) : readStreams reader root = .ok (qs.flatMap streams) := by
  obtain ⟨patches, imports, rfl, hpatches, himports⟩ := forall₂_of_readRoot h fun n hn => (hroot n hn).1
  have hnone : (imports.filterMap id).flatMap streams = [] := by
    refine List.flatMap_eq_nil_iff.2 fun p hp => ?_
    obtain ⟨import?, himport, heq⟩ := List.mem_filterMap.1 hp
    obtain ⟨n, -, hread⟩ := mem_of_mapM_eq_ok (mapM_eq_ok_iff.2 himports) himport
    rw [show import? = some p from heq] at hread
    exact streams_of_readImport hread
  have heach := (List.forall₂_and_left ..).2 ⟨fun n hn => (hroot n hn).2, hpatches⟩
  rw [List.flatMap_append, hnone, List.append_nil]
  refine mapM_eq_ok_iff.2 (List.rel_flatMap heach fun n p hread => ?_)
  obtain ⟨hnone, earlier, hread⟩ := hread
  exact mapM_eq_ok_iff.1 (streams_of_readPatch hnone hread)

section

variable {patches imports : List Patch}

/-- Under the root element of a written document no patch is left out, and none includes another one. -/
theorem plain_of_written (space : AddressSpace) (hpatches : ∀ p ∈ patches, p.isImport = false)
    (himports : ∀ p ∈ imports, p.isImport = true) :
    ∀ n ∈ (documentXml space (patches ++ imports)).tidy.elements "Patch",
      ignored n = .ok false ∧ n.elements "Include" = [] := by
  rw [Node.elements_tidy, (elements_document space hpatches himports).1, List.map_map]
  refine List.forall_mem_map.2 fun p hp => ⟨?_, ?_⟩
  · unfold ignored
    rw [Function.comp_apply, Node.attr?_tidy, (headerOf_toXml space p).ignore]
  · rw [Function.comp_apply, Node.elements_tidy, elements_includes space (hpatches p hp)]
    rfl

/-- The streams of a written document are sought again one by one. -/
theorem readStreams_written (hspace : reader.space.Named) (hpatches : ∀ p ∈ patches, p.isImport = false)
    (himports : ∀ p ∈ imports, p.isImport = true)
    (hstreams : ∀ p ∈ patches, ∀ s ∈ p.streams, ∃ text, StreamRead reader text s) :
    readStreams reader (documentXml reader.space (patches ++ imports)).tidy =
      (patches.flatMap streams).mapM (sought reader) := by
  have helements : ((documentXml reader.space (patches ++ imports)).tidy.elements "Patch").flatMap
      (·.elements "STRLocation") =
        (patches.flatMap streams).map fun s => (Segment.toXml reader.space s).tidy := by
    rw [Node.elements_tidy, (elements_document reader.space hpatches himports).1, List.map_map, List.flatMap_map,
      List.map_flatMap]
    refine List.flatMap_congr fun p hp => ?_
    rw [Function.comp_apply, Node.elements_tidy, elements_streams reader.space (hpatches p hp), List.map_map]
    rfl
  unfold readStreams
  rw [helements, List.mapM_map]
  refine mapM_congr fun s hs => ?_
  obtain ⟨p, hp, hs⟩ := List.mem_flatMap.1 hs
  obtain ⟨text, hread⟩ := hstreams p hp s hs
  exact readStream_written hspace hread

end

/-- For a document over a built-in table, which has no carriage returns and in attribute values no tabs or line feeds,
where XML changes neither the path of the directory nor what the segments hold: in what is written for its patches each
stream is sought again, in the same order, at the path that is seen from the directory once more, and these are the
streams that the document gives if it is read. All of them are found with the same bytes for the same places, under the
same paths, if and only if each of them stays found. -/
theorem streams_of_parse_documentText (platform : Platform) (reader : Reader)
    (hspace : reader.space = (SectorTable.ofPlatform platform).space)
    (hdirectory : ∀ dir, reader.directory? = some dir → ValueText dir.text) (text filename : String) (root : Node)
    (hroot : Xml.parse? text = some root)
    (hplain : root.Holds (fun c => c ≠ '\r') fun c => c ≠ '\r' ∧ c ≠ '\t' ∧ c ≠ '\n') (ps : List Patch)
    (hread : parse reader text filename = .ok ps)
    (hcontents : ∀ p ∈ ps, ∀ s ∈ p.segments, ContentText (contentText s)) :
    ∃ written, Xml.parse? (documentText reader.space ps) = some written ∧
      readStreams reader written = (ps.flatMap streams).mapM (sought reader) ∧
      (∀ filename' qs, parse reader (documentText reader.space ps) filename' = .ok qs →
        readStreams reader written = .ok (qs.flatMap streams)) ∧
      ((∃ found, readStreams reader written = .ok found ∧
          found.map Segment.outcome = (ps.flatMap streams).map Segment.outcome) ↔
        ∀ s ∈ ps.flatMap streams, StaysFound reader s) := by
  have hnamed : reader.space.Named := hspace ▸ SectorTable.named_ofPlatform platform
  have hclean : root.Clean := (valid_of_parse? hroot).clean hplain
  unfold parse at hread
  rw [hroot] at hread
  have hlegible := legible_of_readRoot hnamed hdirectory hclean hread
  have hstreams : ∀ p ∈ ps, ∀ s ∈ p.streams, ∃ text, StreamRead reader text s :=
    fun p hp s => (hlegible p hp).streamRead
  have hwritten : Xml.parse? (documentText reader.space ps) = some (documentXml reader.space ps).tidy := by
    rw [documentText_eq]
    refine parse?_printed (printable_documentXml ?_ fun p hp => ?_) rfl
    · unfold ContentText
      decide
    · exact (hlegible p hp).printable hnamed (hcontents p hp)
  obtain ⟨patches, imports, rfl, hpatches, himports⟩ := kinds_of_readRoot hread
  have himport : ∀ p ∈ imports, p.isImport = true := fun p hp => (himports p hp).1
  have hnone : imports.flatMap streams = [] := List.flatMap_eq_nil_iff.2 fun p hp => (himports p hp).2
  have hsought := readStreams_written hnamed hpatches himport fun p hp => hstreams p (List.mem_append_left _ hp)
  rw [List.flatMap_append, hnone, List.append_nil]
  refine ⟨_, hwritten, hsought, fun filename' qs hagain => ?_, ?_⟩
  · unfold parse at hagain
    rw [hwritten] at hagain
    exact readStreams_of_readRoot (plain_of_written reader.space hpatches himport) hagain
  · rw [hsought, exists_mapM_iff]
    refine forall₂_congr fun s hs => ?_
    obtain ⟨p, hp, hs⟩ := List.mem_flatMap.1 hs
    obtain ⟨text, hread⟩ := hstreams p (List.mem_append_left _ hp) s hs
    exact hread.staysFound_iff

/-- A reader over a built-in table of the files below a directory, which it seeks them in. -/
def readerAt (directory : String) (tree : FileTree) : Reader where
  space := (SectorTable.ofPlatform .psx).space
  assembler := directives
  files := tree.files
  directory? := some ⟨directory⟩

theorem valueText_readerAt {directory : String} (h : ValueText directory) (tree : FileTree) :
    ∀ dir, (readerAt directory tree).directory? = some dir → ValueText dir.text := by
  rintro _ ⟨⟩
  exact h

/-- What is found out about a document of streams by reading it. -/
def streamsReadAs (reader : Reader) (text : String) (found : List Patch → Bool) : Bool :=
  (Xml.parse? text).any fun root =>
    decide (root.Holds (fun c => c ≠ '\r') fun c => c ≠ '\r' ∧ c ≠ '\t' ∧ c ≠ '\n') &&
      (parse reader text "a.xml").toOption.any fun ps =>
        decide (∀ p ∈ ps, ∀ s ∈ p.segments, ∀ c ∈ (contentText s).toList, isXmlChar c ∧ c ≠ '\r') && found ps

theorem exists_of_streamsReadAs {reader : Reader} {text : String} {found : List Patch → Bool}
    (h : streamsReadAs reader text found) : ∃ root ps, Xml.parse? text = some root ∧
      root.Holds (fun c => c ≠ '\r') (fun c => c ≠ '\r' ∧ c ≠ '\t' ∧ c ≠ '\n') ∧
      parse reader text "a.xml" = .ok ps ∧ (∀ p ∈ ps, ∀ s ∈ p.segments, ContentText (contentText s)) ∧ found ps := by
  obtain ⟨root, hroot, h⟩ := (Option.any_eq_true _ _).1 h
  obtain ⟨hplain, h⟩ := Bool.and_eq_true_iff.1 h
  obtain ⟨ps, hps, h⟩ := (Option.any_eq_true _ _).1 h
  obtain ⟨hcontents, h⟩ := Bool.and_eq_true_iff.1 h
  have hcontents := of_decide_eq_true hcontents
  exact ⟨root, ps, hroot, of_decide_eq_true hplain, toOption_eq_some_iff.1 hps, hcontents, h⟩

/-- A document with a stream, which a second patch includes next to one of its own. -/
def includedStream : String :=
  "<Patches><Patch name=\"x\"><STRLocation file=\"BATTLE_BIN\" input=\" a.bin \"/></Patch><Patch name=\"y\">"
    ++ "<Include patch=\"x\"/><STRLocation sector=\"18\" input=\"/disc/./a.bin\"/></Patch></Patches>"

def discTree : FileTree :=
  ⟨[(["/", "disc"], .directory), (["/", "disc", "a.bin"], .file ⟨#[1, 2]⟩)]⟩

/-- In a directory that starts at the root the streams are all found again. -/
theorem streams_of_parse_documentText_rooted : ∃ ps written found,
    parse (readerAt "/disc" discTree) includedStream "a.xml" = .ok ps ∧
    Xml.parse? (documentText (readerAt "/disc" discTree).space ps) = some written ∧
    readStreams (readerAt "/disc" discTree) written = .ok found ∧
    found.map Segment.outcome = [(⟨⟨.psx, 0x3E8⟩, 0, [1, 2]⟩, some (true, ["disc", "a.bin"])),
      (⟨⟨.psx, 0x3E8⟩, 0, [1, 2]⟩, some (true, ["disc", "a.bin"])),
      (⟨⟨.psx, 0x18⟩, 0, [1, 2]⟩, some (true, ["disc", "a.bin"]))] := by
  have hsample : streamsReadAs (readerAt "/disc" discTree) includedStream fun ps => decide (
      (ps.flatMap streams).map Segment.outcome = [(⟨⟨.psx, 0x3E8⟩, 0, [1, 2]⟩, some (true, ["disc", "a.bin"])),
        (⟨⟨.psx, 0x3E8⟩, 0, [1, 2]⟩, some (true, ["disc", "a.bin"])),
        (⟨⟨.psx, 0x18⟩, 0, [1, 2]⟩, some (true, ["disc", "a.bin"]))] ∧
      ∀ s ∈ ps.flatMap streams, s.stream?.all (·.isAbsolute)) := by
    decide +kernel
  obtain ⟨root, ps, hroot, hplain, hps, hcontents, hfound⟩ := exists_of_streamsReadAs hsample
  obtain ⟨houtcome, habsolute⟩ := of_decide_eq_true hfound
  have hdirectory := valueText_readerAt (show ValueText "/disc" by unfold ValueText; decide) discTree
  obtain ⟨written, hwritten, -, -, hiff⟩ := streams_of_parse_documentText .psx (readerAt "/disc" discTree) rfl
    hdirectory includedStream "a.xml" root hroot hplain ps hps hcontents
  have hstays : ∀ s ∈ ps.flatMap streams, StaysFound (readerAt "/disc" discTree) s := by
    intro s hs path hpath dir _
    have h := habsolute s hs
    rw [hpath] at h
    exact .inl h
  obtain ⟨found, hfound, hsame⟩ := hiff.2 hstays
  exact ⟨ps, written, found, hps, hwritten, hfound, hsame.trans houtcome⟩

/-- A document with one stream. -/
def plainStream : String :=
  "<Patches><Patch name=\"x\"><STRLocation file=\"BATTLE_BIN\" input=\"a.bin\"/></Patch></Patches>"

def dataTree : FileTree :=
  ⟨[(["data"], .directory), (["data", "a.bin"], .file ⟨#[1, 2]⟩)]⟩

/-- In a directory that does not start at the root the stream is read, but what is written for it is refused, since its
file is sought in the directory twice. -/
theorem parse_documentText_loses_stream : ∃ root ps, Xml.parse? plainStream = some root ∧
    root.Holds (fun c => c ≠ '\r') (fun c => c ≠ '\r' ∧ c ≠ '\t' ∧ c ≠ '\n') ∧
    (∀ dir, (readerAt "data" dataTree).directory? = some dir → ValueText dir.text) ∧
    parse (readerAt "data" dataTree) plainStream "a.xml" = .ok ps ∧
    (∀ p ∈ ps, ∀ s ∈ p.segments, ContentText (contentText s)) ∧
    (ps.flatMap streams).map Segment.outcome = [(⟨⟨.psx, 0x3E8⟩, 0, [1, 2]⟩, some (false, ["data", "a.bin"]))] ∧
    parse (readerAt "data" dataTree) (documentText (readerAt "data" dataTree).space ps) "a.xml" =
      .error (.file .notFound) := by
  have hsample : streamsReadAs (readerAt "data" dataTree) plainStream fun ps => decide (
      (ps.flatMap streams).map Segment.outcome = [(⟨⟨.psx, 0x3E8⟩, 0, [1, 2]⟩, some (false, ["data", "a.bin"]))] ∧
      parse (readerAt "data" dataTree) (documentText (readerAt "data" dataTree).space ps) "a.xml" =
        .error (.file .notFound)) := by
    decide +kernel
  obtain ⟨root, ps, hroot, hplain, hps, hcontents, hfound⟩ := exists_of_streamsReadAs hsample
  obtain ⟨houtcome, hagain⟩ := of_decide_eq_true hfound
  exact ⟨root, ps, hroot, hplain, valueText_readerAt (by unfold ValueText; decide) dataTree, hps, hcontents, houtcome,
    hagain⟩

end DiscPatch.Description
