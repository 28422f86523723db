/-
Patches read again: a patch that stands alone comes out with the same segments from its element exactly where
its segments start aligned, and one that imports a file always does.
-/
import DiscPatch.Description.Document
import DiscPatch.Proofs.Description.Locations
import DiscPatch.Proofs.Description.Variables
import DiscPatch.Proofs.Patch.Run

namespace DiscPatch.Description

open Text Xml Patch

variable {reader : Reader} {heading : Heading} {n : Node} {p : Patch}

/-! ## Titles -/

theorem titleOf_eq_ok (hclean : n.Clean) {name description : String} (h : titleOf n = .ok (name, description)) :
    ValueText name ∧ ContentText description := by
  obtain ⟨name', hname, h⟩ := bind_eq_ok h
  have hvalue : ValueText name' := hclean.attr? (required_eq_ok_iff.1 hname)
  split at h
  · cases h
    exact ⟨hvalue, hvalue.contentText⟩
  · rename_i d more helements
    cases h
    have hd : d.Clean := hclean.elements (helements ▸ List.mem_cons_self ..)
    exact ⟨hvalue, fun c hc => hd.innerText c (toList_trim_subset d.innerText hc)⟩

theorem titleOf_of_name {name : String} (h : n.attr? "name" = some name) :
    ∃ description, titleOf n = .ok (name, description) := by
  unfold titleOf
  rw [required_eq_ok_iff.2 h, ok_bind]
  cases n.elements "Description" with
  | nil => exact ⟨_, rfl⟩
  | cons d more => exact ⟨_, rfl⟩

/-! ## Drafts -/

theorem fields_of_build {d : Draft} (h : d.build = .ok p) :
    p.name = d.name ∧ p.description = d.description?.getD d.name ∧ p.segments = d.segments ∧ p.vars = d.vars := by
  rw [Draft.eq_patch_of_build h]
  exact ⟨rfl, rfl, rfl, rfl⟩

/-- Whether a draft becomes a patch depends on its name and variables only. -/
theorem build_of_build {d d' : Draft} (h : d.build = .ok p) (hname : d'.name = d.name) (hvars : d'.vars = d.vars) :
    ∃ q, d'.build = .ok q ∧ q.segments = d'.segments := by
  obtain ⟨_, hchecked, h⟩ := bind_eq_ok h
  obtain ⟨_, hreferences, -⟩ := bind_eq_ok h
  unfold Draft.build
  rw [hname, hvars, hchecked, ok_bind, hreferences, ok_bind]
  exact ⟨_, rfl, rfl⟩

/-- The draft of a patch with own segments only. -/
def draftOf (heading : Heading) (n : Node) (title : String × String) (vars : List Variable) (own : List Segment) :
    Draft where
  name := title.1
  filename := heading.filename
  description? := some title.2
  segments := own
  vars
  hiddenByDefault := flag n "hideInDefault" || heading.hiddenByDefault
  isHidden := flag n "hidden" || heading.isHidden
  faultText := faultsOf own

theorem readStream_eq_ok {s : Segment} (h : readStream reader n = .ok s) : ∃ sector path bytes,
    s = { Segment.ofStream sector path bytes with ram := reader.space.toRam sector 0 } := by
  unfold readStream at h
  obtain ⟨sector, -, h⟩ := bind_eq_ok h
  split at h
  · obtain ⟨input, -, h⟩ := bind_eq_ok h
    obtain ⟨content, -, h⟩ := bind_eq_ok h
    cases h
    exact ⟨_, _, _, rfl⟩
  · cases h

theorem includedPatches_eq_nil (h : n.elements "Include" = []) (earlier : List Patch) :
    includedPatches earlier n = [] := by
  unfold includedPatches
  rw [h]
  rfl

/-- What each step in reading a patch gave. -/
structure ReadSteps (reader : Reader) (earlier : List Patch) (n : Node) (title : String × String)
    (standard : Option Sector) (vars : List Variable) (own streams : List Segment) : Prop where
  titleOf : titleOf n = .ok title
  namedSector : namedSector reader.space n = .ok standard
  readVariables : readVariables reader.space standard ((includedPatches earlier n).foldl addVariables [])
    (n.elements "Variable") = .ok vars
  readLocations : readLocations reader title.1 standard ((includedPatches earlier n).flatMap includable) vars
    (n.elements "Location") = .ok own
  readStreams : (n.elements "STRLocation").mapM (readStream reader) = .ok streams

theorem readSteps_of_readPatch {earlier : List Patch} (h : readPatch reader heading earlier n = .ok p) :
    ∃ title standard vars own streams, ReadSteps reader earlier n title standard vars own streams ∧
      ({ draftOf heading n title vars own with
        segments := (includedPatches earlier n).flatMap includable ++ own ++ streams } : Draft).build = .ok p := by
  obtain ⟨title, htitle, h⟩ := bind_eq_ok h
  obtain ⟨standard, hstandard, h⟩ := bind_eq_ok h
  obtain ⟨vars, hvars, h⟩ := bind_eq_ok h
  obtain ⟨own, hown, h⟩ := bind_eq_ok h
  obtain ⟨streams, hstreams, h⟩ := bind_eq_ok h
  exact ⟨title, standard, vars, own, streams, ⟨htitle, hstandard, hvars, hown, hstreams⟩, h⟩

theorem ReadSteps.exists_ofStream {earlier : List Patch} {title : String × String} {standard : Option Sector}
    {vars : List Variable} {own streams : List Segment}
    (h : ReadSteps reader earlier n title standard vars own streams) : ∀ s ∈ streams, ∃ sector path bytes,
      s = { Segment.ofStream sector path bytes with ram := reader.space.toRam sector 0 } := by
  intro s hs
  obtain ⟨_, -, hs⟩ := mem_of_mapM_eq_ok h.readStreams hs
  exact readStream_eq_ok hs

/-! ## Patches that stand alone -/

/-- Whether a patch element stands alone: it includes no patch, takes nothing from files, and derives no
variable. -/
structure StandsAlone (n : Node) : Prop where
  includes : n.elements "Include" = []
  streams : n.elements "STRLocation" = []
  locations : ∀ location ∈ n.elements "Location", location.attr? "inputFile" = none
  vars : ∀ v ∈ n.elements "Variable", v.attr? "reference" = none

instance (n : Node) : Decidable (StandsAlone n) :=
  decidable_of_iff ((n.elements "Include").isEmpty ∧ (n.elements "STRLocation").isEmpty ∧
      (∀ location ∈ n.elements "Location", location.attr? "inputFile" = none) ∧
      ∀ v ∈ n.elements "Variable", v.attr? "reference" = none)
    ⟨fun h => ⟨List.isEmpty_iff.1 h.1, List.isEmpty_iff.1 h.2.1, h.2.2.1, h.2.2.2⟩,
      fun h => ⟨List.isEmpty_iff.2 h.includes, List.isEmpty_iff.2 h.streams, h.locations, h.vars⟩⟩

/-- What is read of a patch that stands alone. -/
structure Restorable (reader : Reader) (p : Patch) : Prop where
  name : ValueText p.name
  description : ContentText p.description
  segments : ∀ s ∈ p.segments, Exportable reader.space s
  vars : ∀ v ∈ p.vars, Storable reader.space v ∧ v.reference? = none
  again : readLocations reader p.name none [] p.vars (p.segments.map fun s => (Segment.toXml reader.space s).tidy) =
    .ok p.segments ↔ ∀ s ∈ p.segments, StartsAligned s
  build : ∀ d : Draft, d.name = p.name → d.vars = p.vars → ∃ q, d.build = .ok q ∧ q.segments = d.segments

/-- Nothing of the patches before it goes into a patch that stands alone. -/
theorem readPatch_of_standsAlone (h : StandsAlone n) (heading : Heading) (earlier : List Patch) :
    readPatch reader heading earlier n = (do
      let title ← titleOf n
      let standard ← namedSector reader.space n
      let vars ← readVariables reader.space standard [] (n.elements "Variable")
      let own ← readLocations reader title.1 standard [] vars (n.elements "Location")
      (draftOf heading n title vars own).build) := by
  unfold readPatch
  rw [includedPatches_eq_nil h.includes, h.streams]
  refine bind_congr fun title => bind_congr fun standard => bind_congr fun vars => bind_congr fun own => ?_
  show ({ draftOf heading n title vars own with segments := [] ++ own ++ [] } : Draft).build = _
  rw [List.append_nil, List.nil_append]
  rfl

theorem restorable_of_readPatch (hspace : reader.space.Named) (hclean : n.Clean) (halone : StandsAlone n)
    {earlier : List Patch} (h : readPatch reader heading earlier n = .ok p) : Restorable reader p := by
  rw [readPatch_of_standsAlone halone] at h
  obtain ⟨title, htitle, h⟩ := bind_eq_ok h
  obtain ⟨standard, hstandard, h⟩ := bind_eq_ok h
  obtain ⟨vars, hvars, h⟩ := bind_eq_ok h
  obtain ⟨own, hown, h⟩ := bind_eq_ok h
  obtain ⟨hname, hdescription, hsegments, hvariables⟩ := fields_of_build h
  have hplatform := platform_namedSector hspace hstandard
  have hlocations : ∀ location ∈ n.elements "Location", location.Clean ∧ location.attr? "inputFile" = none :=
    fun location hlocation => ⟨hclean.elements hlocation, halone.locations location hlocation⟩
  have hstorable : ∀ v ∈ vars, Storable reader.space v ∧ v.reference? = none := by
    intro v hv
    obtain ⟨hstorable, element, helement, hreference⟩ :=
      storable_readVariables hspace hplatform (fun v hv => hclean.elements hv) hvars v hv
    refine ⟨hstorable, ?_⟩
    rw [hreference, referenceOf?, halone.vars element helement]
    rfl
  obtain ⟨hnameText, hdescriptionText⟩ := titleOf_eq_ok hclean htitle
  refine ⟨hname ▸ hnameText, hdescription ▸ hdescriptionText, ?_, hvariables ▸ hstorable, ?_, ?_⟩
  · rw [hsegments]
    exact exportable_of_readLocations hspace hplatform hlocations hown
  · rw [hname, hsegments, hvariables]
    exact readLocations_written_iff hspace hplatform hlocations hown
  · rw [hname, hvariables]
    exact fun d => build_of_build h

/-- What is written for a patch that stands alone does so too. -/
theorem standsAlone_written (h : Restorable reader p) : StandsAlone (toXml reader.space p).tidy := by
  have hn := patchOf_toXml reader.space fun s hs => (h.segments s hs).inline
  refine ⟨hn.elements "Include" (by decide), hn.elements "STRLocation" (by decide), ?_, ?_⟩
  · rw [hn.locations]
    exact List.forall_mem_map.2 fun s hs => (locationOf_toXml _ (h.segments s hs).inline).others "inputFile" (by decide)
  · rw [hn.vars]
    refine List.forall_mem_map.2 fun v hv => ?_
    rw [(variableOf_toXml _ v).reference, (h.vars v hv).2]
    rfl

/-- A written patch is read with the same segments exactly where they start aligned. -/
theorem readPatch_written_iff (hspace : reader.space.Named) (h : Restorable reader p) (heading : Heading)
    (earlier : List Patch) :
    (∃ q, readPatch reader heading earlier (toXml reader.space p).tidy = .ok q ∧ q.segments = p.segments) ↔
      ∀ s ∈ p.segments, StartsAligned s := by
  have hn := patchOf_toXml reader.space fun s hs => (h.segments s hs).inline
  have halone := standsAlone_written h
  generalize (toXml reader.space p).tidy = n at hn halone
  obtain ⟨description, htitle⟩ := titleOf_of_name hn.name
  have hnamed : namedSector reader.space n = .ok none := by
    unfold namedSector
    rw [hn.others "file" (by decide), hn.others "sector" (by decide)]
  -- no sector is named for the whole patch, since every part of it names its own
  rw [readPatch_of_standsAlone halone, htitle, ok_bind, hnamed, ok_bind, hn.vars, hn.locations,
    readVariables_written hspace.listed h.vars, ok_bind, List.nil_append, ← h.again]
  constructor
  · rintro ⟨q, hq, hsegments⟩
    obtain ⟨own, hown, hq⟩ := bind_eq_ok hq
    have hsame : own = p.segments := (fields_of_build hq).2.2.1.symm.trans hsegments
    rw [hsame] at hown
    exact hown
  · intro hown
    rw [hown, ok_bind]
    exact h.build (draftOf heading n (p.name, description) p.vars p.segments) rfl rfl

/-! ## Patches that import a file -/

/-- The segment of a patch that imports a file. -/
def importSegment (space : AddressSpace) (sector : Sector) (offset expected : UInt32) : Segment :=
  { Segment.awaitingFile sector offset expected with ram := space.toRam sector offset }

/-- The draft of a patch that imports a file. -/
def importDraft (heading : Heading) (title : String × String) (segment : Segment) : Draft where
  name := title.1
  filename := heading.filename
  description? := some title.2
  segments := [segment]
  hiddenByDefault := heading.hiddenByDefault
  isHidden := heading.isHidden

/-- Either a patch that imports a file does not name one file only, or it is read step by step. -/
theorem readImport_cases {import? : Option Patch} (h : readImport reader heading n = .ok import?) :
    (import? = none ∧ (n.elements "ImportFile").length ≠ 1) ∨
    ∃ p title file sector offset expected, import? = some p ∧ titleOf n = .ok title ∧
      n.elements "ImportFile" = [file] ∧ namedSector reader.space file = .ok (some sector) ∧
      (importDraft heading title (importSegment reader.space sector offset expected)).build = .ok p := by
  obtain ⟨title, htitle, h⟩ := bind_eq_ok h
  dsimp only at h
  split at h
  · rename_i file hfile
    obtain ⟨named, hnamed, h⟩ := bind_eq_ok h
    split at h
    · rename_i sector
      obtain ⟨offsetText, -, h⟩ := bind_eq_ok h
      obtain ⟨offset, -, h⟩ := bind_eq_ok h
      obtain ⟨expectedText, -, h⟩ := bind_eq_ok h
      obtain ⟨expected, -, h⟩ := bind_eq_ok h
      obtain ⟨patch, hpatch, h⟩ := bind_eq_ok h
      cases h
      exact .inr ⟨patch, title, file, sector, offset, expected, rfl, htitle, hfile, hnamed, hpatch⟩
    · cases h
  · rename_i hother
    cases h
    refine .inl ⟨rfl, fun hlength => ?_⟩
    obtain ⟨file, hfile⟩ := List.length_eq_one_iff.1 hlength
    exact hother file hfile

theorem readImport_eq_ok (h : readImport reader heading n = .ok (some p)) :
    ∃ title file sector offset expected, titleOf n = .ok title ∧ n.elements "ImportFile" = [file] ∧
      namedSector reader.space file = .ok (some sector) ∧
      (importDraft heading title (importSegment reader.space sector offset expected)).build = .ok p := by
  obtain ⟨hnone, -⟩ | ⟨_, title, file, sector, offset, expected, ⟨⟩, hsteps⟩ := readImport_cases h
  · cases hnone
  · exact ⟨title, file, sector, offset, expected, hsteps⟩

/-- What is read of a patch that imports a file. -/
structure Imports (space : AddressSpace) (p : Patch) : Prop where
  name : ValueText p.name
  description : ContentText p.description
  segments : ∃ (sector : Sector) (offset expected : UInt32), sector.platform = space.platform ∧
    p.segments = [importSegment space sector offset expected]
  vars : p.vars = []

theorem imports_of_readImport (hspace : reader.space.Named) (hclean : n.Clean)
    (h : readImport reader heading n = .ok (some p)) : Imports reader.space p := by
  obtain ⟨title, file, sector, offset, expected, htitle, hfile, hnamed, hbuild⟩ := readImport_eq_ok h
  obtain ⟨hname, hdescription⟩ := titleOf_eq_ok hclean htitle
  rw [Draft.eq_patch_of_build hbuild]
  exact ⟨hname, hdescription, ⟨sector, offset, expected, platform_namedSector hspace hnamed sector rfl, rfl⟩, rfl⟩

theorem Imports.writable {space : AddressSpace} (h : Imports space p) : p.Writable ContentText := by
  obtain ⟨sector, offset, expected, -, hsegments⟩ := h.segments
  refine ⟨h.name, h.description, ?_, ?_, ?_, ?_, ?_⟩
  all_goals first | rw [hsegments, List.forall_mem_singleton] | rw [h.vars]
  · intro htakes
    cases htakes
  · intro label hlabel
    cases hlabel
  · exact contentText_empty
  · exact List.forall_mem_nil _
  · exact List.forall_mem_nil _

/-- A written import is read with the same segment. -/
theorem readImport_written (hspace : reader.space.Named) (h : Imports reader.space p) (heading : Heading) :
    ∃ q, readImport reader heading (toXml reader.space p).tidy = .ok (some q) ∧ q.segments = p.segments := by
  obtain ⟨sector, offset, expected, hplatform, hsegments⟩ := h.segments
  have hfind : p.segments.find? (·.takesFile) = some (importSegment reader.space sector offset expected) := by
    rw [hsegments]
    rfl
  have hn := importOf_toXml reader.space hfind
  generalize (toXml reader.space p).tidy = n at hn
  obtain ⟨description, htitle⟩ := titleOf_of_name hn.name
  obtain ⟨file, hfile, hname, hsector, hoffset, hexpected⟩ := hn.file
  have hnamed := namedSector_of_written hspace (s := sector) hplatform hname hsector
  have hrequired : required file "offset" = .ok (hex offset.toNat) := required_eq_ok_iff.2 hoffset
  have hlength : required file "expectedLength" = .ok (hex expected.toNat) := required_eq_ok_iff.2 hexpected
  unfold readImport
  rw [htitle, ok_bind]
  dsimp only
  rw [hfile]
  dsimp only
  rw [hnamed, ok_bind]
  dsimp only
  rw [hrequired, ok_bind, hexNumber_hex, ok_bind, hlength, ok_bind, hexNumber_hex, ok_bind, hsegments]
  exact ⟨_, rfl, rfl⟩

end DiscPatch.Description
