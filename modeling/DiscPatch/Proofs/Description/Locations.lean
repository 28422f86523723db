/-
Locations read again: a segment that was read comes out the same from the element that is written for it,
as long as it starts where the offset of that element says.
-/
import DiscPatch.Description.Location
import DiscPatch.Proofs.Description.Placement
import DiscPatch.Proofs.Patch.Export
import DiscPatch.Proofs.Xml.Contents

namespace DiscPatch.Description

open Text Xml Patch Assembly

variable {reader : Reader} {patch : String}

/-! ## Segments and wishes -/

/-- What a segment asks for. -/
def wishOf (s : Segment) : Wish where
  content := contentText s
  isAssembly := s.assembly?.isSome
  isData := s.isData
  hasLabels := !s.assembly?.isSome && s.labelledHex?.isSome
  label := s.label?.getD ""
  movesSimply := s.movesSimply

/-- The place of a segment. -/
def placeOf (s : Segment) : Place :=
  ⟨s.sector, s.offset, s.ram⟩

/-- The label of that text; an empty text is none. -/
def labelOf? (text : String) : Option String :=
  if text = "" then none else some text

theorem labelOf?_getD (text : String) : labelOf? ((labelOf? text).getD "") = labelOf? text := by
  unfold labelOf?
  by_cases h : text = ""
  · rw [if_pos h]
    rfl
  · rw [if_neg h]
    exact if_neg h

/-- The segment of a wish at a place, still without its content. -/
def bareSegment (wish : Wish) (sequential : Bool) (place : Place) : Segment where
  sector := place.sector
  offset := place.offset
  ram := place.ram
  bytes := []
  label? := labelOf? wish.label
  isData := wish.isData
  isChained := sequential
  movesSimply := wish.movesSimply

/-- The segment with assembled source. -/
def withAssembly (s : Segment) (source : String) (encoded : Encoding) : Segment :=
  { s with bytes := encoded.bytes, assembly? := some source, faultText := encoded.faultText }

section

variable {symbols : Symbols} {wish : Wish} {sequential : Bool} {place : Place}

theorem segmentAt_assembly (h : wish.isAssembly = true) :
    segmentAt reader patch symbols wish sequential place = .ok (withAssembly (bareSegment wish sequential place)
      wish.content (reader.assembler.encode (symbols.prepend wish.content) place.ram)) := by
  unfold segmentAt
  rw [h]
  rfl

theorem segmentAt_labelled (h : wish.isAssembly = false) (hlabels : wish.hasLabels = true) :
    segmentAt reader patch symbols wish sequential place =
      (hexContent patch (reader.assembler.fillLabels wish.content symbols)).map fun bytes =>
        { bareSegment wish sequential place with bytes, labelledHex? := some wish.content } := by
  unfold segmentAt
  rw [h, hlabels]
  rfl

theorem segmentAt_plain (h : wish.isAssembly = false) (hlabels : wish.hasLabels = false) :
    segmentAt reader patch symbols wish sequential place =
      (hexContent patch wish.content).map fun bytes => { bareSegment wish sequential place with bytes } := by
  unfold segmentAt
  rw [h, hlabels]
  rfl

theorem hexContent_of_ofHex? {text : String} {bytes : Bytes} (h : Bytes.ofHex? text = some bytes) (patch : String) :
    hexContent patch text = .ok bytes := by
  unfold hexContent
  rw [h]

theorem hexContent_toHex (patch : String) (bytes : Bytes) : hexContent patch (Bytes.toHex bytes) = .ok bytes :=
  hexContent_of_ofHex? (Bytes.ofHex?_toHex bytes) patch

theorem ofHex?_of_hexContent {text : String} {bytes : Bytes} (h : hexContent patch text = .ok bytes) :
    Bytes.ofHex? text = some bytes := by
  unfold hexContent at h
  split at h
  · cases h
    assumption
  · cases h

/-- What is read of a wish at a place. -/
structure Reading (wish : Wish) (sequential : Bool) (place : Place) (s : Segment) : Prop where
  inline : s.source = .inline
  place : placeOf s = place
  isChained : s.isChained = sequential
  label : s.label? = labelOf? wish.label
  isData : s.isData = wish.isData
  isAssembly : s.assembly?.isSome = wish.isAssembly
  content : contentText s = wish.content ∨ ∃ bytes, contentText s = Bytes.toHex bytes

/-- What is read of a wish, and that a segment that was read asks for what makes it again. -/
theorem segmentAt_eq_ok {s : Segment} (h : segmentAt reader patch symbols wish sequential place = .ok s) :
    Reading wish sequential place s ∧
      segmentAt reader patch symbols (wishOf s) s.isChained (placeOf s) = .ok s := by
  -- the label that the segment has is the one that it asks for
  have hbare : ∀ s, s.label? = labelOf? wish.label → s.isData = wish.isData → s.movesSimply = wish.movesSimply →
      bareSegment (wishOf s) sequential place = bareSegment wish sequential place := by
    intro s hlabel hdata hmoves
    unfold bareSegment wishOf
    dsimp only
    rw [hlabel, hdata, hmoves, labelOf?_getD]
  cases hassembly : wish.isAssembly with
  | true =>
    rw [segmentAt_assembly hassembly] at h
    cases h
    refine ⟨⟨rfl, rfl, rfl, rfl, rfl, hassembly.symm, .inl rfl⟩, ?_⟩
    rw [segmentAt_assembly rfl]
    exact congrArg (fun s => Except.ok (withAssembly s _ _)) (hbare _ rfl rfl rfl)
  | false =>
    cases hlabels : wish.hasLabels with
    | true =>
      rw [segmentAt_labelled hassembly hlabels] at h
      obtain ⟨bytes, hbytes, rfl⟩ := map_eq_ok h
      refine ⟨⟨rfl, rfl, rfl, rfl, rfl, hassembly.symm, .inl rfl⟩, ?_⟩
      rw [segmentAt_labelled rfl rfl]
      show (hexContent patch (reader.assembler.fillLabels wish.content symbols)).map _ = _
      rw [hbytes]
      exact congrArg (fun s : Segment => Except.ok { s with bytes, labelledHex? := some wish.content })
        (hbare { bareSegment wish sequential place with bytes, labelledHex? := some wish.content } rfl rfl rfl)
    | false =>
      rw [segmentAt_plain hassembly hlabels] at h
      obtain ⟨bytes, hbytes, rfl⟩ := map_eq_ok h
      refine ⟨⟨rfl, rfl, rfl, rfl, rfl, hassembly.symm, .inr ⟨bytes, rfl⟩⟩, ?_⟩
      rw [segmentAt_plain rfl rfl]
      show (hexContent patch (Bytes.toHex bytes)).map _ = _
      rw [hexContent_toHex]
      exact congrArg (fun s : Segment => Except.ok { s with bytes })
        (hbare { bareSegment wish sequential place with bytes } rfl rfl rfl)

end

/-! ## Segments that were read -/

/-- A segment whose element says all that it was read from. -/
structure Exportable (space : AddressSpace) (s : Segment) : Prop where
  inline : s.source = .inline
  placed : Placed space (placeOf s)
  exclusive : s.assembly?.isSome → s.isData = false
  label : ∀ label, s.label? = some label → ValueText label ∧ ' ' ∉ label.toList
  content : ContentText (contentText s)

/-- Segments read one behind the other, each with the symbols of those before it: each makes itself again, and
continues the one before where it says so. -/
inductive Located (reader : Reader) (patch : String) (vars : List Variable) : List Segment → Prop where
  | nil : Located reader patch vars []
  | snoc {own : List Segment} {s : Segment} (before : Located reader patch vars own)
    (exportable : Exportable reader.space s)
    (again : segmentAt reader patch (symbolsOf own vars) (wishOf s) s.isChained (placeOf s) = .ok s)
    (chained : s.isChained → ∃ previous, own.getLast? = some previous ∧ s.offset.toNat = previous.stop) :
    Located reader patch vars (own ++ [s])

section

variable {vars : List Variable} {own own' : List Segment} {n : Node}

theorem Located.exportable (h : Located reader patch vars own) : ∀ s ∈ own, Exportable reader.space s := by
  induction h with
  | nil => exact List.forall_mem_nil _
  | snoc before exportable again chained ih =>
    exact List.forall_mem_append.2 ⟨ih, List.forall_mem_singleton.2 exportable⟩

theorem Located.onPlatform (h : Located reader patch vars own) :
    OnPlatform reader.space ((own.getLast?.map endOfSegment).map (·.sector)) := by
  intro sector hsector
  obtain ⟨previous, hprevious, rfl⟩ := Option.map_eq_some_iff.1 hsector
  obtain ⟨s, hs, rfl⟩ := Option.map_eq_some_iff.1 hprevious
  exact (h.exportable s (List.mem_of_getLast? hs)).placed.platform

/-- A wish of an element that can be printed. -/
structure CleanWish (wish : Wish) : Prop where
  exclusive : wish.isAssembly → wish.isData = false
  label : ValueText wish.label ∧ ' ' ∉ wish.label.toList
  content : ContentText wish.content

/-- What an element asks for, as far as its attributes say it. -/
structure WishRead (n : Node) (wish : Wish) : Prop where
  isAssembly : wish.isAssembly = decide (modeOf n = some "asm")
  isData : wish.isData = decide (modeOf n = some "data")
  label : wish.label = String.ofList (((n.attr? "label").getD "").toList.filter (· ≠ ' '))
  content : n.attr? "inputFile" = none → wish.content = n.innerText

theorem wishRead_of_readWish {wish : Wish} (h : readWish reader n = .ok wish) : WishRead n wish := by
  unfold readWish at h
  dsimp only at h
  split at h
  · rename_i hinput
    obtain ⟨content, -, h⟩ := bind_eq_ok h
    cases h
    exact ⟨rfl, rfl, rfl, fun hnone => by rw [hinput] at hnone; cases hnone⟩
  · cases h
    exact ⟨rfl, rfl, rfl, fun _ => rfl⟩

theorem WishRead.label_clean {wish : Wish} (h : WishRead n wish) (hclean : n.Clean) :
    ValueText wish.label ∧ ' ' ∉ wish.label.toList := by
  rw [h.label, ValueText, String.toList_ofList]
  refine ⟨fun c hc => ?_, fun hmem => absurd (List.of_mem_filter hmem) (by decide)⟩
  have hmem := List.mem_of_mem_filter hc
  cases hlabel : n.attr? "label" with
  | none =>
    rw [hlabel] at hmem
    cases hmem
  | some label =>
    rw [hlabel] at hmem
    exact hclean.attr? hlabel c hmem

theorem cleanWish_of_readWish (hclean : n.Clean) (hinput : n.attr? "inputFile" = none) {wish : Wish}
    (h : readWish reader n = .ok wish) : CleanWish wish := by
  have hread := wishRead_of_readWish h
  refine ⟨fun hassembly => ?_, hread.label_clean hclean, ?_⟩
  · rw [hread.isAssembly, decide_eq_true_iff] at hassembly
    rw [hread.isData, hassembly]
    decide
  · rw [hread.content hinput]
    exact hclean.innerText

/-- One more place of a location. -/
theorem Located.segmentAt (h : Located reader patch vars own) {wish : Wish} (hwish : CleanWish wish)
    {sequential : Bool} {place : Place} (hplace : Placed reader.space place)
    (hsequential : sequential → ∃ previous, own.getLast? = some previous ∧ place.offset.toNat = previous.stop)
    {s : Segment} (hs : segmentAt reader patch (symbolsOf own vars) wish sequential place = .ok s) :
    Located reader patch vars (own ++ [s]) := by
  obtain ⟨hreading, hagain⟩ := segmentAt_eq_ok hs
  refine h.snoc ⟨hreading.inline, ?_, fun hassembly => ?_, fun label hlabel => ?_, ?_⟩ hagain fun hchained => ?_
  · rw [hreading.place]
    exact hplace
  · rw [hreading.isData]
    exact hwish.exclusive (hreading.isAssembly.symm.trans hassembly)
  · rw [hreading.label] at hlabel
    unfold labelOf? at hlabel
    split at hlabel
    · cases hlabel
    · cases hlabel
      exact hwish.label
  · rcases hreading.content with hcontent | ⟨bytes, hcontent⟩
    · rw [hcontent]
      exact hwish.content
    · rw [hcontent]
      exact (valueText_numerals fun c => Bytes.mem_hexDigits).contentText
  · have hplaceOf : place.offset = s.offset := hreading.place ▸ rfl
    rw [← hplaceOf]
    exact hsequential (hreading.isChained ▸ hchained)

/-- A location is read place by place: what each place keeps holds afterwards. -/
theorem readLocation_eq_ok {standard : Option Sector} {included : List Segment}
    (h : readLocation reader patch standard included vars own n = .ok own') :
    ∃ spot wish, placement reader.space n standard (own.getLast?.map endOfSegment)
        (alignment n (if modeOf n = some "asm" then 4 else 0)) = .ok spot ∧
      readWish reader n = .ok wish ∧
      ∀ motive : List Segment → Prop, motive own → (∀ own, motive own → ∀ place ∈ spot.places, ∀ s,
        (spot.sequential → ∃ previous, own.getLast? = some previous ∧ place.offset.toNat = previous.stop) →
        Description.segmentAt reader patch (symbolsOf (included ++ own) vars) wish spot.sequential place = .ok s →
        motive (own ++ [s])) → motive own' := by
  obtain ⟨spot, hspot, h⟩ := bind_eq_ok h
  obtain ⟨wish, hwish, h⟩ := bind_eq_ok h
  refine ⟨spot, wish, hspot, hwish, fun motive hown hplace => ?_⟩
  by_cases hsequential : spot.sequential = true
  · -- the only place continues the last segment
    obtain ⟨p, place, hp, hsingle, hstop, -⟩ := placement_sequential hspot hsequential
    obtain ⟨previous, hprevious, rfl⟩ := Option.map_eq_some_iff.1 hp
    rw [hsingle] at h hplace
    obtain ⟨behind, hbehind, h⟩ := bind_eq_ok h
    cases h
    obtain ⟨s, hs, hbehind⟩ := bind_eq_ok hbehind
    cases hbehind
    exact hplace own hown place (List.mem_singleton_self _) s (fun _ => ⟨previous, hprevious, hstop⟩) hs
  · refine foldlM_induction (fun place hmem own own' hown hstep => ?_) hown h
    obtain ⟨s, hs, hstep⟩ := bind_eq_ok hstep
    cases hstep
    exact hplace own hown place hmem s (fun h => absurd h hsequential) hs

/-- What each place of each location gives its segment, all segments that are read have. -/
theorem readAll_induction {motive : Segment → Prop} {standard : Option Sector} {included : List Segment}
    {nodes : List Node}
    (hplace : ∀ n ∈ nodes, ∀ previous spot wish, placement reader.space n standard previous
      (alignment n (if modeOf n = some "asm" then 4 else 0)) = .ok spot → readWish reader n = .ok wish →
      ∀ place ∈ spot.places, ∀ s, Reading wish spot.sequential place s → motive s)
    (h : nodes.foldlM (readLocation reader patch standard included vars) [] = .ok own) : ∀ s ∈ own, motive s := by
  refine foldlM_induction (motive := fun own => ∀ s ∈ own, motive s) (fun n hn own own' hown hstep => ?_)
    (List.forall_mem_nil _) h
  obtain ⟨spot, wish, hspot, hwish, hread⟩ := readLocation_eq_ok hstep
  refine hread (fun own => ∀ s ∈ own, motive s) hown fun own hown place hmem s _ hs => ?_
  exact List.forall_mem_append.2 ⟨hown, List.forall_mem_singleton.2
    (hplace n hn _ spot wish hspot hwish place hmem s (segmentAt_eq_ok hs).1)⟩

/-- A location behind segments that were read. -/
theorem Located.readLocation (hspace : reader.space.Named) (h : Located reader patch vars own)
    {standard : Option Sector} (hstandard : OnPlatform reader.space standard) (hclean : n.Clean)
    (hinput : n.attr? "inputFile" = none)
    (hn : readLocation reader patch standard [] vars own n = .ok own') : Located reader patch vars own' := by
  obtain ⟨spot, wish, hspot, hwish, hread⟩ := readLocation_eq_ok hn
  have hplaces := placed_placement hspace hstandard h.onPlatform hspot
  have hclean := cleanWish_of_readWish hclean hinput hwish
  refine hread _ h fun own h place hplace s hsequential hs => ?_
  exact h.segmentAt hclean (hplaces place hplace) hsequential hs

end

/-! ## Locations that were written -/

section

variable {space : AddressSpace} {vars : List Variable} {own : List Segment} {s : Segment} {n : Node}

theorem modeOf_location (h : LocationOf space s n) :
    modeOf n = if s.assembly?.isSome then some "asm" else if s.isData then some "data" else none := by
  unfold modeOf
  rw [h.mode]
  split
  · decide +kernel
  · split
    · decide +kernel
    · rfl

theorem modeOf_eq_assembly (h : LocationOf space s n) : modeOf n = some "asm" ↔ s.assembly?.isSome = true := by
  rw [modeOf_location h]
  cases s.assembly?.isSome <;> cases s.isData <;> decide

theorem modeOf_eq_data (h : LocationOf space s n) (hs : Exportable space s) :
    modeOf n = some "data" ↔ s.isData = true := by
  rw [modeOf_location h]
  have hexclusive := hs.exclusive
  cases hassembly : s.assembly?.isSome <;> cases hdata : s.isData <;> simp_all

/-- What a written location asks for is what its segment asks for. -/
theorem readWish_of_location (reader : Reader) (h : LocationOf space s n) (hs : Exportable space s) :
    readWish reader n = .ok (wishOf s) := by
  have hassembly : decide (modeOf n = some "asm") = s.assembly?.isSome := by
    rw [Bool.eq_iff_iff, decide_eq_true_iff, modeOf_eq_assembly h]
  have hdata : decide (modeOf n = some "data") = s.isData := by
    rw [Bool.eq_iff_iff, decide_eq_true_iff, modeOf_eq_data h hs]
  have hlabels : (!s.assembly?.isSome && flag n "replaceLabels") = (!s.assembly?.isSome && s.labelledHex?.isSome) := by
    unfold flag
    rw [h.replaceLabels]
    cases s.assembly?.isSome <;> cases s.labelledHex?.isSome <;> rfl
  have hlabel : String.ofList (((s.label?).getD "").toList.filter (· ≠ ' ')) = s.label?.getD "" := by
    have hblank : ' ' ∉ (s.label?.getD "").toList := by
      cases hlabel : s.label? with
      | none => exact List.not_mem_nil
      | some label => exact (hs.label label hlabel).2
    rw [List.filter_eq_self.2 fun c hc => decide_eq_true (ne_of_mem_of_not_mem hc hblank), String.ofList_toList]
  unfold readWish
  rw [h.others "inputFile" (by decide), h.content]
  show Except.ok _ = Except.ok _
  rw [hassembly, hdata, hlabels, h.label, hlabel]
  refine congrArg (fun movesSimply => Except.ok { wishOf s with movesSimply }) ?_
  -- a segment that moves as its kind does has nothing written about it
  have htrue : (truth? "true").getD false = true := by decide +kernel
  have hfalse : (truth? "false").getD false = false := by decide +kernel
  rw [h.movable]
  cases s.movesSimply <;> cases s.assembly?.isSome
  · rfl
  · exact hfalse
  · exact htrue
  · rfl

/-- A written location lies where its segment lies, if it is aligned there. -/
theorem placement_of_location (hspace : space.Named) (h : LocationOf space s n) (hs : Exportable space s)
    {previous : Option Previous} {align : Nat}
    (hchained : s.isChained → ∃ p, previous = some p ∧ s.offset.toNat = p.stop)
    (haligned : s.isChained → align = 0 ∨ s.offset.toNat % align = 0) :
    placement space n none previous align = .ok ⟨[placeOf s], s.isChained⟩ := by
  have hram : countsInRam n = false := by
    unfold countsInRam
    rw [h.others "offsetMode" (by decide)]
  have hentries : entries space n none = .ok [] := by
    unfold entries
    rw [compactAttr_of_none (h.others "specific" (by decide))]
  have hsector : sectorOf space n none previous = .ok s.sector := by
    unfold sectorOf
    rw [namedSector_of_written hspace hs.placed.platform h.file h.sector]
    rfl
  have hplace : placeOfFile space s.sector s.offset = placeOf s :=
    congrArg (Place.mk s.sector s.offset) hs.placed.ram.symm
  unfold placement
  rw [hentries, hram, ok_bind]
  cases hchain : s.isChained with
  | true =>
    -- no offset is written, so the location continues the one before
    obtain ⟨p, rfl, hstop⟩ := hchained hchain
    rw [compactAttr_of_none (by rw [h.offset, hchain]; rfl)]
    dsimp only
    rw [chainedOffset_of_aligned n.tag hstop (hstop ▸ haligned hchain), ok_bind]
    dsimp only
    rw [hsector, ok_bind, hplace]
    rfl
  | false =>
    -- the list of offsets is the one that is written
    have hcomma : ',' ∉ digits 16 s.offset.toNat := fun hmem =>
      absurd (mem_digits (by decide) (by decide) hmem) (by decide)
    have hoffsets : ((digits 16 s.offset.toNat).splitOn ',').mapM (fun o => hexNumber .offset (String.ofList o)) =
        .ok [s.offset] := by
      rw [List.splitOn_eq_singleton hcomma, mapM_eq_ok_iff]
      exact .cons (hexNumber_hex _ _) .nil
    rw [compactAttr_hex (by rw [h.offset, hchain]; rfl)]
    split
    · rename_i hnil
      exact absurd hnil (digits_ne_nil _ _)
    · rw [hoffsets, ok_bind, hsector, ok_bind, ← hplace]
      rfl
    · rename_i hne _
      exact absurd rfl hne

/-! ## Alignment -/

/-- Whether a segment of assembly source that continues the one before starts on a word. -/
def StartsAligned (s : Segment) : Prop :=
  s.assembly?.isSome → s.isChained → s.offset.toNat % 4 = 0

theorem alignment_of_location (h : LocationOf space s n) :
    alignment n (if modeOf n = some "asm" then 4 else 0) = if s.assembly?.isSome then 4 else 0 := by
  unfold alignment
  rw [h.others "align" (by decide)]
  exact if_congr (modeOf_eq_assembly h) rfl rfl

/-- A written location is read as its segment, if that starts aligned. -/
theorem readLocation_of_location {reader : Reader} (hspace : reader.space.Named) (h : LocationOf reader.space s n)
    (hs : Exportable reader.space s)
    (hagain : segmentAt reader patch (symbolsOf own vars) (wishOf s) s.isChained (placeOf s) = .ok s)
    (hchained : s.isChained → ∃ previous, own.getLast? = some previous ∧ s.offset.toNat = previous.stop)
    (haligned : StartsAligned s) : readLocation reader patch none [] vars own n = .ok (own ++ [s]) := by
  have hplacement : placement reader.space n none (own.getLast?.map endOfSegment)
      (alignment n (if modeOf n = some "asm" then 4 else 0)) = .ok ⟨[placeOf s], s.isChained⟩ := by
    refine placement_of_location hspace h hs (fun hchain => ?_) fun hchain => ?_
    · obtain ⟨previous, hprevious, hstop⟩ := hchained hchain
      exact ⟨endOfSegment previous, by rw [hprevious]; rfl, hstop⟩
    · rw [alignment_of_location h]
      split
      · rename_i hassembly
        exact .inr (haligned hassembly hchain)
      · exact .inl rfl
  unfold readLocation
  dsimp only
  rw [hplacement, ok_bind, readWish_of_location reader h hs, ok_bind, List.foldlM_cons, List.nil_append, hagain]
  rfl

/-- Segments whose locations were written are read again, if they start aligned. -/
theorem readAll_of_located {reader : Reader} (hspace : reader.space.Named) (h : Located reader patch vars own)
    (haligned : ∀ s ∈ own, StartsAligned s) :
    (own.map fun s => (Segment.toXml reader.space s).tidy).foldlM (readLocation reader patch none [] vars) [] =
      .ok own := by
  induction h with
  | nil => rfl
  | snoc before exportable again chained ih =>
    obtain ⟨hbefore, hlast⟩ := List.forall_mem_append.1 haligned
    -- the locations in front lead to the segments in front, and the last one is read behind those
    rw [List.map_append, List.foldlM_append, ih hbefore, ok_bind]
    show (readLocation reader patch none [] vars _ _ >>= pure) = _
    rw [readLocation_of_location hspace (locationOf_toXml _ exportable.inline) exportable again chained
      (hlast _ (List.mem_singleton_self _))]
    rfl

end

/-- Whatever locations without alignments are read, their segments start aligned. -/
theorem startsAligned_of_readAll {standard : Option Sector} {vars : List Variable} {nodes : List Node}
    {own : List Segment} (hnodes : ∀ n ∈ nodes, n.attr? "align" = none)
    (h : nodes.foldlM (readLocation reader patch standard [] vars) [] = .ok own) : ∀ s ∈ own, StartsAligned s := by
  refine readAll_induction (fun n hn previous spot wish hspot hwish place hplace s hreading => ?_) h
  -- only a single place continues the segment before, and assembly source is aligned to four there
  intro hassembly hchained
  obtain ⟨p, place', -, hsingle, hstop, haligned⟩ := placement_sequential hspot (hreading.isChained ▸ hchained)
  rw [hsingle, List.mem_singleton] at hplace
  subst hplace
  have hmode : modeOf n = some "asm" := by
    rw [hreading.isAssembly, (wishRead_of_readWish hwish).isAssembly] at hassembly
    exact of_decide_eq_true hassembly
  rw [alignment, hnodes n hn, if_pos hmode] at haligned
  have hoffset : place.offset = s.offset := hreading.place ▸ rfl
  rw [← hoffset, hstop]
  exact haligned.resolve_left (by decide)

/-! ## All locations -/

/-- What the last encoding of a segment keeps: all but its bytes and what was found out about them, and the bytes
too where they are given outright. -/
structure Keeps (s s' : Segment) : Prop where
  segment : s' = { s with
    bytes := s'.bytes, isCode := s'.isCode, faultText := s'.faultText, codeFaults := s'.codeFaults }
  bytes : s.assembly? = none → s.labelledHex? = none → s'.bytes = s.bytes

section

variable {symbols : Symbols} {s s' s'' : Segment}

theorem Keeps.refl (s : Segment) : Keeps s s :=
  ⟨rfl, fun _ _ => rfl⟩

theorem Keeps.trans (h : Keeps s s') (h' : Keeps s' s'') : Keeps s s'' := by
  have hassembly : s'.assembly? = s.assembly? := by rw [h.segment]
  have hlabelled : s'.labelledHex? = s.labelledHex? := by rw [h.segment]
  refine ⟨?_, fun hnone hlabels => ?_⟩
  · rw [h'.segment, h.segment]
  · rw [h'.bytes (hassembly.trans hnone) (hlabelled.trans hlabels), h.bytes hnone hlabels]

theorem keeps_relabel (h : relabel reader patch symbols s = .ok s') : Keeps s s' := by
  unfold relabel at h
  split at h
  · rename_i source hsource
    split at h
    · cases h
      exact Keeps.refl s
    · obtain ⟨bytes, -, h⟩ := bind_eq_ok h
      cases h
      exact ⟨rfl, fun _ hlabels => absurd (hlabels.symm.trans hsource) (by simp)⟩
  · cases h
    exact Keeps.refl s

theorem keeps_reassemble (reader : Reader) (symbols : Symbols) (s : Segment) :
    Keeps s (reassemble reader symbols s) := by
  unfold reassemble
  split
  · rename_i source hsource
    exact ⟨rfl, fun hassembly _ => absurd (hassembly.symm.trans hsource) (by simp)⟩
  · exact Keeps.refl s

theorem keeps_check (reader : Reader) (s : Segment) : Keeps s (check reader s) := by
  unfold check
  split
  · exact Keeps.refl s
  · dsimp only
    split
    · exact ⟨rfl, fun _ _ => rfl⟩
    · exact Keeps.refl s

theorem keeps_finish (h : finish reader patch symbols s = .ok s') : Keeps s s' := by
  obtain ⟨relabelled, hrelabel, h⟩ := bind_eq_ok h
  cases h
  exact ((keeps_relabel hrelabel).trans (keeps_reassemble ..)).trans (keeps_check ..)

theorem Keeps.contentText (h : Keeps s s') : contentText s' = contentText s := by
  unfold Patch.contentText
  have hassembly : s'.assembly? = s.assembly? := by rw [h.segment]
  have hlabelled : s'.labelledHex? = s.labelledHex? := by rw [h.segment]
  rw [hassembly, hlabelled]
  cases hnone : s.assembly? with
  | some source => rfl
  | none =>
    cases hlabels : s.labelledHex? with
    | some source => rfl
    | none => exact congrArg Bytes.toHex (h.bytes hnone hlabels)

theorem Keeps.exportable {space : AddressSpace} (h : Keeps s s') (hs : Exportable space s) : Exportable space s' := by
  have hcontent := h.contentText
  refine ⟨?_, ?_, ?_, ?_, hcontent ▸ hs.content⟩
  all_goals rw [h.segment]
  · exact hs.inline
  · exact hs.placed
  · exact hs.exclusive
  · exact hs.label

/-- What is written for a segment does not depend on its last encoding. -/
theorem Keeps.toXml (h : Keeps s s') (space : AddressSpace) : Segment.toXml space s' = Segment.toXml space s := by
  have hcontent := h.contentText
  rw [h.segment] at hcontent ⊢
  unfold Segment.toXml
  rw [hcontent]
  rfl

end

section

variable {standard : Option Sector} {vars : List Variable} {nodes : List Node} {segments : List Segment}

/-- Locations are read one behind the other before they are finished. -/
theorem readLocations_eq_ok (hspace : reader.space.Named) (hstandard : OnPlatform reader.space standard)
    (hnodes : ∀ n ∈ nodes, n.Clean ∧ n.attr? "inputFile" = none)
    (h : readLocations reader patch standard [] vars nodes = .ok segments) :
    ∃ own, Located reader patch vars own ∧ own.mapM (finish reader patch (symbolsOf own vars)) = .ok segments := by
  obtain ⟨own, hown, hfinish⟩ := bind_eq_ok h
  refine ⟨own, ?_, hfinish⟩
  exact foldlM_induction (fun n hn own own' hbefore hstep =>
    hbefore.readLocation hspace hstandard (hnodes n hn).1 (hnodes n hn).2 hstep) .nil hown

/-- The elements of the segments that were read say all that they were read from. -/
theorem exportable_of_readLocations (hspace : reader.space.Named) (hstandard : OnPlatform reader.space standard)
    (hnodes : ∀ n ∈ nodes, n.Clean ∧ n.attr? "inputFile" = none)
    (h : readLocations reader patch standard [] vars nodes = .ok segments) :
    ∀ s ∈ segments, Exportable reader.space s := by
  obtain ⟨own, hlocated, hfinish⟩ := readLocations_eq_ok hspace hstandard hnodes h
  intro s hs
  obtain ⟨s', hs', hstep⟩ := mem_of_mapM_eq_ok hfinish hs
  exact (keeps_finish hstep).exportable (hlocated.exportable s' hs')

/-- Whether segments start aligned is settled before they are finished. -/
theorem startsAligned_finish_iff {symbols : Symbols} {own : List Segment}
    (h : own.mapM (finish reader patch symbols) = .ok segments) :
    (∀ s ∈ segments, StartsAligned s) ↔ ∀ s ∈ own, StartsAligned s := by
  have hlook : ∀ s s', finish reader patch symbols s = .ok s' → StartsAligned s' = StartsAligned s := by
    intro s s' h
    rw [(keeps_finish h).segment]
    rfl
  have hsame := map_eq_map_of_mapM_eq_ok hlook h
  have hforall : ∀ l : List Segment, (∀ s ∈ l, StartsAligned s) ↔ ∀ aligned ∈ l.map StartsAligned, aligned := fun l =>
    (List.forall_mem_map (P := fun aligned => aligned)).symm
  rw [hforall, hforall, hsame]

/-- The locations that are written for segments that were read are read as these segments exactly where those of
assembly source that continue the one before start aligned. -/
theorem readLocations_written_iff (hspace : reader.space.Named) (hstandard : OnPlatform reader.space standard)
    (hnodes : ∀ n ∈ nodes, n.Clean ∧ n.attr? "inputFile" = none)
    (h : readLocations reader patch standard [] vars nodes = .ok segments) :
    readLocations reader patch none [] vars (segments.map fun s => (Segment.toXml reader.space s).tidy) = .ok segments ↔
      ∀ s ∈ segments, StartsAligned s := by
  obtain ⟨own, hlocated, hfinish⟩ := readLocations_eq_ok hspace hstandard hnodes h
  -- the last encoding changes nothing of what is written
  have hwritten : (segments.map fun s => (Segment.toXml reader.space s).tidy) =
      own.map fun s => (Segment.toXml reader.space s).tidy :=
    map_eq_map_of_mapM_eq_ok (fun s s' h => congrArg Node.tidy ((keeps_finish h).toXml _)) hfinish
  rw [hwritten]
  constructor
  · intro hagain
    obtain ⟨own', hown', hfinish'⟩ := bind_eq_ok hagain
    refine (startsAligned_finish_iff hfinish').2 (startsAligned_of_readAll (fun n hn => ?_) hown')
    obtain ⟨s, hs, rfl⟩ := List.mem_map.1 hn
    exact (locationOf_toXml _ (hlocated.exportable s hs).inline).others "align" (by decide)
  · intro haligned
    unfold readLocations
    rw [readAll_of_located hspace hlocated ((startsAligned_finish_iff hfinish).1 haligned), ok_bind]
    exact hfinish

end

end DiscPatch.Description
