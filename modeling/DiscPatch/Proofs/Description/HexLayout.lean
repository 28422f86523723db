/-
Locations of hexadecimal text, one behind the other. Each starts at the first multiple of its alignment from the end
of the one before on, so none overlaps another, and the patch is refused only where a start is past the last offset.
The writes join the locations that start exactly where the one before ends.
-/
import DiscPatch.Patch.Edits
import DiscPatch.Proofs.Description.LabelledHex

namespace DiscPatch.Description

open Text Xml Patch Assembly

variable {reader : Reader} {sector : Sector}

/-! ## The first multiple -/

/-- The number whose multiples a location can start at; every offset is one where no alignment is in force. -/
def gridOf (n : Node) : Nat :=
  max 1 (alignment n 0)

/-- Whether a location can start at `start` and nowhere between the offset `stop` and there. -/
def FirstFrom (n : Node) (stop start : Nat) : Prop :=
  IsLeast {m | gridOf n ∣ m ∧ stop ≤ m} start

theorem firstFrom_of_aligned {n : Node} {stop : Nat} (h : alignment n 0 = 0 ∨ stop % alignment n 0 = 0) :
    FirstFrom n stop stop := by
  refine ⟨⟨?_, le_rfl⟩, fun m hm => hm.2⟩
  rcases Nat.eq_zero_or_pos (alignment n 0) with hzero | hpos
  · simp [gridOf, hzero]
  · rw [gridOf, Nat.max_eq_right hpos]
    exact Nat.dvd_of_mod_eq_zero (h.resolve_left hpos.ne')

theorem firstFrom_of_not_aligned {n : Node} {stop : Nat} (h : ¬ (alignment n 0 = 0 ∨ stop % alignment n 0 = 0)) :
    FirstFrom n stop (stop + (alignment n 0 - stop % alignment n 0)) := by
  obtain ⟨hne, hmod⟩ := not_or.1 h
  have hpos := Nat.pos_of_ne_zero hne
  have hlt := Nat.mod_lt stop hpos
  rw [FirstFrom, gridOf, Nat.max_eq_right hpos]
  generalize alignment n 0 = a at *
  have hdiv := Nat.div_add_mod stop a
  refine ⟨⟨⟨stop / a + 1, by rw [Nat.mul_add]; omega⟩, by omega⟩, ?_⟩
  rintro _ ⟨⟨k, rfl⟩, hle⟩
  -- the next smaller multiple is in front of the end
  have hk : stop / a < k := by
    by_contra hle'
    have := Nat.mul_le_mul_left a (Nat.le_of_not_lt hle')
    omega
  have := Nat.mul_le_mul_left a (Nat.succ_le_of_lt hk)
  rw [Nat.mul_succ] at this
  omega

/-- A location continues the one before at the first offset where it can start, unless that is past the last one. -/
theorem chainedOffset_of_firstFrom (tag : String) {n : Node} {previous : Previous} {start : Nat}
    (h : FirstFrom n previous.stop start) :
    chainedOffset tag (some previous) (alignment n 0) =
      if start ≤ maxWord then .ok (UInt32.ofNat start, decide (start = previous.stop))
      else .error (.address (.pastRange tag)) := by
  have hlt (hpos : 0 < alignment n 0) := Nat.mod_lt previous.stop hpos
  unfold chainedOffset
  dsimp only
  by_cases haligned : alignment n 0 = 0 ∨ previous.stop % alignment n 0 = 0
  · obtain rfl := h.unique (firstFrom_of_aligned haligned)
    rw [if_pos haligned]
    simp [haligned]
  · obtain rfl := h.unique (firstFrom_of_not_aligned haligned)
    obtain ⟨hne, -⟩ := not_or.1 haligned
    have hmoved : ¬ previous.stop + (alignment n 0 - previous.stop % alignment n 0) = previous.stop := by
      have := hlt (Nat.pos_of_ne_zero hne)
      omega
    rw [if_neg haligned, decide_eq_false haligned, decide_eq_false hmoved]

theorem exists_firstFrom (n : Node) (stop : Nat) : ∃ start, FirstFrom n stop start := by
  by_cases haligned : alignment n 0 = 0 ∨ stop % alignment n 0 = 0
  · exact ⟨stop, firstFrom_of_aligned haligned⟩
  · exact ⟨_, firstFrom_of_not_aligned haligned⟩

/-! ## Single locations -/

/-- The bytes of a location of hexadecimal text while none of its labels is known. -/
def contentOf? (reader : Reader) (n : Node) : Option Bytes :=
  (readWish reader n).toOption.bind fun wish =>
    Bytes.ofHex? (if wish.hasLabels then fillLabels wish.content Symbols.empty else wish.content)

/-- The bytes that a location takes up. -/
def roomFor (reader : Reader) (n : Node) : Nat :=
  ((contentOf? reader n).getD []).length

/-- Whether an element is a location of hexadecimal text that can be read, in the sector of its patch. -/
structure HexLocation (reader : Reader) (n : Node) : Prop where
  noFile : n.attr? "file" = none
  noSector : n.attr? "sector" = none
  noPlaces : compactAttr n "specific" = []
  notAssembly : modeOf n ≠ some "asm"
  content : (contentOf? reader n).isSome

instance (reader : Reader) (n : Node) : Decidable (HexLocation reader n) :=
  decidable_of_iff (n.attr? "file" = none ∧ n.attr? "sector" = none ∧ compactAttr n "specific" = [] ∧
      modeOf n ≠ some "asm" ∧ (contentOf? reader n).isSome)
    ⟨fun ⟨hfile, hsector, hplaces, hmode, hcontent⟩ => ⟨hfile, hsector, hplaces, hmode, hcontent⟩,
      fun h => ⟨h.noFile, h.noSector, h.noPlaces, h.notAssembly, h.content⟩⟩

/-- What is known of the segment of a location at an offset. -/
structure SegmentOf (reader : Reader) (sector : Sector) (n : Node) (start : Nat) (sequential : Bool) (s : Segment) :
    Prop where
  sector : s.sector = sector
  offset : s.offset.toNat = start
  isChained : s.isChained = sequential
  length : s.bytes.length = roomFor reader n

variable {n : Node} {patch : String} {included own : List Segment} {vars : List Variable} {s : Segment}

/-- A location is read whatever labels are known, and takes the same room. -/
theorem HexLocation.exists_segmentAt (hassembler : reader.assembler = directives) (h : HexLocation reader n) :
    ∃ wish, readWish reader n = .ok wish ∧ ∀ symbols sequential place, ∃ s,
      segmentAt reader patch symbols wish sequential place = .ok s ∧
        SegmentOf reader place.sector n place.offset.toNat sequential s := by
  obtain ⟨bytes, hbytes⟩ := Option.isSome_iff_exists.1 h.content
  have hroom : roomFor reader n = bytes.length := by rw [roomFor, hbytes, Option.getD_some]
  obtain ⟨wish, hwish, hbytes⟩ := Option.bind_eq_some_iff.1 hbytes
  rw [toOption_eq_some_iff] at hwish
  have hassembly : wish.isAssembly = false := by
    rw [(wishRead_of_readWish hwish).isAssembly, decide_eq_false h.notAssembly]
  refine ⟨wish, hwish, fun symbols sequential place => ?_⟩
  cases hlabels : wish.hasLabels with
  | false =>
    rw [hlabels] at hbytes
    have hbytes : Bytes.ofHex? wish.content = some bytes := hbytes
    refine ⟨{ bareSegment wish sequential place with bytes }, ?_, rfl, rfl, rfl, hroom.symm⟩
    rw [segmentAt_plain hassembly hlabels, hexContent_of_ofHex? hbytes]
    rfl
  | true =>
    rw [hlabels] at hbytes
    have hlength := length_ofHex?_fillLabels wish.content symbols Symbols.empty
    rw [show Bytes.ofHex? (fillLabels wish.content Symbols.empty) = some bytes from hbytes] at hlength
    obtain ⟨filled, hfilled, hsame⟩ := Option.map_eq_some_iff.1 hlength
    refine ⟨{ bareSegment wish sequential place with bytes := filled, labelledHex? := some wish.content }, ?_, rfl, rfl,
      rfl, hsame.trans hroom.symm⟩
    rw [segmentAt_labelled hassembly hlabels, hassembler]
    show (hexContent patch (fillLabels wish.content symbols)).map _ = _
    rw [hexContent_of_ofHex? hfilled]
    rfl

theorem HexLocation.sectorOf (h : HexLocation reader n) (previous : Option Previous) :
    sectorOf reader.space n (some sector) previous = .ok sector := by
  unfold Description.sectorOf namedSector
  rw [h.noFile, h.noSector]
  rfl

theorem HexLocation.readLocation_eq (h : HexLocation reader n) :
    readLocation reader patch (some sector) included vars own n = (do
      let spot ← placement reader.space n (some sector) (own.getLast?.map endOfSegment) (alignment n 0)
      let wish ← readWish reader n
      spot.places.foldlM (fun own place => do
        let s ← segmentAt reader patch (symbolsOf (included ++ own) vars) wish spot.sequential place
        return own ++ [s]) own) := by
  unfold readLocation
  rw [if_neg h.notAssembly]

/-- A location at a single place. -/
theorem HexLocation.exists_readLocation (hassembler : reader.assembler = directives) (h : HexLocation reader n)
    {place : Place} {sequential : Bool}
    (hplace : placement reader.space n (some sector) (own.getLast?.map endOfSegment) (alignment n 0) =
      .ok ⟨[place], sequential⟩) :
    ∃ s, readLocation reader patch (some sector) included vars own n = .ok (own ++ [s]) ∧
      SegmentOf reader place.sector n place.offset.toNat sequential s := by
  obtain ⟨wish, hwish, hsegment⟩ := h.exists_segmentAt hassembler
  obtain ⟨s, hs, hgiven⟩ := hsegment (symbolsOf (included ++ own) vars) sequential place
  refine ⟨s, ?_, hgiven⟩
  rw [h.readLocation_eq, hplace, ok_bind, hwish, ok_bind, List.foldlM_cons, hs]
  rfl

theorem HexLocation.entries (h : HexLocation reader n) :
    entries reader.space n (some sector) = .ok [] := by
  unfold Description.entries
  rw [h.noPlaces]

/-- A location with one offset of its own. -/
theorem HexLocation.readLocation_start (hassembler : reader.assembler = directives) (h : HexLocation reader n)
    {digits : List Char} {word : UInt32} (hone : (compactAttr n "offset").splitOn ',' = [digits])
    (hword : hexWord? (String.ofList digits) = some word) :
    ∃ s, readLocation reader patch (some sector) included vars own n = .ok (own ++ [s]) ∧
      SegmentOf reader sector n
        (if countsInRam n then reader.space.toFile sector word else word).toNat false s := by
  let place := (if countsInRam n then placeOfRam reader.space else placeOfFile reader.space) sector word
  have hplace : placement reader.space n (some sector) (own.getLast?.map endOfSegment) (alignment n 0) =
      .ok ⟨[place], false⟩ := by
    have hnumber : hexNumber .offset (String.ofList digits) = .ok word := by
      unfold hexNumber
      rw [hword]
    unfold placement
    rw [h.entries, ok_bind]
    cases hoffset : compactAttr n "offset" with
    | nil =>
      rw [hoffset] at hone
      cases hone
      cases hword
    | cons c cs =>
      rw [hoffset] at hone
      dsimp only
      rw [hone, List.mapM_cons, hnumber, ok_bind, List.mapM_nil, h.sectorOf]
      rfl
  obtain ⟨s, hread, hs⟩ := h.exists_readLocation hassembler hplace
  refine ⟨s, hread, ?_⟩
  by_cases hram : countsInRam n = true
  · simpa [place, hram, placeOfRam] using hs
  · simpa [place, hram, placeOfFile] using hs

/-- A location without an offset, behind a segment. -/
theorem HexLocation.readLocation_follows (hassembler : reader.assembler = directives) (h : HexLocation reader n)
    (htag : n.tag = "Location") (hnone : compactAttr n "offset" = []) {start : Nat} (hstart : FirstFrom n s.stop start)
    (patch : String) (sector : Sector) (included own : List Segment) (vars : List Variable) :
    (maxWord < start → readLocation reader patch (some sector) included vars (own ++ [s]) n =
      .error (.address (.pastRange "Location"))) ∧
    (start ≤ maxWord → ∃ t, readLocation reader patch (some sector) included vars (own ++ [s]) n =
      .ok (own ++ [s] ++ [t]) ∧ SegmentOf reader sector n start (decide (start = s.stop)) t) := by
  have hlast : (own ++ [s]).getLast?.map endOfSegment = some (endOfSegment s) := by rw [List.getLast?_concat]; rfl
  have hchained := chainedOffset_of_firstFrom n.tag (show FirstFrom n (endOfSegment s).stop start from hstart)
  have hplace : placement reader.space n (some sector) ((own ++ [s]).getLast?.map endOfSegment) (alignment n 0) =
      if start ≤ maxWord then
        .ok ⟨[placeOfFile reader.space sector (UInt32.ofNat start)], decide (start = s.stop)⟩
      else .error (.address (.pastRange "Location")) := by
    unfold placement
    rw [hlast, h.entries, ok_bind, hnone]
    dsimp only
    rw [hchained, htag]
    split
    · simp only [h.sectorOf, ok_bind]
      rfl
    · rfl
  constructor
  · intro hpast
    rw [if_neg (by omega)] at hplace
    rw [h.readLocation_eq, hplace]
    rfl
  · intro hle
    rw [if_pos hle] at hplace
    obtain ⟨t, hread, ht⟩ := h.exists_readLocation hassembler hplace
    have hstart : (UInt32.ofNat start).toNat = start := UInt32.toNat_ofNat_of_lt' (Nat.lt_succ_of_le hle)
    refine ⟨t, hread, ?_⟩
    have ht : SegmentOf reader sector n (UInt32.ofNat start).toNat (decide (start = s.stop)) t := ht
    rwa [hstart] at ht

/-! ## Locations in a row -/

/-- The starts of locations, each as far behind the one before as its alignment takes it, without any bound. -/
inductive LaidOut (reader : Reader) : Nat → List Node → List Nat → Prop where
  | nil (stop : Nat) : LaidOut reader stop [] []
  | cons {stop start : Nat} {n : Node} {nodes : List Node} {starts : List Nat} (first : FirstFrom n stop start)
    (rest : LaidOut reader (start + roomFor reader n) nodes starts) :
    LaidOut reader stop (n :: nodes) (start :: starts)

theorem exists_laidOut (reader : Reader) (stop : Nat) (nodes : List Node) :
    ∃ starts, LaidOut reader stop nodes starts := by
  induction nodes generalizing stop with
  | nil => exact ⟨[], .nil stop⟩
  | cons n nodes ih =>
    obtain ⟨start, hstart⟩ := exists_firstFrom n stop
    obtain ⟨starts, hstarts⟩ := ih (start + roomFor reader n)
    exact ⟨start :: starts, .cons hstart hstarts⟩

/-- Segments of locations behind the offset `stop`: each starts at the first offset where it can from the end of the
one before on, and is chained to that one exactly where it starts at its end. -/
inductive ChainedFrom (reader : Reader) (sector : Sector) : Nat → List Node → List Segment → Prop where
  | nil (stop : Nat) : ChainedFrom reader sector stop [] []
  | cons {stop : Nat} {n : Node} {nodes : List Node} {s : Segment} {ss : List Segment}
    (first : FirstFrom n stop s.offset.toNat)
    (segment : SegmentOf reader sector n s.offset.toNat (decide (s.offset.toNat = stop)) s)
    (rest : ChainedFrom reader sector s.stop nodes ss) : ChainedFrom reader sector stop (n :: nodes) (s :: ss)

/-- Locations without offsets are read one behind the other, up to one that would start past the last offset. -/
theorem readAll_follows (hassembler : reader.assembler = directives) {nodes : List Node}
    (h : ∀ n ∈ nodes, n.tag = "Location" ∧ HexLocation reader n ∧ compactAttr n "offset" = []) {stop : Nat}
    {starts : List Nat} (hlaid : LaidOut reader stop nodes starts) (own : List Segment) (hstop : s.stop = stop) :
    ((∃ start ∈ starts, maxWord < start) →
      nodes.foldlM (readLocation reader patch (some sector) included vars) (own ++ [s]) =
        .error (.address (.pastRange "Location"))) ∧
    ((∀ start ∈ starts, start ≤ maxWord) → ∃ more,
      nodes.foldlM (readLocation reader patch (some sector) included vars) (own ++ [s]) = .ok (own ++ s :: more) ∧
        ChainedFrom reader sector stop nodes more) := by
  induction hlaid generalizing own s with
  | nil => exact ⟨fun ⟨_, hmem, _⟩ => (nomatch hmem), fun _ => ⟨[], rfl, .nil _⟩⟩
  | @cons stop start n nodes starts first rest ih =>
    obtain ⟨⟨htag, hlocation, hnone⟩, hnodes⟩ := List.forall_mem_cons.1 h
    rw [← hstop] at first
    obtain ⟨hpast, hfits⟩ :=
      hlocation.readLocation_follows hassembler htag hnone first patch sector included own vars
    rw [List.foldlM_cons]
    rcases Nat.lt_or_ge maxWord start with hlt | hle
    · refine ⟨fun _ => ?_, fun hall => absurd (hall start (List.mem_cons_self ..)) (by omega)⟩
      rw [hpast hlt]
      rfl
    · obtain ⟨t, hread, ht⟩ := hfits hle
      have htstop : t.stop = start + roomFor reader n := by rw [Segment.stop, ht.offset, ht.length]
      obtain ⟨hbad, hgood⟩ := ih hnodes (own ++ [s]) htstop
      rw [hread, ok_bind]
      constructor
      · rintro ⟨m, hm, hlt⟩
        refine hbad ⟨m, ?_, hlt⟩
        rcases List.mem_cons.1 hm with rfl | hm
        · omega
        · exact hm
      · intro hall
        obtain ⟨more, hmore, hchained⟩ := hgood (List.forall_mem_cons.1 hall).2
        refine ⟨t :: more, ?_, ?_⟩
        · rw [hmore, List.append_assoc]
          rfl
        · rw [← ht.offset, hstop] at first
          rw [← htstop] at hchained
          refine .cons first ?_ hchained
          rw [← ht.offset, hstop] at ht
          exact ht

/-! ## The last encoding -/

/-- Where a segment lies. -/
def outline (s : Segment) : Sector × UInt32 × Bool × Nat :=
  (s.sector, s.offset, s.isChained, s.bytes.length)

/-- The last encoding refuses no segment without source, and leaves it where it is. -/
theorem ReadBehind.exists_outline (hassembler : reader.assembler = directives)
    (hs : ReadBehind reader patch included vars own s) (hnone : s.assembly? = none) (symbols : Symbols) :
    ∃ s', Description.finish reader patch symbols s = .ok s' ∧ outline s' = outline s := by
  obtain ⟨s', hfinish, -⟩ := hs.exists_finish hassembler symbols
  have hkeeps := (keeps_finish hfinish).segment
  have hassembly : s'.assembly? = none := by rw [hkeeps, hnone]
  have hlength := (hs.finish hassembler hfinish).2 hassembly
  refine ⟨s', hfinish, ?_⟩
  unfold outline
  rw [hlength, hkeeps]

/-- Locations without source that were read with the labels in front of them are read, and stay where they are. -/
theorem exists_readLocations_outline (hassembler : reader.assembler = directives) {standard : Option Sector}
    {nodes : List Node} (h : nodes.foldlM (readLocation reader patch standard included vars) [] = .ok own)
    (hplain : ∀ n ∈ nodes, modeOf n ≠ some "asm") :
    ∃ own', readLocations reader patch standard included vars nodes = .ok own' ∧ own'.map outline = own.map outline ∧
      ∀ s ∈ own', s.source = .inline := by
  have hinline : ∀ s ∈ own, s.source = .inline ∧ s.assembly? = none := by
    refine readAll_induction (fun n hn _ _ wish _ hwish _ _ s hs => ⟨hs.inline, ?_⟩) h
    have hassembly : wish.isAssembly = false := by
      rw [(wishRead_of_readWish hwish).isAssembly, decide_eq_false (hplain n hn)]
    simpa [hassembly] using hs.isAssembly
  unfold readLocations
  rw [h, ok_bind]
  obtain ⟨own', hown', hsame⟩ := exists_mapM_iff.2 fun s hs => by
    obtain ⟨before, after, hsplit⟩ := List.append_of_mem hs
    exact (eachBehind_of_readAll h before s after hsplit).exists_outline hassembler (hinline s hs).2
      (symbolsOf (included ++ own) vars)
  refine ⟨own', hown', hsame, fun s hs => ?_⟩
  obtain ⟨s₀, hs₀, hfinish⟩ := mem_of_mapM_eq_ok hown' hs
  rw [(keeps_finish hfinish).segment]
  exact (hinline s₀ hs₀).1

theorem stop_of_outline {s s' : Segment} (h : outline s' = outline s) : s'.stop = s.stop := by
  simp only [outline, Prod.mk.injEq] at h
  rw [Segment.stop, Segment.stop, h.2.1, h.2.2.2]

theorem SegmentOf.of_outline {start : Nat} {sequential : Bool} {s s' : Segment}
    (hs : SegmentOf reader sector n start sequential s) (h : outline s' = outline s) :
    SegmentOf reader sector n start sequential s' := by
  simp only [outline, Prod.mk.injEq] at h
  obtain ⟨hsector, hoffset, hchained, hlength⟩ := h
  exact ⟨hsector.trans hs.sector, hoffset ▸ hs.offset, hchained.trans hs.isChained, hlength.trans hs.length⟩

theorem ChainedFrom.of_outline {stop : Nat} {nodes : List Node} {ss ss' : List Segment}
    (hss : ChainedFrom reader sector stop nodes ss) (h : ss'.map outline = ss.map outline) :
    ChainedFrom reader sector stop nodes ss' := by
  induction hss generalizing ss' with
  | nil stop =>
    obtain rfl := List.map_eq_nil_iff.1 h
    exact .nil stop
  | @cons stop n nodes s ss first segment rest ih =>
    obtain ⟨s', ss', rfl, hs, hss⟩ := List.map_eq_cons_iff.1 h
    have hsame : s'.offset = s.offset := (Prod.mk.inj (Prod.mk.inj hs).2).1
    rw [← hsame] at first segment
    refine .cons first (segment.of_outline hs) ?_
    rw [stop_of_outline hs]
    exact ih hss

/-! ## No overlaps -/

theorem ChainedFrom.le_offset {stop : Nat} {nodes : List Node} {ss : List Segment}
    (h : ChainedFrom reader sector stop nodes ss) : ∀ s ∈ ss, stop ≤ s.offset.toNat := by
  induction h with
  | nil => exact List.forall_mem_nil _
  | @cons stop n nodes s ss first segment rest ih =>
    have hle : stop ≤ s.offset.toNat := first.1.2
    refine List.forall_mem_cons.2 ⟨hle, fun t ht => ?_⟩
    have := ih t ht
    unfold Segment.stop at this
    omega

/-- Each segment ends where or before any later one starts. -/
theorem ChainedFrom.pairwise {stop : Nat} {nodes : List Node} {ss : List Segment}
    (h : ChainedFrom reader sector stop nodes ss) : ss.Pairwise fun s t => s.stop ≤ t.offset.toNat := by
  induction h with
  | nil => exact .nil
  | cons first segment rest ih => exact .cons rest.le_offset ih

/-! ## Runs -/

/-- Whether a write is that of a segment that continues none and of those that are chained to it. -/
def JoinedFrom (group : List Segment) (e : Edit) : Prop :=
  ∃ s more, group = s :: more ∧ s.isChained = false ∧ (∀ t ∈ more, t.isChained = true) ∧
    e = ⟨s.sector, s.offset, group.flatMap (·.bytes)⟩

/-- The run so far takes the segments that are chained to it, and those behind them make runs of their own. -/
theorem ChainedFrom.exists_runs {stop : Nat} {nodes : List Node} {ss : List Segment}
    (h : ChainedFrom reader sector stop nodes ss) (run : Edit) (hsector : run.sector = sector)
    (hstop : run.stop = stop) :
    ∃ joined groups edits, ss = joined ++ groups.flatten ∧ (∀ s ∈ joined, s.isChained = true) ∧
      runs (some run) ss = { run with bytes := run.bytes ++ joined.flatMap (·.bytes) } :: edits ∧
      List.Forall₂ JoinedFrom groups edits := by
  induction h generalizing run with
  | nil => exact ⟨[], [], [], rfl, List.forall_mem_nil _, by simp [runs], .nil⟩
  | @cons stop n nodes s ss first segment rest ih =>
    by_cases hmeets : s.offset.toNat = stop
    · have hchained : s.isChained = true := by rw [segment.isChained, decide_eq_true hmeets]
      have hlonger : Edit.stop { run with bytes := run.bytes ++ s.bytes } = s.stop := by
        simp only [Edit.stop, Segment.stop, List.length_append] at hstop ⊢
        omega
      obtain ⟨joined, groups, edits, rfl, hjoined, hruns, hedits⟩ :=
        ih { run with bytes := run.bytes ++ s.bytes } hsector hlonger
      refine ⟨s :: joined, groups, edits, rfl, List.forall_mem_cons.2 ⟨hchained, hjoined⟩, ?_, hedits⟩
      rw [runs, if_pos ⟨hchained, hsector.trans segment.sector.symm, by omega⟩, hruns]
      simp
    · have hchained : s.isChained = false := by rw [segment.isChained, decide_eq_false hmeets]
      obtain ⟨joined, groups, edits, rfl, hjoined, hruns, hedits⟩ := ih s.toEdit segment.sector rfl
      have hgroup : JoinedFrom (s :: joined) ⟨s.sector, s.offset, (s :: joined).flatMap (·.bytes)⟩ :=
        ⟨s, joined, rfl, hchained, hjoined, rfl⟩
      refine ⟨[], (s :: joined) :: groups, _, rfl, List.forall_mem_nil _, ?_, .cons hgroup hedits⟩
      rw [runs, if_neg (by simp [hchained]), hruns]
      simp [Segment.toEdit]

/-- A first segment that continues none, and those behind it, make one run for each group of chained segments. -/
theorem ChainedFrom.exists_groups {s : Segment} {nodes : List Node} {ss : List Segment}
    (h : ChainedFrom reader sector s.stop nodes ss) (hsector : s.sector = sector) (hchained : s.isChained = false) :
    ∃ groups, groups.flatten = s :: ss ∧ List.Forall₂ JoinedFrom groups (runs none (s :: ss)) := by
  obtain ⟨joined, groups, edits, rfl, hjoined, hruns, hedits⟩ := h.exists_runs s.toEdit hsector rfl
  have hgroup : JoinedFrom (s :: joined) ⟨s.sector, s.offset, (s :: joined).flatMap (·.bytes)⟩ :=
    ⟨s, joined, rfl, hchained, hjoined, rfl⟩
  refine ⟨(s :: joined) :: groups, rfl, ?_⟩
  rw [runs, hruns]
  exact .cons hgroup hedits

theorem mergedEdits_of_inline {p : Patch} (h : ∀ s ∈ p.segments, s.source = .inline) (hvars : p.vars = []) :
    p.mergedEdits = runs none p.segments := by
  have hown : p.segments.filter (!·.takesFile) = p.segments := by
    refine List.filter_eq_self.2 fun s hs => ?_
    simp [Segment.takesFile, Segment.expected?, h s hs]
  rw [mergedEdits, hown, hvars, List.flatMap_nil, List.append_nil]

/-! ## Patches -/

/-- Whether a patch element has a sector and locations of hexadecimal text only, of which the first has an offset of its
own and the others have none. -/
structure HexPatch (reader : Reader) (sector : Sector) (n first : Node) (rest : List Node) (word : UInt32) : Prop where
  sector : namedSector reader.space n = .ok (some sector)
  includes : n.elements "Include" = []
  vars : n.elements "Variable" = []
  streams : n.elements "STRLocation" = []
  locations : n.elements "Location" = first :: rest
  offset : ∃ digits, (compactAttr first "offset").splitOn ',' = [digits] ∧
    hexWord? (String.ofList digits) = some word
  first : HexLocation reader first
  rest : ∀ location ∈ rest, HexLocation reader location ∧ compactAttr location "offset" = []

/-- Where the first location starts: at its number, or at the offset of the RAM address that it is. -/
def startOf (reader : Reader) (sector : Sector) (first : Node) (word : UInt32) : Nat :=
  (if countsInRam first then reader.space.toFile sector word else word).toNat

theorem tag_of_mem_elements {n location : Node} {tag : String} (h : location ∈ n.elements tag) :
    location.tag = tag := by
  have htag : location.tag? = some tag := by simpa [Node.elements] using (List.mem_filter.1 h).2
  rw [Node.tag, htag, Option.getD_some]

variable {first : Node} {rest : List Node} {word : UInt32} {starts : List Nat}

theorem HexPatch.readAll (hassembler : reader.assembler = directives) (h : HexPatch reader sector n first rest word)
    (hlaid : LaidOut reader (startOf reader sector first word + roomFor reader first) rest starts) (patch : String)
    (included : List Segment) (vars : List Variable) :
    ((∃ start ∈ starts, maxWord < start) →
      (n.elements "Location").foldlM (readLocation reader patch (some sector) included vars) [] =
        .error (.address (.pastRange "Location"))) ∧
    ((∀ start ∈ starts, start ≤ maxWord) → ∃ s ss,
      (n.elements "Location").foldlM (readLocation reader patch (some sector) included vars) [] = .ok (s :: ss) ∧
        SegmentOf reader sector first (startOf reader sector first word) false s ∧
        ChainedFrom reader sector s.stop rest ss) := by
  obtain ⟨digits, hone, hword⟩ := h.offset
  obtain ⟨s, hread, hs⟩ := h.first.readLocation_start hassembler hone hword
  have hstop : s.stop = startOf reader sector first word + roomFor reader first := by
    rw [Segment.stop, hs.offset, hs.length, startOf]
  have hrest : ∀ location ∈ rest, location.tag = "Location" ∧ HexLocation reader location ∧
      compactAttr location "offset" = [] := by
    intro location hlocation
    have hmem : location ∈ n.elements "Location" := by
      rw [h.locations]
      exact List.mem_cons_of_mem _ hlocation
    exact ⟨tag_of_mem_elements hmem, h.rest location hlocation⟩
  rw [← hstop] at hlaid
  rw [h.locations, List.foldlM_cons, hread, ok_bind]
  obtain ⟨hpast, hfits⟩ := readAll_follows hassembler hrest hlaid [] rfl
  refine ⟨hpast, fun hall => ?_⟩
  obtain ⟨ss, hss, hchained⟩ := hfits hall
  exact ⟨s, ss, hss, hs, hchained⟩

theorem HexPatch.notAssembly (h : HexPatch reader sector n first rest word) :
    ∀ location ∈ n.elements "Location", modeOf location ≠ some "asm" := by
  rw [h.locations]
  exact List.forall_mem_cons.2 ⟨h.first.notAssembly, fun location hl => (h.rest location hl).1.notAssembly⟩

/-- A patch of such locations is its locations, all with bytes of their own, once its element has a name. -/
theorem HexPatch.readPatch_eq (h : HexPatch reader sector n first rest word) (heading : Heading)
    (earlier : List Patch) :
    readPatch reader heading earlier n = (do
      let title ← titleOf n
      let own ← readLocations reader title.1 (some sector) [] [] (n.elements "Location")
      (draftOf heading n title [] own).build) := by
  unfold readPatch
  rw [includedPatches_eq_nil h.includes, h.streams, h.vars, h.sector]
  refine bind_congr fun title => ?_
  show (readLocations reader title.1 (some sector) [] [] (n.elements "Location") >>= fun own =>
    ({ draftOf heading n title [] own with segments := [] ++ own ++ [] } : Draft).build) = _
  refine bind_congr fun own => ?_
  rw [List.append_nil, List.nil_append]
  rfl

/-- A patch of locations of hexadecimal text, with a sector of its own. It is refused for an address exactly where a
location would start past the last offset. Else each location starts at the first multiple of its alignment from the
end of the one before on and is chained exactly where that is the end, none overlaps a later one, and each run of
chained segments is one write. -/
theorem readPatch_hex (hassembler : reader.assembler = directives) (h : HexPatch reader sector n first rest word)
    (heading : Heading) (earlier : List Patch) :
    (n.attr? "name" = none →
      readPatch reader heading earlier n = .error (.description (.missingAttribute n.tag "name"))) ∧
    ∀ name, n.attr? "name" = some name →
      ∃ starts, LaidOut reader (startOf reader sector first word + roomFor reader first) rest starts ∧
        (readPatch reader heading earlier n = .error (.address (.pastRange "Location")) ↔
          ∃ start ∈ starts, maxWord < start) ∧
        ((∀ start ∈ starts, start ≤ maxWord) → ∃ p s ss, readPatch reader heading earlier n = .ok p ∧
          p.segments = s :: ss ∧ SegmentOf reader sector first (startOf reader sector first word) false s ∧
          ChainedFrom reader sector s.stop rest ss ∧
          p.segments.Pairwise (fun s t => s.stop ≤ t.offset.toNat) ∧
          ∃ groups, groups.flatten = p.segments ∧ List.Forall₂ JoinedFrom groups p.mergedEdits) := by
  constructor
  · intro hname
    have htitle : titleOf n = .error (.description (.missingAttribute n.tag "name")) := by
      unfold titleOf required
      rw [hname]
      rfl
    rw [h.readPatch_eq, htitle]
    rfl
  · intro name hname
    obtain ⟨description, htitle⟩ := titleOf_of_name hname
    obtain ⟨starts, hlaid⟩ := exists_laidOut reader (startOf reader sector first word + roomFor reader first) rest
    have hread : readPatch reader heading earlier n = (do
        let own ← readLocations reader name (some sector) [] [] (n.elements "Location")
        (draftOf heading n (name, description) [] own).build) := by
      rw [h.readPatch_eq, htitle]
      rfl
    obtain ⟨hpast, hfits⟩ := h.readAll hassembler hlaid name [] []
    have hgood : (∀ start ∈ starts, start ≤ maxWord) → ∃ p s ss, readPatch reader heading earlier n = .ok p ∧
        p.segments = s :: ss ∧ SegmentOf reader sector first (startOf reader sector first word) false s ∧
        ChainedFrom reader sector s.stop rest ss ∧
        p.segments.Pairwise (fun s t => s.stop ≤ t.offset.toNat) ∧
        ∃ groups, groups.flatten = p.segments ∧ List.Forall₂ JoinedFrom groups p.mergedEdits := by
      intro hall
      obtain ⟨s, ss, hown, hs, hss⟩ := hfits hall
      obtain ⟨own', hown', hsame, hinline⟩ := exists_readLocations_outline hassembler hown h.notAssembly
      obtain ⟨s', ss', rfl, hs', hss'⟩ := List.map_eq_cons_iff.1 hsame
      have hs := hs.of_outline hs'
      have hss := hss.of_outline hss'
      rw [← stop_of_outline hs'] at hss
      let p := (draftOf heading n (name, description) [] (s' :: ss')).patch
      have hmerged : p.mergedEdits = runs none (s' :: ss') := mergedEdits_of_inline hinline rfl
      refine ⟨p, s', ss', ?_, rfl, hs, hss, .cons hss.le_offset hss.pairwise, ?_⟩
      · rw [hread, hown', ok_bind]
        rfl
      · rw [hmerged]
        exact hss.exists_groups hs.sector hs.isChained
    refine ⟨starts, hlaid, ⟨fun herror => ?_, fun hbad => ?_⟩, hgood⟩
    · by_contra hnone
      push Not at hnone
      obtain ⟨p, _, _, hp, -⟩ := hgood hnone
      rw [hp] at herror
      cases herror
    · rw [hread, readLocations, hpast hbad]
      rfl

/-- A location with attributes and hexadecimal text. -/
def hexElement (attributes : List (String × String)) (content : String) : Node :=
  .element (.plain "Location") (attributes.map fun (key, value) => ⟨.plain key, value⟩) [.text content]

/-- A patch element with the first file of the disc for its sector. -/
def patchElement (locations : List Node) : Node :=
  .element (.plain "Patch") [⟨.plain "name", "x"⟩, ⟨.plain "sector", "18"⟩] locations

/-- Behind a location of two bytes at `0x800`: one of a label, an empty one that is aligned, and one that is aligned
there already. -/
def lowRest : List Node :=
  [hexElement [("replaceLabels", "true")] "@x", hexElement [("align", "8")] "", hexElement [("align", "8")] "FF"]

/-- A location at the last offset, and an empty one behind it. -/
def highPatch : Node :=
  patchElement [hexElement [("offset", "FFFFFFFF")] "01", hexElement [] ""]

theorem hexPatch_high : HexPatch plainReader ⟨.psx, 24⟩ highPatch (hexElement [("offset", "FFFFFFFF")] "01")
    [hexElement [] ""] 0xFFFFFFFF :=
  ⟨by decide +kernel, rfl, rfl, rfl, rfl, ⟨"FFFFFFFF".toList, by decide +kernel, by decide +kernel⟩,
    by decide +kernel, by decide +kernel⟩

def lowPatch : Node :=
  patchElement (hexElement [("offset", "800")] "01 02" :: lowRest)

theorem hexPatch_low :
    HexPatch plainReader ⟨.psx, 24⟩ lowPatch (hexElement [("offset", "800")] "01 02") lowRest 0x800 :=
  ⟨by decide +kernel, rfl, rfl, rfl, rfl, ⟨"800".toList, by decide +kernel, by decide +kernel⟩, by decide +kernel,
    by decide +kernel⟩

/-- The last two locations of the one patch meet at the aligned offset, so there are two writes; behind a byte at the
last offset there is no room for the other patch, not even for an empty location. -/
theorem readPatch_hex_low_and_high :
    (∃ p s ss, readPatch plainReader ⟨"a.xml", false, false⟩ [] lowPatch = .ok p ∧
      p.segments = s :: ss ∧ ChainedFrom plainReader ⟨.psx, 24⟩ s.stop lowRest ss ∧
      p.segments.map (fun s => (s.offset, s.isChained)) =
        [(0x800, false), (0x802, true), (0x808, false), (0x808, true)] ∧
      p.mergedEdits = [⟨⟨.psx, 24⟩, 0x800, [1, 2, 0, 0, 0, 0]⟩, ⟨⟨.psx, 24⟩, 0x808, [0xFF]⟩]) ∧
    readPatch plainReader ⟨"a.xml", false, false⟩ [] highPatch = .error (.address (.pastRange "Location")) := by
  constructor
  · have hfound : (readPatch plainReader ⟨"a.xml", false, false⟩ [] lowPatch).toOption.any fun p => decide (
        p.segments.map (fun s => (s.offset, s.isChained)) =
          [(0x800, false), (0x802, true), (0x808, false), (0x808, true)] ∧
        p.mergedEdits = [⟨⟨.psx, 24⟩, 0x800, [1, 2, 0, 0, 0, 0]⟩, ⟨⟨.psx, 24⟩, 0x808, [0xFF]⟩]) := by
      decide +kernel
    obtain ⟨p, hp, hfound⟩ := (Option.any_eq_true _ _).1 hfound
    have hp := toOption_eq_some_iff.1 hp
    obtain ⟨hoffsets, hmerged⟩ := of_decide_eq_true hfound
    obtain ⟨-, hread⟩ := readPatch_hex rfl hexPatch_low ⟨"a.xml", false, false⟩ []
    obtain ⟨starts, -, hrefused, hlaid⟩ := hread "x" (by decide)
    have hfits : ∀ start ∈ starts, start ≤ maxWord := by
      by_contra hpast
      push Not at hpast
      cases hp.symm.trans (hrefused.2 hpast)
    obtain ⟨q, s, ss, hq, hsegments, -, hchained, -⟩ := hlaid hfits
    cases hp.symm.trans hq
    exact ⟨p, s, ss, hp, hsegments, hchained, hoffsets, hmerged⟩
  · obtain ⟨-, hread⟩ := readPatch_hex rfl hexPatch_high ⟨"a.xml", false, false⟩ []
    obtain ⟨starts, hlaid, hrefused, -⟩ := hread "x" (by decide)
    refine hrefused.2 ?_
    cases hlaid with
    | @cons _ start _ _ _ first rest =>
      have hroom : startOf plainReader ⟨.psx, 24⟩ (hexElement [("offset", "FFFFFFFF")] "01") 0xFFFFFFFF +
          roomFor plainReader (hexElement [("offset", "FFFFFFFF")] "01") = maxWord + 1 := by decide +kernel
      have hle := first.1.2
      exact ⟨start, List.mem_cons_self .., by omega⟩

end DiscPatch.Description
