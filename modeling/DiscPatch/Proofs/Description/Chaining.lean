/-
Where locations continue each other. A location that continues the one before starts behind the bytes which
that one had while only the labels in front of it were known. Given bytes keep their number when all labels are
known, assembly source need not.
-/
import DiscPatch.Proofs.Assembly.HexLabels
import DiscPatch.Proofs.Description.RoundTrip
import DiscPatch.Proofs.Patch.LabelReference

namespace DiscPatch.Description

open Text Xml Patch Assembly

variable {reader : Reader} {patch : String} {included own : List Segment} {vars : List Variable} {s s' : Segment}

/-! ## Labels in hexadecimal text -/

/-- Whether the text of a segment gives as many bytes with any symbols as the segment has, if it has labels in it. -/
def HexSized (s : Segment) : Prop :=
  ∀ source, s.labelledHex? = some source → ∀ symbols,
    ∃ bytes, Bytes.ofHex? (fillLabels source symbols) = some bytes ∧ bytes.length = s.bytes.length

/-- With other addresses for its labels, a text can still be read and has as many bytes. -/
theorem HexSized.relabel (hassembler : reader.assembler = directives) (h : HexSized s) (patch : String)
    (symbols : Symbols) : ∃ s', relabel reader patch symbols s = .ok s' ∧ s'.bytes.length = s.bytes.length := by
  unfold Description.relabel
  split
  · rename_i source hsource
    split
    · exact ⟨s, rfl, rfl⟩
    · obtain ⟨bytes, hbytes, hlength⟩ := h source hsource symbols
      have hcontent : hexContent patch (reader.assembler.fillLabels source symbols) = .ok bytes := by
        rw [hassembler]
        exact hexContent_of_ofHex? hbytes patch
      rw [hcontent]
      exact ⟨{ s with bytes }, rfl, hlength⟩
  · exact ⟨s, rfl, rfl⟩

/-! ## The first encoding -/

/-- Whether a segment was read behind the segments `own` of its patch and `included` ones of other patches. -/
structure ReadBehind (reader : Reader) (patch : String) (included : List Segment) (vars : List Variable)
    (own : List Segment) (s : Segment) : Prop where
  assembly : ∀ source, s.assembly? = some source →
    s.bytes = (reader.assembler.encode ((symbolsOf (included ++ own) vars).prepend source) s.ram).bytes
  labelled : ∀ source, s.labelledHex? = some source →
    hexContent patch (reader.assembler.fillLabels source (symbolsOf (included ++ own) vars)) = .ok s.bytes
  exclusive : s.labelledHex?.isSome → s.assembly? = none
  chained : s.isChained → ∃ previous, own.getLast? = some previous ∧ s.offset.toNat = previous.stop

theorem readBehind_of_segmentAt {wish : Wish} {sequential : Bool} {place : Place}
    (hsequential : sequential → ∃ previous, own.getLast? = some previous ∧ place.offset.toNat = previous.stop)
    (h : segmentAt reader patch (symbolsOf (included ++ own) vars) wish sequential place = .ok s) :
    ReadBehind reader patch included vars own s := by
  cases hassembly : wish.isAssembly with
  | true =>
    rw [segmentAt_assembly hassembly] at h
    cases h
    refine ⟨fun source hsource => ?_, fun source hsource => ?_, fun hlabelled => ?_, hsequential⟩
    · cases hsource
      rfl
    · cases hsource
    · cases hlabelled
  | false =>
    cases hlabels : wish.hasLabels with
    | true =>
      rw [segmentAt_labelled hassembly hlabels] at h
      obtain ⟨bytes, hbytes, rfl⟩ := map_eq_ok h
      refine ⟨fun source hsource => ?_, fun source hsource => ?_, fun _ => rfl, hsequential⟩
      · cases hsource
      · cases hsource
        exact hbytes
    | false =>
      rw [segmentAt_plain hassembly hlabels] at h
      obtain ⟨bytes, hbytes, rfl⟩ := map_eq_ok h
      refine ⟨fun source hsource => ?_, fun source hsource => ?_, fun _ => rfl, hsequential⟩
      · cases hsource
      · cases hsource

/-- Whether each segment of a list stands to those in front of it as asked. -/
def EachBehind (stands : List Segment → Segment → Prop) (own : List Segment) : Prop :=
  ∀ before s after, own = before ++ s :: after → stands before s

theorem EachBehind.snoc {stands : List Segment → Segment → Prop} (h : EachBehind stands own) (hs : stands own s) :
    EachBehind stands (own ++ [s]) := by
  intro before t after heq
  rcases List.eq_nil_or_concat after with rfl | ⟨front, last, rfl⟩
  · obtain ⟨rfl, hlast⟩ := List.append_inj' heq rfl
    cases hlast
    exact hs
  · have hsplit : own ++ [s] = (before ++ t :: front) ++ [last] := by simpa using heq
    exact h before t front (List.append_inj' hsplit rfl).1

/-- The first encoding reads each segment behind the ones in front of it. -/
theorem eachBehind_of_readAll {standard : Option Sector} {nodes : List Node}
    (h : nodes.foldlM (readLocation reader patch standard included vars) [] = .ok own) :
    EachBehind (ReadBehind reader patch included vars) own := by
  have hnone : EachBehind (ReadBehind reader patch included vars) [] := by
    intro before s after heq
    exact absurd heq (by simp)
  refine foldlM_induction (fun n _ own own' hown hread => ?_) hnone h
  obtain ⟨spot, wish, -, -, hread⟩ := readLocation_eq_ok hread
  refine hread _ hown fun own hown place _ s hsequential hs => ?_
  exact hown.snoc (readBehind_of_segmentAt hsequential hs)

/-! ## The last encoding -/

theorem bytes_check (reader : Reader) (s : Segment) : (check reader s).bytes = s.bytes := by
  unfold check
  split
  · rfl
  · dsimp only
    split <;> rfl

/-- What could be read with the labels in front can be read with any others. -/
theorem ReadBehind.hexSized (hassembler : reader.assembler = directives)
    (hs : ReadBehind reader patch included vars own s) : HexSized s := by
  intro source hsource symbols
  have hfirst := ofHex?_of_hexContent (hs.labelled source hsource)
  rw [hassembler] at hfirst
  have hlength := length_ofHex?_fillLabels source symbols (symbolsOf (included ++ own) vars)
  rw [show Bytes.ofHex? (fillLabels source (symbolsOf (included ++ own) vars)) = some s.bytes from hfirst] at hlength
  exact Option.map_eq_some_iff.1 hlength

/-- With all labels known, source is encoded again, and anything else keeps its number of bytes. -/
theorem ReadBehind.finish (hassembler : reader.assembler = directives)
    (hs : ReadBehind reader patch included vars own s) {symbols : Symbols}
    (h : finish reader patch symbols s = .ok s') :
    (∀ source, s'.assembly? = some source →
      s'.bytes = (directives.encode (symbols.prepend source) s'.ram).bytes) ∧
      (s'.assembly? = none → s'.bytes.length = s.bytes.length) := by
  have hkeeps := (keeps_finish h).segment
  have hassembly : s'.assembly? = s.assembly? := by rw [hkeeps]
  have hram : s'.ram = s.ram := by rw [hkeeps]
  obtain ⟨relabelled, hrelabel, h⟩ := bind_eq_ok h
  have hkept := (keeps_relabel hrelabel).segment
  have hassembly' : relabelled.assembly? = s.assembly? := by rw [hkept]
  have hram' : relabelled.ram = s.ram := by rw [hkept]
  cases h
  rw [hassembly, hram, bytes_check]
  unfold reassemble
  rw [hassembly', hram', hassembler]
  constructor
  · intro source hsource
    rw [hsource]
  · intro hnone
    rw [hnone]
    obtain ⟨again, hagain, hlength⟩ := (hs.hexSized hassembler).relabel hassembler patch symbols
    cases hagain.symm.trans hrelabel
    exact hlength

theorem symbolsOf_append_congr {front back back' : List Segment} (h : labelsOf back = labelsOf back')
    (vars : List Variable) : symbolsOf (front ++ back) vars = symbolsOf (front ++ back') vars := by
  have happend : ∀ l, labelsOf (front ++ l) = labelsOf front ++ labelsOf l := fun l => List.filterMap_append
  rw [symbolsOf_eq, symbolsOf_eq, happend, happend, h]

/-- The last encoding leaves the labels where they are. -/
theorem symbolsOf_finish {symbols : Symbols} {own' : List Segment}
    (h : own.mapM (finish reader patch symbols) = .ok own') :
    symbolsOf (included ++ own') vars = symbolsOf (included ++ own) vars := by
  have hlook : own'.map (fun s => (s.label?, s.ram)) = own.map fun s => (s.label?, s.ram) := by
    refine map_eq_map_of_mapM_eq_ok (fun s s' hs => ?_) h
    rw [(keeps_finish hs).segment]
  have hlabels := congrArg (List.filterMap fun look : Option String × UInt32 => look.1.map (·, look.2)) hlook
  rw [List.filterMap_map, List.filterMap_map] at hlabels
  exact symbolsOf_append_congr hlabels vars

/-! ## Segments that continue others -/

/-- How many bytes a segment has while only the labels of those in front of it are known. -/
def firstLength (vars : List Variable) (before : List Segment) (s : Segment) : Nat :=
  match s.assembly? with
  | some source => (directives.encode ((symbolsOf before vars).prepend source) s.ram).bytes.length
  | none => s.bytes.length

theorem ReadBehind.firstLength (hassembler : reader.assembler = directives)
    (hs : ReadBehind reader patch included vars own s) {symbols : Symbols}
    (h : Description.finish reader patch symbols s = .ok s') :
    firstLength vars (included ++ own) s' = s.bytes.length := by
  have hkeeps := (keeps_finish h).segment
  have hassembly : s'.assembly? = s.assembly? := by rw [hkeeps]
  have hram : s'.ram = s.ram := by rw [hkeeps]
  unfold Description.firstLength
  split
  · rename_i source hsource
    rw [hs.assembly source (hassembly.symm.trans hsource), hassembler, hram]
  · exact (hs.finish hassembler h).2 ‹_›

/-- A segment that continues the one before starts behind the bytes that this one had at first. -/
theorem offset_of_readLocations (hassembler : reader.assembler = directives) {standard : Option Sector}
    {nodes : List Node} (h : readLocations reader patch standard included vars nodes = .ok own)
    {before after : List Segment} (hown : own = before ++ s :: after) (hchained : s.isChained) :
    ∃ front s', before = front ++ [s'] ∧
      s.offset.toNat = s'.offset.toNat + firstLength vars (included ++ front) s' ∧
      ∀ source, s'.assembly? = some source →
        s'.bytes = (directives.encode ((symbolsOf (included ++ own) vars).prepend source) s'.ram).bytes := by
  obtain ⟨first, hfirst, h⟩ := bind_eq_ok h
  have hbehind := eachBehind_of_readAll hfirst
  -- the two encodings go through the list side by side, and only the first one fixed the offsets
  rw [← symbolsOf_finish h, hown] at h
  obtain ⟨firstBefore, rest, hsplit, hbefore, hrest⟩ := exists_append_of_mapM_eq_ok h
  obtain ⟨firstOne, firstAfter, hone, -, rfl⟩ := List.forall₂_cons_right_iff.1 (mapM_eq_ok_iff.1 hrest)
  have hkeeps := (keeps_finish hone).segment
  have hfirstChained : firstOne.isChained := by
    rw [hkeeps] at hchained
    exact hchained
  have hoffset : s.offset = firstOne.offset := by rw [hkeeps]
  -- the segment before is there already when this one is read
  obtain ⟨previous, hlast, hstop⟩ := (hbehind firstBefore firstOne firstAfter hsplit).chained hfirstChained
  obtain ⟨firstFront, rfl⟩ := List.getLast?_eq_some_iff.1 hlast
  rw [List.append_assoc] at hsplit
  have hprevious := hbehind firstFront previous (firstOne :: firstAfter) hsplit
  rw [List.mapM_append] at hbefore
  obtain ⟨front, hfront, hbefore⟩ := bind_eq_ok hbefore
  obtain ⟨last, hlast', hbefore⟩ := bind_eq_ok hbefore
  obtain ⟨s', none, hs', hnone, rfl⟩ := List.forall₂_cons_left_iff.1 (mapM_eq_ok_iff.1 hlast')
  cases hnone
  cases hbefore
  have hsame : s'.offset = previous.offset := by rw [(keeps_finish hs').segment]
  refine ⟨front, s', rfl, ?_, ?_⟩
  · rw [firstLength, symbolsOf_finish hfront]
    show _ = _ + firstLength vars (included ++ firstFront) s'
    rw [hprevious.firstLength hassembler hs', hoffset, hstop, hsame]
    rfl
  · rw [hown]
    exact (hprevious.finish hassembler hs').1

/-! ## Patches of a document -/

/-- The segments that a patch has from those it includes. -/
def includedSegments (earlier : List Patch) (n : Node) : List Segment :=
  (includedPatches earlier n).flatMap includable

/-- The segments that a patch has from its own locations: behind those of included patches and in front of
those that replace a sector by a file. -/
def ownSegments (earlier : List Patch) (n : Node) (p : Patch) : List Segment :=
  let behind := p.segments.drop (includedSegments earlier n).length
  behind.take (behind.length - (n.elements "STRLocation").length)

/-- The elements under a root whose patches are read. -/
def keptPatches (root : Node) : List Node :=
  (root.elements "Patch").filter fun n => (ignored n).toOption = some false

theorem label?_of_readStream {n : Node} (h : readStream reader n = .ok s) : s.label? = none := by
  obtain ⟨_, _, _, rfl⟩ := readStream_eq_ok h
  rfl

/-- What is read of a patch: its own segments, and which symbols they know in the end. -/
theorem readPatch_eq_ok {heading : Heading} {earlier : List Patch} {n : Node} {p : Patch}
    (h : readPatch reader heading earlier n = .ok p) :
    ∃ name standard, readLocations reader name standard (includedSegments earlier n) p.vars (n.elements "Location") =
        .ok (ownSegments earlier n p) ∧
      p.symbols = symbolsOf (includedSegments earlier n ++ ownSegments earlier n p) p.vars := by
  obtain ⟨title, standard, vars, own, streams, hsteps, h⟩ := readSteps_of_readPatch h
  obtain ⟨-, -, hsegments, rfl⟩ := fields_of_build h
  have hsegments : p.segments = includedSegments earlier n ++ own ++ streams := hsegments
  have hcount := (mapM_eq_ok_iff.1 hsteps.readStreams).length_eq
  have hsame : ownSegments earlier n p = own := by
    unfold ownSegments
    dsimp only
    rw [hsegments, List.append_assoc, List.drop_left, List.length_append, hcount, Nat.add_sub_cancel, List.take_left]
  have hnone : labelsOf streams = labelsOf [] := by
    refine List.filterMap_eq_nil_iff.2 fun s hs => ?_
    obtain ⟨n, -, hn⟩ := mem_of_mapM_eq_ok hsteps.readStreams hs
    rw [label?_of_readStream hn]
    rfl
  refine ⟨title.1, standard, ?_, ?_⟩
  · rw [hsame]
    exact hsteps.readLocations
  · rw [hsame, Patch.symbols, hsegments, symbolsOf_append_congr hnone, List.append_nil]

/-- One patch after the other: each element that is not left out gives one, read behind those before it. -/
theorem readPatch_of_foldlM {heading : Heading} {nodes : List Node} {earlier patches : List Patch}
    (h : nodes.foldlM (fun earlier n => do
      if ← ignored n then return earlier
      let patch ← readPatch reader heading earlier n
      return earlier ++ [patch]) earlier = .ok patches) :
    ∃ more, patches = earlier ++ more ∧
      more.length = (nodes.filter fun n => (ignored n).toOption = some false).length ∧
      ∀ j n p, (nodes.filter fun n => (ignored n).toOption = some false)[j]? = some n → more[j]? = some p →
        readPatch reader heading (earlier ++ more.take j) n = .ok p := by
  induction nodes generalizing earlier with
  | nil =>
    cases h
    exact ⟨[], (List.append_nil _).symm, rfl, fun j n p hn => absurd hn (by simp)⟩
  | cons first nodes ih =>
    rw [List.foldlM_cons] at h
    obtain ⟨known, hknown, h⟩ := bind_eq_ok h
    obtain ⟨leftOut, hleftOut, hknown⟩ := bind_eq_ok hknown
    cases leftOut with
    | true =>
      cases hknown
      rw [List.filter_cons_of_neg (by rw [hleftOut]; decide)]
      exact ih h
    | false =>
      obtain ⟨patch, hpatch, hknown⟩ := bind_eq_ok hknown
      cases hknown
      rw [List.filter_cons_of_pos (by rw [hleftOut]; decide)]
      obtain ⟨more, rfl, hlength, hmore⟩ := ih h
      refine ⟨patch :: more, by simp, by rw [List.length_cons, List.length_cons, hlength], fun j n p hn hp => ?_⟩
      cases j with
      | zero =>
        cases hn
        cases hp
        rw [List.take_zero, List.append_nil]
        exact hpatch
      | succ j =>
        have hread := hmore j n p hn hp
        rw [List.append_assoc] at hread
        exact hread

/-- Each patch is read behind those of the elements before its own. -/
theorem readPatch_of_readRoot {filename : String} {root : Node} {ps : List Patch}
    (h : readRoot reader filename root = .ok ps) {j : Nat} {n : Node} (hn : (keptPatches root)[j]? = some n)
    {p : Patch} (hp : ps[j]? = some p) :
    readPatch reader (headingOf filename root) (ps.take j) n = .ok p := by
  unfold readRoot at h
  dsimp only at h
  split at h
  · cases h
  · obtain ⟨patches, hpatches, h⟩ := bind_eq_ok h
    obtain ⟨imports, -, h⟩ := bind_eq_ok h
    cases h
    obtain ⟨more, hmore, hlength, hstep⟩ := readPatch_of_foldlM hpatches
    rw [List.nil_append] at hmore
    subst hmore
    have hj : j < patches.length := by
      rw [hlength]
      exact (List.getElem?_eq_some_iff.1 hn).1
    rw [List.getElem?_append_left hj] at hp
    rw [List.take_append_of_le_length (Nat.le_of_lt hj)]
    exact hstep j n p hn hp

/-- In every patch of a document, a segment from one of its own locations that continues another starts behind
the bytes which the segment before had at first. It starts where that one ends exactly if the source of that
one, should it have any, gives as many bytes with all labels of the patch as with those in front of it. -/
theorem chained_offset_iff (reader : Reader) (hassembler : reader.assembler = directives) (text filename : String)
    (root : Node) (hroot : Xml.parse? text = some root) (ps : List Patch)
    (hread : parse reader text filename = .ok ps) (j : Nat) (n : Node) (hn : (keptPatches root)[j]? = some n)
    (p : Patch) (hp : ps[j]? = some p) (before after : List Segment) (s : Segment)
    (hown : ownSegments (ps.take j) n p = before ++ s :: after) (hchained : s.isChained) :
    ∃ front s', before = front ++ [s'] ∧
      s.offset.toNat = s'.offset.toNat + firstLength p.vars (includedSegments (ps.take j) n ++ front) s' ∧
      (s.offset.toNat = s'.stop ↔ ∀ source, s'.assembly? = some source →
        let known := symbolsOf (includedSegments (ps.take j) n ++ front) p.vars
        (directives.encode (known.prepend source) s'.ram).bytes.length =
          (directives.encode (p.symbols.prepend source) s'.ram).bytes.length) := by
  unfold parse at hread
  rw [hroot] at hread
  obtain ⟨name, standard, hlocations, hsymbols⟩ := readPatch_eq_ok (readPatch_of_readRoot hread hn hp)
  obtain ⟨front, s', hbefore, hoffset, hbytes⟩ := offset_of_readLocations hassembler hlocations hown hchained
  rw [← hsymbols] at hbytes
  refine ⟨front, s', hbefore, hoffset, ?_⟩
  unfold Segment.stop
  rw [hoffset, Nat.add_left_cancel_iff, firstLength]
  cases hassembly : s'.assembly? with
  | none =>
    dsimp only
    rw [eq_self, true_iff]
    intro source hsource
    cases hsource
  | some source =>
    dsimp only
    rw [hbytes source hassembly]
    constructor
    · intro hsame _ hsource
      cases hsource
      exact hsame
    · intro hsame
      exact hsame source rfl

/-! ## Room for what lies between two labels -/

/-- A document with room of a given size, a location that continues it, and one that continues this one. -/
def roomOf (size : String) : String :=
  "<Patches><Patch name=\"x\" sector=\"18\"><Location offset=\"800\" mode=\"asm\">.space " ++ size
    ++ "</Location><Location label=\"a\">00000000</Location><Location label=\"b\"/></Patch></Patches>"

/-- What is read of such a document: a patch without faults, whose second segment continues the first. -/
structure RoomRead (size : String) (root n : Node) (ps : List Patch) (p : Patch) (s' s : Segment)
    (after : List Segment) : Prop where
  document : Xml.parse? (roomOf size) = some root
  read : parse plainReader (roomOf size) "a.xml" = .ok ps
  element : (keptPatches root)[0]? = some n
  patch : ps[0]? = some p
  own : ownSegments (ps.take 0) n p = s' :: s :: after
  isChained : s.isChained
  noFault : p.faultText = ""
  start : s'.offset.toNat = 0x800
  stop : s'.stop = 0x804
  offset : s.offset.toNat = if size = "4" then 0x804 else 0x800

theorem exists_roomRead (size : String) (h : size ∈ ["4", "@b-@a"]) :
    ∃ root n ps p s' s after, RoomRead size root n ps p s' s after := by
  have hsample : ∀ size ∈ ["4", "@b-@a"], (Xml.parse? (roomOf size)).any fun root : Node =>
      (keptPatches root)[0]?.any fun n => (readRoot plainReader "a.xml" root).toOption.any fun ps =>
        ps[0]?.any fun p : Patch => (ownSegments (ps.take 0) n p)[0]?.any fun s' : Segment =>
          (ownSegments (ps.take 0) n p)[1]?.any fun s : Segment => decide (s.isChained ∧ p.faultText = "" ∧
            s'.offset.toNat = 0x800 ∧ s'.stop = 0x804 ∧ s.offset.toNat = if size = "4" then 0x804 else 0x800) := by
    decide +kernel
  obtain ⟨root, hroot, hrest⟩ := (Option.any_eq_true _ _).1 (hsample size h)
  obtain ⟨n, hn, hrest⟩ := (Option.any_eq_true _ _).1 hrest
  obtain ⟨ps, hps, hrest⟩ := (Option.any_eq_true _ _).1 hrest
  obtain ⟨p, hp, hrest⟩ := (Option.any_eq_true _ _).1 hrest
  obtain ⟨s', hs', hrest⟩ := (Option.any_eq_true _ _).1 hrest
  obtain ⟨s, hs, hrest⟩ := (Option.any_eq_true _ _).1 hrest
  have hread : parse plainReader (roomOf size) "a.xml" = .ok ps := by
    unfold parse
    rw [hroot]
    exact toOption_eq_some_iff.1 hps
  have hown : ownSegments (ps.take 0) n p = s' :: s :: (ownSegments (ps.take 0) n p).drop 2 := by
    obtain ⟨hzero, rfl⟩ := List.getElem?_eq_some_iff.1 hs'
    obtain ⟨hone, rfl⟩ := List.getElem?_eq_some_iff.1 hs
    rw [List.getElem_cons_drop, List.getElem_cons_drop, List.drop_zero]
  obtain ⟨hchained, hfault, hstart, hstop, hoffset⟩ := of_decide_eq_true hrest
  exact ⟨root, n, ps, p, s', s, _, hroot, hread, hn, hp, hown, hchained, hfault, hstart, hstop, hoffset⟩

/-- Behind room of a fixed size a location starts where the room ends, so the size was the same at first. -/
theorem chained_offset_fixed_room : ∃ root n ps p s' s after, RoomRead "4" root n ps p s' s after ∧
    ∀ source, s'.assembly? = some source →
      (directives.encode ((symbolsOf (includedSegments (ps.take 0) n) p.vars).prepend source) s'.ram).bytes.length =
        (directives.encode (p.symbols.prepend source) s'.ram).bytes.length := by
  obtain ⟨root, n, ps, p, s', s, after, h⟩ := exists_roomRead "4" (by decide)
  refine ⟨root, n, ps, p, s', s, after, h, ?_⟩
  obtain ⟨front, t, hfront, -, hiff⟩ := chained_offset_iff plainReader rfl (roomOf "4") "a.xml" root h.document ps
    h.read 0 n h.element p h.patch [s'] after s h.own h.isChained
  obtain ⟨rfl, hlast⟩ := List.append_inj' (show [] ++ [s'] = front ++ [t] from hfront) rfl
  cases hlast
  rw [List.append_nil] at hiff
  refine hiff.1 ?_
  rw [h.offset, h.stop]
  rfl

/-- Behind room for what lies between two labels further on, a location starts where the room does. -/
theorem chained_offset_between_labels : ∃ root n ps p s' s after, RoomRead "@b-@a" root n ps p s' s after ∧
    s.offset.toNat = s'.offset.toNat ∧ s.offset.toNat < s'.stop := by
  obtain ⟨root, n, ps, p, s', s, after, h⟩ := exists_roomRead "@b-@a" (by decide)
  refine ⟨root, n, ps, p, s', s, after, h, ?_, ?_⟩
  · rw [h.offset, h.start]
    rfl
  · rw [h.offset, h.stop]
    decide

end DiscPatch.Description
