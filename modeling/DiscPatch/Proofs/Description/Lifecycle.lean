/-
The life of a patch, from where callers can get one: built from segments and variables made anew or taken
from patches at hand, or read from a document. Headline theorem: through all calls it stays what it was built
as, every state is sound, and a call that fails changes nothing.
-/
import DiscPatch.Proofs.Description.Reading
import DiscPatch.Proofs.Patch.Calls

namespace DiscPatch.Description

open Text Xml Patch Assembly

/-! ## What callers can get hold of -/

/-- Segments that can be put into a draft while the given patches are at hand. -/
inductive SegmentMade (sources : List Patch) : Segment → Prop
  | ofBytes (sector : Sector) (offset : UInt32) (bytes : Bytes) : SegmentMade sources (.ofBytes sector offset bytes)
  | awaitingFile (sector : Sector) (offset expected : UInt32) :
    SegmentMade sources (.awaitingFile sector offset expected)
  | ofStream (sector : Sector) (path : Path) (bytes : Bytes) : SegmentMade sources (.ofStream sector path bytes)
  | taken {p : Patch} {s : Segment} (hp : p ∈ sources) (hs : s ∈ p.segments) : SegmentMade sources s
  | located {s : Segment} (h : SegmentMade sources s) (ram : UInt32) : SegmentMade sources { s with ram }
  | assembled {s : Segment} (h : SegmentMade sources s) (source : String) : SegmentMade sources (s.assembled source)
  | withLabels {s : Segment} (h : SegmentMade sources s) (text : String) :
    SegmentMade sources { s with labelledHex? := some text }
  | labelled {s : Segment} (h : SegmentMade sources s) (label : String) : SegmentMade sources (s.labelled label)
  | marked {s : Segment} (h : SegmentMade sources s) (isData isChained movesSimply isCode : Bool) :
    SegmentMade sources { s with isData, isChained, movesSimply, isCode }

inductive VariableMade (sources : List Patch) : Variable → Prop
  | set (name : String) (size : Nat) (value : UInt32) :
    VariableMade sources (Variable.set ⟨name, size, 0, [], none⟩ value)
  | taken {p : Patch} {v : Variable} (hp : p ∈ sources) (hv : v ∈ p.vars) : VariableMade sources v
  | placed {v : Variable} (h : VariableMade sources v) (places : List Place) : VariableMade sources { v with places }
  | derived {v : Variable} (h : VariableMade sources v) (reference : Reference) :
    VariableMade sources { v with reference? := some reference }

/-- Every patch that is built or read, and what becomes of it. -/
inductive Obtainable : Patch → Prop
  | built {sources : List Patch} {d : Draft} {p : Patch} (hsources : ∀ q ∈ sources, Obtainable q)
    (hsegments : ∀ s ∈ d.segments, SegmentMade sources s) (hvars : ∀ v ∈ d.vars, VariableMade sources v)
    (h : d.build = .ok p) : Obtainable p
  | read {reader : Reader} {text filename : String} {ps : List Patch} {p : Patch}
    (h : parse reader text filename = .ok ps) (hp : p ∈ ps) : Obtainable p
  | called {p : Patch} (h : Obtainable p) (call : Call) : Obtainable (p.after call)

/-! ## Soundness -/

theorem SegmentMade.filled {sources : List Patch} (hsources : ∀ p ∈ sources, p.Sound) {s : Segment}
    (h : SegmentMade sources s) : s.Filled := by
  induction h with
  | ofBytes | awaitingFile | ofStream => exact fun _ _ hchosen => by cases hchosen
  | taken hp hs => exact (hsources _ hp).files _ hs
  | located _ _ ih | labelled _ _ ih | marked _ _ _ _ _ ih => exact ih
  | assembled => exact fun _ _ _ hassembly => by cases hassembly
  | withLabels => exact fun _ _ _ _ hhex => by cases hhex

theorem VariableMade.fits {sources : List Patch} (hsources : ∀ p ∈ sources, p.Sound) {v : Variable}
    (h : VariableMade sources v) : v.Fits := by
  induction h with
  | set name size value => exact Variable.fits_set _ value
  | taken hp hv => exact (hsources _ hp).values _ hv
  | placed _ _ ih | derived _ _ ih => exact ih

theorem Obtainable.sound {p : Patch} (h : Obtainable p) : p.Sound := by
  induction h with
  | built _ hsegments hvars h ih =>
    obtain ⟨-, -, hpsegments, hpvars⟩ := fields_of_build h
    refine Sound.of_build h (fun v hv => ?_) fun s hs => ?_
    · exact (hvars v (hpvars ▸ hv)).fits ih
    · exact (hsegments s (hpsegments ▸ hs)).filled ih
  | read h hp => exact (patchRead_of_parse h _ hp).sound
  | called _ call ih => exact ih.of_extends (runs_after _ call).extends

/-! ## Runs -/

/-- Through all calls a patch stays what it was built as and every state is sound; the only thing that an update
ever says of its variables is that one is divided by zero, and a call that fails changes nothing. -/
theorem extends_afterAll {p : Patch} (hp : Obtainable p) (calls : List Call) :
    p.Extends (p.afterAll calls) ∧ (p.afterAll calls).Sound ∧
      (∀ assembler, ∃ names : List String, ((p.afterAll calls).update assembler).faultText =
        faultsOf ((p.afterAll calls).update assembler).segments ++
          String.join (names.map fun name => (ReferenceFault.divisionByZero name).line)) ∧
      ∀ call e, (p.afterAll calls).result call = .error e → (p.afterAll calls).after call = p.afterAll calls := by
  have hextends := (runs_afterAll p calls).extends
  have hsound := hp.sound.of_extends hextends
  exact ⟨hextends, hsound, hsound.faultText_update, fun _ _ herror => after_of_error herror⟩

/-- A file of two bytes, and no other. -/
def twoBytes : Files := ⟨fun _ => .ok ⟨#[1, 2]⟩, fun _ => false, fun _ => []⟩

def kitDraft : Draft where
  name := "kit"
  segments := [.awaitingFile mainSector 0x2000 2, (Segment.ofBytes mainSector 0x800 []).assembled ".word 1"]
  vars := [⟨"size", 1, 7, [⟨mainSector, 0x900, 0x900⟩], none⟩, ⟨"half", 1, 0, [], some ⟨"size", .divide, 2⟩⟩]

/-- An update, a file, a setting that fails and a move. -/
def kitCalls : List Call :=
  [.update directives, .giveFile twoBytes ⟨"two.bin"⟩, .setVariable "half" 9,
    .move directives SectorTable.psx.space [⟨mainSector, 0x800, 0xA00, 0x100⟩]]

theorem extends_afterAll_kit : ∃ p, kitDraft.build = .ok p ∧ Obtainable p ∧ p.Extends (p.afterAll kitCalls) ∧
    (p.afterAll kitCalls).Sound ∧ (p.afterAll kitCalls).segments.map (·.bytes) = [[1, 2], [1, 0, 0, 0]] ∧
    (p.afterAll kitCalls).vars.map (·.value) = [7, 3] ∧ (p.afterAll kitCalls).moves.length = 1 := by
  have hbuild : ∃ p, kitDraft.build = .ok p := ⟨_, rfl⟩
  obtain ⟨p, hp⟩ := hbuild
  have hobtainable : Obtainable p := by
    refine .built (List.forall_mem_nil _) ?_ ?_ hp
    · refine List.forall_mem_cons.2 ⟨.awaitingFile .., List.forall_mem_singleton.2 (.assembled (.ofBytes ..) _)⟩
    · refine List.forall_mem_cons.2 ⟨.placed (.set "size" 1 7) _, List.forall_mem_singleton.2 ?_⟩
      exact .derived (.set "half" 1 0) ⟨"size", .divide, 2⟩
  obtain ⟨hextends, hsound, -, -⟩ := extends_afterAll hobtainable kitCalls
  refine ⟨p, hp, hobtainable, hextends, hsound, ?_⟩
  cases hp
  decide +kernel

end DiscPatch.Description
