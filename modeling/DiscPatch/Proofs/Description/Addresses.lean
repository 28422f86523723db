/-
File offsets and RAM addresses side by side. What is read is in step; from then on a place drifts equally far
in the file and in memory, so it is in step exactly while the bits that every RAM address has set come out of
the addition as they did when it was read.
-/
import DiscPatch.Proofs.Description.Reading
import DiscPatch.Proofs.Description.RoundTrip
import DiscPatch.Proofs.Patch.Calls

namespace DiscPatch.Description

open Text Xml Patch Assembly

variable {space : AddressSpace}

/-! ## One place -/

/-- Whether `y` is in step exactly when its uncached bits are those of `x`, in the same sector. -/
structure StaysInStep (space : AddressSpace) (x y : Place) : Prop where
  sector : y.sector = x.sector
  inStep_iff : InStep space y ↔ space.uncachedAt y.sector y.offset = space.uncachedAt x.sector x.offset

/-- A place that was in step when it started to drift. -/
theorem staysInStep_of_drifts {x y : Place} (hx : InStep space x) (h : x.Drifts y) : StaysInStep space x y := by
  refine ⟨h.sector, ?_⟩
  have hdistance : y.ram - y.offset = space.toRam x.sector x.offset - x.offset := by
    rw [h.ram, show x.ram = _ from hx]
  rw [h.sector, ← space.toRam_sub_eq_iff, ← hdistance]
  unfold InStep
  rw [h.sector]
  constructor
  · intro hram
    rw [hram]
  · intro hram
    grind

/-! ## Patches -/

/-- Whether each place of a patch stays in step where another state of the patch has it. -/
structure AllStayInStep (space : AddressSpace) (p q : Patch) : Prop where
  segments : List.Forall₂ (fun s t : Segment => StaysInStep space s.place t.place) p.segments q.segments
  vars : List.Forall₂ (fun v w : Variable => List.Forall₂ (StaysInStep space) v.places w.places) p.vars q.vars

theorem PatchRead.allStayInStep {p q : Patch} (hp : PatchRead space p) (h : p.Extends q) : AllStayInStep space p q := by
  constructor
  · refine ((List.forall₂_and_left _ _).2 ⟨hp.segments, h.segments⟩).imp ?_
    rintro s t ⟨hs, hevolves⟩
    exact staysInStep_of_drifts hs.inStep hevolves.place
  · refine ((List.forall₂_and_left _ _).2 ⟨hp.vars, h.vars⟩).imp ?_
    rintro v w ⟨hv, hevolves⟩
    refine ((List.forall₂_and_left _ _).2 ⟨hv.inStep, hevolves.places⟩).imp ?_
    rintro x y ⟨hx, hdrifts⟩
    exact staysInStep_of_drifts hx hdrifts

/-- Everything that is read is in step, and after any calls a place is in step exactly if its uncached bits are
those that it was read with. -/
theorem inStep_afterAll_iff (reader : Reader) (text filename : String) (ps : List Patch)
    (hread : parse reader text filename = .ok ps) (p : Patch) (hp : p ∈ ps) (calls : List Call) :
    (∀ s ∈ p.segments, InStep reader.space s.place) ∧ (∀ v ∈ p.vars, ∀ x ∈ v.places, InStep reader.space x) ∧
      AllStayInStep reader.space p (p.afterAll calls) := by
  have hpatch := patchRead_of_parse hread p hp
  exact ⟨fun s hs => (hpatch.segments s hs).inStep, fun v hv => (hpatch.vars v hv).inStep,
    hpatch.allStayInStep (runs_afterAll p calls).extends⟩

/-- A location and a variable in the first file of the disc. -/
def pairText : String :=
  "<Patches><Patch name=\"x\" sector=\"18\"><Location offset=\"800\">01020304</Location>" ++
    "<Variable name=\"v\" specific=\"24:900\"/></Patch></Patches>"

/-- Moves that much of the file, which starts in RAM at `0xF800`. -/
def frontCall (distance : Int32) : Call :=
  .move directives plainReader.space [⟨⟨.psx, 24⟩, 0x800, 0x804, distance⟩]

/-- Moved past the start of the RAM, the location is out of step, and the variable stays in step. -/
theorem inStep_afterAll_iff_past_start : ∃ ps p s t v w, parse plainReader pairText "a.xml" = .ok ps ∧ p ∈ ps ∧
    p.segments = [s] ∧ (p.afterAll [frontCall (-0x20000)]).segments = [t] ∧ p.vars = [v] ∧
    (p.afterAll [frontCall (-0x20000)]).vars = [w] ∧ InStep plainReader.space s.place ∧
    ¬ InStep plainReader.space t.place ∧ ∀ x ∈ w.places, InStep plainReader.space x := by
  have hsample : (Xml.parse? pairText).any fun root : Node =>
      (readRoot plainReader "a.xml" root).toOption.any fun ps => ps.any fun p =>
        p.segments.any fun s => (p.afterAll [frontCall (-0x20000)]).segments.any fun t =>
          p.vars.any fun v => (p.afterAll [frontCall (-0x20000)]).vars.any fun w =>
            decide (p.segments = [s] ∧ (p.afterAll [frontCall (-0x20000)]).segments = [t] ∧ p.vars = [v] ∧
              (p.afterAll [frontCall (-0x20000)]).vars = [w] ∧ w.places = v.places ∧
              plainReader.space.uncachedAt t.sector t.offset ≠ plainReader.space.uncachedAt s.sector s.offset) := by
    decide +kernel
  obtain ⟨root, hroot, hrest⟩ := (Option.any_eq_true _ _).1 hsample
  obtain ⟨ps, hps, hrest⟩ := (Option.any_eq_true _ _).1 hrest
  obtain ⟨p, hp, hrest⟩ := List.any_eq_true.1 hrest
  obtain ⟨s, -, hrest⟩ := List.any_eq_true.1 hrest
  obtain ⟨t, -, hrest⟩ := List.any_eq_true.1 hrest
  obtain ⟨v, -, hrest⟩ := List.any_eq_true.1 hrest
  obtain ⟨w, -, hrest⟩ := List.any_eq_true.1 hrest
  obtain ⟨hs, ht, hv, hw, hplaces, huncached⟩ := of_decide_eq_true hrest
  have hread : parse plainReader pairText "a.xml" = .ok ps := by
    unfold parse
    rw [hroot]
    exact toOption_eq_some_iff.1 hps
  obtain ⟨hsegments, hvars, hstays⟩ := inStep_afterAll_iff plainReader pairText "a.xml" ps hread p hp
    [frontCall (-0x20000)]
  have hstays := hstays.segments
  rw [hs, ht] at hstays
  obtain ⟨hone, -⟩ := List.forall₂_cons.1 hstays
  refine ⟨ps, p, s, t, v, w, hread, hp, hs, ht, hv, hw, hsegments s (by rw [hs]; exact List.mem_singleton_self s),
    fun hin => huncached (hone.inStep_iff.1 hin), ?_⟩
  rw [hplaces]
  exact hvars v (by rw [hv]; exact List.mem_singleton_self v)

end DiscPatch.Description
