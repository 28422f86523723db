/-
What holds of every patch that is read, with any tables and assembler: each segment and each place of a
variable stands at the RAM address of its offset, on whichever of the five ways it came about, values fit
their variables, and no file is chosen yet.
-/
import DiscPatch.Description.Document
import DiscPatch.Proofs.Description.Patches
import DiscPatch.Proofs.Patch.Invariant

namespace DiscPatch.Description

open Text Xml Patch

/-- Whether a place is at the RAM address of its offset. -/
def InStep (space : AddressSpace) (x : Place) : Prop :=
  x.ram = space.toRam x.sector x.offset

instance (space : AddressSpace) (x : Place) : Decidable (InStep space x) :=
  inferInstanceAs (Decidable (_ = _))

structure SegmentRead (space : AddressSpace) (s : Segment) : Prop where
  inStep : InStep space s.place
  unchosen : ∀ path expected, s.source ≠ .chosenFile (some path) expected

structure VariableRead (space : AddressSpace) (v : Variable) : Prop where
  inStep : ∀ x ∈ v.places, InStep space x
  fits : v.Fits

structure PatchRead (space : AddressSpace) (p : Patch) : Prop where
  built : ∃ d : Draft, d.build = .ok p
  segments : ∀ s ∈ p.segments, SegmentRead space s
  vars : ∀ v ∈ p.vars, VariableRead space v

variable {reader : Reader} {heading : Heading} {earlier : List Patch} {n : Node} {p : Patch} {s : Segment}

/-! ## Places -/

theorem inStep_of_placement {space : AddressSpace} {standard : Option Sector} {previous : Option Previous}
    {align : Nat} {spot : Placement} (h : placement space n standard previous align = .ok spot) :
    ∀ x ∈ spot.places, InStep space x := by
  intro x hx
  obtain ⟨sector, word, rfl | rfl, -⟩ := mem_placement h hx
  · rfl
  · exact (space.toRam_toFile sector word).symm

/-! ## Segments -/

theorem segmentRead_of_inline {space : AddressSpace} (hinline : s.source = .inline) (h : InStep space s.place) :
    SegmentRead space s :=
  ⟨h, fun path expected hchosen => by rw [hinline] at hchosen; cases hchosen⟩

theorem segmentRead_of_keeps {space : AddressSpace} {s' : Segment} (h : SegmentRead space s) (hkeeps : Keeps s s') :
    SegmentRead space s' := by
  rw [hkeeps.segment]
  exact ⟨h.inStep, h.unchosen⟩

/-- Own locations are read place by place, and then encoded once more where they stand: what each place gives its
segment, and the last encoding keeps, all segments have. -/
theorem readLocations_induction {motive : Segment → Prop} {patch : String} {standard : Option Sector}
    {included : List Segment} {vars : List Variable} {nodes : List Node} {own : List Segment}
    (hplace : ∀ n ∈ nodes, ∀ previous spot wish, placement reader.space n standard previous
      (alignment n (if modeOf n = some "asm" then 4 else 0)) = .ok spot → readWish reader n = .ok wish →
      ∀ place ∈ spot.places, ∀ s, Reading wish spot.sequential place s → motive s)
    (hkeeps : ∀ s s', Keeps s s' → motive s → motive s')
    (h : readLocations reader patch standard included vars nodes = .ok own) : ∀ s ∈ own, motive s := by
  obtain ⟨first, hfirst, hfinish⟩ := bind_eq_ok h
  intro s hs
  obtain ⟨s', hs', hstep⟩ := mem_of_mapM_eq_ok hfinish hs
  exact hkeeps s' s (keeps_finish hstep) (readAll_induction hplace hfirst s' hs')

theorem segmentRead_of_readLocations {patch : String} {standard : Option Sector} {included : List Segment}
    {vars : List Variable} {nodes : List Node} {own : List Segment}
    (h : readLocations reader patch standard included vars nodes = .ok own) :
    ∀ s ∈ own, SegmentRead reader.space s := by
  refine readLocations_induction (fun n _ previous spot wish hspot _ place hplace s hreading => ?_)
    (fun s s' hkeeps hs => segmentRead_of_keeps hs hkeeps) h
  refine segmentRead_of_inline hreading.inline ?_
  rw [show s.place = place from hreading.place]
  exact inStep_of_placement hspot place hplace

theorem segmentRead_of_readStream (h : readStream reader n = .ok s) : SegmentRead reader.space s := by
  obtain ⟨_, _, _, rfl⟩ := readStream_eq_ok h
  exact ⟨rfl, fun _ _ hchosen => by cases hchosen⟩

/-! ## Variables -/

theorem variableRead_of_readVariable {space : AddressSpace} {standard : Option Sector} {last : Option Variable}
    {v : Variable} (h : readVariable space standard last n = .ok v) : VariableRead space v := by
  rw [readVariable_eq] at h
  obtain ⟨name, -, h⟩ := bind_eq_ok h
  obtain ⟨size, -, h⟩ := bind_eq_ok h
  obtain ⟨places, hplaces, h⟩ := bind_eq_ok h
  obtain ⟨value, -, h⟩ := bind_eq_ok h
  cases h
  refine ⟨?_, Variable.fits_set ⟨name, size, value, places, referenceOf? n⟩ value⟩
  show ∀ x ∈ places, InStep space x
  unfold readPlaces at hplaces
  split at hplaces
  · cases hplaces
    exact List.forall_mem_nil _
  · obtain ⟨spot, hspot, rfl⟩ := map_eq_ok hplaces
    exact inStep_of_placement hspot

/-! ## Included patches -/

theorem mem_addVariables {known : List Variable} {v : Variable} (h : v ∈ addVariables known p) :
    v ∈ known ∨ v ∈ p.vars := by
  have hfold : ∀ (vars known : List Variable), v ∈ vars.foldl (fun known v =>
      if known.any (·.name = v.name) then known else known ++ [v]) known → v ∈ known ∨ v ∈ vars := by
    intro vars
    induction vars with
    | nil => exact fun _ h => .inl h
    | cons w vars ih =>
      intro known h
      rcases ih _ h with h | h
      · dsimp only at h
        split at h
        · exact .inl h
        · rcases List.mem_append.1 h with h | h
          · exact .inl h
          · exact .inr (List.mem_cons.2 (.inl (List.mem_singleton.1 h)))
      · exact .inr (List.mem_cons_of_mem _ h)
  exact hfold p.vars known h

theorem mem_foldl_addVariables {included : List Patch} {known : List Variable} {v : Variable}
    (h : v ∈ included.foldl addVariables known) : v ∈ known ∨ ∃ p ∈ included, v ∈ p.vars := by
  induction included generalizing known with
  | nil => exact .inl h
  | cons p included ih =>
    rcases ih h with h | ⟨q, hq, h⟩
    · rcases mem_addVariables h with h | h
      · exact .inl h
      · exact .inr ⟨p, List.mem_cons_self .., h⟩
    · exact .inr ⟨q, List.mem_cons_of_mem _ hq, h⟩

theorem mem_of_mem_includedPatches {q : Patch} (h : q ∈ includedPatches earlier n) : q ∈ earlier := by
  obtain ⟨reference, -, h⟩ := List.mem_flatMap.1 h
  split at h
  · exact (List.mem_filter.1 h).1
  · cases h

/-! ## Patches -/

/-- The segments of a patch come from patches before it, from its own locations, and from files that replace
sectors. -/
theorem segments_of_readPatch (h : readPatch reader heading earlier n = .ok p) :
    ∃ name standard included vars own,
      readLocations reader name standard included vars (n.elements "Location") = .ok own ∧
      ∀ s ∈ p.segments, (∃ q ∈ earlier, s ∈ q.segments ∧ s.takesFile = false) ∨ s ∈ own ∨
        ∃ location ∈ n.elements "STRLocation", readStream reader location = .ok s := by
  obtain ⟨title, standard, vars, own, streams, hsteps, hbuild⟩ := readSteps_of_readPatch h
  refine ⟨_, _, _, _, own, hsteps.readLocations, fun s hs => ?_⟩
  rw [(fields_of_build hbuild).2.2.1] at hs
  rcases List.mem_append.1 hs with hs | hs
  · rcases List.mem_append.1 hs with hs | hs
    · obtain ⟨q, hq, hs⟩ := List.mem_flatMap.1 hs
      obtain ⟨hs, hnone⟩ := List.mem_filter.1 hs
      exact .inl ⟨q, mem_of_mem_includedPatches hq, hs, by simpa using hnone⟩
    · exact .inr (.inl hs)
  · exact .inr (.inr (mem_of_mapM_eq_ok hsteps.readStreams hs))

/-- The variables of a patch come from patches before it, and from its own elements. -/
theorem vars_of_readPatch {motive : Variable → Prop} (h : readPatch reader heading earlier n = .ok p)
    (hearlier : ∀ q ∈ earlier, ∀ v ∈ q.vars, motive v)
    (hown : ∀ standard last, ∀ element ∈ n.elements "Variable", ∀ v,
      readVariable reader.space standard last element = .ok v → motive v) : ∀ v ∈ p.vars, motive v := by
  obtain ⟨title, standard, vars, own, streams, hsteps, hbuild⟩ := readSteps_of_readPatch h
  rw [(fields_of_build hbuild).2.2.2]
  refine foldlM_induction (motive := fun known => ∀ v ∈ known, motive v) (fun element helement known known' hknown hstep
    => ?_) (fun v hv => ?_) hsteps.readVariables
  · obtain ⟨v, hv, hstep⟩ := bind_eq_ok hstep
    cases hstep
    exact List.forall_mem_append.2 ⟨hknown, List.forall_mem_singleton.2 (hown _ _ element helement v hv)⟩
  · rcases mem_foldl_addVariables hv with hv | ⟨q, hq, hv⟩
    · cases hv
    · exact hearlier q (mem_of_mem_includedPatches hq) v hv

theorem patchRead_of_readPatch (hearlier : ∀ q ∈ earlier, PatchRead reader.space q)
    (h : readPatch reader heading earlier n = .ok p) : PatchRead reader.space p := by
  obtain ⟨_, _, _, _, own, hown, hsegments⟩ := segments_of_readPatch h
  obtain ⟨_, _, _, _, _, -, hbuild⟩ := readSteps_of_readPatch h
  refine ⟨⟨_, hbuild⟩, fun s hs => ?_, ?_⟩
  · rcases hsegments s hs with ⟨q, hq, hs, -⟩ | hs | ⟨location, -, hread⟩
    · exact (hearlier q hq).segments s hs
    · exact segmentRead_of_readLocations hown s hs
    · exact segmentRead_of_readStream hread
  · exact vars_of_readPatch h (fun q hq => (hearlier q hq).vars) fun _ _ _ _ _ => variableRead_of_readVariable

theorem patchRead_of_readImport (h : readImport reader heading n = .ok (some p)) : PatchRead reader.space p := by
  obtain ⟨_, _, sector, offset, expected, -, -, -, hbuild⟩ := readImport_eq_ok h
  refine ⟨⟨_, hbuild⟩, ?_, ?_⟩
  all_goals rw [Draft.eq_patch_of_build hbuild]
  · exact List.forall_mem_singleton.2 ⟨rfl, fun _ _ hchosen => by cases hchosen⟩
  · exact List.forall_mem_nil _

/-! ## Documents -/

/-- What each patch has if those before it do, and each import, all patches under a root element have. -/
theorem readRoot_induction {motive : Patch → Prop} {filename : String} {root : Node} {ps : List Patch}
    (hpatch : ∀ n ∈ root.elements "Patch", ∀ heading earlier p, (∀ q ∈ earlier, motive q) →
      readPatch reader heading earlier n = .ok p → motive p)
    (himport : ∀ n ∈ root.elements "ImportFilePatch", ∀ heading p,
      readImport reader heading n = .ok (some p) → motive p)
    (h : readRoot reader filename root = .ok ps) : ∀ p ∈ ps, motive p := by
  unfold readRoot at h
  dsimp only at h
  split at h
  · cases h
  · obtain ⟨patches, hpatches, h⟩ := bind_eq_ok h
    obtain ⟨imports, himports, h⟩ := bind_eq_ok h
    cases h
    refine List.forall_mem_append.2 ⟨?_, fun p hp => ?_⟩
    · refine foldlM_induction (motive := fun patches => ∀ p ∈ patches, motive p)
        (fun n hn earlier patches hearlier hstep => ?_) (List.forall_mem_nil _) hpatches
      obtain ⟨leftOut, -, hstep⟩ := bind_eq_ok hstep
      split at hstep
      · cases hstep
        exact hearlier
      · obtain ⟨p, hp, hstep⟩ := bind_eq_ok hstep
        cases hstep
        exact List.forall_mem_append.2 ⟨hearlier, List.forall_mem_singleton.2 (hpatch n hn _ _ p hearlier hp)⟩
    · obtain ⟨import?, himport?, heq⟩ := List.mem_filterMap.1 hp
      obtain ⟨n, hn, hstep⟩ := mem_of_mapM_eq_ok himports himport?
      rw [show import? = some p from heq] at hstep
      exact himport n hn _ p hstep

/-- Everything that is read is in step, and nothing is chosen or moved yet. -/
theorem patchRead_of_parse {text filename : String} {ps : List Patch} (h : parse reader text filename = .ok ps) :
    ∀ p ∈ ps, PatchRead reader.space p := by
  unfold parse at h
  split at h
  · exact readRoot_induction (fun _ _ _ _ _ => patchRead_of_readPatch) (fun _ _ _ _ => patchRead_of_readImport) h
  · cases h

theorem PatchRead.sound {space : AddressSpace} (h : PatchRead space p) : p.Sound := by
  obtain ⟨d, hbuild⟩ := h.built
  exact Sound.of_build hbuild (fun v hv => (h.vars v hv).fits)
    fun s hs path expected hchosen => absurd hchosen ((h.segments s hs).unchosen path expected)

end DiscPatch.Description
