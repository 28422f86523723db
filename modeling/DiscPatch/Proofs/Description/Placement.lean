/-
Where elements go: every place that is read lies on the platform of the tables, at the RAM address of its
offset, and an element that continues the one before starts where that one ends.
-/
import DiscPatch.Description.Placement
import DiscPatch.Proofs.AddressSpace
import DiscPatch.Proofs.Except

namespace DiscPatch.Description

open Text Xml Patch

variable {space : AddressSpace}

/-! ## Attributes -/

theorem required_eq_ok_iff {n : Node} {key value : String} :
    required n key = .ok value ↔ n.attr? key = some value := by
  unfold required
  cases n.attr? key with
  | none => exact ⟨fun h => (by cases h), fun h => (by cases h)⟩
  | some text => exact ⟨fun h => congrArg some (Except.ok.inj h), fun h => congrArg Except.ok (Option.some.inj h)⟩

/-! ## Sectors -/

/-- Whether a sector that may be missing lies on the platform. -/
def OnPlatform (space : AddressSpace) (sector : Option Sector) : Prop :=
  ∀ s, sector = some s → s.platform = space.platform

theorem platform_ofName (hspace : space.Named) {name : String} {s : Sector} (h : space.ofName name = .ok s) :
    s.platform = space.platform := by
  unfold AddressSpace.ofName at h
  split at h
  · rename_i s' hname
    cases h
    exact hspace.platform _ _ hname
  · cases h

theorem platform_ofHexId {text : String} {s : Sector} (h : space.ofHexId text = .ok s) :
    s.platform = space.platform := by
  unfold AddressSpace.ofHexId at h
  split at h
  · cases h
    rfl
  · cases h

theorem platform_ofIdOrName (hspace : space.Named) {text : String} {s : Sector} (h : space.ofIdOrName text = .ok s) :
    s.platform = space.platform := by
  unfold AddressSpace.ofIdOrName at h
  split at h
  · cases h
    rfl
  · exact platform_ofName hspace h

theorem platform_namedSector (hspace : space.Named) {n : Node} {sector : Option Sector}
    (h : namedSector space n = .ok sector) : OnPlatform space sector := by
  intro s hs
  unfold namedSector at h
  split at h
  · obtain ⟨s', hname, heq⟩ := map_eq_ok h
    cases heq.trans hs
    exact platform_ofName hspace hname
  · obtain ⟨s', hid, heq⟩ := map_eq_ok h
    cases heq.trans hs
    exact platform_ofHexId hid
  · cases h
    cases hs

theorem platform_sectorOf (hspace : space.Named) {n : Node} {standard : Option Sector} {previous : Option Previous}
    (hstandard : OnPlatform space standard) (hprevious : OnPlatform space (previous.map (·.sector))) {s : Sector}
    (h : sectorOf space n standard previous = .ok s) : s.platform = space.platform := by
  obtain ⟨named, hnamed, h⟩ := bind_eq_ok h
  have hplatform := platform_namedSector hspace hnamed
  split at h
  · rename_i s' hsome
    cases h
    rcases Option.or_eq_some_iff.1 hsome with h | ⟨-, h⟩
    · exact hplatform s h
    · rcases Option.or_eq_some_iff.1 h with h | ⟨-, h⟩
      · exact hstandard s h
      · exact hprevious s h
  · cases h

theorem platform_readEntries (hspace : space.Named) {last : Option Sector} (hlast : OnPlatform space last)
    {texts : List (List Char)} {listed : List (Sector × String)} (h : readEntries space last texts = .ok listed) :
    ∀ entry ∈ listed, entry.1.platform = space.platform := by
  -- each entry hands its sector on to the next one, so the sector before is part of the induction
  induction texts generalizing last listed with
  | nil =>
    cases h
    exact List.forall_mem_nil _
  | cons text texts ih =>
    have hcons : ∀ {sector : Sector} {offset : String}, sector.platform = space.platform →
        (do let more ← readEntries space (some sector) texts; return (sector, offset) :: more) = .ok listed →
        ∀ entry ∈ listed, entry.1.platform = space.platform := by
      intro sector offset hsector h
      obtain ⟨more, hmore, h⟩ := bind_eq_ok h
      cases h
      refine List.forall_mem_cons.2 ⟨hsector, ih (fun s hs => ?_) hmore⟩
      cases hs
      exact hsector
    unfold readEntries at h
    dsimp only at h
    split at h
    · obtain ⟨⟨sector, offset⟩, hentry, h⟩ := bind_eq_ok h
      obtain ⟨s, hs, heq⟩ := map_eq_ok hentry
      cases heq
      exact hcons (platform_ofIdOrName hspace hs) h
    · exact hcons (hlast _ rfl) h
    · cases h

theorem platform_entries (hspace : space.Named) {n : Node} {standard : Option Sector}
    (hstandard : OnPlatform space standard) {listed : List (Sector × String)}
    (h : entries space n standard = .ok listed) : ∀ entry ∈ listed, entry.1.platform = space.platform := by
  unfold entries at h
  split at h
  · cases h
    exact List.forall_mem_nil _
  · exact platform_readEntries hspace hstandard h

/-! ## Places -/

/-- A place on the platform, at the RAM address of its offset. -/
structure Placed (space : AddressSpace) (place : Place) : Prop where
  platform : place.sector.platform = space.platform
  ram : place.ram = space.toRam place.sector place.offset

theorem placed_placeOfFile {sector : Sector} (h : sector.platform = space.platform) (offset : UInt32) :
    Placed space (placeOfFile space sector offset) :=
  ⟨h, rfl⟩

theorem placed_placeOfRam {sector : Sector} (h : sector.platform = space.platform) (ram : UInt32) :
    Placed space (placeOfRam space sector ram) :=
  ⟨h, (space.toRam_toFile sector ram).symm⟩

/-- The offset at which an element continues the one before is where that one ends, unless it is aligned. -/
theorem chainedOffset_eq_ok {tag : String} {previous : Option Previous} {align : Nat} {offset : UInt32}
    {sequential : Bool} (h : chainedOffset tag previous align = .ok (offset, sequential)) :
    ∃ p, previous = some p ∧ (sequential → (align = 0 ∨ p.stop % align = 0) ∧ offset.toNat = p.stop) := by
  unfold chainedOffset at h
  split at h
  · cases h
  · rename_i p
    dsimp only at h
    generalize hstart : (if align = 0 ∨ p.stop % align = 0 then p.stop else _) = start at h
    split at h
    · rename_i hle
      cases h
      refine ⟨p, rfl, fun hsequential => ?_⟩
      have haligned := of_decide_eq_true hsequential
      rw [if_pos haligned] at hstart
      subst hstart
      have hlt : p.stop < 2 ^ 32 := Nat.lt_succ_of_le hle
      exact ⟨haligned, by rw [UInt32.toNat_ofNat', Nat.mod_eq_of_lt hlt]⟩
    · cases h

/-- An element continues the one before where that one ends, if it would be aligned there. -/
theorem chainedOffset_of_aligned (tag : String) {p : Previous} {align : Nat} {offset : UInt32}
    (hoffset : offset.toNat = p.stop) (haligned : align = 0 ∨ p.stop % align = 0) :
    chainedOffset tag (some p) align = .ok (offset, true) := by
  have hle : p.stop ≤ maxWord := hoffset ▸ Nat.le_of_lt_succ offset.toNat_lt
  unfold chainedOffset
  dsimp only
  rw [if_pos haligned, if_pos hle, decide_eq_true haligned, ← hoffset, UInt32.ofNat_toNat]

/-- An element that starts exactly where the one before ended has one place, which is aligned. -/
theorem placement_sequential {n : Node} {standard : Option Sector} {previous : Option Previous} {align : Nat}
    {spot : Placement} (h : placement space n standard previous align = .ok spot) (hsequential : spot.sequential) :
    ∃ p place, previous = some p ∧ spot.places = [place] ∧ place.offset.toNat = p.stop ∧
      (align = 0 ∨ p.stop % align = 0) := by
  unfold placement at h
  obtain ⟨listed, hlisted, h⟩ := bind_eq_ok h
  split at h
  · obtain ⟨⟨offset, sequential⟩, hoffset, h⟩ := bind_eq_ok h
    obtain ⟨sector, hsector, h⟩ := bind_eq_ok h
    obtain ⟨p, hp, hstop⟩ := chainedOffset_eq_ok hoffset
    cases h
    obtain ⟨haligned, hstop⟩ := hstop hsequential
    exact ⟨p, _, hp, rfl, hstop, haligned⟩
  · obtain ⟨offsets, hoffsets, h⟩ := bind_eq_ok h
    obtain ⟨sector, hsector, h⟩ := bind_eq_ok h
    cases h
    cases hsequential
  · obtain ⟨places, hplaces, h⟩ := bind_eq_ok h
    cases h
    cases hsequential

/-- Each place of an element is that of an offset or of a RAM address, in the sector of the element or in one
that it lists. -/
theorem mem_placement {n : Node} {standard : Option Sector} {previous : Option Previous} {align : Nat}
    {spot : Placement} (h : placement space n standard previous align = .ok spot) {place : Place}
    (hplace : place ∈ spot.places) :
    ∃ sector word, (place = placeOfFile space sector word ∨ place = placeOfRam space sector word) ∧
      (sectorOf space n standard previous = .ok sector ∨
        ∃ listed entry, entries space n standard = .ok listed ∧ entry ∈ listed ∧ entry.1 = sector) := by
  unfold placement at h
  generalize hhow : (if countsInRam n then placeOfRam space else placeOfFile space) = how at h
  have hmade : ∀ sector word, how sector word = placeOfFile space sector word ∨
      how sector word = placeOfRam space sector word := by
    intro sector word
    rw [← hhow]
    split
    · exact .inr rfl
    · exact .inl rfl
  obtain ⟨listed, hlisted, h⟩ := bind_eq_ok h
  split at h
  · obtain ⟨⟨offset, sequential⟩, hoffset, h⟩ := bind_eq_ok h
    obtain ⟨sector, hsector, h⟩ := bind_eq_ok h
    cases h
    exact ⟨sector, offset, .inl (List.mem_singleton.1 hplace), .inl hsector⟩
  · obtain ⟨offsets, hoffsets, h⟩ := bind_eq_ok h
    obtain ⟨sector, hsector, h⟩ := bind_eq_ok h
    cases h
    obtain ⟨offset, -, rfl⟩ := List.mem_map.1 hplace
    exact ⟨sector, offset, hmade sector offset, .inl hsector⟩
  · obtain ⟨places, hplaces, h⟩ := bind_eq_ok h
    cases h
    obtain ⟨entry, hentry, hstep⟩ := mem_of_mapM_eq_ok hplaces hplace
    obtain ⟨offset, -, rfl⟩ := map_eq_ok hstep
    exact ⟨entry.1, offset, hmade entry.1 offset, .inr ⟨_, entry, hlisted, hentry, rfl⟩⟩

/-- All places of an element are on the platform. -/
theorem placed_placement (hspace : space.Named) {n : Node} {standard : Option Sector} {previous : Option Previous}
    {align : Nat} (hstandard : OnPlatform space standard) (hprevious : OnPlatform space (previous.map (·.sector)))
    {spot : Placement} (h : placement space n standard previous align = .ok spot) :
    ∀ place ∈ spot.places, Placed space place := by
  intro place hplace
  obtain ⟨sector, word, hmade, hsector⟩ := mem_placement h hplace
  have hplatform : sector.platform = space.platform := by
    rcases hsector with hsector | ⟨listed, entry, hlisted, hentry, rfl⟩
    · exact platform_sectorOf hspace hstandard hprevious hsector
    · exact platform_entries hspace hstandard hlisted entry hentry
  rcases hmade with rfl | rfl
  · exact placed_placeOfFile hplatform word
  · exact placed_placeOfRam hplatform word

/-! ## Written places -/

theorem withoutBlanks_digits {base : Nat} (hlow : 2 ≤ base) (hhigh : base ≤ 16) (n : Nat) :
    withoutBlanks (digits base n) = digits base n :=
  List.filter_eq_self.2 fun c hc => by rw [isBlank_of_mem_numerals c (mem_digits hlow hhigh hc)]; rfl

theorem compactAttr_of_none {n : Node} {key : String} (h : n.attr? key = none) : compactAttr n key = [] := by
  unfold compactAttr
  rw [h]
  rfl

theorem compactAttr_hex {n : Node} {key : String} {value : Nat} (h : n.attr? key = some (hex value)) :
    compactAttr n key = digits 16 value := by
  unfold compactAttr hex at *
  rw [h, Option.getD_some, String.toList_ofList, withoutBlanks_digits (by decide) (by decide)]

theorem hexNumber_hex (quantity : Quantity) (value : UInt32) : hexNumber quantity (hex value.toNat) = .ok value := by
  unfold hexNumber
  rw [hexWord?_hex]

/-- The sector that was written is named. -/
theorem namedSector_of_written (hspace : space.Named) {n : Node} {s : Sector} (hplatform : s.platform = space.platform)
    (hfile : n.attr? "file" = space.nameOf? s)
    (hsector : space.nameOf? s = none → n.attr? "sector" = some (hex s.id.toNat)) :
    namedSector space n = .ok (some s) := by
  unfold namedSector
  rw [hfile]
  cases hname : space.nameOf? s with
  | some name =>
    dsimp only
    rw [hspace.ofName s name hname]
    rfl
  | none =>
    rw [hsector hname]
    dsimp only
    unfold AddressSpace.ofHexId
    rw [hexWord?_hex, ← hplatform]
    rfl

end DiscPatch.Description
