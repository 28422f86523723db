/-
Edits in the two builds of the program. A build for release takes sums of positions modulo `2 ^ 64`, where one for
debugging breaks off; as long as no sum is that large both do the same. What either of them writes at once it could
as well write one edit after the other.
-/
import DiscPatch.Proofs.Edit
import DiscPatch.Sector.Table

namespace DiscPatch.Edit

variable {space : AddressSpace}

/-! ## Sums of positions -/

section

variable {size base : Nat} {e : Edit}

/-- A build for debugging looks whether the sum fits into 64 bits before it looks whether the edit fits. -/
theorem place_debug_eq (hbase : space.position? e.sector = some base) (hsize : size < UInt64.size) :
    e.place .debug space size =
      if base + e.stop < UInt64.size then
        if size < base + e.stop then .error (.refused e.misfit) else .ok (base + e.offset.toNat)
      else .error (.brokenOff e) := by
  unfold place
  rw [hbase]
  dsimp only
  split
  · rw [if_pos (by omega), if_neg (by omega)]
  · rename_i hlt
    exact if_congr Iff.rfl (if_pos (not_le.1 hlt)).symm rfl

/-- A build for release places edits by sums modulo `2 ^ 64`. -/
theorem place_release_eq (hbase : space.position? e.sector = some base) (hsize : size < UInt64.size) :
    e.place .release space size =
      let start : UInt64 := .ofNat base + e.offset.toUInt64
      let stop : UInt64 := start + .ofNat e.bytes.length
      if size < stop.toNat then .error (.refused e.misfit) else .ok start.toNat := by
  have hstart : (UInt64.ofNat base + e.offset.toUInt64).toNat = (base + e.offset.toNat) % UInt64.size := by
    rw [UInt64.toNat_add, UInt64.toNat_ofNat', UInt32.toNat_toUInt64, Nat.mod_add_mod]
  have hstop : (UInt64.ofNat base + e.offset.toUInt64 + .ofNat e.bytes.length).toNat =
      (base + e.stop) % UInt64.size := by
    rw [UInt64.toNat_add, hstart, UInt64.toNat_ofNat', Nat.mod_add_mod, Nat.add_mod_mod, Nat.add_assoc]
    rfl
  unfold place
  rw [hbase]
  dsimp only
  -- Only where the exact sum is too large do the sums modulo `2 ^ 64` say something else.
  split
  · rename_i hle
    have hlt : base + e.stop < UInt64.size := by omega
    have hfirst : base + e.offset.toNat < UInt64.size :=
      lt_of_le_of_lt (Nat.add_le_add_left (Nat.le_add_right ..) _) hlt
    rw [hstart, hstop, Nat.mod_eq_of_lt hlt, Nat.mod_eq_of_lt hfirst, if_neg (by omega)]
  · rename_i hlt
    split
    · rename_i hsum
      rw [hstop, Nat.mod_eq_of_lt hsum, if_pos (by omega)]
    · rfl

/-- All sums of positions for the edit fit into 64 bits. -/
def Counted (space : AddressSpace) (e : Edit) : Prop :=
  ∀ base, space.position? e.sector = some base → base + e.stop < UInt64.size

theorem place_eq_of_counted (h : e.Counted space) (build : Build) (size : Nat) :
    e.place build space size = e.place .debug space size := by
  unfold place
  cases hbase : space.position? e.sector with
  | none => rfl
  | some base =>
    dsimp only
    rw [if_pos (h base hbase), if_pos (h base hbase)]

/-- Where no sum is too large the builds agree. -/
theorem writeAs_eq_of_counted {edits : List Edit} (h : ∀ e ∈ edits, e.Counted space) (build : Build)
    (image : ByteArray) : writeAs build space edits image = writeAs .debug space edits image := by
  unfold writeAs
  rw [mapM_congr fun e he => place_eq_of_counted (h e he) build image.size]

end

/-! ## One edit after the other -/

variable {build : Build} {edits more : List Edit} {image result : ByteArray}

/-- Checks an edit, and writes it if it fits. -/
def writeOne (build : Build) (space : AddressSpace) (image : ByteArray) (e : Edit) : Except Obstacle ByteArray := do
  let pos ← e.place build space image.size
  e.writeAt pos image

theorem size_of_writeAt {pos : Nat} {e : Edit} (h : e.writeAt pos image = .ok result) : result.size = image.size := by
  unfold writeAt at h
  split at h
  · cases h
    exact size_overwrite ..
  · cases h

/-- What is written at once is what is written one edit after the other, for writing keeps the size of the image and
so the places of all edits. -/
theorem writeAs_eq_ok_iff :
    writeAs build space edits image = .ok result ↔ edits.foldlM (writeOne build space) image = .ok result := by
  unfold writeAs
  induction edits generalizing image with
  | nil => rfl
  | cons e rest ih =>
    rw [List.mapM_cons, List.foldlM_cons]
    constructor
    · intro h
      obtain ⟨places, hplaces, h⟩ := bind_eq_ok h
      obtain ⟨pos, hpos, hplaces⟩ := bind_eq_ok hplaces
      obtain ⟨others, hothers, hplaces⟩ := bind_eq_ok hplaces
      cases hplaces
      rw [List.zip_cons_cons, List.foldlM_cons] at h
      obtain ⟨next, hnext, h⟩ := bind_eq_ok h
      have hnext : writeAt pos e image = .ok next := hnext
      have hone : writeOne build space image e = .ok next := by
        unfold writeOne
        rw [hpos, ok_bind, hnext]
      rw [hone, ok_bind]
      refine ih.1 ?_
      rw [size_of_writeAt hnext, hothers]
      exact h
    · intro h
      obtain ⟨next, hone, h⟩ := bind_eq_ok h
      obtain ⟨pos, hpos, hnext⟩ := bind_eq_ok hone
      obtain ⟨others, hothers, h⟩ := bind_eq_ok (ih.2 h)
      rw [size_of_writeAt hnext] at hothers
      rw [hpos, ok_bind, hothers]
      have hfirst : writeAt pos e image >>= (fun image => (others.zip rest).foldlM
          (fun image p => writeAt p.1 p.2 image) image) = .ok result := by
        rw [hnext]
        exact h
      exact hfirst

theorem writeAs_append_eq_ok_iff : writeAs build space (edits ++ more) image = .ok result ↔
    ∃ between, writeAs build space edits image = .ok between ∧ writeAs build space more between = .ok result := by
  simp only [writeAs_eq_ok_iff, List.foldlM_append]
  constructor
  · exact bind_eq_ok
  · rintro ⟨between, hbetween, hmore⟩
    rw [hbetween]
    exact hmore

/-- A disc with a file that starts at the last position. -/
def brinkTable : SectorTable :=
  ⟨.psx, none, [⟨"A", 0, none, some 0xFFFFFFFFFFFFFFFF⟩]⟩

/-- The byte behind the last position is the first one of the image, unless the run breaks off; a byte at the last
position is in no image, which a build for release finds out when it writes. -/
example :
    let behind : Edit := ⟨⟨.psx, 0⟩, 1, [7]⟩
    let last : Edit := ⟨⟨.psx, 0⟩, 0, [7]⟩
    writeAs .release brinkTable.space [behind] ⟨#[0, 0]⟩ = .ok ⟨#[7, 0]⟩ ∧
      writeAs .debug brinkTable.space [behind] ⟨#[0, 0]⟩ = .error (.brokenOff behind) ∧
      last.place .release brinkTable.space 2 = .ok 0xFFFFFFFFFFFFFFFF ∧
      writeAs .release brinkTable.space [last] ⟨#[0, 0]⟩ = .error (.brokenOff last) := by
  decide +kernel

end DiscPatch.Edit
