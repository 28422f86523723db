/-
Lists of edits: they are written exactly when each of them fits on its own, and then one after the other.
Edits that join one behind the other can be written as one.
-/
import DiscPatch.Edit
import DiscPatch.Proofs.Except

namespace DiscPatch

/-! ## Overwriting -/

theorem overwrite_append (image : ByteArray) (pos : Nat) (front back : Bytes) :
    overwrite image pos (front ++ back) = overwrite (overwrite image pos front) (pos + front.length) back := by
  induction front generalizing image pos with
  | nil => rfl
  | cons b front ih =>
    rw [List.cons_append, overwrite, ih, List.length_cons, overwrite, Nat.add_assoc, Nat.add_comm 1]

theorem size_overwrite (image : ByteArray) (pos : Nat) (bytes : Bytes) :
    (overwrite image pos bytes).size = image.size := by
  induction bytes generalizing image pos with
  | nil => rfl
  | cons b bytes ih => rw [overwrite, ih, ByteArray.size_set!]

namespace Edit

/-! ## Places -/

/-- Whether the edit lies in an image of the given size. -/
def Fits (space : AddressSpace) (size : Nat) (e : Edit) : Prop :=
  ∃ base, space.position? e.sector = some base ∧ base + e.stop ≤ size

/-- The position of the edit in the image, for a sector that has one. -/
def start (space : AddressSpace) (e : Edit) : Nat :=
  (space.position? e.sector).getD 0 + e.offset.toNat

/-- The image with the bytes of the edit in their place. -/
def write (space : AddressSpace) (image : ByteArray) (e : Edit) : ByteArray :=
  overwrite image (e.start space) e.bytes

theorem place_debug_eq_ok_iff {space : AddressSpace} {size : Nat} {e : Edit} {pos : Nat} :
    e.place .debug space size = .ok pos ↔ e.Fits space size ∧ pos = e.start space := by
  unfold place Fits start
  cases space.position? e.sector with
  | none => simp
  | some base =>
    dsimp only
    split
    · rename_i hle
      simp only [Except.ok.injEq, Option.some.injEq, Option.getD_some]
      exact ⟨fun h => ⟨⟨base, rfl, hle⟩, h.symm⟩, fun h => h.2.symm⟩
    · rename_i hlt
      have hnot : ¬ ∃ base', some base = some base' ∧ base' + e.stop ≤ size := by
        rintro ⟨_, ⟨⟩, hle⟩
        exact hlt hle
      exact iff_of_false (fun h => by split at h <;> cases h) fun h => hnot h.1

theorem mapM_place_debug_eq_ok_iff {space : AddressSpace} {size : Nat} {edits : List Edit} {places : List Nat} :
    edits.mapM (place .debug space size) = .ok places ↔
      (∀ e ∈ edits, e.Fits space size) ∧ places = edits.map (start space) := by
  induction edits generalizing places with
  | nil =>
    rw [List.mapM_nil]
    show Except.ok [] = .ok places ↔ _
    simp [eq_comm]
  | cons e rest ih =>
    rw [List.mapM_cons, List.forall_mem_cons, List.map_cons]
    constructor
    · intro h
      obtain ⟨pos, hpos, h⟩ := bind_eq_ok h
      obtain ⟨more, hmore, h⟩ := bind_eq_ok h
      obtain ⟨hfits, rfl⟩ := place_debug_eq_ok_iff.1 hpos
      obtain ⟨hrest, rfl⟩ := ih.1 hmore
      cases h
      exact ⟨⟨hfits, hrest⟩, rfl⟩
    · rintro ⟨⟨hfits, hrest⟩, rfl⟩
      rw [place_debug_eq_ok_iff.2 ⟨hfits, rfl⟩, ih.2 ⟨hrest, rfl⟩]
      rfl

theorem size_write (space : AddressSpace) (image : ByteArray) (e : Edit) : (e.write space image).size = image.size :=
  size_overwrite ..

theorem size_foldl_write (space : AddressSpace) (edits : List Edit) (image : ByteArray) :
    (edits.foldl (write space) image).size = image.size := by
  induction edits generalizing image with
  | nil => rfl
  | cons e rest ih => rw [List.foldl_cons, ih, size_write]

/-- An edit that fits is written where it was placed. -/
theorem Fits.writeAt_eq {space : AddressSpace} {image : ByteArray} {e : Edit} (h : e.Fits space image.size) :
    e.writeAt (e.start space) image = .ok (e.write space image) := by
  obtain ⟨base, hbase, hsize⟩ := h
  unfold writeAt write start
  rw [hbase]
  refine if_pos ?_
  unfold stop at hsize
  show base + e.offset.toNat + e.bytes.length ≤ image.size
  omega

theorem foldlM_writeAt {space : AddressSpace} {edits : List Edit} {image : ByteArray}
    (h : ∀ e ∈ edits, e.Fits space image.size) :
    ((edits.map (start space)).zip edits).foldlM (fun image (pos, e) => writeAt pos e image) image =
      .ok (edits.foldl (write space) image) := by
  induction edits generalizing image with
  | nil => rfl
  | cons e rest ih =>
    obtain ⟨he, hrest⟩ := List.forall_mem_cons.1 h
    rw [List.map_cons, List.zip_cons_cons, List.foldlM_cons]
    dsimp only
    rw [he.writeAt_eq, ok_bind]
    exact ih (by rwa [size_write])

/-- A build for debugging breaks off as soon as a sum does not fit into 64 bits, so it can write what it has placed. -/
theorem writeAs_debug_eq (space : AddressSpace) (edits : List Edit) (image : ByteArray) :
    writeAs .debug space edits image =
      (edits.mapM (place .debug space image.size)).map fun _ => edits.foldl (write space) image := by
  unfold writeAs
  cases hplaces : edits.mapM (place .debug space image.size) with
  | error obstacle => rfl
  | ok places =>
    obtain ⟨hfits, rfl⟩ := mapM_place_debug_eq_ok_iff.1 hplaces
    exact foldlM_writeAt hfits

/-- Edits are written when all of them fit, in their order. -/
theorem writeAll_eq_ok_iff {space : AddressSpace} {edits : List Edit} {image result : ByteArray} :
    writeAll space edits image = .ok result ↔
      (∀ e ∈ edits, e.Fits space image.size) ∧ edits.foldl (write space) image = result := by
  unfold writeAll
  rw [mapError_eq_ok_iff, writeAs_debug_eq]
  constructor
  · intro h
    obtain ⟨places, hplaces, rfl⟩ := map_eq_ok h
    exact ⟨(mapM_place_debug_eq_ok_iff.1 hplaces).1, rfl⟩
  · rintro ⟨hfits, rfl⟩
    rw [mapM_place_debug_eq_ok_iff.2 ⟨hfits, rfl⟩]
    rfl

/-! ## Edits that do not fit -/

/-- Why an edit cannot be written into an image of the given size. -/
inductive Refused (space : AddressSpace) (size : Nat) (e : Edit) : Error → Prop
  | unplaced (h : space.position? e.sector = none) : Refused space size e (.unknownSector e.sector.text)
  | pastEnd {base : Nat} (h : space.position? e.sector = some base) (hsize : size < base + e.stop) :
    Refused space size e (.outOfBounds e.sector e.offset.toNat e.bytes.length)

/-- Where a build for debugging breaks off, the edit is one that does not fit. -/
theorem place_debug_eq_error_iff {space : AddressSpace} {size : Nat} {e : Edit} {error : Error} :
    (∃ obstacle, e.place .debug space size = .error obstacle ∧ obstacle.error = error) ↔
      e.Refused space size error := by
  unfold place
  constructor
  · rintro ⟨obstacle, h, rfl⟩
    split at h
    · rename_i hnone
      cases h
      exact .unplaced hnone
    · rename_i base hbase
      split at h
      · cases h
      · rename_i hsize
        split at h <;> cases h <;> exact .pastEnd hbase (by omega)
  · rintro (hnone | ⟨hbase, hsize⟩)
    · rw [hnone]
      exact ⟨_, rfl, rfl⟩
    · rw [hbase]
      dsimp only
      rw [if_neg (by omega)]
      split <;> exact ⟨_, rfl, rfl⟩

/-- Nothing is written when an edit does not fit, and the first such edit is to blame. -/
theorem writeAll_eq_error_iff {space : AddressSpace} {edits : List Edit} {image : ByteArray} {error : Error} :
    writeAll space edits image = .error error ↔ ∃ front e back, edits = front ++ e :: back ∧
      (∀ f ∈ front, f.Fits space image.size) ∧ e.Refused space image.size error := by
  have hfits (e : Edit) : (∃ pos, e.place .debug space image.size = .ok pos) ↔ e.Fits space image.size := by
    simp only [place_debug_eq_ok_iff, exists_and_left, exists_eq, and_true]
  unfold writeAll
  rw [mapError_eq_error_iff, writeAs_debug_eq]
  simp only [map_eq_error_iff, mapM_eq_error_iff, hfits]
  constructor
  · rintro ⟨obstacle, ⟨front, e, back, rfl, hfront, he⟩, herror⟩
    exact ⟨front, e, back, rfl, hfront, place_debug_eq_error_iff.1 ⟨obstacle, he, herror⟩⟩
  · rintro ⟨front, e, back, rfl, hfront, he⟩
    obtain ⟨obstacle, hobstacle, herror⟩ := place_debug_eq_error_iff.2 he
    exact ⟨obstacle, ⟨front, e, back, rfl, hfront, hobstacle⟩, herror⟩

/-- Edits are written as well in two steps, the second one on the image that the first one leaves. -/
theorem writeAll_append (space : AddressSpace) (edits more : List Edit) (image : ByteArray) :
    writeAll space (edits ++ more) image = writeAll space edits image >>= writeAll space more := by
  cases hfirst : writeAll space edits image with
  | error error =>
    obtain ⟨front, e, back, rfl, hfront, he⟩ := writeAll_eq_error_iff.1 hfirst
    exact writeAll_eq_error_iff.2 ⟨front, e, back ++ more, by simp, hfront, he⟩
  | ok between =>
    obtain ⟨hfits, rfl⟩ := writeAll_eq_ok_iff.1 hfirst
    rw [ok_bind]
    cases hsecond : writeAll space more (edits.foldl (write space) image) with
    | error error =>
      obtain ⟨front, e, back, rfl, hfront, he⟩ := writeAll_eq_error_iff.1 hsecond
      rw [size_foldl_write] at hfront he
      refine writeAll_eq_error_iff.2 ⟨edits ++ front, e, back, (List.append_assoc ..).symm, ?_, he⟩
      exact List.forall_mem_append.2 ⟨hfits, hfront⟩
    | ok result =>
      obtain ⟨hmore, rfl⟩ := writeAll_eq_ok_iff.1 hsecond
      rw [size_foldl_write] at hmore
      exact writeAll_eq_ok_iff.2 ⟨List.forall_mem_append.2 ⟨hfits, hmore⟩, List.foldl_append⟩

/-! ## Joining edits -/

/-- Whether the second edit starts where the first one ends. -/
def Precedes (e e' : Edit) : Prop :=
  e.sector = e'.sector ∧ e.stop = e'.offset.toNat

/-- The bytes of two edits as one edit. -/
def join (e e' : Edit) : Edit :=
  { e with bytes := e.bytes ++ e'.bytes }

/-- The second list has the edits of the first, some of them joined to the ones before them. -/
inductive Joined : List Edit → List Edit → Prop
  | nil : Joined [] []
  | keep (e : Edit) {edits merged : List Edit} (h : Joined edits merged) : Joined (e :: edits) (e :: merged)
  | join {e e' : Edit} {edits merged : List Edit} (hprecedes : e.Precedes e')
    (h : Joined (e.join e' :: edits) merged) : Joined (e :: e' :: edits) merged

theorem Joined.refl (edits : List Edit) : Joined edits edits := by
  induction edits with
  | nil => exact .nil
  | cons e rest ih => exact .keep e ih

theorem Joined.append {edits edits' merged merged' : List Edit} (h : Joined edits merged)
    (h' : Joined edits' merged') : Joined (edits ++ edits') (merged ++ merged') := by
  induction h with
  | nil => exact h'
  | keep e _ ih => exact .keep e ih
  | join hprecedes _ ih => exact .join hprecedes ih

theorem Precedes.stop_join {e e' : Edit} (h : e.Precedes e') : (e.join e').stop = e'.stop := by
  obtain ⟨-, hstop⟩ := h
  unfold stop at hstop ⊢
  show e.offset.toNat + (e.bytes ++ e'.bytes).length = _
  rw [List.length_append]
  omega

/-- An edit joined to the one before it fits exactly when both fit. -/
theorem Precedes.fits_join_iff {space : AddressSpace} {size : Nat} {e e' : Edit} (h : e.Precedes e') :
    (e.join e').Fits space size ↔ e.Fits space size ∧ e'.Fits space size := by
  have hle : e.stop ≤ e'.stop := by
    rw [h.2]
    exact Nat.le_add_right ..
  unfold Fits
  rw [h.stop_join]
  show (∃ base, space.position? e.sector = some base ∧ _) ↔ _
  rw [h.1]
  constructor
  · rintro ⟨base, hbase, hsize⟩
    exact ⟨⟨base, hbase, by omega⟩, ⟨base, hbase, hsize⟩⟩
  · exact And.right

/-- An edit joined to the one before it writes what both write. -/
theorem Precedes.write_join {space : AddressSpace} {e e' : Edit} (h : e.Precedes e') (image : ByteArray) :
    (e.join e').write space image = e'.write space (e.write space image) := by
  obtain ⟨hsector, hstop⟩ := h
  have hstart : e.start space + e.bytes.length = e'.start space := by
    unfold stop at hstop
    unfold start
    rw [hsector, ← hstop]
    omega
  show overwrite image (e.start space) (e.bytes ++ e'.bytes) = _
  rw [overwrite_append, hstart]
  rfl

namespace Joined

variable {edits merged : List Edit}

theorem forall_fits_iff (h : Joined edits merged) (space : AddressSpace) (size : Nat) :
    (∀ e ∈ merged, e.Fits space size) ↔ ∀ e ∈ edits, e.Fits space size := by
  induction h with
  | nil => rfl
  | keep e _ ih => rw [List.forall_mem_cons, List.forall_mem_cons, ih]
  | join hprecedes _ ih =>
    rw [ih, List.forall_mem_cons, List.forall_mem_cons, List.forall_mem_cons, hprecedes.fits_join_iff, and_assoc]

theorem foldl_write (h : Joined edits merged) (space : AddressSpace) (image : ByteArray) :
    merged.foldl (write space) image = edits.foldl (write space) image := by
  induction h generalizing image with
  | nil => rfl
  | keep e _ ih => exact ih _
  | join hprecedes _ ih =>
    rw [ih, List.foldl_cons, List.foldl_cons, List.foldl_cons, hprecedes.write_join]

/-- Joining keeps all bytes in their order. -/
theorem flatMap_bytes (h : Joined edits merged) : merged.flatMap (·.bytes) = edits.flatMap (·.bytes) := by
  induction h with
  | nil => rfl
  | keep e _ ih => rw [List.flatMap_cons, List.flatMap_cons, ih]
  | join _ _ ih =>
    rw [ih, List.flatMap_cons, List.flatMap_cons, List.flatMap_cons]
    exact List.append_assoc ..

/-- Joining changes neither whether edits can be written nor what is written. -/
theorem writeAll_iff (h : Joined edits merged) (space : AddressSpace) (image result : ByteArray) :
    writeAll space merged image = .ok result ↔ writeAll space edits image = .ok result := by
  rw [writeAll_eq_ok_iff, writeAll_eq_ok_iff, h.forall_fits_iff, h.foldl_write]

end Joined
end Edit
end DiscPatch
