/-
What a list of edits leaves in an image, byte by byte: at each position the byte of the last edit that covers it,
or the old byte where none does. The order of edits therefore matters only where they overlap, and where an edit
does not fit nothing is written at all.
-/
import DiscPatch.Proofs.Edit
import DiscPatch.Sector.Table

namespace DiscPatch

/-! ## One edit -/

theorem getElem?_setByte (image : ByteArray) (pos : Nat) (b : UInt8) (i : Nat) :
    (image.set! pos b).data[i]? = if pos = i ∧ i < image.size then some b else image.data[i]? := by
  show (image.data.setIfInBounds pos b)[i]? = _
  rw [Array.getElem?_setIfInBounds]
  by_cases hpos : pos = i
  · subst hpos
    rw [if_pos rfl]
    by_cases hsize : pos < image.size
    · rw [if_pos (show pos < image.data.size from hsize), if_pos ⟨rfl, hsize⟩]
    · rw [if_neg (show ¬ pos < image.data.size from hsize), if_neg fun h => hsize h.2,
        Array.getElem?_eq_none (not_lt.1 hsize)]
  · rw [if_neg hpos, if_neg fun h => hpos h.1]

/-- Overwriting changes the bytes from `pos` on, as far as the image reaches. -/
theorem getElem?_overwrite (image : ByteArray) (pos : Nat) (bytes : Bytes) (i : Nat) :
    (overwrite image pos bytes).data[i]? =
      if pos ≤ i ∧ i < pos + bytes.length ∧ i < image.size then bytes[i - pos]? else image.data[i]? := by
  induction bytes generalizing image pos with
  | nil =>
    rw [if_neg (by rw [List.length_nil]; omega)]
    rfl
  | cons b bytes ih =>
    rw [overwrite, ih, ByteArray.size_set!, getElem?_setByte, List.length_cons]
    -- The first byte goes to `pos`, and the others are written behind it, so they do not touch it again.
    rcases Nat.lt_trichotomy i pos with hlt | rfl | hgt
    · rw [if_neg (by omega), if_neg (by omega), if_neg (by omega)]
    · by_cases hsize : i < image.size
      · rw [if_neg (by omega), if_pos ⟨rfl, hsize⟩, if_pos (by omega), Nat.sub_self]
        rfl
      · rw [if_neg (by omega), if_neg (by omega), if_neg (by omega)]
    · have hcons : (b :: bytes)[i - pos]? = bytes[i - (pos + 1)]? := by
        rw [show i - pos = i - (pos + 1) + 1 by omega, List.getElem?_cons_succ]
      rw [hcons, if_neg (show ¬ (pos = i ∧ i < image.size) by omega)]
      exact if_congr (by omega) rfl rfl

namespace Edit

/-- The edit puts a byte to a position of the image. -/
def Puts (space : AddressSpace) (e : Edit) (i : Nat) (b : UInt8) : Prop :=
  ∃ base k, space.position? e.sector = some base ∧ i = base + e.offset.toNat + k ∧ e.bytes[k]? = some b

/-- The edit covers a position of the image. -/
def Covers (space : AddressSpace) (e : Edit) (i : Nat) : Prop :=
  ∃ b, e.Puts space i b

section Write

variable {space : AddressSpace} {e : Edit} {image : ByteArray} {i : Nat}

theorem Fits.lt_size (h : e.Fits space image.size) {b : UInt8} (hput : e.Puts space i b) : i < image.size := by
  obtain ⟨base, hbase, hsize⟩ := h
  obtain ⟨base', k, hbase', rfl, hb⟩ := hput
  cases hbase.symm.trans hbase'
  obtain ⟨hk, -⟩ := List.getElem?_eq_some_iff.1 hb
  unfold stop at hsize
  omega

theorem getElem?_write_of_puts (h : e.Fits space image.size) {b : UInt8} (hput : e.Puts space i b) :
    (e.write space image).data[i]? = some b := by
  have hi := h.lt_size hput
  obtain ⟨base, k, hbase, rfl, hb⟩ := hput
  obtain ⟨hk, -⟩ := List.getElem?_eq_some_iff.1 hb
  have hstart : e.start space = base + e.offset.toNat := by
    unfold start
    rw [hbase, Option.getD_some]
  unfold write
  rw [getElem?_overwrite, hstart, if_pos (by omega), Nat.add_sub_cancel_left, hb]

theorem getElem?_write_of_not_covers (h : e.Fits space image.size) (hi : ¬ e.Covers space i) :
    (e.write space image).data[i]? = image.data[i]? := by
  obtain ⟨base, hbase, -⟩ := h
  have hstart : e.start space = base + e.offset.toNat := by
    unfold start
    rw [hbase, Option.getD_some]
  unfold write
  rw [getElem?_overwrite]
  refine if_neg fun hin => hi ?_
  obtain ⟨k, rfl⟩ := Nat.exists_eq_add_of_le hin.1
  have hk : k < e.bytes.length := by omega
  exact ⟨e.bytes[k], base, k, hbase, by rw [hstart], List.getElem?_eq_getElem hk⟩

end Write

/-! ## Lists of edits -/

/-- An image holds what edits leave of another one: the last edit that covers a position counts, and where there is
none the byte stays. -/
structure Written (space : AddressSpace) (edits : List Edit) (image result : ByteArray) : Prop where
  size : result.size = image.size
  last : ∀ front e back, edits = front ++ e :: back → ∀ i b, e.Puts space i b →
    (∀ e' ∈ back, ¬ e'.Covers space i) → result.data[i]? = some b
  untouched : ∀ i, (∀ e ∈ edits, ¬ e.Covers space i) → result.data[i]? = image.data[i]?

section Written

variable {space : AddressSpace} {edits edits' : List Edit} {image result : ByteArray}

theorem Written.nil (space : AddressSpace) (image : ByteArray) : Written space [] image image where
  size := rfl
  last front e back h := by cases front <;> cases h
  untouched _ _ := rfl

theorem Written.cons {e : Edit} (he : e.Fits space image.size) (h : Written space edits (e.write space image) result) :
    Written space (e :: edits) image result where
  size := h.size.trans (size_write space image e)
  last front f back hsplit i b hput hback := by
    cases front with
    | nil =>
      cases hsplit
      exact (h.untouched i hback).trans (getElem?_write_of_puts he hput)
    | cons _ front =>
      cases hsplit
      exact h.last front f back rfl i b hput hback
  untouched i hi := by
    obtain ⟨hhead, htail⟩ := List.forall_mem_cons.1 hi
    exact (h.untouched i htail).trans (getElem?_write_of_not_covers he hhead)

theorem written_foldl_write (h : ∀ e ∈ edits, e.Fits space image.size) :
    Written space edits image (edits.foldl (write space) image) := by
  induction edits generalizing image with
  | nil => exact .nil space image
  | cons e rest ih =>
    obtain ⟨he, hrest⟩ := List.forall_mem_cons.1 h
    exact .cons he (ih (by rwa [size_write]))

/-- Of the edits that cover a position there is a last one. -/
theorem exists_last_of_covers {e : Edit} (he : e ∈ edits) {i : Nat} (hi : e.Covers space i) :
    ∃ front f back, edits = front ++ f :: back ∧ f.Covers space i ∧ ∀ f' ∈ back, ¬ f'.Covers space i := by
  induction edits generalizing e with
  | nil => cases he
  | cons a rest ih =>
    -- The head is the last one only if no edit behind it covers the position.
    by_cases hrest : ∃ f ∈ rest, f.Covers space i
    · obtain ⟨f, hf, hcovers⟩ := hrest
      obtain ⟨front, g, back, rfl, hg, hback⟩ := ih hf hcovers
      exact ⟨a :: front, g, back, rfl, hg, hback⟩
    · have hback : ∀ f ∈ rest, ¬ f.Covers space i := fun f hf hcovers => hrest ⟨f, hf, hcovers⟩
      rcases List.mem_cons.1 he with rfl | he
      · exact ⟨[], e, rest, rfl, hi, hback⟩
      · exact absurd hi (hback e he)

/-- What edits leave is determined at every position. -/
theorem Written.unique {result' : ByteArray} (h : Written space edits image result)
    (h' : Written space edits image result') : result = result' := by
  refine ByteArray.ext (Array.ext_getElem? fun i => ?_)
  by_cases hi : ∃ e ∈ edits, e.Covers space i
  · obtain ⟨e, he, hcovers⟩ := hi
    obtain ⟨front, f, back, hsplit, ⟨b, hput⟩, hback⟩ := exists_last_of_covers he hcovers
    rw [h.last front f back hsplit i b hput hback, h'.last front f back hsplit i b hput hback]
  · have hnone : ∀ e ∈ edits, ¬ e.Covers space i := fun e he hcovers => hi ⟨e, he, hcovers⟩
    rw [h.untouched i hnone, h'.untouched i hnone]

theorem writeAll_eq_ok_iff_written : writeAll space edits image = .ok result ↔
    (∀ e ∈ edits, e.Fits space image.size) ∧ Written space edits image result := by
  rw [writeAll_eq_ok_iff]
  refine and_congr_right fun hfits => ⟨?_, fun h => (written_foldl_write hfits).unique h⟩
  rintro rfl
  exact written_foldl_write hfits

/-- Two edits cover no position both. -/
def Apart (space : AddressSpace) (e e' : Edit) : Prop :=
  ∀ i, ¬ (e.Covers space i ∧ e'.Covers space i)

theorem Apart.symm {e e' : Edit} (h : e.Apart space e') : e'.Apart space e :=
  fun i hi => h i hi.symm

/-- Where edits lie apart, each of them is the last one on its positions, whatever the order. -/
theorem Written.of_perm (h : Written space edits image result) (hperm : edits'.Perm edits)
    (hapart : edits.Pairwise (Apart space)) : Written space edits' image result where
  size := h.size
  last front e back hsplit i b hput _ := by
    have he : e ∈ edits := hperm.subset (hsplit ▸ List.mem_append_right _ (List.mem_cons_self ..))
    obtain ⟨front', back', rfl⟩ := List.append_of_mem he
    -- In the old order the edits behind `e` are others, but none of them covers what `e` covers.
    have hback := (List.pairwise_cons.1 (List.pairwise_append.1 hapart).2.1).1
    exact h.last front' e back' rfl i b hput fun e' he' hcovers => hback e' he' i ⟨⟨b, hput⟩, hcovers⟩
  untouched i hi := h.untouched i fun e he => hi e (hperm.symm.subset he)

theorem writeAll_perm (hperm : edits'.Perm edits) (hapart : edits.Pairwise (Apart space)) :
    writeAll space edits' image = .ok result ↔ writeAll space edits image = .ok result := by
  have hapart' : edits'.Pairwise (Apart space) := (hperm.pairwise_iff Apart.symm).2 hapart
  rw [writeAll_eq_ok_iff_written, writeAll_eq_ok_iff_written]
  refine and_congr ⟨fun h e he => h e (hperm.symm.subset he), fun h e he => h e (hperm.subset he)⟩ ?_
  exact ⟨fun h => h.of_perm hperm.symm hapart', fun h => h.of_perm hperm hapart⟩

end Written

/-! ## Writing in place -/

/-- Writes edits to positions of an image that is changed in place. -/
def writePlaced (placed : List (Nat × Edit)) : ExceptT Error (StateM ByteArray) Unit :=
  placed.forM fun (pos, e) => do
    let image ← get
    let written ← (writeAt pos e image).mapError Obstacle.error
    set written

/-- Writes edits into an image that is changed in place. What is written before a failure stays written. -/
def writeInPlace (space : AddressSpace) (edits : List Edit) : ExceptT Error (StateM ByteArray) Unit := do
  let image ← get
  let places ← (edits.mapM (place .debug space image.size)).mapError Obstacle.error
  writePlaced (places.zip edits)

theorem writePlaced_eq {space : AddressSpace} {edits : List Edit} {image : ByteArray}
    (h : ∀ e ∈ edits, e.Fits space image.size) :
    writePlaced ((edits.map (start space)).zip edits) image = (.ok (), edits.foldl (write space) image) := by
  induction edits generalizing image with
  | nil => rfl
  | cons e rest ih =>
    obtain ⟨he, hrest⟩ := List.forall_mem_cons.1 h
    have hstep : writePlaced (((e :: rest).map (start space)).zip (e :: rest)) image =
        ((liftM ((writeAt (e.start space) e image).mapError Obstacle.error) >>= set) >>= fun _ =>
          writePlaced ((rest.map (start space)).zip rest) : ExceptT Error (StateM ByteArray) Unit) image := rfl
    rw [hstep, he.writeAt_eq]
    exact ih (by rwa [size_write])

/-- In place the edits end as they do otherwise, and where they fail the image is still the old one. -/
theorem writeInPlace_eq (space : AddressSpace) (edits : List Edit) (image : ByteArray) :
    writeInPlace space edits image =
      ((writeAll space edits image).map fun _ => (), (writeAll space edits image).toOption.getD image) := by
  have hchecked : writeInPlace space edits image =
      (liftM ((edits.mapM (place .debug space image.size)).mapError Obstacle.error) >>= fun places =>
        writePlaced (places.zip edits) : ExceptT Error (StateM ByteArray) Unit) image := rfl
  rw [hchecked]
  unfold writeAll
  rw [writeAs_debug_eq]
  cases hplaces : edits.mapM (place .debug space image.size) with
  | error obstacle => rfl
  | ok places =>
    obtain ⟨hfits, rfl⟩ := mapM_place_debug_eq_ok_iff.1 hplaces
    exact writePlaced_eq hfits

/-- Edits are written all or not at all. If one has no place in the image, the first such edit is to blame and the
image stays as it is, in place too; if all have, each position holds the byte of the last edit that covers it, or its
old byte. Edits that lie apart can be written in any order. -/
theorem writeAll_last_writer (space : AddressSpace) (edits : List Edit) (image : ByteArray) :
    (∀ error, writeAll space edits image = .error error ↔ ∃ front e back, edits = front ++ e :: back ∧
      (∀ f ∈ front, f.Fits space image.size) ∧ e.Refused space image.size error) ∧
    (∀ result, writeAll space edits image = .ok result ↔
      (∀ e ∈ edits, e.Fits space image.size) ∧ Written space edits image result) ∧
    writeInPlace space edits image =
      ((writeAll space edits image).map fun _ => (), (writeAll space edits image).toOption.getD image) ∧
    ∀ edits', edits'.Perm edits → edits.Pairwise (Apart space) →
      ∀ result, writeAll space edits' image = .ok result ↔ writeAll space edits image = .ok result :=
  ⟨fun _ => writeAll_eq_error_iff, fun _ => writeAll_eq_ok_iff_written, writeInPlace_eq space edits image,
    fun _ hperm hapart _ => writeAll_perm hperm hapart⟩

/-- A disc of two files, the second one sixteen bytes behind the first. -/
def twoFiles : AddressSpace :=
  SectorTable.space ⟨.psx, none, [⟨"A", 0, none, none⟩, ⟨"B", 1, none, some 16⟩]⟩

/-- Of two edits that overlap the later one counts. -/
example : writeAll twoFiles [⟨⟨.psx, 0⟩, 1, [1, 2, 3]⟩, ⟨⟨.psx, 0⟩, 2, [4]⟩] ⟨#[0, 0, 0, 0, 0]⟩ =
    .ok ⟨#[0, 1, 4, 3, 0]⟩ := by decide +kernel

/-- Edits of two files, written in both orders. -/
theorem writeAll_last_writer_two_files :
    let edits : List Edit := [⟨⟨.psx, 0⟩, 15, [1]⟩, ⟨⟨.psx, 1⟩, 0, [2, 3]⟩]
    let image : ByteArray := ⟨Array.replicate 18 0⟩
    edits.reverse.Perm edits ∧ edits.Pairwise (Apart twoFiles) ∧
      ∃ result, writeAll twoFiles edits.reverse image = .ok result ∧ result.data[15]? = some 1 ∧
        result.data[17]? = some 3 := by
  intro edits image
  have hperm : edits.reverse.Perm edits := List.reverse_perm edits
  have hapart : edits.Pairwise (Apart twoFiles) := by
    refine List.pairwise_pair.2 ?_
    rintro i ⟨⟨b, base, k, hbase, rfl, hb⟩, ⟨b', base', k', hbase', hi, -⟩⟩
    obtain rfl : 0 = base := Option.some.inj hbase
    obtain rfl : 16 = base' := Option.some.inj hbase'
    obtain ⟨hk, -⟩ := List.getElem?_eq_some_iff.1 hb
    have hk : k < 1 := hk
    have hi : 0 + 15 + k = 16 + 0 + k' := hi
    omega
  refine ⟨hperm, hapart, ⟨#[0, 0, 0, 0, 0, 0, 0, 0, 0, 0, 0, 0, 0, 0, 0, 1, 2, 3]⟩, ?_, rfl, rfl⟩
  exact ((writeAll_last_writer twoFiles edits image).2.2.2 _ hperm hapart _).2 (by decide +kernel)

end Edit
end DiscPatch
