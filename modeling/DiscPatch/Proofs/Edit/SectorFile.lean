/-
Edits of one sector can be written in two ways: all at once into the image, or one after the other into the
sector's own bytes. Both succeed on the same edits, fail with the same error, and leave the same bytes.
-/
import DiscPatch.Proofs.Edit.LastWriter

namespace DiscPatch

/-! ## The bytes behind a position -/

/-- Writing behind the front of an image is writing into what lies behind it. -/
theorem overwrite_append_left (front file : ByteArray) (pos : Nat) (bytes : Bytes) :
    overwrite (front ++ file) (front.size + pos) bytes = front ++ overwrite file pos bytes := by
  induction bytes generalizing file pos with
  | nil => rfl
  | cons b bytes ih =>
    have hset : (front ++ file).set! (front.size + pos) b = front ++ file.set! pos b := by
      refine ByteArray.ext ?_
      show (front ++ file).data.setIfInBounds (front.size + pos) b = (front ++ file.set! pos b).data
      rw [ByteArray.data_append, ByteArray.data_append,
        Array.setIfInBounds_append_right (show front.data.size ≤ front.size + pos from Nat.le_add_right ..)]
      show _ = front.data ++ file.data.setIfInBounds pos b
      rw [show front.size + pos - front.data.size = pos from Nat.add_sub_cancel_left ..]
    rw [overwrite, overwrite, hset, Nat.add_assoc, ih]

namespace Edit

/-! ## One edit after the other -/

/-- Writes edits of one sector into its bytes, one after the other, up to the first that does not fit. -/
def writeEach (edits : List Edit) (file : ByteArray) : Except Error ByteArray :=
  edits.foldlM (fun file e => e.writeTo file) file

theorem writeEach_cons (e : Edit) (edits : List Edit) (file : ByteArray) :
    writeEach (e :: edits) file = e.writeTo file >>= writeEach edits :=
  List.foldlM_cons

/-- Where writing edits one after the other fails, those before the first that does not fit have been written. -/
theorem exists_of_writeEach_eq_error {edits : List Edit} {file : ByteArray} {error : Error}
    (h : writeEach edits file = .error error) :
    ∃ front e back written, edits = front ++ e :: back ∧ writeEach front file = .ok written ∧
      e.writeTo written = .error error ∧ error = .outOfBounds e.sector e.offset.toNat e.bytes.length := by
  induction edits generalizing file with
  | nil => cases h
  | cons e rest ih =>
    rw [writeEach_cons] at h
    rcases bind_eq_error_iff.1 h with h | ⟨next, hnext, h⟩
    · refine ⟨[], e, rest, file, rfl, rfl, h, ?_⟩
      unfold writeTo at h
      split at h
      · cases h
      · exact (Except.error.inj h).symm
    · obtain ⟨front, f, back, written, rfl, hfront, hf, herror⟩ := ih h
      refine ⟨e :: front, f, back, written, rfl, ?_, hf, herror⟩
      rw [writeEach_cons, hnext, ok_bind, hfront]

section

variable {space : AddressSpace} {front : ByteArray}

/-- An edit fits in the image where it fits in the bytes of its sector. -/
theorem writeAll_singleton {e : Edit} (hfront : space.position? e.sector = some front.size) (file : ByteArray) :
    writeAll space [e] (front ++ file) = (e.writeTo file).map (front ++ ·) := by
  unfold writeTo
  split
  · rename_i hfits
    have hwrite : e.write space (front ++ file) = front ++ overwrite file e.offset.toNat e.bytes := by
      unfold write start
      rw [hfront, Option.getD_some, overwrite_append_left]
    refine writeAll_eq_ok_iff.2 ⟨List.forall_mem_singleton.2 ⟨front.size, hfront, ?_⟩, hwrite⟩
    rw [ByteArray.size_append]
    omega
  · rename_i hfits
    refine writeAll_eq_error_iff.2 ⟨[], e, [], rfl, List.forall_mem_nil _, .pastEnd hfront ?_⟩
    rw [ByteArray.size_append]
    omega

theorem writeAll_append_left {edits : List Edit} (hfront : ∀ e ∈ edits, space.position? e.sector = some front.size)
    (file : ByteArray) : writeAll space edits (front ++ file) = (writeEach edits file).map (front ++ ·) := by
  induction edits generalizing file with
  | nil => rfl
  | cons e rest ih =>
    obtain ⟨he, hrest⟩ := List.forall_mem_cons.1 hfront
    rw [← List.singleton_append, writeAll_append, writeAll_singleton he, List.singleton_append, writeEach_cons]
    cases e.writeTo file with
    | error error => rfl
    | ok next => exact ih hrest next

end

/-- Edits of one sector are written into the image exactly when they can be written one after the other into the
bytes from the sector's position on; the image then has its old bytes in front of those. Where it fails, the error
names the first edit that the bytes written so far have no room for. -/
theorem writeAll_eq_writeEach {space : AddressSpace} {s : Sector} {base : Nat} (hbase : space.position? s = some base)
    {image : ByteArray} (hsize : base ≤ image.size) {edits : List Edit} (hedits : ∀ e ∈ edits, e.sector = s) :
    let file := image.extract base image.size
    writeAll space edits image = (writeEach edits file).map (image.extract 0 base ++ ·) ∧
      ∀ error, writeAll space edits image = .error error →
        ∃ before e after written, edits = before ++ e :: after ∧ writeEach before file = .ok written ∧
          e.writeTo written = .error error ∧ error = .outOfBounds e.sector e.offset.toNat e.bytes.length := by
  intro file
  -- The image is put together again from what lies in front of the sector and the sector's bytes.
  have himage : image.extract 0 base ++ file = image := by
    rw [ByteArray.extract_append_extract, Nat.min_eq_left (Nat.zero_le _), Nat.max_eq_right hsize]
    exact ByteArray.extract_zero_size
  have hfront : (image.extract 0 base).size = base := by
    rw [ByteArray.size_extract]
    omega
  have heq : writeAll space edits image = (writeEach edits file).map (image.extract 0 base ++ ·) := by
    rw [← writeAll_append_left (fun e he => by rw [hedits e he, hbase, hfront]), himage]
  refine ⟨heq, fun error h => exists_of_writeEach_eq_error ?_⟩
  rw [heq] at h
  cases heach : writeEach edits file with
  | error error' =>
    rw [heach] at h
    exact congrArg Except.error (Except.error.inj h)
  | ok written =>
    rw [heach] at h
    cases h

/-- Empty edits have room at the end of a file but not behind it, whatever stands in front of the file. -/
theorem writeAll_eq_writeEach_past_end :
    let edits : List Edit := [⟨⟨.psx, 1⟩, 2, []⟩, ⟨⟨.psx, 1⟩, 1, [9]⟩, ⟨⟨.psx, 1⟩, 3, []⟩]
    let image : ByteArray := ⟨Array.replicate 18 0⟩
    twoFiles.position? ⟨.psx, 1⟩ = some 16 ∧ 16 ≤ image.size ∧ (∀ e ∈ edits, e.sector = ⟨.psx, 1⟩) ∧
      writeAll twoFiles edits image = .error (.outOfBounds ⟨.psx, 1⟩ 3 0) ∧
      writeAll twoFiles (edits.take 2) image = .ok (image.extract 0 16 ++ ⟨#[0, 9]⟩) := by
  intro edits image
  have hbase : twoFiles.position? ⟨.psx, 1⟩ = some 16 := rfl
  have hsize : 16 ≤ image.size := by decide
  have hedits : ∀ e ∈ edits, e.sector = ⟨.psx, 1⟩ := by decide
  refine ⟨hbase, hsize, hedits, ?_, ?_⟩
  · rw [(writeAll_eq_writeEach hbase hsize hedits).1]
    decide +kernel
  · rw [(writeAll_eq_writeEach hbase hsize fun e he => hedits e (List.mem_of_mem_take he)).1]
    decide +kernel

end Edit
end DiscPatch
