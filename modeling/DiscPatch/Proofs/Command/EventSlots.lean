/-
Slots of events. A file is its slots one behind the other; encoding puts each event into a slot of its
own, filled up with zeros, and stops at the first event that is larger than its slot.
-/
import DiscPatch.Command.Slots
import DiscPatch.Proofs.Except

namespace DiscPatch

/-! ## Cutting bytes into pieces -/

namespace Bytes

variable {n : Nat}

theorem cutOnto_nil (n : Nat) (done : Array Bytes) : cutOnto n done [] = done := by
  rw [cutOnto, dif_pos (.inl rfl)]

theorem cutOnto_append (hn : n ≠ 0) {front : Bytes} (hfront : front.length = n) (done : Array Bytes)
    (rest : Bytes) : cutOnto n done (front ++ rest) = cutOnto n (done.push front) rest := by
  have hne : ¬ (front ++ rest = [] ∨ n = 0) := by
    rintro (h | h)
    · rw [(List.append_eq_nil_iff.1 h).1] at hfront
      exact hn hfront.symm
    · exact hn h
  rw [cutOnto, dif_neg hne, List.take_left' hfront, List.drop_left' hfront]

/-- Pieces of the right size are found again where they were joined. -/
theorem chunks_flatten (hn : n ≠ 0) {pieces : List Bytes} (h : ∀ piece ∈ pieces, piece.length = n) :
    chunks n pieces.flatten = pieces := by
  have hcut : ∀ done : Array Bytes, (cutOnto n done pieces.flatten).toList = done.toList ++ pieces := by
    induction pieces with
    | nil =>
      intro done
      rw [List.flatten_nil, cutOnto_nil, List.append_nil]
    | cons piece pieces ih =>
      intro done
      obtain ⟨hpiece, hpieces⟩ := List.forall_mem_cons.1 h
      rw [List.flatten_cons, cutOnto_append hn hpiece, ih hpieces, Array.toList_push, List.append_assoc]
      rfl
  exact hcut #[]

theorem flatten_eq_flatten_iff (hn : n ≠ 0) {pieces pieces' : List Bytes} (h : ∀ piece ∈ pieces, piece.length = n)
    (h' : ∀ piece ∈ pieces', piece.length = n) : pieces.flatten = pieces'.flatten ↔ pieces = pieces' := by
  constructor
  · intro heq
    rw [← chunks_flatten hn h, heq, chunks_flatten hn h']
  · rintro rfl
    rfl

/-- Bytes for a whole number of pieces are such pieces, each found at its multiple of the size. -/
theorem exists_pieces {count : Nat} : ∀ {bytes : Bytes}, bytes.length = n * count →
    ∃ pieces : List Bytes, pieces.length = count ∧ (∀ piece ∈ pieces, piece.length = n) ∧ bytes = pieces.flatten ∧
      ∀ (i : Nat) (piece : Bytes), pieces[i]? = some piece → piece = (bytes.drop (n * i)).take n := by
  induction count with
  | zero =>
    intro bytes h
    have hnil : bytes = [] := List.eq_nil_of_length_eq_zero h
    exact ⟨[], rfl, List.forall_mem_nil _, hnil, fun i piece hpiece => by cases hpiece⟩
  | succ count ih =>
    intro bytes h
    have hlength : bytes.length = n * count + n := by rw [h, Nat.mul_succ]
    have hrest : (bytes.drop n).length = n * count := by rw [List.length_drop]; omega
    have hfirst : (bytes.take n).length = n := by rw [List.length_take]; omega
    obtain ⟨pieces, hcount, hsize, hbytes, hat⟩ := ih hrest
    refine ⟨bytes.take n :: pieces, by rw [List.length_cons, hcount], List.forall_mem_cons.2 ⟨hfirst, hsize⟩, ?_, ?_⟩
    · rw [List.flatten_cons, ← hbytes, List.take_append_drop]
    · intro i piece hpiece
      cases i with
      | zero =>
        cases hpiece
        rfl
      | succ i =>
        rw [hat i piece hpiece, List.drop_drop, Nat.mul_succ, Nat.add_comm]

end Bytes

namespace Command

/-! ## Slots of events -/

theorem slotSize_ne_zero : slotSize ≠ 0 := by decide

/-- The bytes of the slot at `i`. -/
def slotAt (bytes : Bytes) (i : Nat) : Bytes :=
  (bytes.drop (slotSize * i)).take slotSize

namespace Event

/-- Whether the event is no larger than its slot. -/
def FitsSlot (e : Event) : Prop := e.encode.length ≤ slotSize

instance (e : Event) : Decidable e.FitsSlot :=
  inferInstanceAs (Decidable (_ ≤ _))

/-- The zeros that fill up the slot. -/
def fill (e : Event) : Bytes :=
  List.replicate (slotSize - e.encode.length) 0

/-- The slot of an event that fits. -/
def slot (e : Event) : Bytes :=
  e.encode ++ e.fill

theorem length_slot {e : Event} (h : e.FitsSlot) : e.slot.length = slotSize := by
  have h : e.encode.length ≤ slotSize := h
  rw [slot, fill, List.length_append, List.length_replicate]
  omega

/-- An event that fills its slot has no zeros behind it. -/
theorem slot_of_length_eq {e : Event} (h : e.encode.length = slotSize) : e.slot = e.encode := by
  rw [slot, fill, h, Nat.sub_self, List.replicate_zero, List.append_nil]

end Event

theorem eventSlot_of_fits {e : Event} (h : e.FitsSlot) (index : Nat) : eventSlot index e = .ok e.slot :=
  if_pos h

theorem eventSlot_of_not_fits {e : Event} (h : ¬ e.FitsSlot) (index : Nat) :
    eventSlot index e = .error (.eventTooLarge index e.encode.length slotSize) :=
  if_neg h

/-! ## Decoding a file -/

/-- A file of whole slots is decoded slot by slot. -/
theorem decodeFile_flatten_iff {table : Table} {slots : List Bytes} {events : List Event}
    (hsize : ∀ slot ∈ slots, slot.length = slotSize) :
    Event.decodeFile table slots.flatten = .ok events ↔
      List.Forall₂ (fun slot e => Event.decode table slot = .ok e) slots events := by
  unfold Event.decodeFile
  rw [Bytes.chunks_flatten slotSize_ne_zero hsize, mapM_eq_ok_iff]

/-! ## Encoding a file -/

theorem eventSlots_of_fits {events : List Event} (h : ∀ e ∈ events, e.FitsSlot) (index : Nat) :
    eventSlots index events = .ok (events.map Event.slot).flatten := by
  induction events generalizing index with
  | nil => rfl
  | cons e rest ih =>
    obtain ⟨he, hrest⟩ := List.forall_mem_cons.1 h
    rw [eventSlots, eventSlot_of_fits he, ok_bind, ih hrest, ok_bind]
    rfl

/-- The first event that does not fit is reported, under its own number. -/
theorem eventSlots_of_not_fits {events : List Event} {i : Nat} {e : Event} (he : events[i]? = some e)
    (hlarge : ¬ e.FitsSlot) (hfirst : ∀ j < i, ∀ e', events[j]? = some e' → e'.FitsSlot) (index : Nat) :
    eventSlots index events = .error (.eventTooLarge (index + i) e.encode.length slotSize) := by
  induction events generalizing index i with
  | nil => cases he
  | cons d rest ih =>
    rw [eventSlots]
    cases i with
    | zero =>
      cases he
      rw [eventSlot_of_not_fits hlarge]
      rfl
    | succ i =>
      have hd : d.FitsSlot := hfirst 0 (Nat.succ_pos i) d rfl
      have hrest := ih he (fun j hj e' he' => hfirst (j + 1) (Nat.succ_lt_succ hj) e' he') (index + 1)
      rw [eventSlot_of_fits hd, ok_bind, hrest, Nat.add_right_comm index 1 i]
      rfl

theorem fits_of_eventSlots_eq_ok {events : List Event} {index : Nat} {bytes : Bytes}
    (h : eventSlots index events = .ok bytes) : ∀ e ∈ events, e.FitsSlot := by
  induction events generalizing index bytes with
  | nil => exact List.forall_mem_nil _
  | cons e rest ih =>
    obtain ⟨slot, hslot, h⟩ := bind_eq_ok h
    obtain ⟨slots, hslots, -⟩ := bind_eq_ok h
    refine List.forall_mem_cons.2 ⟨?_, ih hslots⟩
    by_contra hlarge
    rw [eventSlot_of_not_fits hlarge] at hslot
    cases hslot

/-- A file is encoded exactly when every event fits its slot, and is then their slots. -/
theorem encodeEvents_eq_ok_iff {events : List Event} {bytes : Bytes} :
    Event.encodeFile events = .ok bytes ↔
      (∀ e ∈ events, e.FitsSlot) ∧ (events.map Event.slot).flatten = bytes := by
  constructor
  · intro h
    have hfits := fits_of_eventSlots_eq_ok h
    exact ⟨hfits, Except.ok.inj ((eventSlots_of_fits hfits 0).symm.trans h)⟩
  · rintro ⟨hfits, rfl⟩
    exact eventSlots_of_fits hfits 0

end Command
end DiscPatch
