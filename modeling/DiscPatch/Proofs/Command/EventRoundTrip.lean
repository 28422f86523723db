/-
Events in files, in both directions. The commands of an event end behind the first sentinel, and its text
offset parts what lies behind them, wherever they end. So a decoded file comes back exactly when no text
starts inside the commands and the commands come back; an event whose offset says where its text is comes
back as it was, with the zeros of its slot behind it.
-/
import DiscPatch.Proofs.Command.EventSlots
import DiscPatch.Proofs.Command.RoundTrip

namespace DiscPatch.Command

/-! ## Commands up to a sentinel -/

/-- The last command, and no other, has a sentinel. -/
structure Ended (sentinels : List UInt32) (cs : List Command) : Prop where
  last : ∃ c, cs.getLast? = some c ∧ c.id ∈ sentinels
  others : ∀ c ∈ cs.dropLast, c.id ∉ sentinels

section

variable {table : Table} {sentinels : List UInt32} {cs : List Command}

theorem length_encodeAll (h : ∀ c ∈ cs, Fits table c) : (encodeAll cs).length = Bytes.total (cs.map size) := by
  induction cs with
  | nil => rfl
  | cons c cs ih =>
    obtain ⟨hc, hcs⟩ := List.forall_mem_cons.1 h
    rw [encodeAll_cons, List.length_append, hc.length_encode, ih hcs]
    rfl

/-- Commands up to a sentinel are found again whatever lies behind them. -/
theorem decodeAll_encodeAll_append (hf : ∀ c ∈ cs, Fits table c) (hs : ∀ c ∈ cs, ¬ Shadowed table c.id)
    (hended : Ended sentinels cs) (rest : Bytes) : decodeAll table sentinels (encodeAll cs ++ rest) = cs := by
  induction cs with
  | nil =>
    obtain ⟨c, hc, -⟩ := hended.last
    cases hc
  | cons c cs ih =>
    obtain ⟨hc, hcs⟩ := List.forall_mem_cons.1 hf
    obtain ⟨hsc, hscs⟩ := List.forall_mem_cons.1 hs
    rw [encodeAll_cons, List.append_assoc, decodeAll_of_some (decode?_encode_append hc hsc _),
      List.drop_left' hc.length_encode]
    cases cs with
    | nil =>
      obtain ⟨d, heq, hlast⟩ := hended.last
      obtain rfl : c = d := Option.some.inj heq
      rw [if_pos hlast]
    | cons d ds =>
      have hothers := hended.others
      rw [List.dropLast_cons_cons] at hothers
      obtain ⟨hnot, hmore⟩ := List.forall_mem_cons.1 hothers
      obtain ⟨e, he, hlast⟩ := hended.last
      rw [if_neg hnot, ih hcs hscs ⟨⟨e, he, hlast⟩, hmore⟩]

end

namespace Event

/-! ## Sections -/

/-- An event is what its bytes are: the offset, the commands, and the two sections that the offset parts. -/
structure Sections (table : Table) (bytes : Bytes) (e : Event) : Prop where
  header : 4 ≤ bytes.length
  textOffset : e.textOffset = Bytes.value (bytes.take 4)
  commands : e.commands = decodeAll table table.kind.sentinels (bytes.drop 4)
  within : e.commandsEnd ≤ bytes.length
  plain : e.textOffset = noText → e.between = [] ∧ e.rest = bytes.drop e.commandsEnd
  text : e.textOffset ≠ noText → e.textOffset.toNat ≤ bytes.length ∧
    e.between = (bytes.take e.textOffset.toNat).drop e.commandsEnd ∧ e.rest = bytes.drop e.textOffset.toNat

theorem decode_eq_ok_iff {table : Table} {bytes : Bytes} {e : Event} :
    decode table bytes = .ok e ↔ Sections table bytes e := by
  unfold decode
  constructor
  · intro h
    split at h
    · cases h
    · dsimp only at h
      split at h
      · cases h
      · split at h
        · rename_i hheader hwithin hplain
          cases h
          exact ⟨by omega, rfl, rfl, Nat.le_of_not_lt hwithin, fun _ => ⟨rfl, rfl⟩, fun hne => absurd hplain hne⟩
        · split at h
          · cases h
          · rename_i hheader hwithin hne htext
            cases h
            exact ⟨by omega, rfl, rfl, Nat.le_of_not_lt hwithin, fun hplain => absurd hplain hne,
              fun _ => ⟨Nat.le_of_not_lt htext, rfl, rfl⟩⟩
  · rintro ⟨hheader, hoffset, hcommands, hwithin, hplain, htext⟩
    obtain ⟨textOffset, commands, between, rest⟩ := e
    simp only [commandsEnd] at *
    rw [if_neg (by omega)]
    simp only [← hoffset, ← hcommands]
    rw [if_neg (by omega)]
    split
    · obtain ⟨rfl, rfl⟩ := hplain ‹_›
      rfl
    · obtain ⟨hle, rfl, rfl⟩ := htext ‹_›
      rw [if_neg (by omega)]

/-- The text, if there is one, does not start before the commands end. -/
def TextBehind (e : Event) : Prop :=
  e.textOffset = noText ∨ e.commandsEnd ≤ e.textOffset.toNat

instance (e : Event) : Decidable e.TextBehind :=
  inferInstanceAs (Decidable (_ ∨ _))

theorem length_encode (e : Event) :
    e.encode.length = 4 + (encodeAll e.commands).length + e.between.length + e.rest.length := by
  simp only [encode, List.length_append, Bytes.length_ofValue]

namespace Sections

variable {table : Table} {bytes : Bytes} {e : Event}

theorem fits (h : Sections table bytes e) : ∀ c ∈ e.commands, Fits table c := by
  intro c hc
  rw [h.commands] at hc
  exact (decodeAll_fits _ _ _ c hc).1

/-- The commands take as many bytes as they had. -/
theorem length_commands (h : Sections table bytes e) : 4 + (encodeAll e.commands).length = e.commandsEnd := by
  rw [length_encodeAll h.fits]
  rfl

/-- Where the text lies behind the commands, the sections are what lies behind them. -/
theorem sections_eq (h : Sections table bytes e) (hbehind : e.TextBehind) :
    e.between ++ e.rest = bytes.drop e.commandsEnd := by
  by_cases hplain : e.textOffset = noText
  · obtain ⟨hbetween, hrest⟩ := h.plain hplain
    rw [hbetween, hrest, List.nil_append]
  · obtain ⟨-, hbetween, hrest⟩ := h.text hplain
    have hle := hbehind.resolve_left hplain
    have htext : e.rest = (bytes.drop e.commandsEnd).drop (e.textOffset.toNat - e.commandsEnd) := by
      rw [hrest, List.drop_drop]
      congr 1
      omega
    rw [hbetween, htext, List.drop_take, List.take_append_drop]

theorem length_encode_of_behind (h : Sections table bytes e) (hbehind : e.TextBehind) :
    e.encode.length = bytes.length := by
  have hsections := congrArg List.length (h.sections_eq hbehind)
  have hwithin := h.within
  rw [List.length_append, List.length_drop] at hsections
  rw [length_encode, h.length_commands]
  omega

/-- Text that starts inside the commands is written a second time. -/
theorem length_encode_of_not_behind (h : Sections table bytes e) (hbehind : ¬ e.TextBehind) :
    e.encode.length = bytes.length + e.commandsEnd - e.textOffset.toNat := by
  unfold TextBehind at hbehind
  push Not at hbehind
  obtain ⟨hne, hlt⟩ := hbehind
  obtain ⟨hle, hbetween, hrest⟩ := h.text hne
  rw [length_encode, h.length_commands, hbetween, hrest]
  simp only [List.length_drop, List.length_take]
  omega

/-- The event comes back exactly when its commands do. -/
theorem encode_eq_iff (h : Sections table bytes e) (hbehind : e.TextBehind) :
    e.encode = bytes ↔ encodeAll e.commands = (bytes.take e.commandsEnd).drop 4 := by
  have hheader := h.header
  have hoffset : Bytes.ofValue 4 e.textOffset = bytes.take 4 := by
    have hlength : (bytes.take 4).length = 4 := by rw [List.length_take]; omega
    have hfield : Bytes.ofValue (bytes.take 4).length (Bytes.value (bytes.take 4)) = bytes.take 4 :=
      Bytes.ofValue_value (by omega)
    rwa [hlength, ← h.textOffset] at hfield
  have hbytes : bytes = bytes.take 4 ++ (bytes.take e.commandsEnd).drop 4 ++ bytes.drop e.commandsEnd := by
    have hfront : bytes.take 4 = (bytes.take e.commandsEnd).take 4 := by
      rw [List.take_take, Nat.min_eq_left (h.length_commands ▸ Nat.le_add_right 4 _)]
    rw [hfront, List.take_append_drop, List.take_append_drop]
  have hencode : e.encode = bytes.take 4 ++ encodeAll e.commands ++ bytes.drop e.commandsEnd := by
    rw [encode, hoffset, List.append_assoc _ e.between, h.sections_eq hbehind]
  constructor
  · intro heq
    rw [hencode] at heq
    exact List.append_cancel_left (List.append_cancel_right (heq.trans hbytes))
  · intro heq
    rw [hencode, heq, ← hbytes]

end Sections
end Event

/-! ## Encoding, then decoding -/

namespace Event

/-- An event as a file can hold it: commands that can be found, up to a sentinel, and an offset that says where
the text lies. -/
structure WellFormed (table : Table) (e : Event) : Prop where
  made : ∀ c ∈ e.commands, Made table c
  unshadowed : ∀ c ∈ e.commands, ¬ Shadowed table c.id
  ended : Ended table.kind.sentinels e.commands
  plain : e.textOffset = noText → e.between = []
  text : e.textOffset ≠ noText → e.textOffset.toNat = e.commandsEnd + e.between.length

/-- The event with the zeros of its slot behind it. -/
def filled (e : Event) : Event :=
  { e with rest := e.rest ++ e.fill }

section

variable {table : Table} {e : Event}

theorem WellFormed.fits (h : WellFormed table e) : ∀ c ∈ e.commands, Fits table c :=
  fun c hc => made_iff_fits.1 (h.made c hc)

/-- A slot by its parts: what ends where the commands end, and the sections behind it. -/
theorem WellFormed.slot_eq (h : WellFormed table e) : ∃ front : Bytes, front.length = e.commandsEnd ∧
    front = Bytes.ofValue 4 e.textOffset ++ encodeAll e.commands ∧
    e.slot = front ++ (e.between ++ (e.rest ++ e.fill)) := by
  refine ⟨Bytes.ofValue 4 e.textOffset ++ encodeAll e.commands, ?_, rfl, ?_⟩
  · rw [List.length_append, Bytes.length_ofValue, length_encodeAll h.fits]
    rfl
  · simp only [slot, encode, List.append_assoc]

/-- The slot of an event is decoded to it, with the zeros behind it. -/
theorem WellFormed.decode_slot (h : WellFormed table e) (hfits : e.FitsSlot) :
    decode table e.slot = .ok e.filled := by
  obtain ⟨front, hfront, hparts, hslot⟩ := h.slot_eq
  have hlength := length_slot hfits
  have hsum : e.commandsEnd + e.between.length ≤ e.slot.length := by
    rw [hslot, List.length_append, List.length_append, hfront]
    omega
  have hhead : e.slot = Bytes.ofValue 4 e.textOffset ++
      (encodeAll e.commands ++ (e.between ++ (e.rest ++ e.fill))) := by
    rw [hslot, hparts, List.append_assoc]
  have hdrop : e.slot.drop e.commandsEnd = e.between ++ (e.rest ++ e.fill) := by
    rw [hslot, List.drop_left' hfront]
  refine decode_eq_ok_iff.2 ⟨by rw [hlength]; decide, ?_, ?_, (Nat.le_add_right ..).trans hsum, fun hplain => ?_,
    fun hne => ?_⟩
  · rw [hhead, List.take_left' (Bytes.length_ofValue ..), Bytes.value_ofValue (Nat.le_refl 4), Bytes.fit_four]
    rfl
  · rw [hhead, List.drop_left' (Bytes.length_ofValue ..), decodeAll_encodeAll_append h.fits h.unshadowed h.ended]
    rfl
  · have hbetween : e.between = [] := h.plain hplain
    refine ⟨hbetween, ?_⟩
    show _ = e.slot.drop e.commandsEnd
    rw [hdrop, hbetween, List.nil_append]
    rfl
  · have htext : e.textOffset.toNat = e.commandsEnd + e.between.length := h.text hne
    show e.textOffset.toNat ≤ _ ∧ e.between = (e.slot.take e.textOffset.toNat).drop e.commandsEnd ∧
      e.rest ++ e.fill = e.slot.drop e.textOffset.toNat
    refine ⟨htext ▸ hsum, ?_, ?_⟩
    · rw [htext, List.drop_take, Nat.add_sub_cancel_left, hdrop, List.take_left]
    · rw [htext, ← List.drop_drop, hdrop, List.drop_left]

end
end Event

/-- Events that fit their slots come back from their file, each with the zeros of its slot behind it. -/
theorem decodeFile_slots {table : Table} {events : List Event} (h : ∀ e ∈ events, e.WellFormed table)
    (hfits : ∀ e ∈ events, e.FitsSlot) :
    Event.decodeFile table (events.map Event.slot).flatten = .ok (events.map Event.filled) := by
  have hsize : ∀ slot ∈ events.map Event.slot, slot.length = slotSize :=
    List.forall_mem_map.2 fun e he => Event.length_slot (hfits e he)
  rw [decodeFile_flatten_iff hsize, List.forall₂_map_left_iff, List.forall₂_map_right_iff, List.forall₂_same]
  exact fun e he => (h e he).decode_slot (hfits e he)

/-- Events as a file can hold them are encoded if each fits its slot, and then come back with the zeros of
their slots behind them; otherwise the first one that does not fit is reported. -/
theorem decodeFile_encodeFile_filled (table : Table) (events : List Event)
    (h : ∀ e ∈ events, e.WellFormed table) :
    ((∀ e ∈ events, e.encode.length ≤ slotSize) → ∃ bytes, Event.encodeFile events = .ok bytes ∧
      Event.decodeFile table bytes = .ok (events.map fun e =>
        { e with rest := e.rest ++ List.replicate (slotSize - e.encode.length) 0 })) ∧
    ∀ (i : Nat) (e : Event), events[i]? = some e → slotSize < e.encode.length →
      (∀ j < i, ∀ e', events[j]? = some e' → e'.encode.length ≤ slotSize) →
      Event.encodeFile events = .error (.eventTooLarge i e.encode.length slotSize) := by
  refine ⟨fun hfits => ?_, fun i e he hlarge hfirst => ?_⟩
  · exact ⟨_, eventSlots_of_fits hfits 0, decodeFile_slots h hfits⟩
  · have herror := eventSlots_of_not_fits he (Nat.not_le.2 hlarge) hfirst 0
    rwa [Nat.zero_add] at herror

/-! ## Events with and without text -/

def closing : List Command := [ofValues wait [5], ofValues finish []]

/-- Without text; what lies behind the commands looks like another one. -/
def textless : Event := ⟨noText, closing, [], [0x10, 2, 0]⟩

/-- Four bytes lie between the commands and the text. -/
def texted : Event := ⟨12, closing, [1, 2, 3, 4], [0x41]⟩

/-- Too large by five bytes. -/
def oversized : Event := ⟨noText, [ofValues finish []], [], List.replicate slotSize 0⟩

theorem ended_closing : Ended mixedTable.kind.sentinels closing :=
  ⟨⟨_, rfl, by decide⟩, by decide⟩

theorem made_closing : ∀ c ∈ closing, Made mixedTable c := by
  simp only [closing, List.forall_mem_cons]
  exact ⟨.ofValues (by decide) _, .ofValues (by decide) _, List.forall_mem_nil _⟩

theorem wellFormed_textless : textless.WellFormed mixedTable :=
  ⟨made_closing, by decide, ended_closing, fun _ => rfl, fun h => absurd rfl h⟩

theorem wellFormed_texted : texted.WellFormed mixedTable :=
  ⟨made_closing, by decide, ended_closing, by decide, by decide⟩

theorem wellFormed_oversized : oversized.WellFormed mixedTable := by
  refine ⟨?_, by decide, ⟨⟨_, rfl, by decide⟩, by decide⟩, fun _ => rfl, fun h => absurd rfl h⟩
  exact List.forall_mem_singleton.2 (.ofValues (by decide) _)

theorem length_encode_oversized : oversized.encode.length = 0x2005 := by
  rw [Event.length_encode]
  simp only [oversized, List.length_replicate]
  decide

/-- The first two come back with the zeros of their slots; the third is reported. -/
theorem decodeFile_encodeFile_oversized :
    (∀ e ∈ [textless, texted, oversized], e.WellFormed mixedTable) ∧
    (∃ bytes, Event.encodeFile [textless, texted] = .ok bytes ∧ Event.decodeFile mixedTable bytes = .ok [
      { textless with rest := [0x10, 2, 0] ++ List.replicate 8181 0 },
      { texted with rest := [0x41] ++ List.replicate 8179 0 }]) ∧
    Event.encodeFile [textless, texted, oversized] = .error (.eventTooLarge 2 0x2005 slotSize) := by
  have hwell : ∀ e ∈ [textless, texted, oversized], e.WellFormed mixedTable := by
    simp only [List.forall_mem_cons]
    exact ⟨wellFormed_textless, wellFormed_texted, wellFormed_oversized, List.forall_mem_nil _⟩
  have hfits : ∀ e ∈ [textless, texted], e.encode.length ≤ slotSize := by decide
  refine ⟨hwell, ?_, ?_⟩
  · have hfile := (decodeFile_encodeFile_filled mixedTable [textless, texted] fun e he =>
      hwell e (List.mem_append_left [oversized] he)).1 hfits
    have hzeros : slotSize - textless.encode.length = 8181 ∧ slotSize - texted.encode.length = 8179 := by decide
    simp only [List.map_cons, List.map_nil, hzeros.1, hzeros.2] at hfile
    exact hfile
  · have hlarge : slotSize < oversized.encode.length := by
      rw [length_encode_oversized]
      decide
    have hfirst : ∀ j < 2, ∀ e, [textless, texted, oversized][j]? = some e → e.encode.length ≤ slotSize := by
      intro j hj e he
      obtain rfl | rfl : j = 0 ∨ j = 1 := by omega
      all_goals
        obtain rfl := Option.some.inj he
        decide
    have herror :=
      (decodeFile_encodeFile_filled mixedTable [textless, texted, oversized] hwell).2 2 oversized rfl hlarge hfirst
    rwa [length_encode_oversized] at herror

/-! ## Decoding, then encoding -/

section

variable {table : Table} {bytes : Bytes} {events : List Event} {i : Nat} {e : Event}

/-- A file of whole slots is decoded slot by slot. -/
theorem sections_of_decodeFile (hwhole : slotSize ∣ bytes.length)
    (hdecode : Event.decodeFile table bytes = .ok events) :
    slotSize * events.length = bytes.length ∧
      ∃ slots : List Bytes, slots.length = events.length ∧ (∀ slot ∈ slots, slot.length = slotSize) ∧
        bytes = slots.flatten ∧ ∀ (i : Nat) (e : Event), events[i]? = some e →
          slots[i]? = some (slotAt bytes i) ∧ Event.Sections table (slotAt bytes i) e := by
  obtain ⟨count, hcount⟩ := hwhole
  obtain ⟨slots, hlength, hsize, hbytes, hat⟩ := Bytes.exists_pieces hcount
  have hdecode : List.Forall₂ (fun slot e => Event.decode table slot = .ok e) slots events :=
    (decodeFile_flatten_iff hsize).1 (hbytes ▸ hdecode)
  refine ⟨by rw [← hdecode.length_eq, hlength, hcount], slots, hdecode.length_eq, hsize, hbytes, fun i e he => ?_⟩
  obtain ⟨hi, rfl⟩ := List.getElem?_eq_some_iff.1 he
  have hi' : i < slots.length := hdecode.length_eq ▸ hi
  have hslot : slots[i] = slotAt bytes i := hat i _ (List.getElem?_eq_getElem hi')
  refine ⟨hslot ▸ List.getElem?_eq_getElem hi', Event.decode_eq_ok_iff.1 ?_⟩
  rw [← hslot]
  exact (List.forall₂_iff_get.1 hdecode).2 i hi' hi

/-- An event that was a whole slot fits its slot again if its text lies behind its commands. -/
theorem Event.Sections.fitsSlot_iff (h : Event.Sections table bytes e) (hfull : bytes.length = slotSize) :
    e.FitsSlot ↔ e.TextBehind := by
  constructor
  · intro hfits
    have hfits : e.encode.length ≤ slotSize := hfits
    by_contra hbehind
    rw [h.length_encode_of_not_behind hbehind, hfull] at hfits
    unfold Event.TextBehind at hbehind
    omega
  · intro hbehind
    exact ((h.length_encode_of_behind hbehind).trans hfull).le

/-- A decoded file has an event for each slot, and is encoded to itself exactly when in each slot the text
does not start before the commands end and the commands come back from their bytes. The first event whose
text starts inside its commands is too large for its slot, by the bytes that both have in common. -/
theorem encodeFile_decodeFile_iff (table : Table) (bytes : Bytes) (events : List Event)
    (hwhole : slotSize ∣ bytes.length) (hdecode : Event.decodeFile table bytes = .ok events) :
    slotSize * events.length = bytes.length ∧
    (Event.encodeFile events = .ok bytes ↔ ∀ (i : Nat) (e : Event), events[i]? = some e →
      (e.textOffset = noText ∨ e.commandsEnd ≤ e.textOffset.toNat) ∧
        encodeAll e.commands = ((slotAt bytes i).take e.commandsEnd).drop 4) ∧
    ∀ (i : Nat) (e : Event), events[i]? = some e →
      e.textOffset ≠ noText → e.textOffset.toNat < e.commandsEnd →
      (∀ j < i, ∀ e', events[j]? = some e' → e'.textOffset = noText ∨ e'.commandsEnd ≤ e'.textOffset.toNat) →
      Event.encodeFile events =
        .error (.eventTooLarge i (slotSize + e.commandsEnd - e.textOffset.toNat) slotSize) := by
  obtain ⟨hwhole, slots, hlength, hsize, hbytes, hat⟩ := sections_of_decodeFile hwhole hdecode
  have hfull : ∀ {i : Nat} {e : Event}, events[i]? = some e → (slotAt bytes i).length = slotSize :=
    fun he => hsize _ (List.mem_of_getElem? (hat _ _ he).1)
  have hfits : ∀ {i : Nat} {e : Event}, events[i]? = some e → (e.FitsSlot ↔ e.TextBehind) :=
    fun he => (hat _ _ he).2.fitsSlot_iff (hfull he)
  -- behind their commands' ends, the events fill their slots
  have hslot : ∀ {i : Nat} {e : Event}, events[i]? = some e → e.TextBehind →
      (e.slot = slotAt bytes i ↔ encodeAll e.commands = ((slotAt bytes i).take e.commandsEnd).drop 4) := by
    intro i e he hbehind
    have hsections := (hat i e he).2
    rw [Event.slot_of_length_eq ((hsections.length_encode_of_behind hbehind).trans (hfull he)),
      hsections.encode_eq_iff hbehind]
  refine ⟨hwhole, ?_, fun i e he hne hlt hfirst => ?_⟩
  · rw [encodeEvents_eq_ok_iff]
    constructor
    · rintro ⟨hall, heq⟩ i e he
      have hbehind := (hfits he).1 (hall e (List.mem_of_getElem? he))
      have hslots : events.map Event.slot = slots := by
        refine (Bytes.flatten_eq_flatten_iff slotSize_ne_zero ?_ hsize).1 (heq.trans hbytes)
        exact List.forall_mem_map.2 fun e he => Event.length_slot (hall e he)
      have hi : slots[i]? = some e.slot := by rw [← hslots, List.getElem?_map, he]; rfl
      exact ⟨hbehind, (hslot he hbehind).1 (Option.some.inj (hi.symm.trans (hat i e he).1))⟩
    · intro hall
      have hslots : events.map Event.slot = slots := by
        refine List.ext_getElem ((List.length_map _).trans hlength.symm) fun i hi hi' => ?_
        have he : events[i]? = some events[i] := List.getElem?_eq_getElem (hlength ▸ hi')
        obtain ⟨hbehind, hcommands⟩ := hall i _ he
        have hpiece := (hat i _ he).1
        rw [List.getElem?_eq_getElem hi'] at hpiece
        rw [List.getElem_map, Option.some.inj hpiece]
        exact (hslot he hbehind).2 hcommands
      refine ⟨fun e he => ?_, by rw [hslots, ← hbytes]⟩
      obtain ⟨i, hi⟩ := List.mem_iff_getElem?.1 he
      exact (hfits hi).2 (hall i e hi).1
  · obtain ⟨-, hsections⟩ := hat i e he
    have hbehind : ¬ e.TextBehind := by
      rintro (h | h)
      · exact hne h
      · omega
    have herror := eventSlots_of_not_fits he (fun h => hbehind ((hfits he).1 h))
      (fun j hj e' he' => (hfits he').2 (hfirst j hj e' he')) 0
    rw [Nat.zero_add, hsections.length_encode_of_not_behind hbehind, hfull he] at herror
    exact herror

end

/-- A slot whose text starts inside the commands. -/
def early : Bytes := Bytes.ofValue 4 6 ++ (encodeAll closing ++ List.replicate 8184 0)

theorem length_early : early.length = slotSize := by
  rw [early, List.length_append, List.length_append, List.length_replicate]
  decide

theorem decode_early : Event.decode mixedTable early = .ok ⟨6, closing, [], early.drop 6⟩ := by
  have hcommands : decodeAll mixedTable mixedTable.kind.sentinels (early.drop 4) = closing :=
    decodeAll_encodeAll_append (fun c hc => made_iff_fits.1 (made_closing c hc)) (by decide) ended_closing _
  refine Event.decode_eq_ok_iff.2
    ⟨?_, by decide, hcommands.symm, ?_, fun h => absurd h (by decide), fun _ => ⟨?_, rfl, rfl⟩⟩
  all_goals
    rw [length_early]
    decide

/-- A slot whose text lies behind its commands comes back; one whose text starts two bytes before they end is too
large by these two. -/
theorem encodeFile_decodeFile_early :
    (Event.decodeFile mixedTable texted.slot = .ok [texted.filled] ∧
      Event.encodeFile [texted.filled] = .ok texted.slot) ∧
    ∃ e, Event.decodeFile mixedTable (texted.slot ++ early) = .ok [texted.filled, e] ∧
      Event.encodeFile [texted.filled, e] = .error (.eventTooLarge 1 0x2002 slotSize) := by
  have hfits : texted.FitsSlot := by decide
  have hslot : texted.slot.length = slotSize := Event.length_slot hfits
  have hdecode := wellFormed_texted.decode_slot hfits
  constructor
  · have hfile : Event.decodeFile mixedTable texted.slot = .ok [texted.filled] := by
      have hfile := (decodeFile_flatten_iff (List.forall_mem_singleton.2 hslot)).2 (.cons hdecode .nil)
      rwa [List.flatten_singleton] at hfile
    refine ⟨hfile, (encodeFile_decodeFile_iff mixedTable _ _ (hslot ▸ dvd_rfl) hfile).2.1.2 fun i e he => ?_⟩
    obtain rfl : i = 0 := by
      have hi := (List.getElem?_eq_some_iff.1 he).1
      simpa using hi
    obtain rfl := Option.some.inj he
    exact ⟨by decide, by decide⟩
  · let e : Event := ⟨6, closing, [], early.drop 6⟩
    have hfile : Event.decodeFile mixedTable (texted.slot ++ early) = .ok [texted.filled, e] := by
      have hsize : ∀ slot ∈ [texted.slot, early], slot.length = slotSize :=
        List.forall_mem_cons.2 ⟨hslot, List.forall_mem_singleton.2 length_early⟩
      have hfile := (decodeFile_flatten_iff hsize).2 (.cons hdecode (.cons decode_early .nil))
      rwa [List.flatten_cons, List.flatten_singleton] at hfile
    have hwhole : slotSize ∣ (texted.slot ++ early).length := by
      rw [List.length_append, hslot, length_early]
      decide
    refine ⟨e, hfile, (encodeFile_decodeFile_iff mixedTable _ _ hwhole hfile).2.2 1 e rfl (by decide) (by decide) ?_⟩
    intro j hj e' he'
    obtain rfl : j = 0 := by omega
    obtain rfl := Option.some.inj he'
    decide

end DiscPatch.Command
