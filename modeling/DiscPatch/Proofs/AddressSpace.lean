/-
Sectors by name and by number: what is written for a sector leads back to it, and RAM addresses and file
offsets convert back and forth. The built-in tables satisfy what is asked of the names.
-/
import DiscPatch.Proofs.Assembly.SourceLines
import DiscPatch.Sector.Table

namespace DiscPatch

open Text Assembly

/-! ## Addresses -/

/-- Back in RAM, a RAM address differs at most in the uncached bits. -/
theorem AddressSpace.toRam_toFile (space : AddressSpace) (s : Sector) (ram : UInt32) :
    space.toRam s (space.toFile s ram) = ram ||| space.uncachedBits := by
  unfold toRam toFile
  rw [UInt32.sub_add_cancel]
  apply UInt32.toBitVec_inj.1
  ext i hi
  simp only [UInt32.toBitVec_or, UInt32.toBitVec_and, UInt32.toBitVec_not, BitVec.getElem_or, BitVec.getElem_and,
    BitVec.getElem_not]
  cases ram.toBitVec[i] <;> cases space.uncachedBits.toBitVec[i] <;> rfl

/-- The bits that are cleared and those that are kept make up the word. -/
theorem and_not_add_and (a bits : UInt32) : (a &&& ~~~bits) + (a &&& bits) = a := by
  apply UInt32.toBitVec_inj.1
  rw [UInt32.toBitVec_add, UInt32.toBitVec_and, UInt32.toBitVec_and, UInt32.toBitVec_not,
    BitVec.add_eq_or_of_and_eq_zero]
  · ext i hi
    simp only [BitVec.getElem_or, BitVec.getElem_and, BitVec.getElem_not]
    cases a.toBitVec[i] <;> cases bits.toBitVec[i] <;> rfl
  · ext i hi
    simp only [BitVec.getElem_and, BitVec.getElem_not, BitVec.getElem_zero]
    cases a.toBitVec[i] <;> cases bits.toBitVec[i] <;> rfl

/-- Clearing bits undoes setting them where they were not set. -/
theorem or_and_not (a bits : UInt32) : (a ||| bits) &&& ~~~bits = a &&& ~~~bits := by
  apply UInt32.toBitVec_inj.1
  ext i hi
  simp only [UInt32.toBitVec_or, UInt32.toBitVec_and, UInt32.toBitVec_not, BitVec.getElem_or, BitVec.getElem_and,
    BitVec.getElem_not]
  cases a.toBitVec[i] <;> cases bits.toBitVec[i] <;> rfl

theorem or_and_self (a bits : UInt32) : (a ||| bits) &&& bits = bits := by
  apply UInt32.toBitVec_inj.1
  ext i hi
  simp only [UInt32.toBitVec_or, UInt32.toBitVec_and, BitVec.getElem_or, BitVec.getElem_and]
  cases a.toBitVec[i] <;> cases bits.toBitVec[i] <;> rfl

/-- Setting bits adds those that are not set yet. -/
theorem or_eq_add (a bits : UInt32) : a ||| bits = a + (bits &&& ~~~a) := by
  have hparts := and_not_add_and (bits ||| a) a
  rw [or_and_not, or_and_self] at hparts
  rw [UInt32.or_comm, ← hparts, UInt32.add_comm]

/-- Words have the same of some bits exactly when they miss the same of them. -/
theorem and_not_eq_iff (a b bits : UInt32) : bits &&& ~~~b = bits &&& ~~~a ↔ b &&& bits = a &&& bits := by
  have ha := and_not_add_and bits a
  have hb := and_not_add_and bits b
  rw [UInt32.and_comm b, UInt32.and_comm a]
  constructor
  · intro h
    grind
  · intro h
    grind

/-- Words have no bit in common exactly when each bit of the one is missing in the other. -/
theorem and_eq_zero_iff (a bits : UInt32) :
    a &&& bits = 0 ↔ ∀ i < 32, bits.toNat.testBit i = true → a.toNat.testBit i = false := by
  constructor
  · intro h i _ hbit
    have hand := congrArg (fun v : UInt32 => v.toNat.testBit i) h
    simpa [hbit] using hand
  · intro h
    apply UInt32.toNat_inj.1
    apply Nat.eq_of_testBit_eq
    intro i
    rw [UInt32.toNat_and, Nat.testBit_and, UInt32.toNat_zero, Nat.zero_testBit]
    by_cases hi : i < 32
    · cases hbit : bits.toNat.testBit i with
      | true => rw [h i hi hbit, Bool.false_and]
      | false => rw [Bool.and_false]
    · have hlarge : a.toNat < 2 ^ i := a.toNat_lt.trans_le (Nat.pow_le_pow_right (by decide) (by omega))
      rw [Nat.testBit_lt_two_pow hlarge, Bool.false_and]

/-- The bits that a RAM address has set whatever its offset, as they are before they are set. -/
def AddressSpace.uncachedAt (space : AddressSpace) (s : Sector) (offset : UInt32) : UInt32 :=
  (offset + space.loadAddress s) &&& space.uncachedBits

/-- Two offsets are loaded as far from themselves exactly when they agree in those bits. -/
theorem AddressSpace.toRam_sub_eq_iff (space : AddressSpace) (s : Sector) (a b : UInt32) :
    space.toRam s b - b = space.toRam s a - a ↔ space.uncachedAt s b = space.uncachedAt s a := by
  unfold toRam uncachedAt
  rw [← and_not_eq_iff, or_eq_add, or_eq_add]
  constructor
  · intro h
    grind
  · intro h
    rw [h]
    grind

/-- Back in the file, an offset is short of the uncached bits that its address had before they were set. -/
theorem AddressSpace.toFile_toRam (space : AddressSpace) (s : Sector) (offset : UInt32) :
    space.toFile s (space.toRam s offset) = offset - space.uncachedAt s offset := by
  have hparts := and_not_add_and (offset + space.loadAddress s) space.uncachedBits
  unfold toFile toRam uncachedAt
  rw [or_and_not]
  grind

/-- Addresses convert back and forth: a RAM address comes back with the uncached bits set, an offset comes back
less the uncached bits of its own address, and so unchanged exactly when that address has none of them. -/
theorem AddressSpace.converts_back (space : AddressSpace) (s : Sector) :
    (∀ ram, space.toRam s (space.toFile s ram) = ram ||| space.uncachedBits) ∧
    (∀ offset, space.toFile s (space.toRam s offset) =
      offset - ((offset + (space.loadAddress? s).getD 0) &&& space.uncachedBits)) ∧
    ∀ offset, space.toFile s (space.toRam s offset) = offset ↔
      ∀ i < 32, space.uncachedBits.toNat.testBit i = true →
        (offset + (space.loadAddress? s).getD 0).toNat.testBit i = false := by
  refine ⟨space.toRam_toFile s, space.toFile_toRam s, fun offset => ?_⟩
  rw [← and_eq_zero_iff, toFile_toRam]
  show offset - space.uncachedAt s offset = offset ↔ space.uncachedAt s offset = 0
  constructor
  · intro h
    grind
  · intro h
    rw [h, UInt32.sub_zero]

/-- Uncached bits in the middle of an address, and an offset that carries into them. -/
example :
    let space := { SectorTable.psx with uncachedBits? := some 0xFF0 }.space
    space.toRam ⟨.psx, 24⟩ 0x818 = 0x10FF8 ∧ space.toFile ⟨.psx, 24⟩ 0x10FF8 = 0x808 := by
  decide

/-! ## Names -/

/-- Whether the names of sectors lead back to them, are no numbers, and can stand in lists of places. -/
structure AddressSpace.Listed (space : AddressSpace) : Prop where
  ofName : ∀ s name, space.nameOf? s = some name → space.ofName name = .ok s
  notNumber : ∀ s name, space.nameOf? s = some name → decimalWord? name = none
  unmarked : ∀ s name, space.nameOf? s = some name → ∀ c ∈ name.toList, isBlank c = false ∧ c ≠ ':' ∧ c ≠ ','

/-- Whether the names of sectors lead back to them, are no numbers, and have the form of symbols. -/
structure AddressSpace.Named (space : AddressSpace) : Prop where
  ofName : ∀ s name, space.nameOf? s = some name → space.ofName name = .ok s
  notNumber : ∀ s name, space.nameOf? s = some name → decimalWord? name = none
  symbol : ∀ s name, space.nameOf? s = some name → ∀ c ∈ name.toList, inSymbolName c
  platform : ∀ name s, space.named? name = some s → s.platform = space.platform

theorem unmarked_of_inSymbolName {c : Char} (h : inSymbolName c) : isBlank c = false ∧ c ≠ ':' ∧ c ≠ ',' := by
  refine ⟨isBlank_of_inSymbolName h, ?_, ?_⟩
  · rintro rfl
    exact absurd h (by decide)
  · rintro rfl
    exact absurd h (by decide)

theorem AddressSpace.Named.listed {space : AddressSpace} (h : space.Named) : space.Listed :=
  ⟨h.ofName, h.notNumber, fun s name hname c hc => unmarked_of_inSymbolName (h.symbol s name hname c hc)⟩

namespace SectorTable

variable {table : SectorTable}

/-- A sector with a name is that of an entry. -/
theorem exists_of_nameOf? {s : Sector} {name : String} (h : table.space.nameOf? s = some name) :
    ∃ e ∈ table.sectors, e.name = name ∧ s = ⟨table.platform, e.id⟩ := by
  obtain ⟨e, he, rfl⟩ := Option.map_eq_some_iff.1 h
  unfold entry? at he
  split at he
  · rename_i hplatform
    have hid : e.id = s.id := by simpa using List.find?_some he
    refine ⟨e, List.mem_of_find?_eq_some he, rfl, ?_⟩
    cases s
    exact congrArg₂ Sector.mk hplatform hid.symm
  · cases he

theorem ofName_space {e : NamedSector} (h : table.named? e.name = some ⟨table.platform, e.id⟩) :
    table.space.ofName e.name = .ok ⟨table.platform, e.id⟩ := by
  unfold AddressSpace.ofName
  rw [show table.space.named? e.name = _ from h]

end SectorTable

/-! ## Tables with distinct names -/

theorem sameIgnoringCase_refl (text : String) : sameIgnoringCase text text = true :=
  beq_self_eq_true _

/-- Whether the names of a table are distinct whatever the case of letters, are no numbers, and can stand in lists
of places. -/
structure SectorTable.Distinct (table : SectorTable) : Prop where
  names : table.sectors.Pairwise fun e e' => sameIgnoringCase e.name e'.name = false
  notNumber : ∀ e ∈ table.sectors, decimalWord? e.name = none
  unmarked : ∀ e ∈ table.sectors, ∀ c ∈ e.name.toList, isBlank c = false ∧ c ≠ ':' ∧ c ≠ ','

/-- In a list of entries with distinct names, the first one of a name is the only one. -/
theorem find?_of_pairwise {entries : List NamedSector}
    (h : entries.Pairwise fun e e' => sameIgnoringCase e.name e'.name = false) {e : NamedSector} (he : e ∈ entries) :
    entries.find? (fun e' => sameIgnoringCase e'.name e.name) = some e := by
  induction h with
  | nil => cases he
  | cons hfirst _ ih =>
    rcases List.mem_cons.1 he with rfl | he
    · exact List.find?_cons_of_pos (sameIgnoringCase_refl _)
    · rw [List.find?_cons_of_neg (by rw [hfirst e he]; decide), ih he]

/-- Distinct names lead back to their sectors. -/
theorem SectorTable.Distinct.listed {table : SectorTable} (h : table.Distinct) : table.space.Listed := by
  refine ⟨fun s name hname => ?_, fun s name hname => ?_, fun s name hname => ?_⟩
  · obtain ⟨e, he, rfl, rfl⟩ := exists_of_nameOf? hname
    have htrim : trim e.name = e.name := by
      unfold trim
      rw [trimmed_of_no_blank fun c hc => (h.unmarked e he c hc).1, String.ofList_toList]
    have hnamed : table.named? e.name = some ⟨table.platform, e.id⟩ := by
      unfold named?
      rw [htrim, find?_of_pairwise h.names he]
      rfl
    exact ofName_space hnamed
  · obtain ⟨e, he, rfl, -⟩ := exists_of_nameOf? hname
    exact h.notNumber e he
  · obtain ⟨e, he, rfl, -⟩ := exists_of_nameOf? hname
    exact h.unmarked e he

/-! ## Built-in tables -/

/-- Whether a name leads back to its entry and has the form of a symbol. -/
def NamedSector.Unique (table : SectorTable) (e : NamedSector) : Prop :=
  table.named? e.name = some ⟨table.platform, e.id⟩ ∧ decimalWord? e.name = none ∧ ∀ c ∈ e.name.toList, inSymbolName c

theorem SectorTable.named_space {table : SectorTable} (h : ∀ e ∈ table.sectors, e.Unique table) :
    table.space.Named := by
  refine ⟨fun s name hname => ?_, fun s name hname => ?_, fun s name hname => ?_, fun name s hname => ?_⟩
  · obtain ⟨e, he, rfl, rfl⟩ := exists_of_nameOf? hname
    exact ofName_space (h e he).1
  · obtain ⟨e, he, rfl, -⟩ := exists_of_nameOf? hname
    exact (h e he).2.1
  · obtain ⟨e, he, rfl, -⟩ := exists_of_nameOf? hname
    exact (h e he).2.2
  · obtain ⟨e, -, rfl⟩ := Option.map_eq_some_iff.1 hname
    rfl

/-- The names of the built-in tables are in order. -/
theorem SectorTable.named_ofPlatform (platform : Platform) : (ofPlatform platform).space.Named := by
  refine named_space ?_
  unfold NamedSector.Unique
  cases platform <;> decide +kernel

end DiscPatch
