/-
Blocks and ranges: which spans a requested range meets, and when the RAM of a range is one block.
-/
import DiscPatch.Relocation
import Mathlib.Tactic

namespace DiscPatch

/-! ## Loaded ranges -/

/-- An address below the uncached bits is loaded without wrapping. -/
theorem AddressSpace.toNat_toRam_of_lt {space : AddressSpace} {s : Sector} {offset : UInt32} {i : Nat}
    (hbits : 2 ^ i ∣ space.uncachedBits.toNat) (h : offset.toNat + (space.loadAddress s).toNat < 2 ^ i)
    (hi : i ≤ 32) :
    (space.toRam s offset).toNat = space.uncachedBits.toNat + (offset.toNat + (space.loadAddress s).toNat) := by
  have hword : (2 : Nat) ^ i ≤ 2 ^ 32 := Nat.pow_le_pow_right (by omega) hi
  obtain ⟨a, ha⟩ := hbits
  unfold toRam
  rw [UInt32.toNat_or, UInt32.toNat_add, Nat.mod_eq_of_lt (by omega), ha, Nat.or_comm,
    ← Nat.two_pow_add_eq_or_of_lt h]

theorem RamMove.contains_iff {m : RamMove} {address : UInt32} :
    m.contains address ↔ m.start.toNat ≤ address.toNat ∧ address.toNat < m.stop.toNat := by
  unfold contains
  rw [Bool.and_eq_true, decide_eq_true_iff, decide_eq_true_iff, UInt32.le_iff_toNat_le, UInt32.lt_iff_toNat_lt]

/-- Whether two blocks have no address in common. -/
def RamMove.Apart (m m' : RamMove) : Prop :=
  m.stop ≤ m'.start ∨ m'.stop ≤ m.start

instance (m m' : RamMove) : Decidable (m.Apart m') :=
  inferInstanceAs (Decidable (_ ∨ _))

theorem RamMove.Apart.not_contains {m m' : RamMove} {address : UInt32} (hapart : m'.Apart m)
    (h : m.contains address) : m'.contains address = false := by
  rw [contains_iff] at h
  rw [Bool.eq_false_iff, ne_eq, contains_iff]
  rintro ⟨hstart, hstop⟩
  rcases hapart with hle | hle
  · rw [UInt32.le_iff_toNat_le] at hle
    omega
  · rw [UInt32.le_iff_toNat_le] at hle
    omega

/-! ## Spans and ranges -/

namespace MoveRequest

theorem meets_iff {r : MoveRequest} {sector : Sector} {offset : UInt32} {length : Nat} :
    r.meets sector offset length ↔
      sector = r.sector ∧ offset.toNat < r.stop.toNat ∧ r.start.toNat < offset.toNat + max length 1 := by
  unfold meets
  rw [Bool.and_eq_true, Bool.and_eq_true, decide_eq_true_iff, decide_eq_true_iff, decide_eq_true_iff, and_assoc]

/-- Whether a span of `length` bytes, at least one, lies in the requested range. -/
def Covers (r : MoveRequest) (sector : Sector) (offset : UInt32) (length : Nat) : Prop :=
  sector = r.sector ∧ r.start.toNat ≤ offset.toNat ∧ offset.toNat + max length 1 ≤ r.stop.toNat

instance (r : MoveRequest) (sector : Sector) (offset : UInt32) (length : Nat) :
    Decidable (r.Covers sector offset length) :=
  inferInstanceAs (Decidable (_ ∧ _))

/-- Whether two ranges have no byte in common. -/
def Apart (r r' : MoveRequest) : Prop :=
  r.sector = r'.sector → r.stop ≤ r'.start ∨ r'.stop ≤ r.start

instance (r r' : MoveRequest) : Decidable (r.Apart r') :=
  inferInstanceAs (Decidable (_ → _))

variable {r r' : MoveRequest} {sector : Sector} {offset : UInt32} {length : Nat}

theorem Covers.meets (h : r.Covers sector offset length) : r.meets sector offset length := by
  obtain ⟨hsector, hstart, hstop⟩ := h
  rw [meets_iff]
  exact ⟨hsector, by omega, by omega⟩

/-- A span in one range does not meet another one. -/
theorem Covers.not_meets (h : r.Covers sector offset length) (hapart : r'.Apart r) :
    r'.meets sector offset length = false := by
  obtain ⟨rfl, hstart, hstop⟩ := h
  rw [Bool.eq_false_iff, ne_eq, meets_iff]
  rintro ⟨hsector, hlt, hgt⟩
  rcases hapart hsector.symm with hle | hle
  · rw [UInt32.le_iff_toNat_le] at hle
    omega
  · rw [UInt32.le_iff_toNat_le] at hle
    omega

/-- Below the uncached bits, each offset of a range is loaded into the range's block. -/
theorem contains_toRam {space : AddressSpace} {i : Nat} (hbits : 2 ^ i ∣ space.uncachedBits.toNat) (hi : i ≤ 32)
    (h : r.stop.toNat + (space.loadAddress r.sector).toNat < 2 ^ i) (hstart : r.start ≤ offset)
    (hstop : offset < r.stop) : (r.ramMove space).contains (space.toRam r.sector offset) := by
  rw [UInt32.le_iff_toNat_le] at hstart
  rw [UInt32.lt_iff_toNat_lt] at hstop
  rw [RamMove.contains_iff]
  show (space.toRam r.sector r.start).toNat ≤ _ ∧ _ < (space.toRam r.sector r.stop).toNat
  rw [AddressSpace.toNat_toRam_of_lt hbits (by omega) hi, AddressSpace.toNat_toRam_of_lt hbits (by omega) hi,
    AddressSpace.toNat_toRam_of_lt hbits h hi]
  omega

end MoveRequest
end DiscPatch
