/-
Little-endian fields: reading a field that was written gives the value modulo `256 ^ n`, writing
what was read gives the same bytes back, and the first bytes of a field hold its value modulo a
smaller power.
-/
import DiscPatch.Bytes
import Mathlib.Tactic

namespace DiscPatch.Bytes

/-! ## Capacity -/

theorem capacity_eq (n : Nat) : capacity n = 256 ^ n := by
  induction n with
  | zero => rfl
  | succ n ih => rw [capacity, ih, pow_succ, Nat.mul_comm]

/-- The values of four bytes are the words, so a power for fewer bytes divides their number. -/
theorem pow_dvd_word {n : Nat} (h : n ≤ 4) : 256 ^ n ∣ 2 ^ 32 := by
  rw [show (2 : Nat) ^ 32 = 256 ^ 4 by norm_num]
  exact Nat.pow_dvd_pow 256 h

theorem toNat_fit (n : Nat) (v : UInt32) : (fit n v).toNat = v.toNat % 256 ^ min n 4 := by
  have hle : (256 : Nat) ^ min n 4 ≤ 2 ^ 32 :=
    Nat.le_of_dvd (by norm_num) (pow_dvd_word (Nat.min_le_right n 4))
  have hlt : v.toNat % 256 ^ min n 4 < 2 ^ 32 :=
    Nat.lt_of_lt_of_le (Nat.mod_lt _ (by positivity)) hle
  rw [fit, capacity_eq, UInt32.toNat_ofNat_of_lt' hlt]

/-- A field keeps what it kept before. -/
theorem fit_fit (n : Nat) (v : UInt32) : fit n (fit n v) = fit n v := by
  apply UInt32.toNat_inj.1
  rw [toNat_fit, toNat_fit, Nat.mod_mod]

theorem fit_zero (n : Nat) : fit n 0 = 0 := by
  rw [fit, UInt32.toNat_zero, Nat.zero_mod]
  rfl

/-- Four bytes keep the whole value. -/
theorem fit_four (v : UInt32) : fit 4 v = v := by
  apply UInt32.toNat_inj.1
  rw [toNat_fit, Nat.min_self]
  exact Nat.mod_eq_of_lt v.toNat_lt

/-! ## Values of bytes -/

theorem toNat_value_cons (b : UInt8) (bs : Bytes) :
    (value (b :: bs)).toNat = (b.toNat + 256 * (value bs).toNat) % 2 ^ 32 := by
  simp [value, UInt32.toNat_add, UInt32.toNat_mul]

theorem toNat_value_lt {bs : Bytes} (h : bs.length ≤ 4) : (value bs).toNat < 256 ^ bs.length := by
  induction bs with
  | nil => simp [value]
  | cons b bs ih =>
    have hb := b.toNat_lt
    have hv := ih (by simp only [List.length_cons] at h; omega)
    rw [toNat_value_cons, List.length_cons, pow_succ]
    exact Nat.lt_of_le_of_lt (Nat.mod_le _ _) (by omega)

/-- Up to four bytes have a value without a carry past the word. -/
theorem toNat_value_cons_of_le {b : UInt8} {bs : Bytes} (h : bs.length ≤ 3) :
    (value (b :: bs)).toNat = b.toNat + 256 * (value bs).toNat := by
  have hb := b.toNat_lt
  have hl : bs.length ≤ 4 := by omega
  have hv := toNat_value_lt hl
  have hp : (256 : Nat) ^ bs.length ≤ 256 ^ 3 := Nat.pow_le_pow_right (by norm_num) h
  rw [toNat_value_cons, Nat.mod_eq_of_lt (by omega)]

/-- The first `n` bytes hold the value modulo `256 ^ n`. -/
theorem toNat_value_take {n : Nat} (hn : n ≤ 4) (bs : Bytes) :
    (value (bs.take n)).toNat = (value bs).toNat % 256 ^ n := by
  induction n generalizing bs with
  | zero => simp [value, Nat.mod_one]
  | succ n ih =>
    cases bs with
    | nil => simp [value]
    | cons b bs =>
      have hb := b.toNat_lt
      rw [List.take_succ_cons, toNat_value_cons_of_le (by simp; omega), ih (by omega),
        toNat_value_cons, Nat.mod_mod_of_dvd _ (pow_dvd_word hn), pow_succ', Nat.mod_mul,
        Nat.add_mul_mod_self_left, Nat.mod_eq_of_lt hb, Nat.add_mul_div_left _ _ (by norm_num),
        Nat.div_eq_of_lt hb, Nat.zero_add]

/-! ## Writing and reading -/

/-- Reading a field that was written gives back what the field keeps of the value. -/
theorem toNat_value_ofValue {n : Nat} (hn : n ≤ 4) (v : UInt32) :
    (value (ofValue n v)).toNat = v.toNat % 256 ^ n := by
  induction n generalizing v with
  | zero => simp [ofValue, value, Nat.mod_one]
  | succ n ih =>
    rw [ofValue, toNat_value_cons_of_le (by rw [length_ofValue]; omega), ih (by omega), pow_succ',
      Nat.mod_mul, UInt32.toNat_toUInt8, UInt32.toNat_div]
    rfl

theorem value_ofValue {n : Nat} (hn : n ≤ 4) (v : UInt32) : value (ofValue n v) = fit n v := by
  apply UInt32.toNat_inj.1
  rw [toNat_value_ofValue hn, toNat_fit, Nat.min_eq_left hn]

/-- Writing what was read from a field gives its bytes back. -/
theorem ofValue_value {bs : Bytes} (h : bs.length ≤ 4) : ofValue bs.length (value bs) = bs := by
  induction bs with
  | nil => rfl
  | cons b bs ih =>
    have hb := b.toNat_lt
    have hl : bs.length ≤ 3 := Nat.le_of_succ_le_succ h
    have head : (value (b :: bs)).toUInt8 = b := by
      apply UInt8.toNat_inj.1
      rw [UInt32.toNat_toUInt8, toNat_value_cons_of_le hl]
      omega
    have tail : value (b :: bs) / 256 = value bs := by
      apply UInt32.toNat_inj.1
      rw [UInt32.toNat_div, toNat_value_cons_of_le hl]
      show (b.toNat + 256 * (value bs).toNat) / 256 = _
      omega
    rw [List.length_cons, ofValue, head, tail, ih (by omega)]

/-- A field holds no more of a value than it keeps. -/
theorem ofValue_fit {n : Nat} (hn : n ≤ 4) (v : UInt32) : ofValue n (fit n v) = ofValue n v := by
  have hl : (ofValue n v).length ≤ 4 := by rw [length_ofValue]; exact hn
  have h := ofValue_value hl
  rwa [length_ofValue, value_ofValue hn] at h

/-- A field for one byte more than a value needs ends with a zero. -/
theorem ofValue_succ_of_lt {n : Nat} {v : UInt32} (h : v.toNat < 256 ^ n) :
    ofValue (n + 1) v = ofValue n v ++ [0] := by
  induction n generalizing v with
  | zero =>
    have hv : v = 0 := UInt32.toNat_inj.1 (by simpa using h)
    subst hv; rfl
  | succ n ih =>
    have hdiv : (v / 256).toNat < 256 ^ n := by
      rw [UInt32.toNat_div]
      show v.toNat / 256 < 256 ^ n
      exact Nat.div_lt_of_lt_mul (by rw [← pow_succ']; exact h)
    rw [ofValue, ih hdiv]
    rfl

/-! ## Splitting off a field -/

theorem split?_append {n : Nat} {front : Bytes} (h : front.length = n) (rest : Bytes) :
    split? n (front ++ rest) = some (front, rest) := by
  subst h; simp [split?]

theorem split?_eq_some {n : Nat} {bytes front rest : Bytes} (h : split? n bytes = some (front, rest)) :
    bytes = front ++ rest ∧ front.length = n := by
  simp only [split?] at h
  split at h
  · rename_i hl
    cases h
    exact ⟨(List.take_append_drop n bytes).symm, hl⟩
  · cases h

theorem split?_eq_of_le {n : Nat} {bytes : Bytes} (h : n ≤ bytes.length) :
    split? n bytes = some (bytes.take n, bytes.drop n) := by
  unfold split?
  exact if_pos (by rw [List.length_take]; omega)

end DiscPatch.Bytes
