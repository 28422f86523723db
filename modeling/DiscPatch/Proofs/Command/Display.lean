/-
Shown values. The text that is shown for an argument tells its value: all digits of the field in base sixteen, a
number in base ten, or the one number of the field's signed range that is congruent to the value, which shifting the
value to the top of a word and back gives. So arguments of one parameter that are shown alike are the same and have
the same bytes, and no others are shown alike.
-/
import DiscPatch.Proofs.Command.Decode
import DiscPatch.Proofs.Text.Numerals
import Mathlib

namespace DiscPatch.Command

open Text

/-! ## Words cut to a field -/

/-- What masking leaves of a word in a field of `width` bytes. -/
def masked (width : Nat) (v : UInt32) : UInt32 :=
  if 32 ≤ 8 * width then v else v &&& ((1 <<< UInt32.ofNat (8 * width)) - 1)

theorem width_cases {width : Nat} (h : Layout.IsWidth width) : width = 1 ∨ width = 2 ∨ width = 3 ∨ width = 4 := by
  unfold Layout.IsWidth at h
  omega

theorem toNat_and_low (v : UInt32) (bits : Nat) {mask : UInt32} (h : mask.toNat = 2 ^ bits - 1) :
    (v &&& mask).toNat = v.toNat % 2 ^ bits := by
  rw [UInt32.toNat_and, h, Nat.and_two_pow_sub_one_eq_mod]

theorem fit_eq_masked {width : Nat} (h : Layout.IsWidth width) (v : UInt32) : Bytes.fit width v = masked width v := by
  apply UInt32.toNat_inj.1
  rw [Bytes.toNat_fit]
  rcases width_cases h with rfl | rfl | rfl | rfl
  · exact (toNat_and_low v 8 rfl).symm
  · exact (toNat_and_low v 16 rfl).symm
  · exact (toNat_and_low v 24 rfl).symm
  · exact Nat.mod_eq_of_lt v.toNat_lt

/-! ## Signed numbers -/

/-- A number that a field of `width` bytes with this value can stand for when its top bit is a sign. -/
structure IsSigned (width : Nat) (value : UInt32) (i : Int) : Prop where
  congruent : i ≡ value.toNat [ZMOD 256 ^ width]
  low : -2 ^ (8 * width - 1) ≤ i
  high : i < 2 ^ (8 * width - 1)

/-- The value of a field of `width` bytes shifted to the top of a word and back, its sign filling up what is free. -/
def signExtended (width : Nat) (value : UInt32) : Int :=
  let shift := UInt32.ofNat (32 - 8 * min width 4)
  ((value <<< shift).toInt32 >>> shift.toInt32).toInt

theorem pow_eq_two_mul {width : Nat} (h : 1 ≤ width) : (256 : Int) ^ width = 2 * 2 ^ (8 * width - 1) := by
  rw [← pow_succ', show 8 * width - 1 + 1 = 8 * width by omega, pow_mul]
  norm_num

/-- The signed range holds the balanced remainder and nothing else that is congruent. -/
theorem isSigned_iff {width : Nat} (h : Layout.IsWidth width) {value : UInt32} {i : Int} :
    IsSigned width value i ↔ i = (value.toNat : Int).bmod (256 ^ width) := by
  have hpow := pow_eq_two_mul h.1
  have hcast : ((256 ^ width : Nat) : Int) = 256 ^ width := by norm_cast
  have hlow : (256 : Int) ^ width / 2 = 2 ^ (8 * width - 1) := by omega
  have hhigh : ((256 : Int) ^ width + 1) / 2 = 2 ^ (8 * width - 1) := by omega
  rw [eq_comm, Int.bmod_eq_iff (by positivity), hcast, hlow, hhigh]
  constructor
  · rintro ⟨hcongruent, hlow, hhigh⟩
    exact ⟨hlow, hhigh, hcongruent.symm.dvd⟩
  · rintro ⟨hlow, hhigh, hdvd⟩
    exact ⟨(Int.modEq_iff_dvd.2 hdvd).symm, hlow, hhigh⟩

/-- Balanced remainders by even numbers scale. -/
theorem mul_bmod_mul (x : Int) {m scale : Nat} (hm : 0 < m) (heven : 2 ∣ m) (hscale : 0 < scale) :
    (x * scale).bmod (m * scale) = x.bmod m * scale := by
  obtain ⟨half, rfl⟩ := heven
  obtain ⟨hlow, hhigh, hdvd⟩ := (Int.bmod_eq_iff hm).1 (rfl : x.bmod (2 * half) = _)
  have hdouble : ((2 * half * scale : Nat) : Int) = 2 * (half * scale) := by push_cast; ring
  rw [Int.bmod_eq_iff (Nat.mul_pos hm hscale)]
  refine ⟨?_, ?_, ?_⟩
  · have hle : -(half : Int) * scale ≤ x.bmod (2 * half) * scale :=
      Int.mul_le_mul_of_nonneg_right (by omega) (by omega)
    rw [Int.neg_mul] at hle
    rw [hdouble]
    omega
  · have hlt : x.bmod (2 * half) * scale < half * scale := Int.mul_lt_mul_of_pos_right (by omega) (by omega)
    rw [hdouble]
    omega
  · rw [← Int.sub_mul, Nat.cast_mul]
    exact Int.mul_dvd_mul_right _ hdvd

theorem toInt_shift_back (x : BitVec 32) (shift kept : Nat) (h : kept + shift = 32) (hkept : 0 < kept) :
    ((x <<< shift).sshiftRight shift).toInt = (x.toNat : Int).bmod (2 ^ kept) := by
  have heven : 2 ∣ 2 ^ kept := dvd_pow_self 2 hkept.ne'
  have hword : 2 ^ 32 = 2 ^ kept * 2 ^ shift := by rw [← pow_add, h]
  have hscale : ((2 ^ shift : Nat) : Int) ≠ 0 := by positivity
  rw [BitVec.toInt_sshiftRight, BitVec.toInt_shiftLeft, Int.shiftRight_eq_div_pow, Nat.shiftLeft_eq, hword,
    Nat.cast_mul, mul_bmod_mul _ (by positivity) heven (by positivity), Int.mul_ediv_cancel _ hscale]

theorem signExtended_eq {width : Nat} (h : Layout.IsWidth width) (value : UInt32) :
    signExtended width value = (value.toNat : Int).bmod (256 ^ width) := by
  rcases width_cases h with rfl | rfl | rfl | rfl
  · exact toInt_shift_back value.toBitVec 24 8 rfl (by decide)
  · exact toInt_shift_back value.toBitVec 16 16 rfl (by decide)
  · exact toInt_shift_back value.toBitVec 8 24 rfl (by decide)
  · exact toInt_shift_back value.toBitVec 0 32 rfl (by decide)

/-! ## What is shown -/

/-- What a text says of the value of a field of `width` bytes, for each display. -/
def Shows (width : Nat) (value : UInt32) (text : String) : Display → Prop
  | .hex => text.length = 2 * width ∧ (∀ c ∈ text.toList, c ∈ numerals) ∧ hexWord? text = some value
  | .unsigned => text = toString value.toNat
  | .signed => text = toString (signExtended width value) ∧
      ∀ i, IsSigned width value i ↔ i = signExtended width value

theorem toNat_fit_lt {width : Nat} (h : Layout.IsWidth width) (v : UInt32) :
    (Bytes.fit width v).toNat < 256 ^ width := by
  rw [Bytes.toNat_fit, Nat.min_eq_left h.2]
  exact Nat.mod_lt _ (by positivity)

theorem shows_display {p : Parameter} (h : Layout.IsWidth p.width) (v : UInt32) :
    Shows p.width (Argument.ofValue p v).value (Argument.ofValue p v).display p.display := by
  obtain ⟨name, width, meaning, display⟩ := p
  have h : Layout.IsWidth width := h
  cases display with
  | hex =>
    have hpos : 1 ≤ width := h.1
    have hwidth : 0 < 2 * width := by omega
    have hfits : (Bytes.fit width v).toNat < 16 ^ (2 * width) := by
      rw [pow_mul]
      exact toNat_fit_lt h v
    exact ⟨length_hexPadded hwidth hfits, fun _ => mem_hexPadded, hexWord?_hexPadded _ _⟩
  | unsigned => exact decimal_eq _
  | signed =>
    refine ⟨?_, fun i => ?_⟩
    · show signedDecimal (((Bytes.fit width v).toNat : Int).bmod (Bytes.capacity (min width 4))) = _
      rw [signedDecimal_eq, Bytes.capacity_eq, Nat.min_eq_left h.2, ← signExtended_eq h]
      rfl
    · rw [isSigned_iff h, signExtended_eq h]

/-- A text tells one value of a field apart from all others. -/
theorem Shows.value_unique {width : Nat} {x y : UInt32} {text : String} {display : Display}
    (hx : Shows width x text display) (hy : Shows width y text display) (hxlt : x.toNat < 256 ^ width)
    (hylt : y.toNat < 256 ^ width) : x = y := by
  cases display with
  | hex =>
    have hread : some x = some y := hx.2.2.symm.trans hy.2.2
    exact Option.some.inj hread
  | unsigned =>
    have htext : toString x.toNat = toString y.toNat := hx.symm.trans hy
    exact UInt32.toNat_inj.1 (Nat.repr_inj.1 htext)
  | signed =>
    have htext : toString (signExtended width x) = toString (signExtended width y) := hx.1.symm.trans hy.1
    have hnumber : signExtended width x = signExtended width y := Int.repr_inj.1 htext
    -- the number is congruent to both values, and they are both below the modulus
    have hmod : (x.toNat : Int) ≡ y.toNat [ZMOD 256 ^ width] :=
      ((hx.2 _).2 rfl).congruent.symm.trans ((hy.2 _).2 hnumber).congruent
    have hmod : x.toNat ≡ y.toNat [MOD 256 ^ width] := Int.natCast_modEq_iff.1 (by exact_mod_cast hmod)
    exact UInt32.toNat_inj.1 (hmod.eq_of_lt_of_lt hxlt hylt)

section

variable {p : Parameter} (h : Layout.IsWidth p.width) (v w : UInt32)

include h

theorem display_eq_iff : (Argument.ofValue p v).display = (Argument.ofValue p w).display ↔
    (Argument.ofValue p v).value = (Argument.ofValue p w).value := by
  constructor
  · intro hdisplay
    exact (shows_display h v).value_unique (hdisplay ▸ shows_display h w) (toNat_fit_lt h v) (toNat_fit_lt h w)
  · intro hvalue
    exact congrArg (fun value => Argument.display ⟨p, value⟩) hvalue

theorem bytes_eq_iff : (Argument.ofValue p v).bytes = (Argument.ofValue p w).bytes ↔
    (Argument.ofValue p v).value = (Argument.ofValue p w).value := by
  constructor
  · intro hbytes
    have hvalue := congrArg Bytes.value hbytes
    simp only [Argument.bytes, Argument.ofValue, Bytes.value_ofValue h.2, Bytes.fit_fit] at hvalue
    exact hvalue
  · exact congrArg (Bytes.ofValue p.width)

end

/-! ## Arguments shown alike -/

/-- An argument made of a word, or set to it, has what masking to its width leaves of the word: the word modulo
`256 ^ width`. Its text tells this value, so that arguments of a parameter are shown alike exactly when their values
are the same, and exactly when a command has the same bytes with either. -/
theorem display_tells_value {p : Parameter} (h : Layout.IsWidth p.width) (v : UInt32) :
    (∀ (c : Command) (index : Nat), (c.withValue index v).arguments[index]? =
      c.arguments[index]?.map fun a => Argument.ofValue a.parameter v) ∧
    (Argument.ofValue p v).value = masked p.width v ∧
    (Argument.ofValue p v).value.toNat = v.toNat % 256 ^ p.width ∧
    Shows p.width (Argument.ofValue p v).value (Argument.ofValue p v).display p.display ∧
    ∀ w : UInt32,
      ((Argument.ofValue p v).display = (Argument.ofValue p w).display ↔
        (Argument.ofValue p v).value = (Argument.ofValue p w).value) ∧
      ∀ (t : Layout) (before after : List Argument),
        (Argument.ofValue p v).display = (Argument.ofValue p w).display ↔
          encode ⟨t, before ++ Argument.ofValue p v :: after⟩ =
            encode ⟨t, before ++ Argument.ofValue p w :: after⟩ := by
  refine ⟨fun c index => ?_, fit_eq_masked h v, ?_, shows_display h v, fun w => ⟨display_eq_iff h v w, ?_⟩⟩
  · show (c.arguments.modify index _)[index]? = _
    rw [List.getElem?_modify_eq]
    rfl
  · show (Bytes.fit p.width v).toNat = _
    rw [Bytes.toNat_fit, Nat.min_eq_left h.2]
  · intro t before after
    rw [display_eq_iff h, ← bytes_eq_iff h, encode_eq, encode_eq]
    simp only [List.flatMap_append, List.flatMap_cons, List.append_right_inj, List.append_left_inj]

/-- In three bytes the eighth bit of the last one is the sign, and the bits of the word behind it do not count. -/
theorem display_tells_value_at_sign :
    let p : Parameter := ⟨"Depth", 3, .number, .signed⟩
    Layout.IsWidth p.width ∧ (Argument.ofValue p 0x7F800000).value.toNat = 0x7F800000 % 256 ^ 3 ∧
      (Argument.ofValue p 0x7F800000).display = "-8388608" ∧
      (Argument.ofValue p 0x7F800000).display = (Argument.ofValue p 0x800000).display ∧
      (Argument.ofValue p 0x7F800000).display ≠ (Argument.ofValue p 0x7FFFFF).display := by
  intro p
  have hp : Layout.IsWidth p.width := by decide
  obtain ⟨-, -, hvalue, ⟨htext, -⟩, halike⟩ := display_tells_value hp 0x7F800000
  have hnumber : signExtended p.width (Argument.ofValue p 0x7F800000).value = -8388608 := by decide +kernel
  rw [hnumber] at htext
  exact ⟨hp, hvalue, htext, (halike 0x800000).1.2 (by decide),
    fun hsame => absurd ((halike 0x7FFFFF).1.1 hsame) (by decide)⟩

end DiscPatch.Command
