/-
Numerals: a number that was written is read back, in base ten and in base sixteen, with zeros in front or
without, and its digits hold nothing that other texts are cut at. In base ten they are those of the standard
library.
-/
import DiscPatch.Proofs.Text.Cutting
import DiscPatch.Text.Number

namespace DiscPatch.Text

/-! ## Digits -/

/-- The digits of base sixteen, and so those of the smaller bases. -/
def numerals : List Char :=
  ['0', '1', '2', '3', '4', '5', '6', '7', '8', '9', 'A', 'B', 'C', 'D', 'E', 'F']

theorem digitChar_mem_numerals : ∀ d < 16, digitChar d ∈ numerals := by
  decide

theorem digitValue?_digitChar : ∀ base ≤ 16, ∀ d < base, digitValue? base (digitChar d) = some d := by
  decide

section

variable {base : Nat} (hlow : 2 ≤ base) (hhigh : base ≤ 16)

include hlow hhigh

theorem mem_digitsOnto {n : Nat} {tail : List Char} {c : Char} (h : c ∈ digitsOnto base n tail) :
    c ∈ numerals ∨ c ∈ tail := by
  fun_induction digitsOnto base n tail with
  | case1 n tail hlt =>
    rcases List.mem_cons.1 h with rfl | h
    · exact .inl (digitChar_mem_numerals n (by omega))
    · exact .inr h
  | case2 n tail hge ih =>
    rcases ih h with h | h
    · exact .inl h
    · rcases List.mem_cons.1 h with rfl | h
      · exact .inl (digitChar_mem_numerals _ (Nat.lt_of_lt_of_le (Nat.mod_lt _ (by omega)) hhigh))
      · exact .inr h

theorem mem_digits {n : Nat} {c : Char} (h : c ∈ digits base n) : c ∈ numerals :=
  (mem_digitsOnto hlow hhigh h).resolve_right List.not_mem_nil

/-- The digits of a number are read up to its value. -/
theorem readDigits_digitsOnto {n bound : Nat} (hn : n ≤ bound) (tail : List Char) :
    readDigits base bound 0 (digitsOnto base n tail) = readDigits base bound n tail := by
  fun_induction digitsOnto base n tail with
  | case1 n tail hlt =>
    rw [readDigits, digitValue?_digitChar base hhigh n (by omega)]
    dsimp only
    rw [Nat.zero_mul, Nat.zero_add, if_neg (by omega)]
  | case2 n tail hge ih =>
    have hdiv := Nat.div_add_mod' n base
    rw [ih ((Nat.div_le_self ..).trans hn), readDigits, digitValue?_digitChar base hhigh _ (Nat.mod_lt _ (by omega))]
    dsimp only
    rw [hdiv, if_neg (by omega)]

end

theorem digits_ne_nil (base n : Nat) : digits base n ≠ [] := by
  have hne : ∀ tail, digitsOnto base n tail ≠ [] := by
    intro tail
    fun_induction digitsOnto base n tail with
    | case1 => simp
    | case2 _ _ _ ih => exact ih
  exact hne []

/-- A text that ends with digits ends with one of them. -/
theorem mem_numerals_of_getLast? {base : Nat} (hlow : 2 ≤ base) (hhigh : base ≤ 16) {n : Nat} {front : List Char}
    {c : Char} (h : (front ++ digits base n).getLast? = some c) : c ∈ numerals := by
  rw [List.getLast?_append_of_ne_nil _ (digits_ne_nil base n)] at h
  exact mem_digits hlow hhigh (List.mem_of_getLast? h)

/-! ## Words -/

theorem readUnsigned_of_no_plus {base bound : Nat} {cs : List Char} (hne : cs ≠ []) (h : '+' ∉ cs) :
    readUnsigned base bound cs = readDigits base bound 0 cs := by
  unfold readUnsigned
  split
  · exact absurd rfl hne
  · simp at h
  · simp at h
  · rfl

theorem readDigits_zeros {base bound : Nat} (hbase : 0 < base) (k : Nat) (ds : List Char) :
    readDigits base bound 0 (List.replicate k '0' ++ ds) = readDigits base bound 0 ds := by
  induction k with
  | zero => rfl
  | succ k ih =>
    have hzero : digitValue? base '0' = some 0 := if_pos hbase
    have hvalue : 0 * base + 0 = 0 := by rw [Nat.zero_mul]
    rw [List.replicate_succ, List.cons_append, readDigits, hzero]
    dsimp only
    rw [hvalue, if_neg (Nat.not_lt_zero bound), ih]

/-- Zeros in front of a number do not count. -/
theorem readWord_zeros {base : Nat} (hlow : 2 ≤ base) (hhigh : base ≤ 16) (k : Nat) (n : UInt32) :
    readWord base (List.replicate k '0' ++ digits base n.toNat) = .ok n := by
  have hplus : '+' ∉ List.replicate k '0' ++ digits base n.toNat := by
    intro h
    rcases List.mem_append.1 h with h | h
    · exact absurd (List.eq_of_mem_replicate h) (by decide)
    · exact absurd (mem_digits hlow hhigh h) (by decide)
  have hne : List.replicate k '0' ++ digits base n.toNat ≠ [] :=
    List.append_ne_nil_of_right_ne_nil _ (digits_ne_nil _ _)
  have hn : n.toNat ≤ maxWord := Nat.le_of_lt_succ n.toNat_lt
  unfold readWord
  rw [readUnsigned_of_no_plus hne hplus, readDigits_zeros (by omega), digits, readDigits_digitsOnto hlow hhigh hn,
    readDigits]
  show Except.ok (UInt32.ofNat n.toNat) = .ok n
  rw [UInt32.ofNat_toNat]

theorem readWord_digits {base : Nat} (hlow : 2 ≤ base) (hhigh : base ≤ 16) (n : UInt32) :
    readWord base (digits base n.toNat) = .ok n :=
  readWord_zeros hlow hhigh 0 n

theorem isBlank_of_mem_numerals : ∀ c ∈ numerals, isBlank c = false := by
  decide

theorem trimmed_digits {base : Nat} (hlow : 2 ≤ base) (hhigh : base ≤ 16) (n : Nat) :
    trimmed (digits base n) = digits base n :=
  trimmed_of_no_blank fun c hc => isBlank_of_mem_numerals c (mem_digits hlow hhigh hc)

theorem afterHexMark?_of_numerals {cs : List Char} (h : ∀ c ∈ cs, c ∈ numerals) : afterHexMark? cs = none := by
  have hmark : ∀ c ∈ numerals, c ≠ 'x' ∧ c ≠ 'X' := by decide
  unfold afterHexMark?
  split
  · exact absurd rfl (hmark 'x' (h 'x' (by simp))).1
  · exact absurd rfl (hmark 'X' (h 'X' (by simp))).2
  · rfl

theorem afterHexMark?_digits {base : Nat} (hlow : 2 ≤ base) (hhigh : base ≤ 16) (n : Nat) :
    afterHexMark? (digits base n) = none :=
  afterHexMark?_of_numerals fun _ hc => mem_digits hlow hhigh hc

theorem hexWord?_of_numerals {s : String} (h : ∀ c ∈ s.toList, c ∈ numerals) :
    hexWord? s = (readWord 16 s.toList).toOption := by
  unfold hexWord?
  rw [trimmed_of_no_blank fun c hc => isBlank_of_mem_numerals c (h c hc)]
  dsimp only
  rw [afterHexMark?_of_numerals h]
  rfl

theorem hexWord?_hex (n : UInt32) : hexWord? (hex n.toNat) = some n := by
  have hnumerals : ∀ c ∈ (hex n.toNat).toList, c ∈ numerals := fun c hc =>
    mem_digits (by decide : 2 ≤ 16) (by decide) (by rwa [hex, String.toList_ofList] at hc)
  rw [hexWord?_of_numerals hnumerals, hex, String.toList_ofList, readWord_digits (by decide) (by decide)]
  rfl

theorem decimalWord?_decimal (n : UInt32) : decimalWord? (decimal n.toNat) = some n := by
  unfold decimalWord? decimal
  rw [String.toList_ofList, trimmed_digits (by decide) (by decide), readWord_digits (by decide) (by decide)]
  rfl

/-! ## Filled up with zeros -/

theorem toList_hexPadded (width n : Nat) :
    (hexPadded width n).toList = List.replicate (width - (digits 16 n).length) '0' ++ digits 16 n :=
  String.toList_ofList

theorem mem_hexPadded {width n : Nat} {c : Char} (h : c ∈ (hexPadded width n).toList) : c ∈ numerals := by
  rw [toList_hexPadded] at h
  rcases List.mem_append.1 h with h | h
  · rw [List.eq_of_mem_replicate h]
    decide
  · exact mem_digits (by decide) (by decide) h

theorem hexWord?_hexPadded (width : Nat) (n : UInt32) : hexWord? (hexPadded width n.toNat) = some n := by
  rw [hexWord?_of_numerals fun _ => mem_hexPadded, toList_hexPadded, readWord_zeros (by decide) (by decide)]
  rfl

theorem length_digitsOnto_le {base n k : Nat} (hn : n < base ^ (k + 1)) (tail : List Char) :
    (digitsOnto base n tail).length ≤ k + 1 + tail.length := by
  induction k generalizing n tail with
  | zero =>
    rw [digitsOnto, dif_pos (.inl (by simpa using hn)), List.length_cons]
    omega
  | succ k ih =>
    rw [digitsOnto]
    split
    · rw [List.length_cons]
      omega
    · have hdiv : n / base < base ^ (k + 1) := Nat.div_lt_of_lt_mul (by rwa [← Nat.pow_succ'])
      have hlength := ih hdiv (digitChar (n % base) :: tail)
      rw [List.length_cons] at hlength
      omega

/-- A number that needs no more digits than it is filled up to has exactly so many. -/
theorem length_hexPadded {width n : Nat} (hwidth : 0 < width) (hn : n < 16 ^ width) :
    (hexPadded width n).length = width := by
  obtain ⟨k, rfl⟩ := Nat.exists_eq_add_of_lt hwidth
  have hlength : (digits 16 n).length ≤ k + 1 := length_digitsOnto_le (by simpa using hn) []
  rw [← String.length_toList, toList_hexPadded, List.length_append, List.length_replicate]
  omega

/-! ## Base ten -/

theorem digitChar_eq : ∀ d < 10, digitChar d = Nat.digitChar d := by
  decide

theorem digitsOnto_ten (n : Nat) (tail : List Char) : digitsOnto 10 n tail = Nat.toDigits 10 n ++ tail := by
  fun_induction digitsOnto 10 n tail with
  | case1 n tail hlt =>
    have hlt : n < 10 := by omega
    rw [Nat.toDigits_of_lt_base hlt, digitChar_eq n hlt]
    rfl
  | case2 n tail hge ih =>
    rw [ih, Nat.toDigits_eq_if (b := 10) (n := n) (by decide), if_neg (by omega), List.append_assoc,
      digitChar_eq _ (Nat.mod_lt n (by decide))]
    rfl

theorem decimal_eq (n : Nat) : decimal n = toString n := by
  unfold decimal digits
  rw [digitsOnto_ten, List.append_nil]
  rfl

theorem signedDecimal_eq (i : Int) : signedDecimal i = toString i := by
  unfold signedDecimal
  cases i with
  | ofNat n =>
    rw [if_neg (by simp), decimal_eq]
    rfl
  | negSucc n =>
    rw [if_pos (Int.negSucc_lt_zero n), decimal_eq]
    rfl

end DiscPatch.Text
