/-
Which texts are hexadecimal. White space aside, a text that is read is the digits of the byte string that it gives,
each in either case, and every such text is read; a text is refused exactly for a character that is neither digit nor
white space, or for an odd number of digits. Reading the bytes of the text's encoding instead of its characters gives
the same.
-/
import DiscPatch.Proofs.Bytes.Hex
import DiscPatch.Text.Ascii
import Mathlib.Tactic

namespace DiscPatch.Bytes

open Text

/-! ## Digits in either case -/

/-- The digits that hexadecimal text may hold. -/
def hexNumerals : List Char :=
  numerals ++ ['a', 'b', 'c', 'd', 'e', 'f']

theorem isHexDigit_iff_mem {c : Char} : isHexDigit c = true ↔ c ∈ hexNumerals := by
  constructor
  · intro h
    have hlt : c.toNat < 103 := by
      by_contra hge
      have hnone : digitValue? 16 c = none := by
        unfold digitValue?
        dsimp only
        split_ifs <;> first | omega | rfl
      rw [isHexDigit, hnone] at h
      cases h
    have hmem : ∀ n < 103, isHexDigit (Char.ofNat n) = true → Char.ofNat n ∈ hexNumerals := by decide
    rw [← Char.ofNat_toNat c] at h ⊢
    exact hmem c.toNat hlt h
  · exact fun h => (by decide : ∀ c ∈ hexNumerals, isHexDigit c = true) c h

theorem isHexSpace_of_mem : ∀ c ∈ hexNumerals, isHexSpace c = false := by
  decide

/-- A digit has a value below sixteen, and differs at most in case from the digit that is written for it. -/
theorem exists_value_of_mem : ∀ c ∈ hexNumerals,
    ∃ d < 16, digitValue? 16 c = some d ∧ c.toLower = (digitChar d).toLower := by
  decide

theorem toLower_of_digitValue? {c : Char} {d : Nat} (h : digitValue? 16 c = some d) :
    d < 16 ∧ c.toLower = (digitChar d).toLower := by
  have hdigit : isHexDigit c = true := by
    rw [isHexDigit, h]
    rfl
  obtain ⟨e, he, hvalue, hlower⟩ := exists_value_of_mem c (isHexDigit_iff_mem.1 hdigit)
  rw [h] at hvalue
  cases hvalue
  exact ⟨he, hlower⟩

theorem toNat_toLower (c : Char) :
    c.toLower.toNat = if 65 ≤ c.toNat ∧ c.toNat ≤ 90 then c.toNat + 32 else c.toNat := by
  have hcapital : (c.val ≥ 'A'.val ∧ c.val ≤ 'Z'.val) ↔ 65 ≤ c.toNat ∧ c.toNat ≤ 90 := by
    simp only [ge_iff_le, UInt32.le_iff_toNat_le]
    rfl
  unfold Char.toLower
  by_cases h : 65 ≤ c.toNat ∧ c.toNat ≤ 90
  · rw [if_pos h, dif_pos (hcapital.2 h)]
    show (c.val + 32).toNat = c.toNat + 32
    rw [UInt32.toNat_add]
    show (c.toNat + 32) % 2 ^ 32 = c.toNat + 32
    omega
  · rw [if_neg h, dif_neg (mt hcapital.1 h)]

/-- The value of a digit does not depend on its case. -/
theorem digitValue?_toLower (base : Nat) (c : Char) : digitValue? base c.toLower = digitValue? base c := by
  unfold digitValue?
  dsimp only
  rw [toNat_toLower]
  split_ifs <;> first | omega | rfl

/-! ## Digits in pairs -/

theorem ofPairs?_map_toLower : ∀ cs : List Char, ofPairs? (cs.map Char.toLower) = ofPairs? cs
  | [] => rfl
  | [_] => rfl
  | h :: l :: cs => by
    rw [List.map_cons, List.map_cons, ofPairs?, ofPairs?, digitValue?_toLower, digitValue?_toLower,
      ofPairs?_map_toLower cs]

theorem hexPair_of_digits {hi lo : Nat} (hhi : hi < 16) (hlo : lo < 16) :
    hexPair (UInt8.ofNat (16 * hi + lo)) = [digitChar hi, digitChar lo] := by
  have hlt : 16 * hi + lo < 256 := by omega
  have hbyte : (UInt8.ofNat (16 * hi + lo)).toNat = 16 * hi + lo := UInt8.toNat_ofNat_of_lt' hlt
  have hdiv : (16 * hi + lo) / 16 = hi := by omega
  have hmod : (16 * hi + lo) % 16 = lo := by omega
  rw [hexPair, hbyte, hdiv, hmod]

/-- Characters that are read in pairs are the digits of what they give, but for their case. -/
theorem toLower_of_ofPairs? : ∀ {cs : List Char} {bytes : Bytes}, ofPairs? cs = some bytes →
    cs.map Char.toLower = (hexDigits bytes).map Char.toLower
  | [], bytes, h => by
    cases h
    rfl
  | [_], bytes, h => by cases h
  | h :: l :: cs, bytes, hread => by
    rw [ofPairs?] at hread
    split at hread
    · rename_i hi lo rest hhi hlo hrest
      cases hread
      obtain ⟨hhigh, hlower⟩ := toLower_of_digitValue? hhi
      obtain ⟨hlow, llower⟩ := toLower_of_digitValue? hlo
      show _ = (hexPair (UInt8.ofNat (16 * hi + lo)) ++ hexDigits rest).map Char.toLower
      rw [hexPair_of_digits hhigh hlow, List.map_append, ← toLower_of_ofPairs? hrest, List.map_cons, List.map_cons,
        hlower, llower]
      rfl
    · cases hread

theorem ofPairs?_eq_some_iff {cs : List Char} {bytes : Bytes} :
    ofPairs? cs = some bytes ↔ cs.map Char.toLower = (hexDigits bytes).map Char.toLower := by
  constructor
  · exact toLower_of_ofPairs?
  · intro h
    rw [← ofPairs?_map_toLower, h, ofPairs?_map_toLower, ofPairs?_hexDigits]

/-- Characters are not read in pairs when one of them is no digit or one is left over. -/
theorem ofPairs?_eq_none_iff {cs : List Char} :
    ofPairs? cs = none ↔ (∃ c ∈ cs, c ∉ hexNumerals) ∨ cs.length % 2 = 1 := by
  have hall : cs.all isHexDigit = true ↔ ∀ c ∈ cs, c ∈ hexNumerals := by
    simp only [List.all_eq_true, isHexDigit_iff_mem]
  rw [← Option.map_eq_none_iff (f := List.length), length_ofPairs?]
  by_cases hdigits : ∀ c ∈ cs, c ∈ hexNumerals
  · rw [hall.2 hdigits]
    have hno : ¬ ∃ c ∈ cs, c ∉ hexNumerals := by
      push Not
      exact hdigits
    simp [hno]
  · rw [Bool.eq_false_iff.2 (mt hall.1 hdigits)]
    push Not at hdigits
    simp [hdigits]

/-! ## Texts -/

/-- The text without its white space. -/
def withoutSpace (s : String) : String :=
  String.ofList (s.toList.filter (!isHexSpace ·))

/-- Whether a text spells a byte string: white space aside, it is the byte string's digits in either case. -/
def Spells (s : String) (bytes : Bytes) : Prop :=
  sameIgnoringCase (withoutSpace s) (toHex bytes) = true

theorem ofHex?_eq_some_iff {s : String} {bytes : Bytes} : ofHex? s = some bytes ↔ Spells s bytes := by
  unfold Spells sameIgnoringCase lowerAscii withoutSpace toHex
  rw [beq_iff_eq, String.ofList_inj, String.toList_ofList, String.toList_ofList]
  exact ofPairs?_eq_some_iff

/-- A text is refused for a character that is neither digit nor white space, or for an odd number of digits. -/
theorem ofHex?_eq_none_iff {s : String} :
    ofHex? s = none ↔
      (∃ c ∈ s.toList, isHexSpace c = false ∧ c ∉ hexNumerals) ∨ s.toList.countP (· ∈ hexNumerals) % 2 = 1 := by
  have hstrange : (∃ c ∈ s.toList.filter (!isHexSpace ·), c ∉ hexNumerals) ↔
      ∃ c ∈ s.toList, isHexSpace c = false ∧ c ∉ hexNumerals := by
    simp only [List.mem_filter, Bool.not_eq_true', and_assoc]
  unfold ofHex?
  rw [ofPairs?_eq_none_iff, hstrange]
  by_cases h : ∃ c ∈ s.toList, isHexSpace c = false ∧ c ∉ hexNumerals
  · simp only [h, true_or]
  · -- what is no white space is a digit then
    have hkept : s.toList.filter (!isHexSpace ·) = s.toList.filter (· ∈ hexNumerals) := by
      refine List.filter_congr fun c hc => ?_
      by_cases hmem : c ∈ hexNumerals
      · simp [hmem, isHexSpace_of_mem c hmem]
      · have hspace : isHexSpace c = true := by
          by_contra hno
          exact h ⟨c, hc, Bool.eq_false_iff.2 hno, hmem⟩
        simp [hmem, hspace]
    rw [hkept, ← List.countP_eq_length_filter]

/-! ## Encoded texts -/

/-- Reads hexadecimal text from bytes, each taken for the character of that code. -/
def ofEncoded? (text : Bytes) : Option Bytes :=
  ofPairs? ((text.map fun b => Char.ofNat b.toNat).filter (!isHexSpace ·))

theorem toNat_of_isHexSpace {c : Char} (h : isHexSpace c = true) : c.toNat < 128 := by
  simp only [isHexSpace, Bool.or_eq_true, beq_iff_eq] at h
  rcases h with (((rfl | rfl) | rfl) | rfl) | rfl <;> decide

theorem toNat_of_mem_hexNumerals : ∀ c ∈ hexNumerals, c.toNat < 128 := by
  decide

/-- Nothing beyond seven bits is a digit or white space. -/
theorem ofPairs?_of_wide {cs : List Char} (h : ∃ c ∈ cs, 128 ≤ c.toNat) :
    ofPairs? (cs.filter (!isHexSpace ·)) = none := by
  obtain ⟨c, hc, hwide⟩ := h
  have hspace : isHexSpace c = false := by
    by_contra hspace
    exact absurd (toNat_of_isHexSpace (Bool.eq_true_of_not_eq_false hspace)) (by omega)
  have hdigit : c ∉ hexNumerals := fun hmem => absurd (toNat_of_mem_hexNumerals c hmem) (by omega)
  exact ofPairs?_eq_none_iff.2 (.inl ⟨c, List.mem_filter.2 ⟨hc, by rw [hspace]; rfl⟩, hdigit⟩)

/-- The character that a byte is taken for has the byte's code. -/
theorem toNat_ofByte (b : UInt8) : (Char.ofNat b.toNat).toNat = b.toNat := by
  have hlt := b.toNat_lt
  rw [Char.ofNat, dif_pos (.inl (by omega))]
  rfl

/-- The characters of seven bits are those that take one byte. -/
theorem utf8Size_eq_one_iff {c : Char} : c.utf8Size = 1 ↔ c.toNat < 128 := by
  rw [Char.utf8Size_eq_one_iff, UInt32.le_iff_toNat_le]
  show c.toNat ≤ 127 ↔ c.toNat < 128
  omega

theorem encoded_of_narrow {c : Char} (h : c.toNat < 128) :
    (String.utf8EncodeChar c).map (fun b => Char.ofNat b.toNat) = [c] := by
  have hbyte : (c.val.toUInt8).toNat = c.toNat := by
    rw [UInt32.toNat_toUInt8]
    exact Nat.mod_eq_of_lt (show c.toNat < 256 by omega)
  rw [String.utf8EncodeChar_eq_singleton (utf8Size_eq_one_iff.2 h), List.map_singleton, hbyte, Char.ofNat_toNat]

/-- What takes several bytes has a bit set in the first one that no narrow character has. -/
theorem exists_wide_byte {c : Char} (h : 128 ≤ c.toNat) : ∃ b ∈ String.utf8EncodeChar c, 128 ≤ b.toNat := by
  have hmark (x mark : UInt8) (hmark : 128 ≤ mark.toNat) : 128 ≤ (x ||| mark).toNat := by
    rw [UInt8.toNat_or]
    exact hmark.trans Nat.right_le_or
  obtain h1 | h2 | h3 | h4 := c.utf8Size_eq
  · exact absurd (utf8Size_eq_one_iff.1 h1) (by omega)
  · rw [String.utf8EncodeChar_eq_cons_cons h2]
    exact ⟨_, List.mem_cons_self .., hmark _ _ (by decide)⟩
  · rw [String.utf8EncodeChar_eq_cons_cons_cons h3]
    exact ⟨_, List.mem_cons_self .., hmark _ _ (by decide)⟩
  · rw [String.utf8EncodeChar_eq_cons_cons_cons_cons h4]
    exact ⟨_, List.mem_cons_self .., hmark _ _ (by decide)⟩

theorem encoded_bytes (s : String) : s.toUTF8.data.toList = s.toList.flatMap String.utf8EncodeChar := by
  conv => lhs; rw [← String.ofList_toList (s := s)]
  exact List.toList_data_toByteArray

/-- The bytes of a text say as much as its characters. -/
theorem ofEncoded?_utf8 (s : String) : ofEncoded? s.toUTF8.data.toList = ofHex? s := by
  unfold ofEncoded? ofHex?
  rw [encoded_bytes]
  by_cases h : ∃ c ∈ s.toList, 128 ≤ c.toNat
  · rw [ofPairs?_of_wide h]
    obtain ⟨c, hc, hwide⟩ := h
    obtain ⟨b, hb, hbyte⟩ := exists_wide_byte hwide
    refine ofPairs?_of_wide ⟨Char.ofNat b.toNat, List.mem_map_of_mem (List.mem_flatMap.2 ⟨c, hc, hb⟩), ?_⟩
    rw [toNat_ofByte]
    exact hbyte
  · have hchars : (s.toList.flatMap String.utf8EncodeChar).map (fun b => Char.ofNat b.toNat) = s.toList := by
      push Not at h
      rw [List.map_flatMap, List.flatMap_congr fun c hc => encoded_of_narrow (h c hc), List.flatMap_singleton']
    rw [hchars]

/-! ## What is read -/

/-- Hexadecimal text is read as the byte string that it spells, if it spells one: it is refused exactly for a character
that is neither digit nor white space or for an odd number of digits, and so for anything beyond seven bits. The bytes
of the text's encoding are read as its characters are. -/
theorem ofHex?_reads_spelled (s : String) (bytes : Bytes) :
    (ofHex? s = some bytes ↔ Spells s bytes) ∧ ofHex? (toHex bytes) = some bytes ∧
    (ofHex? s = none ↔
      (∃ c ∈ s.toList, isHexSpace c = false ∧ c ∉ hexNumerals) ∨ s.toList.countP (· ∈ hexNumerals) % 2 = 1) ∧
    ((∃ c ∈ s.toList, 128 ≤ c.toNat) → ofHex? s = none) ∧
    ofEncoded? s.toUTF8.data.toList = ofHex? s :=
  ⟨ofHex?_eq_some_iff, ofHex?_toHex bytes, ofHex?_eq_none_iff, ofPairs?_of_wide, ofEncoded?_utf8 s⟩

/-- White space may stand inside a pair, but a space beyond seven bits may not. -/
theorem ofHex?_reads_spelled_spaced :
    Spells "4 1b\n\x0c2" [0x41, 0xB2] ∧ ofHex? "4 1b\n\x0c2" = some [0x41, 0xB2] ∧
    (∃ c ∈ "41\u00a0B2".toList, 128 ≤ c.toNat) ∧ ofHex? "41\u00a0B2" = none := by
  have hspells : Spells "4 1b\n\x0c2" [0x41, 0xB2] := by
    unfold Spells
    decide +kernel
  have hwide : ∃ c ∈ "41\u00a0B2".toList, 128 ≤ c.toNat := ⟨'\u00a0', by decide +kernel, by decide⟩
  exact ⟨hspells, (ofHex?_reads_spelled _ _).1.2 hspells, hwide, (ofHex?_reads_spelled _ []).2.2.2.1 hwide⟩

end DiscPatch.Bytes
