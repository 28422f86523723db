/-
Hexadecimal text: the digits that are written for a byte string are read back as the byte string, and how many
bytes a text gives does not depend on which digits it has.
-/
import DiscPatch.Bytes.Hex
import DiscPatch.Proofs.Text.Numerals

namespace DiscPatch.Bytes

open Text

theorem mem_hexDigits {bytes : Bytes} {c : Char} (h : c ∈ hexDigits bytes) : c ∈ numerals := by
  obtain ⟨b, -, hc⟩ := List.mem_flatMap.1 h
  have hb := b.toNat_lt
  simp only [hexPair, List.mem_cons, List.not_mem_nil, or_false] at hc
  rcases hc with rfl | rfl
  · exact digitChar_mem_numerals _ (by omega)
  · exact digitChar_mem_numerals _ (by omega)

theorem ofPairs?_hexDigits (bytes : Bytes) : ofPairs? (hexDigits bytes) = some bytes := by
  induction bytes with
  | nil => rfl
  | cons b bytes ih =>
    have hb := b.toNat_lt
    have hbyte : 16 * (b.toNat / 16) + b.toNat % 16 = b.toNat := by omega
    show ofPairs? (digitChar (b.toNat / 16) :: digitChar (b.toNat % 16) :: hexDigits bytes) = some (b :: bytes)
    rw [ofPairs?, digitValue?_digitChar 16 (by decide) _ (by omega),
      digitValue?_digitChar 16 (by decide) _ (by omega), ih]
    dsimp only
    rw [hbyte, UInt8.ofNat_toNat]

theorem ofHex?_toHex (bytes : Bytes) : ofHex? (toHex bytes) = some bytes := by
  have hspace : ∀ c ∈ hexDigits bytes, (!isHexSpace c) = true := fun c hc =>
    (by decide : ∀ c ∈ numerals, (!isHexSpace c) = true) c (mem_hexDigits hc)
  unfold ofHex? toHex
  rw [String.toList_ofList, List.filter_eq_self.2 hspace]
  exact ofPairs?_hexDigits bytes

/-! ## How many bytes -/

def isHexDigit (c : Char) : Bool :=
  (digitValue? 16 c).isSome

theorem length_ofPairs?_cons (h l : Char) (cs : List Char) : (ofPairs? (h :: l :: cs)).map List.length =
    if isHexDigit h && isHexDigit l then ((ofPairs? cs).map List.length).map (· + 1) else none := by
  rw [ofPairs?]
  unfold isHexDigit
  cases digitValue? 16 h <;> cases digitValue? 16 l <;> cases ofPairs? cs <;> rfl

/-- Digits in pairs give a byte for each pair, and anything else gives none at all. -/
theorem length_ofPairs? : ∀ cs : List Char, (ofPairs? cs).map List.length =
    if cs.length % 2 = 0 && cs.all isHexDigit then some (cs.length / 2) else none
  | [] => rfl
  | [_] => rfl
  | h :: l :: cs => by
    have hpairs : (h :: l :: cs).length % 2 = cs.length % 2 ∧ (h :: l :: cs).length / 2 = cs.length / 2 + 1 := by
      simp only [List.length_cons]
      omega
    rw [length_ofPairs?_cons, length_ofPairs? cs, hpairs.1, hpairs.2, List.all_cons, List.all_cons]
    cases isHexDigit h <;> cases isHexDigit l <;> cases cs.all isHexDigit <;> simp

/-- How many bytes a text gives depends on which of its characters are digits and which are white space. -/
theorem length_ofHex?_congr {s s' : String}
    (h : s.toList.map (fun c => (isHexSpace c, isHexDigit c)) =
      s'.toList.map fun c => (isHexSpace c, isHexDigit c)) :
    (ofHex? s).map List.length = (ofHex? s').map List.length := by
  have hdigits : (s.toList.filter (!isHexSpace ·)).map isHexDigit =
      (s'.toList.filter (!isHexSpace ·)).map isHexDigit := by
    have hkept := congrArg (fun kinds => (kinds.filter (!·.1)).map Prod.snd) h
    simp only [List.filter_map, List.map_map] at hkept
    exact hkept
  have hlength := congrArg List.length hdigits
  have hall := congrArg (List.all · id) hdigits
  rw [List.length_map, List.length_map] at hlength
  rw [List.all_map, List.all_map, Function.id_comp] at hall
  unfold ofHex?
  rw [length_ofPairs?, length_ofPairs?, hall, hlength]

end DiscPatch.Bytes
