/-
Full lower case: each letter becomes its small letter, a dotted capital I becomes two characters,
and a capital sigma at the end of a word becomes the final sigma.
-/
import DiscPatch.Text.CaseTable

namespace DiscPatch.Text

/-! ## Letters -/

/-- The small letter of a character, which is the character itself where it has none. -/
def smallLetter (c : Char) : Char :=
  let n := c.toNat
  match CaseTable.small.find? fun r =>
      r.first ≤ n && n ≤ r.last && (n - r.first) % r.step == 0 with
  | some r => Char.ofNat (n + r.shift).toNat
  | none => c

/-- Whether a code point lies in one of the ranges. -/
def inRanges (ranges : List (Nat × Nat)) (c : Char) : Bool :=
  ranges.any fun (first, last) => first ≤ c.toNat && c.toNat ≤ last

/-! ## Words -/

/-- Whether the first character that is not passed over is a cased one. -/
def startsCased (cs : List Char) : Bool :=
  match cs.dropWhile (inRanges CaseTable.passedOver) with
  | [] => false
  | c :: _ => inRanges CaseTable.cased c

/-- The small letters of a text that follows the characters `before`, the nearest one first. -/
def smallLetters (before : List Char) : List Char → List Char
  | [] => []
  | c :: cs =>
    let here :=
      if c = 'Σ' then [if startsCased before && !startsCased cs then 'ς' else 'σ']
      else if c = 'İ' then ['i', '\u0307']
      else [smallLetter c]
    here ++ smallLetters (c :: before) cs

/-- The text in lower case. -/
def lowercase (s : String) : String :=
  String.ofList (smallLetters [] s.toList)

end DiscPatch.Text
