/-
Blank characters, those with the Unicode property `White_Space`, and what trims or drops them.
-/
namespace DiscPatch.Text

/-- The characters of the Unicode property `White_Space`. -/
def isBlank (c : Char) : Bool :=
  let n := c.toNat
  (9 ≤ n && n ≤ 13) || n == 32 || n == 0x85 || n == 0xA0 || n == 0x1680
    || (0x2000 ≤ n && n ≤ 0x200A) || n == 0x2028 || n == 0x2029 || n == 0x202F
    || n == 0x205F || n == 0x3000

/-- The text without the blanks at its two ends. -/
def trimmed (cs : List Char) : List Char :=
  ((cs.dropWhile isBlank).reverse.dropWhile isBlank).reverse

/-- The text without any blank. -/
def withoutBlanks (cs : List Char) : List Char :=
  cs.filter (!isBlank ·)

/-- Whether nothing but blanks is in the text. -/
def allBlank (cs : List Char) : Bool :=
  cs.all isBlank

/-- `trimmed` on strings. -/
def trim (s : String) : String :=
  String.ofList (trimmed s.toList)

end DiscPatch.Text
