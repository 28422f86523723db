/-
The character classes of XML 1.0 and of its names, where the colon is kept apart.
-/
namespace DiscPatch.Xml

/-- The characters that documents may hold. -/
def isXmlChar (c : Char) : Bool :=
  if c.toNat < 32 then c == '\t' || c == '\n' || c == '\r'
  else c.toNat != 0xFFFE && c.toNat != 0xFFFF

/-- XML white space. -/
def isSpace (c : Char) : Bool :=
  c == ' ' || c == '\t' || c == '\n' || c == '\r'

/-- The text without the white space in front. -/
def skipSpace (cs : List Char) : List Char :=
  cs.dropWhile isSpace

/-- The ranges of characters past ASCII that a name may start with. -/
def nameStartRanges : List (Nat × Nat) :=
  [(0xC0, 0xD6), (0xD8, 0xF6), (0xF8, 0x2FF), (0x370, 0x37D), (0x37F, 0x1FFF), (0x200C, 0x200D),
    (0x2070, 0x218F), (0x2C00, 0x2FEF), (0x3001, 0xD7FF), (0xF900, 0xFDCF), (0xFDF0, 0xFFFD),
    (0x10000, 0xEFFFF)]

/-- The ranges of characters past ASCII that stand in a name, but not at its start. -/
def nameInnerRanges : List (Nat × Nat) :=
  [(0xB7, 0xB7), (0x300, 0x36F), (0x203F, 0x2040)]

/-- Whether a character lies in one of the ranges. -/
def inRanges (ranges : List (Nat × Nat)) (c : Char) : Bool :=
  ranges.any fun (first, last) => first ≤ c.toNat && c.toNat ≤ last

/-- The characters that the parts of a name start with. -/
def isNameStart (c : Char) : Bool :=
  c.isAlpha || c == '_' || inRanges nameStartRanges c

/-- The characters in the parts of a name. -/
def isNameChar (c : Char) : Bool :=
  isNameStart c || c.isDigit || c == '-' || c == '.' || inRanges nameInnerRanges c

end DiscPatch.Xml
