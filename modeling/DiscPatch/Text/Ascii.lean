/-
Comparison of texts that ignores the case of the ASCII letters and of nothing else.
-/
namespace DiscPatch.Text

/-- The text with its ASCII capitals made small. -/
def lowerAscii (s : String) : String :=
  String.ofList (s.toList.map Char.toLower)

/-- Whether two texts differ at most in the case of ASCII letters. -/
def sameIgnoringCase (a b : String) : Bool :=
  lowerAscii a == lowerAscii b

end DiscPatch.Text
