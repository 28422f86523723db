/-
Hexadecimal text of byte strings: two digits a byte, upper case when written, either case and any
ASCII white space when read.
-/
import DiscPatch.Bytes
import DiscPatch.Text.Number

namespace DiscPatch.Bytes

open Text

/-- The two digits of a byte. -/
def hexPair (b : UInt8) : List Char :=
  [digitChar (b.toNat / 16), digitChar (b.toNat % 16)]

/-- The digits of a byte string. -/
def hexDigits (bytes : Bytes) : List Char :=
  bytes.flatMap hexPair

/-- A byte string as hexadecimal text. -/
def toHex (bytes : Bytes) : String :=
  String.ofList (hexDigits bytes)

/-- The white space that hexadecimal text may hold: space, tab, line feed, form feed and carriage
return. -/
def isHexSpace (c : Char) : Bool :=
  c == ' ' || c == '\t' || c == '\n' || c == '\x0c' || c == '\r'

/-- Reads digits two by two. -/
def ofPairs? : List Char → Option Bytes
  | [] => some []
  | [_] => none
  | h :: l :: cs =>
    match digitValue? 16 h, digitValue? 16 l, ofPairs? cs with
    | some hi, some lo, some bytes => some (UInt8.ofNat (16 * hi + lo) :: bytes)
    | _, _, _ => none

/-- Reads hexadecimal text; white space may stand anywhere, also inside a pair. -/
def ofHex? (s : String) : Option Bytes :=
  ofPairs? (s.toList.filter (!isHexSpace ·))

end DiscPatch.Bytes
