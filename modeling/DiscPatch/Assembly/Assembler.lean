/-
What patches need from an assembler. Any functions of these types will do; diagnostics are text
and do not make the bytes beside them unusable.
-/
import DiscPatch.Assembly.Symbols
import DiscPatch.Bytes
import DiscPatch.Relocation

namespace DiscPatch.Assembly

/-- The bytes of assembled source, and what was wrong with it. -/
structure Encoding where
  bytes : Bytes
  faultText : String
  deriving DecidableEq, Repr

/-- Whether bytes are code, and what is wrong with it. -/
structure Inspection where
  isCode : Bool
  faultText : String
  deriving DecidableEq, Repr

/-- An assembler. -/
structure Assembler where
  /-- Assembles source for the given address. -/
  encode : String → UInt32 → Encoding
  /-- Changes what lies at the given address so that references into moved blocks follow. -/
  followMoves : Bytes → UInt32 → List RamMove → Bytes
  /-- Checks what lies at the given address. -/
  inspect : Bytes → UInt32 → Inspection
  /-- Replaces the labels in hexadecimal text. -/
  fillLabels : String → Symbols → String

end DiscPatch.Assembly
