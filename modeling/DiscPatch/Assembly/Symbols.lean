/-
The symbols that assembly source can use: labels stand for addresses and equates for values. A
later binding shadows an earlier one of the same name. Symbols reach the source as binding
directives in front of it.
-/
import DiscPatch.Text.Number

namespace DiscPatch.Assembly

open Text

/-- An equate's name as the directives can carry it: without blanks and commas. -/
def equateKey (name : String) : String :=
  String.ofList (name.toList.filter fun c => !isBlank c && c != ',')

/-- Labels and equates, in the order of their binding. -/
structure Symbols where
  labels : List (String × UInt32)
  equates : List (String × UInt32)
  deriving DecidableEq, Repr

namespace Symbols

/-- No symbols. -/
def empty : Symbols := ⟨[], []⟩

/-- The symbols with one more label. -/
def bindLabel (s : Symbols) (name : String) (address : UInt32) : Symbols :=
  { s with labels := s.labels ++ [(name, address)] }

/-- The symbols with one more equate, under its cleaned name. -/
def bindEquate (s : Symbols) (name : String) (value : UInt32) : Symbols :=
  { s with equates := s.equates ++ [(equateKey name, value)] }

/-- The address of a label. -/
def label? (s : Symbols) (name : String) : Option UInt32 :=
  s.labels.reverse.lookup name

/-- The value of an equate. -/
def equate? (s : Symbols) (name : String) : Option UInt32 :=
  s.equates.reverse.lookup name

/-- Whether there are no symbols. -/
def isEmpty (s : Symbols) : Bool :=
  s.labels.isEmpty && s.equates.isEmpty

/-- The directive that binds a label. -/
def labelLine (binding : String × UInt32) : String :=
  ".label @" ++ binding.1 ++ ", " ++ decimal binding.2.toNat ++ "\n"

/-- The directive that binds an equate. -/
def equateLine (binding : String × UInt32) : String :=
  ".eqv %" ++ binding.1 ++ ", " ++ decimal binding.2.toNat ++ "\n"

/-- The directives that bind the symbols, labels first. -/
def preamble (s : Symbols) : String :=
  String.join (s.labels.map labelLine ++ s.equates.map equateLine)

/-- Source that starts with the symbols bound. -/
def prepend (s : Symbols) (source : String) : String :=
  s.preamble ++ source

end Symbols
end DiscPatch.Assembly
