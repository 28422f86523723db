/-
What can be wrong with a line of directives.
-/
import DiscPatch.Text.Number

namespace DiscPatch.Assembly

open Text

/-- The directives: two bind symbols, three store data, two make room. -/
inductive Directive where
  | label
  | equate
  | word
  | half
  | byte
  | align
  | space
  deriving DecidableEq, Repr

/-- The directive as it is written. -/
def Directive.name : Directive → String
  | label => ".label"
  | equate => ".eqv"
  | word => ".word"
  | half => ".half"
  | byte => ".byte"
  | align => ".align"
  | space => ".space"

/-- The directive of that name. -/
def Directive.ofName? : String → Option Directive
  | ".label" => some label
  | ".eqv" => some equate
  | ".word" => some word
  | ".half" => some half
  | ".byte" => some byte
  | ".align" => some align
  | ".space" => some space
  | _ => none

/-- What a value has to be in range for. -/
inductive Range where
  | byte
  | half
  | word
  | alignment
  | space
  deriving DecidableEq, Repr

/-- The range in messages. -/
def Range.text : Range → String
  | byte => "byte"
  | half => "half"
  | word => "word"
  | alignment => "alignment"
  | space => "space"

/-- Why a line or an operand of it cannot be assembled. -/
inductive Cause where
  | unknownDirective (name : String)
  | missingOperand (directive : Directive)
  /-- A symbol's name is empty or has characters it may not have. -/
  | badSymbol (token : String)
  | undefinedSymbol (token : String)
  | notANumber (token : String) (fault : NumberFault)
  | outOfRange (token : String) (range : Range)
  deriving DecidableEq, Repr

/-- A cause and the number of the line it is on, counted from one. -/
structure Fault where
  line : Nat
  cause : Cause
  deriving DecidableEq, Repr

/-- The fault in words. -/
def Fault.message (fault : Fault) : String :=
  let onLine := " on line " ++ decimal fault.line
  match fault.cause with
  | .unknownDirective name => "unknown directive '" ++ name ++ "'" ++ onLine
  | .missingOperand directive => "missing operand for " ++ directive.name ++ onLine
  | .badSymbol token => "bad symbol name '" ++ token ++ "'" ++ onLine
  | .undefinedSymbol token => "undefined symbol '" ++ token ++ "'" ++ onLine
  | .notANumber token _ => "failed to parse integer '" ++ token ++ "'" ++ onLine
  | .outOfRange token range =>
    "value '" ++ token ++ "'" ++ onLine ++ " is out of range for " ++ range.text

end DiscPatch.Assembly
