/-
Unsigned numbers as text, in a base from two to sixteen. They are written with upper-case digits
and no leading zero; they are read with an optional plus sign, and the first fault from the left
is the one reported.
-/
import DiscPatch.Text.Blank

namespace DiscPatch.Text

/-! ## Digits -/

/-- The digit for a value below sixteen. -/
def digitChar (d : Nat) : Char :=
  if d < 10 then Char.ofNat (48 + d) else Char.ofNat (55 + d)

/-- The value of a digit of the given base; letters count in either case. -/
def digitValue? (base : Nat) (c : Char) : Option Nat :=
  let n := c.toNat
  let value :=
    if 48 ≤ n ∧ n ≤ 57 then n - 48
    else if 65 ≤ n ∧ n ≤ 70 then n - 55
    else if 97 ≤ n ∧ n ≤ 102 then n - 87
    else base
  if value < base then some value else none

/-! ## Writing -/

/-- The digits of `n` in front of those in `tail`. -/
def digitsOnto (base n : Nat) (tail : List Char) : List Char :=
  if _h : n < base ∨ base < 2 then digitChar n :: tail
  else digitsOnto base (n / base) (digitChar (n % base) :: tail)
termination_by n
decreasing_by exact Nat.div_lt_self (by omega) (by omega)

/-- The digits of `n`, with no leading zero. -/
def digits (base n : Nat) : List Char :=
  digitsOnto base n []

/-- `n` in base ten. -/
def decimal (n : Nat) : String :=
  String.ofList (digits 10 n)

/-- `n` in base sixteen. -/
def hex (n : Nat) : String :=
  String.ofList (digits 16 n)

/-- `n` in base sixteen behind the mark `0x`. -/
def hexMarked (n : Nat) : String :=
  "0x" ++ hex n

/-- `n` in base sixteen, filled up with zeros in front to at least `width` digits. -/
def hexPadded (width n : Nat) : String :=
  let ds := digits 16 n
  String.ofList (List.replicate (width - ds.length) '0' ++ ds)

/-- A whole number in base ten, with a minus sign where it is negative. -/
def signedDecimal (i : Int) : String :=
  if i < 0 then "-" ++ decimal i.natAbs else decimal i.natAbs

/-! ## Reading -/

/-- Why a text is no number. -/
inductive NumberFault where
  /-- There is no character at all. -/
  | empty
  /-- A character is no digit of the base, or a sign stands alone. -/
  | invalidDigit
  /-- The value is past the bound. -/
  | overflow
  deriving DecidableEq, Repr

/-- Reads digits after a number whose value so far is `value`. -/
def readDigits (base bound value : Nat) : List Char → Except NumberFault Nat
  | [] => .ok value
  | c :: cs =>
    match digitValue? base c with
    | none => .error .invalidDigit
    | some d =>
      if bound < value * base + d then .error .overflow
      else readDigits base bound (value * base + d) cs

/-- Reads an unsigned number up to `bound`; one plus sign may stand in front of the digits. -/
def readUnsigned (base bound : Nat) (cs : List Char) : Except NumberFault Nat :=
  match cs with
  | [] => .error .empty
  | ['+'] => .error .invalidDigit
  | '+' :: ds => readDigits base bound 0 ds
  | ds => readDigits base bound 0 ds

/-- The largest value of a 32-bit field. -/
def maxWord : Nat := 0xFFFFFFFF

/-- Reads a 32-bit number of the given base. -/
def readWord (base : Nat) (cs : List Char) : Except NumberFault UInt32 :=
  (readUnsigned base maxWord cs).map UInt32.ofNat

/-- The text behind one hexadecimal mark, `0x` or `0X`, if it starts with one. -/
def afterHexMark? : List Char → Option (List Char)
  | '0' :: 'x' :: cs => some cs
  | '0' :: 'X' :: cs => some cs
  | _ => none

/-- Reads a 32-bit decimal number between blanks. -/
def decimalWord? (s : String) : Option UInt32 :=
  (readWord 10 (trimmed s.toList)).toOption

/-- Reads a 32-bit hexadecimal number between blanks, with or without its mark. -/
def hexWord? (s : String) : Option UInt32 :=
  let cs := trimmed s.toList
  (readWord 16 ((afterHexMark? cs).getD cs)).toOption

end DiscPatch.Text
