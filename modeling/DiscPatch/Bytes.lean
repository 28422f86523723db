/-
Byte strings and the little-endian fields stored in them: a field of `n` bytes holds a value
modulo `256 ^ n`, least significant byte first.
-/
namespace DiscPatch

/-- A byte string. -/
abbrev Bytes := List UInt8

namespace Bytes

/-! ## Fields -/

/-- The little-endian value of a byte string modulo `2 ^ 32`, so bytes past the fourth do not
count. -/
def value : Bytes → UInt32
  | [] => 0
  | b :: bs => b.toUInt32 + 256 * value bs

/-- How many values a field of `n` bytes can hold. -/
def capacity : Nat → Nat
  | 0 => 1
  | n + 1 => 256 * capacity n

/-- The field of `n` bytes holding `v`; bytes past the fourth are zero. -/
def ofValue : Nat → UInt32 → Bytes
  | 0, _ => []
  | n + 1, v => v.toUInt8 :: ofValue n (v / 256)

/-- What a field of `n` bytes keeps of a value; four bytes keep all of it. -/
def fit (n : Nat) (v : UInt32) : UInt32 :=
  UInt32.ofNat (v.toNat % capacity (min n 4))

/-- The size of fields of the given sizes, one behind the other. -/
def total : List Nat → Nat
  | [] => 0
  | n :: ns => n + total ns

/-- The two-byte field at `pos`, if the buffer reaches that far. -/
def word16? (buffer : Array UInt8) (pos : Nat) : Option Nat :=
  match buffer[pos]?, buffer[pos + 1]? with
  | some lo, some hi => some (lo.toNat + 256 * hi.toNat)
  | _, _ => none

/-- The first `n` bytes and the bytes behind them, if there are so many. -/
def split? (n : Nat) (bytes : Bytes) : Option (Bytes × Bytes) :=
  let front := bytes.take n
  if front.length = n then some (front, bytes.drop n) else none

theorem length_ofValue (n : Nat) (v : UInt32) : (ofValue n v).length = n := by
  induction n generalizing v with
  | zero => rfl
  | succ n ih => simp [ofValue, ih]

/-! ## Slots -/

/-- Cuts a byte string into pieces of `n` bytes, the last one possibly shorter; the pieces before
it stand in `done`. -/
def cutOnto (n : Nat) (done : Array Bytes) (bytes : Bytes) : Array Bytes :=
  if _h : bytes = [] ∨ n = 0 then done
  else cutOnto n (done.push (bytes.take n)) (bytes.drop n)
termination_by bytes.length
decreasing_by
  have : bytes.length ≠ 0 := by simp_all
  simp only [List.length_drop]
  omega

/-- The consecutive pieces of `n` bytes; only the last one may be shorter. -/
def chunks (n : Nat) (bytes : Bytes) : List Bytes :=
  (cutOnto n #[] bytes).toList

end Bytes
end DiscPatch
