/-
Relocations: blocks of RAM that move by a distance, and requests for them in terms of a file. All
addresses wrap modulo `2 ^ 32`.
-/
import DiscPatch.AddressSpace

namespace DiscPatch

/-- An address moved by a signed distance. -/
def shifted (address : UInt32) (distance : Int32) : UInt32 :=
  address + distance.toUInt32

/-- The RAM from `start` up to, not including, `stop` moves by `distance`. -/
structure RamMove where
  start : UInt32
  stop : UInt32
  distance : Int32
  deriving DecidableEq, Repr

namespace RamMove

/-- Whether the address lies in the block. -/
def contains (m : RamMove) (address : UInt32) : Bool :=
  m.start ≤ address && address < m.stop

/-- Where the move takes an address. -/
def relocate (m : RamMove) (address : UInt32) : UInt32 :=
  shifted address m.distance

end RamMove

/-- The bytes of a sector from `start` up to, not including, `stop` are to move by `distance`. -/
structure MoveRequest where
  sector : Sector
  start : UInt32
  stop : UInt32
  distance : Int32
  deriving DecidableEq, Repr

namespace MoveRequest

/-- The request in terms of RAM. -/
def ramMove (r : MoveRequest) (space : AddressSpace) : RamMove where
  start := space.toRam r.sector r.start
  stop := space.toRam r.sector r.stop
  distance := r.distance

/-- Whether a span of `length` bytes meets the requested range. An empty span counts as one byte,
so that it moves with the range it lies in. -/
def meets (r : MoveRequest) (sector : Sector) (offset : UInt32) (length : Nat) : Bool :=
  sector = r.sector && offset.toNat < r.stop.toNat
    && r.start.toNat < offset.toNat + max length 1

end MoveRequest
end DiscPatch
