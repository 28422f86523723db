/-
Conditional scripts: sets of blocks of commands. A file starts with the offset of each set's list
of block offsets, then holds these lists, each ended by a zero, then the blocks. Sets are told
apart by these offsets alone.
-/
import DiscPatch.Command.Stream

namespace DiscPatch.Command

/-- A set of blocks of commands. -/
structure ConditionalSet where
  blocks : List (List Command)
  deriving DecidableEq, Repr

/-- The set as JSON. -/
def ConditionalSet.toJson (s : ConditionalSet) : Json :=
  Json.record [("blocks", .array (s.blocks.map allToJson))]

/-! ## Decoding -/

/-- Reads a field that has to be there. -/
def wordAt (buffer : Array UInt8) (field : Field) (pos : Nat) : Except Fault Nat :=
  match Bytes.word16? buffer pos with
  | some n => .ok n
  | none => .error (.truncated field pos buffer.size)

/-- The positions of two-byte fields from `start` up to `stop`. -/
def fieldPositions (start stop : Nat) : List Nat :=
  (List.range ((stop - start + 1) / 2)).map (start + 2 * ·)

/-- Where the blocks start: at the first block offset that is not zero, or at the end of the
buffer. -/
def firstBlock (buffer : Array UInt8) (start : Nat) : Nat :=
  ((fieldPositions start (buffer.size - 1)).findSome? fun pos =>
    (Bytes.word16? buffer pos).filter (· ≠ 0)).getD buffer.size

/-- Where the next block starts when a list of blocks has ended: at the first block of the next
set that has one, or at the end of the buffer. -/
def nextBlock (buffer : Array UInt8) : List Nat → Except Fault Nat
  | [] => .ok buffer.size
  | set :: later => do
    let block ← wordAt buffer .blockTable set
    if block = 0 then nextBlock buffer later else return block

/-- Decodes the blocks of a set, given the positions of its list of block offsets and the offset
read before, and the positions of the sets behind it. A block ends where the next one starts. -/
def decodeBlocks (table : Table) (buffer : Array UInt8) (later : List Nat) (previous : Nat) :
    List Nat → Except Fault (List (List Command))
  | [] => .ok []
  | pos :: rest => do
    let block ← wordAt buffer .blockTable pos
    if previous = 0 then decodeBlocks table buffer later block rest
    else
      let stop ← if block = 0 then nextBlock buffer later else .ok block
      if previous ≤ stop ∧ stop ≤ buffer.size then
        let commands := decodeAll table [] (buffer.extract previous stop).toList
        let more ← decodeBlocks table buffer later block rest
        return commands :: more
      else .error (.offsetOutOfRange .block (max stop previous) buffer.size)

/-- Decodes sets from the positions of their lists; `blocks` is where the last list ends. -/
def decodeSetsAt (table : Table) (buffer : Array UInt8) (blocks : Nat) :
    List Nat → Except Fault (List ConditionalSet)
  | [] => .ok []
  | start :: later => do
    let stop := later.head?.getD blocks
    let decoded ← decodeBlocks table buffer later 0 (fieldPositions start stop)
    let more ← decodeSetsAt table buffer blocks later
    return ⟨decoded⟩ :: more

/-- Decodes a file of sets. -/
def ConditionalSet.decodeFile (table : Table) (bytes : Bytes) :
    Except Fault (List ConditionalSet) := do
  let buffer := bytes.toArray
  if bytes = [] then return []
  let first ← wordAt buffer .setTable 0
  let starts ← (List.range (first / 2)).mapM fun i => wordAt buffer .setTable (2 * i)
  match starts.find? (buffer.size ≤ ·) with
  | some bad => .error (.offsetOutOfRange .set bad buffer.size)
  | none =>
    match starts with
    | [] => return []
    | start :: _ => decodeSetsAt table buffer (firstBlock buffer start) starts

/-! ## Encoding -/

/-- An offset as a two-byte field. -/
def offsetField (offset : Nat) : Except Fault Bytes :=
  if offset ≤ 0xFFFF then .ok (Bytes.ofValue 2 (UInt32.ofNat offset))
  else .error (.offsetOverflow offset)

/-- The offsets of blocks from `block` on, and the offset behind them. -/
def blockFields (block : Nat) : List (List Command) → Except Fault (Bytes × Nat)
  | [] => .ok ([], block)
  | commands :: rest => do
    let head ← offsetField block
    let (fields, stop) ← blockFields (block + (encodeAll commands).length) rest
    return (head ++ fields, stop)

/-- The offsets of sets from `list` on, and their lists of the offsets of blocks from `block`
on. -/
def setFields (list block : Nat) : List ConditionalSet → Except Fault (Bytes × Bytes)
  | [] => .ok ([], [])
  | s :: rest => do
    let head ← offsetField list
    let (fields, stop) ← blockFields block s.blocks
    let (sets, blocks) ← setFields (list + 2 * (s.blocks.length + 1)) stop rest
    return (head ++ sets, fields ++ [0, 0] ++ blocks)

/-- Encodes sets. -/
def ConditionalSet.encodeFile (sets : List ConditionalSet) : Except Fault Bytes := do
  let list := 2 * sets.length
  let block := list + 2 * Bytes.total (sets.map (·.blocks.length + 1))
  let (starts, lists) ← setFields list block sets
  return starts ++ lists ++ sets.flatMap (·.blocks.flatMap encodeAll)

end DiscPatch.Command
