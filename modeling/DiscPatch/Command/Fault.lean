/-
What can be wrong with the bytes or the size of encoded scripts.
-/
import DiscPatch.Text.Number

namespace DiscPatch.Command

/-- A field that a decoder has to read. -/
inductive Field where
  | setTable
  | blockTable
  | textOffset
  | eventCommands
  deriving DecidableEq, Repr

/-- The field in messages. -/
def Field.text : Field → String
  | setTable => "set table"
  | blockTable => "block table"
  | textOffset => "event text offset"
  | eventCommands => "event commands"

/-- What a stored offset leads to. -/
inductive Landmark where
  | set
  | block
  | eventText
  deriving DecidableEq, Repr

/-- The landmark in messages. -/
def Landmark.text : Landmark → String
  | set => "set"
  | block => "block"
  | eventText => "event text"

/-- Why scripts cannot be decoded or encoded. -/
inductive Fault where
  /-- A field runs past the end of the buffer. -/
  | truncated (field : Field) (pos size : Nat)
  /-- A stored offset leads out of the buffer. -/
  | offsetOutOfRange (landmark : Landmark) (offset size : Nat)
  /-- An offset does not fit in sixteen bits. -/
  | offsetOverflow (offset : Nat)
  /-- An event is larger than its slot. -/
  | eventTooLarge (index size slot : Nat)
  deriving DecidableEq, Repr

open Text in
/-- The fault in words. -/
def Fault.message : Fault → String
  | truncated field pos size =>
    "buffer of " ++ hexMarked size ++ " bytes is too short to read " ++ field.text ++ " at "
      ++ hexMarked pos
  | offsetOutOfRange landmark offset size =>
    landmark.text ++ " offset " ++ hexMarked offset ++ " is outside the " ++ hexMarked size
      ++ "-byte buffer"
  | offsetOverflow offset =>
    "conditional-set table needs offset " ++ hexMarked offset
      ++ ", which does not fit in 16 bits"
  | eventTooLarge index size slot =>
    "event " ++ decimal index ++ " encodes to " ++ hexMarked size ++ " bytes, larger than its "
      ++ hexMarked slot ++ "-byte slot"

end DiscPatch.Command
