/-
Event scripts: an offset of their text, commands, and two sections of bytes that the offset parts.
A file of events gives each its own slot of fixed size.
-/
import DiscPatch.Command.Stream

namespace DiscPatch.Command

/-- The size of an event's slot. -/
def slotSize : Nat := 0x2000

/-- The text offset of an event without text. -/
def noText : UInt32 := 0xF2F2F2F2

/-- An event script. -/
structure Event where
  textOffset : UInt32
  commands : List Command
  /-- What lies between the commands and the text. -/
  between : Bytes
  /-- What lies from the text on, or behind the commands where there is no text. -/
  rest : Bytes
  deriving DecidableEq, Repr

namespace Event

/-- Whether the event has text. -/
def hasText (e : Event) : Bool :=
  e.textOffset != noText

/-- The size of the text offset and of the commands behind it. -/
def headSize (cs : List Command) : Nat :=
  4 + Bytes.total (cs.map size)

/-- Where the commands end, seen from the start of the event. -/
def commandsEnd (e : Event) : Nat :=
  headSize e.commands

/-- The bytes of the event. -/
def encode (e : Event) : Bytes :=
  Bytes.ofValue 4 e.textOffset ++ encodeAll e.commands ++ e.between ++ e.rest

/-- Decodes an event; its commands end behind a sentinel of the table's kind. -/
def decode (table : Table) (bytes : Bytes) : Except Fault Event :=
  if bytes.length < 4 then .error (.truncated .textOffset 0 bytes.length)
  else
    let textOffset := Bytes.value (bytes.take 4)
    let commands := decodeAll table table.kind.sentinels (bytes.drop 4)
    let stop := headSize commands
    let text := textOffset.toNat
    if bytes.length < stop then .error (.truncated .eventCommands stop bytes.length)
    else if textOffset = noText then .ok ⟨textOffset, commands, [], bytes.drop stop⟩
    else if bytes.length < text then
      .error (.offsetOutOfRange .eventText text bytes.length)
    else .ok ⟨textOffset, commands, (bytes.take text).drop stop, bytes.drop text⟩

/-- The event as JSON. -/
def toJson (e : Event) : Json :=
  Json.record [
    ("text_offset", Json.ofNat e.textOffset.toNat),
    ("commands", allToJson e.commands),
    ("between", Json.ofBytes e.between),
    ("end", Json.ofBytes e.rest)]

end Event

/-- Decodes a file slot by slot; the last slot may be short. -/
def Event.decodeFile (table : Table) (bytes : Bytes) : Except Fault (List Event) :=
  (Bytes.chunks slotSize bytes).mapM (Event.decode table)

/-- The slot of the event at `index`, filled up with zeros. -/
def eventSlot (index : Nat) (e : Event) : Except Fault Bytes :=
  let bytes := e.encode
  if bytes.length ≤ slotSize then
    .ok (bytes ++ List.replicate (slotSize - bytes.length) 0)
  else .error (.eventTooLarge index bytes.length slotSize)

/-- The slots of events, the first one at `index`. -/
def eventSlots (index : Nat) : List Event → Except Fault Bytes
  | [] => .ok []
  | e :: rest => do
    let slot ← eventSlot index e
    let slots ← eventSlots (index + 1) rest
    return slot ++ slots

/-- Encodes a file of events. -/
def Event.encodeFile (events : List Event) : Except Fault Bytes :=
  eventSlots 0 events

end DiscPatch.Command
