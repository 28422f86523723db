/-
Commands and their bytes. The id at the front is matched against ever more bytes, one to four, and
the first number that names a layout wins; the parameters follow after the whole width of the
layout's id.
-/
import DiscPatch.Bytes
import DiscPatch.Command.Layout
import DiscPatch.Json

namespace DiscPatch

open Text

namespace Command

/-- A parameter with its value. -/
structure Argument where
  parameter : Parameter
  value : UInt32
  deriving DecidableEq, Repr

namespace Argument

/-- The argument of a value, of which only the parameter's width is kept. -/
def ofValue (p : Parameter) (v : UInt32) : Argument :=
  ⟨p, Bytes.fit p.width v⟩

/-- The value as it is shown: all digits of the field in base sixteen, or a number in base ten
whose sign is the top bit of the field or does not exist. -/
def display (a : Argument) : String :=
  match a.parameter.display with
  | .hex => hexPadded (2 * a.parameter.width) a.value.toNat
  | .unsigned => decimal a.value.toNat
  | .signed =>
    signedDecimal ((a.value.toNat : Int).bmod (Bytes.capacity (min a.parameter.width 4)))

/-- The argument as JSON. -/
def toJson (a : Argument) : Json :=
  Json.record [
    ("name", Json.text a.parameter.name),
    ("value", Json.ofNat a.value.toNat),
    ("display", Json.text a.display)]

end Argument
end Command

/-- A command: its layout, and an argument for each parameter. -/
structure Command where
  layout : Command.Layout
  arguments : List Command.Argument
  deriving DecidableEq, Repr

namespace Command

/-! ## Making commands -/

/-- Arguments for parameters; missing values are zero and further values are left out. -/
def argumentsOf : List Parameter → List UInt32 → List Argument
  | [], _ => []
  | p :: ps, [] => Argument.ofValue p 0 :: argumentsOf ps []
  | p :: ps, v :: vs => Argument.ofValue p v :: argumentsOf ps vs

/-- The command of a layout and values. -/
def ofValues (t : Layout) (values : List UInt32) : Command :=
  ⟨t, argumentsOf t.parameters values⟩

/-- The command with another value for the argument at `index`, if there is one. -/
def withValue (c : Command) (index : Nat) (v : UInt32) : Command :=
  { c with arguments := c.arguments.modify index fun a => Argument.ofValue a.parameter v }

/-- The command's id. -/
def id (c : Command) : UInt32 := c.layout.id

/-- The bytes of the command. -/
def size (c : Command) : Nat := c.layout.size

/-! ## Encoding -/

/-- The bytes of a command: its id, then the values. -/
def encode (c : Command) : Bytes :=
  Bytes.ofValue c.layout.width c.layout.id
    ++ c.arguments.flatMap fun a => Bytes.ofValue a.parameter.width a.value

/-- The bytes of commands, one behind the other. -/
def encodeAll (cs : List Command) : Bytes :=
  cs.flatMap encode

/-! ## Decoding -/

/-- The layout whose id the bytes start with: the shortest number of bytes that names one. -/
def match? (table : Table) (bytes : Bytes) : Option Layout :=
  [1, 2, 3, 4].findSome? fun n =>
    (Bytes.split? n bytes).bind fun (front, _) => table.get? (Bytes.value front)

/-- Reads arguments; there are none unless the bytes reach for all parameters. -/
def readArguments : List Parameter → Bytes → Option (List Argument)
  | [], _ => some []
  | p :: ps, bytes =>
    (Bytes.split? p.width bytes).bind fun (field, rest) =>
      (readArguments ps rest).map (Argument.ofValue p (Bytes.value field) :: ·)

/-- Decodes the command at the front. -/
def decode? (table : Table) (bytes : Bytes) : Option Command :=
  (match? table bytes).bind fun t =>
    (Bytes.split? t.width bytes).bind fun (_, rest) =>
      (readArguments t.parameters rest).map (⟨t, ·⟩)

theorem match?_mem {table : Table} {bytes : Bytes} {t : Layout}
    (h : match? table bytes = some t) : t ∈ table.layouts ∧ bytes ≠ [] := by
  obtain ⟨n, hn, h⟩ := List.exists_of_findSome?_eq_some h
  obtain ⟨⟨front, rest⟩, hsplit, hget⟩ := Option.bind_eq_some_iff.1 h
  refine ⟨(Table.get?_eq_some hget).1, ?_⟩
  rintro rfl
  rcases n with _ | n
  · simp at hn
  · simp [Bytes.split?] at hsplit

theorem size_of_decode? {table : Table} {bytes : Bytes} {c : Command}
    (h : decode? table bytes = some c) : 0 < c.size ∧ bytes ≠ [] := by
  obtain ⟨t, ht, h⟩ := Option.bind_eq_some_iff.1 h
  obtain ⟨_, _, h⟩ := Option.bind_eq_some_iff.1 h
  obtain ⟨as, _, rfl⟩ := Option.map_eq_some_iff.1 h
  exact ⟨Layout.size_pos (table.fieldsFit t (match?_mem ht).1), (match?_mem ht).2⟩

/-- Decodes commands until none can be decoded, or behind the first one whose id is a sentinel. -/
def decodeAll (table : Table) (sentinels : List UInt32) (bytes : Bytes) : List Command :=
  match _h : decode? table bytes with
  | none => []
  | some c =>
    if c.id ∈ sentinels then [c]
    else c :: decodeAll table sentinels (bytes.drop c.size)
termination_by bytes.length
decreasing_by
  have := size_of_decode? _h
  have : bytes.length ≠ 0 := by simp [this.2]
  simp only [List.length_drop]
  omega

/-! ## JSON -/

/-- The command as JSON. -/
def toJson (c : Command) : Json :=
  Json.record [
    ("id", Json.ofNat c.id.toNat),
    ("name", Json.text c.layout.name),
    ("parameters", .array (c.arguments.map Argument.toJson))]

/-- Commands as JSON. -/
def allToJson (cs : List Command) : Json :=
  .array (cs.map toJson)

end Command
end DiscPatch
