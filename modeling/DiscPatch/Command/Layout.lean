/-
The layouts of script commands. A command starts with its id, a field of one to four bytes, and
its parameters follow, each a field of its own. A table holds the layouts of one kind of script;
no two have the same id, and every id fits its field.
-/
import DiscPatch.Bytes
import DiscPatch.Error
import DiscPatch.Text.Ascii

namespace DiscPatch.Command

open Text

/-! ## Kinds -/

/-- The kinds of scripts. -/
inductive Kind where
  | battleConditional
  | worldConditional
  | eventCommand
  deriving DecidableEq, Repr

/-- The ids that end a list of commands; the command that has one is part of the list. -/
def Kind.sentinels : Kind → List UInt32
  | eventCommand => [0xDB, 0xE3]
  | battleConditional | worldConditional => []

/-- What a parameter stands for. -/
inductive Meaning where
  | number
  | gameVariable
  | unit
  | item
  | scenario
  | map
  | location
  | abilityEffect
  | spritesheet
  deriving DecidableEq, Repr

/-- The meaning of that name, in any case of its letters; other names mean a number. -/
def Meaning.ofName (name : String) : Meaning :=
  match lowerAscii (trim name) with
  | "variable" => gameVariable
  | "unit" => unit
  | "item" => item
  | "scenario" => scenario
  | "map" => map
  | "location" => location
  | "abilityeffect" => abilityEffect
  | "spritesheet" => spritesheet
  | _ => number

/-- How the value of a parameter is shown. -/
inductive Display where
  | hex
  | unsigned
  | signed
  deriving DecidableEq, Repr

/-- The display for a meaning that asks for no other: numbers have a sign, all else is
hexadecimal. -/
def Display.standard : Meaning → Display
  | .number => signed
  | _ => hex

/-- The display of that name, in any case of its letters; other names mean a sign. -/
def Display.ofName (name : String) : Display :=
  match lowerAscii (trim name) with
  | "hex" => hex
  | "unsigned" => unsigned
  | _ => signed

/-! ## Layouts -/

/-- A parameter of `width` bytes. -/
structure Parameter where
  name : String
  width : Nat
  meaning : Meaning
  display : Display
  deriving DecidableEq, Repr

/-- The layout of a command: an id of `width` bytes, then the parameters. -/
structure Layout where
  id : UInt32
  name : String
  width : Nat
  parameters : List Parameter
  deriving DecidableEq, Repr

namespace Layout

/-- The bytes of a command with this layout. -/
def size (t : Layout) : Nat :=
  t.width + Bytes.total (t.parameters.map (·.width))

/-- Whether a field has between one and four bytes. -/
def IsWidth (n : Nat) : Prop := 1 ≤ n ∧ n ≤ 4

instance (n : Nat) : Decidable (IsWidth n) :=
  inferInstanceAs (Decidable (_ ∧ _))

/-- Every field has between one and four bytes. -/
def FieldsFit (t : Layout) : Prop :=
  IsWidth t.width ∧ ∀ p ∈ t.parameters, IsWidth p.width

instance (t : Layout) : Decidable t.FieldsFit :=
  inferInstanceAs (Decidable (_ ∧ _))

/-- The id fits its field. -/
def IdFits (t : Layout) : Prop := t.id.toNat < Bytes.capacity t.width

instance (t : Layout) : Decidable t.IdFits :=
  inferInstanceAs (Decidable (_ < _))

theorem size_pos {t : Layout} (h : t.FieldsFit) : 0 < t.size :=
  Nat.lt_of_lt_of_le h.1.1 (Nat.le_add_right _ _)

end Layout

/-! ## Tables -/

/-- The layouts of one kind of script, in the order in which they were added. -/
structure Table where
  kind : Kind
  layouts : List Layout
  fieldsFit : ∀ t ∈ layouts, t.FieldsFit
  idsFit : ∀ t ∈ layouts, t.IdFits
  nodup : (layouts.map (·.id)).Nodup

namespace Table

/-- A table without layouts. -/
def empty (kind : Kind) : Table where
  kind
  layouts := []
  fieldsFit := by simp
  idsFit := by simp
  nodup := by simp

/-- The layout of that id. -/
def get? (table : Table) (id : UInt32) : Option Layout :=
  table.layouts.find? (·.id = id)

/-- The table with one more layout. -/
def insert (table : Table) (t : Layout) : Except Error Table :=
  if fields : t.FieldsFit then
    if id : t.IdFits then
      if fresh : t.id ∉ table.layouts.map (·.id) then
        .ok {
          kind := table.kind
          layouts := table.layouts ++ [t]
          fieldsFit := by
            intro u h
            rcases List.mem_append.1 h with h | h
            · exact table.fieldsFit u h
            · exact List.mem_singleton.1 h ▸ fields
          idsFit := by
            intro u h
            rcases List.mem_append.1 h with h | h
            · exact table.idsFit u h
            · exact List.mem_singleton.1 h ▸ id
          nodup := by
            rw [List.map_append, List.nodup_append]
            refine ⟨table.nodup, by simp, ?_⟩
            intro a ha b hb e
            have hb : b = t.id := by simpa using hb
            exact fresh (hb ▸ e ▸ ha) }
      else .error (.description (.duplicateCommand t.id))
    else .error (.description (.commandId t.id t.width))
  else .error (.description (.commandField t.id t.name))

theorem get?_eq_some {table : Table} {id : UInt32} {t : Layout} (h : table.get? id = some t) :
    t ∈ table.layouts ∧ t.id = id := by
  unfold get? at h
  exact ⟨List.mem_of_find?_eq_some h, by simpa using List.find?_some h⟩

end Table
end DiscPatch.Command
