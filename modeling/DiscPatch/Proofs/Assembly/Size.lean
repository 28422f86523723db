/-
How many bytes source gives. The size of a line is told by its directive, its operands and its position alone:
an operand has its slot filled whether it has a value or not, and the symbols only matter where a directive that
makes room has one in its operand. So source without these has the same size behind any symbols.
-/
import DiscPatch.Proofs.Assembly.Literal

namespace DiscPatch.Assembly

open Text

/-! ## Sizes without symbols -/

/-- The bytes of one operand of a directive that stores data. -/
def Directive.slotWidth? : Directive → Option Nat
  | word => some 4
  | half => some 2
  | byte => some 1
  | label | equate | align | space => none

/-- The bytes that are made room for, none where the operand is faulty. -/
def roomSize : Except Cause Nat → Nat
  | .ok n => n
  | .error _ => 0

/-- The bytes of a directive at a position, if no symbol is known. -/
def Directive.size (position : Nat) (rest : List Char) : Directive → Nat
  | label | equate => 0
  | word => 4 * (operands rest).length
  | half => 2 * (operands rest).length
  | byte => 1 * (operands rest).length
  | align => roomSize ((room Symbols.empty .align 1 .alignment rest).map (padding position))
  | space => roomSize (room Symbols.empty .space 0 .space rest)

def lineSize (position : Nat) (line : List Char) : Nat :=
  match directiveOf? line with
  | some (d, rest) => d.size position rest
  | none => 0

/-- The bytes of lines, each at the position behind those before it. -/
def linesSize (position : Nat) : List (List Char) → Nat
  | [] => 0
  | line :: rest => lineSize position line + linesSize (position + lineSize position line) rest

/-- Whether the operand of a line that makes room names no symbol. -/
def LiteralRoom (line : List Char) : Prop :=
  ∀ d rest, directiveOf? line = some (d, rest) → d = .align ∨ d = .space → IsLiteral rest

def LiteralRooms (source : String) : Prop :=
  ∀ line ∈ lines source.toList, LiteralRoom line

instance (line : List Char) : Decidable (LiteralRoom line) :=
  decidable_of_iff (∀ found ∈ directiveOf? line, found.1 = .align ∨ found.1 = .space → IsLiteral found.2)
    ⟨fun h d rest hd => h (d, rest) hd, fun h found hfound => h found.1 found.2 hfound⟩

instance (source : String) : Decidable (LiteralRooms source) :=
  inferInstanceAs (Decidable (∀ line ∈ lines source.toList, _))

/-! ## One directive -/

/-- Each operand takes its slot, also a faulty one. -/
theorem length_bytes_store (symbols : Symbols) (d : Directive) (width : Nat) (range : Range) (rest : List Char) :
    (store symbols d width range rest).bytes.length = width * (operands rest).length := by
  rw [bytes_store, List.length_flatMap]
  simp [length_slot, Nat.mul_comm]

theorem length_bytes_ofRoom (symbols : Symbols) (n : Except Cause Nat) :
    (Step.ofRoom symbols n).bytes.length = roomSize n := by
  cases n with
  | ok n => exact List.length_replicate ..
  | error cause => rfl

theorem length_bytes_step {d : Directive} {rest : List Char} (h : d = .align ∨ d = .space → IsLiteral rest)
    (symbols : Symbols) (position : Nat) : (d.step symbols position rest).bytes.length = d.size position rest := by
  cases d with
  | label | equate =>
    unfold Directive.step
    rw [bytes_ofBinding]
    rfl
  | word | half | byte => exact length_bytes_store ..
  | align | space =>
    unfold Directive.step
    rw [length_bytes_ofRoom, room_literal symbols Symbols.empty (h (by simp))]
    rfl

theorem length_step_of_slotWidth? {d : Directive} {width : Nat} (h : d.slotWidth? = some width) (symbols : Symbols)
    (position : Nat) (rest : List Char) :
    (d.step symbols position rest).bytes.length = width * (operands rest).length := by
  cases d with
  | word | half | byte =>
    cases h
    exact length_bytes_store ..
  | label | equate | align | space => cases h

/-! ## Lines -/

theorem length_bytes_stepLine {line : List Char} (h : LiteralRoom line) (symbols : Symbols) (position : Nat) :
    (stepLine symbols position line).bytes.length = lineSize position line := by
  unfold lineSize
  cases hd : directiveOf? line with
  | none =>
    rw [(stepLine_of_no_directive hd symbols position).2]
    rfl
  | some found =>
    rw [stepLine_of_directive hd]
    exact length_bytes_step (h found.1 found.2 hd) symbols position

/-- Whatever symbols are known, lines end where their size says: what one line binds changes no later position. -/
theorem length_bytes_assembleLines {ls : List (List Char)} (h : ∀ line ∈ ls, LiteralRoom line) (symbols : Symbols)
    (position number : Nat) : (assembleLines symbols position number ls).1.length = linesSize position ls := by
  induction ls generalizing symbols position number with
  | nil => rfl
  | cons line ls ih =>
    obtain ⟨hline, hls⟩ := List.forall_mem_cons.1 h
    rw [assembleLines, linesSize, ← length_bytes_stepLine hline symbols position]
    dsimp only
    rw [List.length_append, ih hls]

/-! ## Source -/

theorem length_assemble_prepend {source : String} (h : LiteralRooms source) {s : Symbols} (hs : s.OneLined)
    (address : UInt32) :
    (assemble (s.prepend source) address).1.length = linesSize address.toNat (lines source.toList) := by
  rw [bytes_assemble_prepend hs]
  exact length_bytes_assembleLines h ..

/-- Source whose room is made without symbols gives as many bytes behind one preamble as behind any other, since
each operand of its data takes as much as any other, with every symbol known or with none. -/
theorem length_assemble_prepend_congr {source : String} (h : LiteralRooms source) {s s' : Symbols} (hs : s.OneLined)
    (hs' : s'.OneLined) (address : UInt32) :
    (assemble (s.prepend source) address).1.length = (assemble (s'.prepend source) address).1.length ∧
      ∀ line ∈ lines source.toList, ∀ d rest width, directiveOf? line = some (d, rest) → d.slotWidth? = some width →
        ∀ symbols position, (stepLine symbols position line).bytes.length = width * (operands rest).length := by
  refine ⟨?_, fun line _ d rest width hd hwidth symbols position => ?_⟩
  · rw [length_assemble_prepend h hs, length_assemble_prepend h hs']
  · rw [stepLine_of_directive hd]
    exact length_step_of_slotWidth? hwidth symbols position rest

/-- A label and an equate that is too large for a byte, which the source binds again, against no symbols. -/
theorem length_assemble_prepend_unknown :
    let s : Symbols := ⟨[("hook", 0x80010000)], [("cap", 300)]⟩
    let source := ".byte %cap\n.ALIGN 4 ; to a word\n.half @hook + 1, %cap\n.eqv %cap, @none\n.space 3\n.word @none"
    LiteralRooms source ∧ s.OneLined ∧ Symbols.empty.OneLined ∧
      (assemble (s.prepend source) 0x80010001).1.length =
        (assemble (Symbols.empty.prepend source) 0x80010001).1.length ∧
      (assemble (s.prepend source) 0x80010001).1 ≠ (assemble (Symbols.empty.prepend source) 0x80010001).1 := by
  intro s source
  have hrooms : LiteralRooms source := by decide +kernel
  have hs : s.OneLined := ⟨by decide, by decide⟩
  have hempty : Symbols.empty.OneLined := ⟨by decide, by decide⟩
  refine ⟨hrooms, hs, hempty, ?_, by decide +kernel⟩
  exact (length_assemble_prepend_congr hrooms hs hempty 0x80010001).1

end DiscPatch.Assembly
