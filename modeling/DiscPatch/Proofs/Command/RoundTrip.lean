/-
Streams of commands. Decoding gives back the commands that were encoded exactly when none of their
ids is shadowed and only the last may be a sentinel; every decoded list is such a list, so encoding
it and decoding again changes nothing.
-/
import DiscPatch.Proofs.Command.Decode

namespace DiscPatch.Command

/-! ## Runs of the decoder -/

section Run

variable {table : Table} {sentinels : List UInt32} {bytes : Bytes}

theorem decodeAll_of_none (h : decode? table bytes = none) : decodeAll table sentinels bytes = [] := by
  rw [decodeAll]
  split
  · rfl
  · rename_i hc; rw [h] at hc; cases hc

theorem decodeAll_of_some {c : Command} (h : decode? table bytes = some c) :
    decodeAll table sentinels bytes =
      if c.id ∈ sentinels then [c] else c :: decodeAll table sentinels (bytes.drop c.size) := by
  rw [decodeAll]
  split
  · rename_i hc; rw [h] at hc; cases hc
  · rename_i hc; rw [h] at hc; cases hc; rfl

theorem decodeAll_nil : decodeAll table sentinels [] = [] := by
  cases h : decode? table [] with
  | none => exact decodeAll_of_none h
  | some c => exact absurd rfl (size_of_decode? h).2

/-- A decoded list by its first command: none, a sentinel, or one with a decoded list behind it. -/
theorem decodeAll_induction {P : Bytes → List Command → Prop}
    (stop : ∀ bytes, decode? table bytes = none → P bytes [])
    (last : ∀ bytes c, decode? table bytes = some c → c.id ∈ sentinels → P bytes [c])
    (step : ∀ bytes c cs, decode? table bytes = some c → c.id ∉ sentinels → P (bytes.drop c.size) cs →
      P bytes (c :: cs)) (bytes : Bytes) : P bytes (decodeAll table sentinels bytes) := by
  induction hn : bytes.length using Nat.strong_induction_on generalizing bytes with
  | _ n ih =>
    cases h : decode? table bytes with
    | none => rw [decodeAll_of_none h]; exact stop bytes h
    | some c =>
      rw [decodeAll_of_some h]
      split
      · exact last bytes c h ‹_›
      · have hpos := size_of_decode? h
        have hle := size_le_of_decode? h
        exact step bytes c _ h ‹_› (ih _ (by rw [List.length_drop]; omega) _ rfl)

end Run

/-! ## What a run returns -/

/-- Decoded commands fit the table, under ids that are not shadowed. -/
theorem decodeAll_fits (table : Table) (sentinels : List UInt32) (bytes : Bytes) :
    ∀ c ∈ decodeAll table sentinels bytes, Fits table c ∧ ¬ Shadowed table c.id := by
  have one {bytes : Bytes} {c : Command} (h : decode? table bytes = some c) :
      Fits table c ∧ ¬ Shadowed table c.id := ⟨(decode?_eq_some h).1, (decode?_eq_some h).2.1⟩
  refine decodeAll_induction (P := fun _ cs => ∀ c ∈ cs, Fits table c ∧ ¬ Shadowed table c.id)
    (fun _ _ => by simp) (fun _ c h _ d hd => ?_) (fun _ c cs h _ ih d hd => ?_) bytes
  · cases List.mem_singleton.1 hd; exact one h
  · rcases List.mem_cons.1 hd with rfl | hd
    · exact one h
    · exact ih d hd

/-- A run goes on behind every command but the last, so none of these has a sentinel. -/
theorem decodeAll_dropLast (table : Table) (sentinels : List UInt32) (bytes : Bytes) :
    ∀ c ∈ (decodeAll table sentinels bytes).dropLast, c.id ∉ sentinels := by
  refine decodeAll_induction (P := fun _ cs => ∀ c ∈ cs.dropLast, c.id ∉ sentinels)
    (fun _ _ => by simp) (fun _ c _ _ => by simp) (fun _ c cs _ hs ih d hd => ?_) bytes
  cases cs with
  | nil => cases hd
  | cons e es =>
    rw [List.dropLast_cons_cons] at hd
    rcases List.mem_cons.1 hd with rfl | hd
    · exact hs
    · exact ih d hd

/-! ## Encoding, then decoding -/

theorem encodeAll_cons (c : Command) (cs : List Command) : encodeAll (c :: cs) = c.encode ++ encodeAll cs := rfl

theorem decodeAll_encodeAll {table : Table} {sentinels : List UInt32} {cs : List Command}
    (hf : ∀ c ∈ cs, Fits table c) (hs : ∀ c ∈ cs, ¬ Shadowed table c.id)
    (hlast : ∀ c ∈ cs.dropLast, c.id ∉ sentinels) : decodeAll table sentinels (encodeAll cs) = cs := by
  induction cs with
  | nil => exact decodeAll_nil
  | cons c cs ih =>
    have hc := hf c (List.mem_cons_self ..)
    have hdrop : (c.encode ++ encodeAll cs).drop c.size = encodeAll cs := List.drop_left' hc.length_encode
    rw [encodeAll_cons,
      decodeAll_of_some (decode?_encode_append hc (hs c (List.mem_cons_self ..)) (encodeAll cs)), hdrop]
    cases cs with
    | nil =>
      rw [show encodeAll [] = [] from rfl, decodeAll_nil]
      exact ite_self _
    | cons d ds =>
      rw [List.dropLast_cons_cons] at hlast
      rw [if_neg (hlast c (List.mem_cons_self ..)),
        ih (fun e he => hf e (List.mem_cons_of_mem _ he)) (fun e he => hs e (List.mem_cons_of_mem _ he))
          fun e he => hlast e (List.mem_cons_of_mem _ he)]

/-- Decoded commands come back from their own bytes. -/
theorem decodeAll_encodeAll_decodeAll (table : Table) (sentinels : List UInt32) (bytes : Bytes) :
    decodeAll table sentinels (encodeAll (decodeAll table sentinels bytes)) = decodeAll table sentinels bytes :=
  decodeAll_encodeAll (fun c hc => (decodeAll_fits _ _ _ c hc).1) (fun c hc => (decodeAll_fits _ _ _ c hc).2)
    (decodeAll_dropLast _ _ _)

/-- Commands of a table come back from their bytes exactly when no id is shadowed and no command but
the last has a sentinel. Decoded commands always do. -/
theorem decodeAll_encodeAll_iff (table : Table) (sentinels : List UInt32) :
    (∀ cs : List Command, (∀ c ∈ cs, Made table c) →
      (decodeAll table sentinels (encodeAll cs) = cs ↔
        (∀ c ∈ cs, ¬ Shadowed table c.id) ∧ ∀ c ∈ cs.dropLast, c.id ∉ sentinels)) ∧
    ∀ bytes : Bytes, decodeAll table sentinels (encodeAll (decodeAll table sentinels bytes)) =
      decodeAll table sentinels bytes := by
  refine ⟨fun cs hm => ⟨fun h => ?_, fun ⟨hs, hlast⟩ => ?_⟩, decodeAll_encodeAll_decodeAll table sentinels⟩
  · rw [← h]
    exact ⟨fun c hc => (decodeAll_fits _ _ _ c hc).2, decodeAll_dropLast _ _ _⟩
  · exact decodeAll_encodeAll (fun c hc => made_iff_fits.1 (hm c hc)) hs hlast

/-! ## A table with a shadowed id -/

def wait : Layout := ⟨0x10, "Wait", 1, [⟨"Frames", 2, .number, .signed⟩]⟩
def extended : Layout := ⟨0x01FF, "Extended", 2, [⟨"Arg", 4, .gameVariable, .hex⟩]⟩
def pad : Layout := ⟨0x40, "Pad", 2, []⟩
def hidden : Layout := ⟨0x0110, "Hidden", 2, []⟩
def finish : Layout := ⟨0xDB, "EventEnd", 1, []⟩

/-- Ids of one and two bytes; the first byte of `hidden` is the id of `wait`. -/
def mixedTable : Table where
  kind := .eventCommand
  layouts := [wait, extended, pad, hidden, finish]
  fieldsFit := by decide
  idsFit := by decide
  nodup := by decide

example : mixedTable.layouts.filter (fun t => Shadowed mixedTable t.id) = [hidden] := by decide

/-- A value is cut to its field when the command is made, and the last command may be a sentinel. -/
theorem decodeAll_encodeAll_mixed :
    let cs := [ofValues wait [0x12345], ofValues extended [7], (ofValues wait []).withValue 0 9, ofValues finish []]
    (∀ c ∈ cs, Made mixedTable c) ∧ decodeAll mixedTable [0xDB] (encodeAll cs) = cs := by
  intro cs
  have hm : ∀ c ∈ cs, Made mixedTable c := by
    simp only [cs, List.forall_mem_cons]
    exact ⟨.ofValues (by decide) _, .ofValues (by decide) _, .withValue (.ofValues (by decide) _) 0 9,
      .ofValues (by decide) _, by simp⟩
  exact ⟨hm, (((decodeAll_encodeAll_iff mixedTable [0xDB]).1 cs hm).2 (by decide))⟩

end DiscPatch.Command
