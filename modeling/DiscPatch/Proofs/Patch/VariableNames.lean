/-
Variables in assembly source. Each variable is bound in front of the source under its name without blanks and
commas. The source can use it under that name exactly when the assembler takes it for a symbol name and no
later variable with another value is bound under the same one.
-/
import DiscPatch.Proofs.Assembly.Bindings
import DiscPatch.Proofs.Patch.LabelReference

namespace DiscPatch.Patch

open Text Assembly

/-! ## The line of a variable -/

theorem lines_prepend_equate (labels : List (String × UInt32)) {equates : List (String × UInt32)}
    (h : ∀ b ∈ equates, '\n' ∉ b.1.toList) {i : Nat} {b : String × UInt32} (hb : equates[i]? = some b)
    (source : String) :
    ∃ rest, lines (Symbols.prepend ⟨labels, equates⟩ source).toList =
      lines (Symbols.preamble ⟨labels, equates.take i⟩).toList ++ bindingLine .equate '%' b :: rest := by
  obtain ⟨hi, rfl⟩ := List.getElem?_eq_some_iff.1 hb
  have hequates : equates = equates.take i ++ equates[i] :: equates.drop (i + 1) := by
    rw [← List.drop_eq_getElem_cons, List.take_append_drop]
  refine ⟨(equates.drop (i + 1)).map (bindingLine .equate '%') ++ lines source.toList, ?_⟩
  rw [lines_prepend_eq_append, lines_preamble_equates labels h,
    lines_preamble_equates labels fun b hb => h b (List.mem_of_mem_take hb)]
  conv_lhs => rw [hequates]
  rw [List.map_append, List.map_cons, List.append_assoc, List.append_assoc, List.append_assoc, List.cons_append]

/-- The number of the line that binds variable `i`, behind all labels and the variables before it. -/
def bindingNumber (p : Patch) (i : Nat) : Nat :=
  (lines (Symbols.preamble ⟨p.symbols.labels, p.symbols.equates.take i⟩).toList).length + 1

/-- The variable that is bound last under a name. -/
def lastBound? (vars : List Variable) (key : String) : Option Variable :=
  vars.reverse.find? (equateKey ·.name = key)

theorem lookup_keys (vars : List Variable) (key : String) :
    (vars.map fun v => (equateKey v.name, v.value)).lookup key =
      (vars.find? (equateKey ·.name = key)).map (·.value) := by
  induction vars with
  | nil => rfl
  | cons v vars ih =>
    rw [List.map_cons, List.lookup_cons, List.find?_cons, ih]
    by_cases hkey : equateKey v.name = key
    · rw [beq_iff_eq.2 hkey.symm, decide_eq_true hkey]
      rfl
    · rw [beq_false_of_ne (Ne.symm hkey), decide_eq_false hkey]

/-- Whether a source can use variable `i`, which is `v`, in front of its line `n`: the line that binds the
variable has no fault, and the name under which it does stands for its value. -/
structure Usable (p : Patch) (source : String) (address : UInt32) (n i : Nat) (v : Variable) : Prop where
  bound : ∀ fault ∈ (assemble (p.symbols.prepend source) address).2, fault.line ≠ p.bindingNumber i
  value : evaluate (knownAt p.symbols source address n) ('%' :: (equateKey v.name).toList) = .ok v.value.toNat

section Usable

variable {p : Patch} {i : Nat} {v : Variable}

/-- A line of the preamble is faulty exactly when the cleaned name of its variable is no symbol name. -/
theorem exists_fault_binding_iff (hv : p.vars[i]? = some v) (source : String) (address : UInt32) :
    (∃ fault ∈ (assemble (p.symbols.prepend source) address).2, fault.line = p.bindingNumber i) ↔
      isSymbolName (equateKey v.name).toList = false := by
  have hsymbols := symbolsOf_eq p.segments p.vars
  have hb : (p.vars.map fun v => (equateKey v.name, v.value))[i]? = some (equateKey v.name, v.value) := by
    rw [List.getElem?_map, hv]
    rfl
  obtain ⟨rest, hlines⟩ := lines_prepend_equate (labelsOf p.segments) (oneLined_equates p.vars) hb source
  rw [← hsymbols] at hlines
  have hnumber : p.bindingNumber i = 1 + (lines (Symbols.preamble ⟨labelsOf p.segments,
      (p.vars.map fun v => (equateKey v.name, v.value)).take i⟩).toList).length := by
    rw [bindingNumber, Patch.symbols, hsymbols, Nat.add_comm]
  rw [assemble, assembleFrom, Patch.symbols, hlines, hnumber, exists_fault_iff]
  exact causes_bindingLine_iff .equate (b := (equateKey v.name, v.value)) (plain_equateKey v.name) ..

/-- Behind the preamble, a symbol name stands for the value bound last under it. -/
theorem value?_symbols {key : String} (hkey : isSymbolName key.toList) (hbound : lastBound? p.vars key ≠ none)
    (source : String) (address : UInt32) :
    SymbolKind.equate.value? (knownAt p.symbols source address 0) key = (lastBound? p.vars key).map (·.value) := by
  let equates := p.vars.map fun v => (equateKey v.name, v.value)
  have hsymbols : p.symbols = ⟨labelsOf p.segments, equates⟩ := symbolsOf_eq ..
  have hplain : ∀ b ∈ equates, Plain b.1 := by
    intro b hb
    obtain ⟨v, -, rfl⟩ := List.mem_map.1 hb
    exact plain_equateKey v.name
  have hlast : equates.reverse.lookup key = (lastBound? p.vars key).map (·.value) := by
    rw [← List.map_reverse, lookup_keys]
    rfl
  rw [knownAt_zero, hsymbols, lines_preamble_equates _ (oneLined_equates p.vars), symbolsAfter_append _ _ 1]
  refine (value?_after_bindingLines .equate hplain _ _ hkey).trans ?_
  rw [hlast]
  obtain ⟨w, hw⟩ := Option.ne_none_iff_exists'.1 hbound
  rw [hw]
  rfl

/-- A variable can be used up to the line that binds its name again exactly when its cleaned name is a symbol
name, and the variable that is bound last under that name has its value. -/
theorem usable_iff (hv : p.vars[i]? = some v) {source : String} {address : UInt32} {n : Nat}
    (hbound : ¬ BoundBefore .equate p.symbols source address n (equateKey v.name)) :
    p.Usable source address n i v ↔
      isSymbolName (equateKey v.name).toList ∧
        ∃ w, lastBound? p.vars (equateKey v.name) = some w ∧ w.value = v.value := by
  have hlast : lastBound? p.vars (equateKey v.name) ≠ none := by
    intro hnone
    exact List.find?_eq_none.1 hnone v (List.mem_reverse.2 (List.mem_of_getElem? hv)) (decide_eq_true rfl)
  obtain ⟨w, hw⟩ := Option.ne_none_iff_exists'.1 hlast
  have hvalue (hvalid : isSymbolName (equateKey v.name).toList) :
      evaluate (knownAt p.symbols source address n) ('%' :: (equateKey v.name).toList) = .ok w.value.toNat := by
    refine (evaluate_symbol .equate hvalid _).trans ?_
    rw [value?_knownAt hbound, value?_symbols hvalid hlast, hw]
    rfl
  constructor
  · rintro ⟨hnone, heval⟩
    have hvalid : isSymbolName (equateKey v.name).toList = true := by
      by_contra hinvalid
      obtain ⟨fault, hfault, hline⟩ := (exists_fault_binding_iff hv source address).2 (by simpa using hinvalid)
      exact hnone fault hfault hline
    rw [hvalue hvalid] at heval
    exact ⟨hvalid, w, hw, UInt32.toNat_inj.1 (Int.ofNat.inj (Except.ok.inj heval))⟩
  · rintro ⟨hvalid, w', hw', hsame⟩
    refine ⟨fun fault hfault hline => ?_, ?_⟩
    · have hinvalid := (exists_fault_binding_iff hv source address).1 ⟨fault, hfault, hline⟩
      rw [hvalid] at hinvalid
      cases hinvalid
    · obtain rfl : w = w' := Option.some.inj (hw.symm.trans hw')
      rw [hvalue hvalid, hsame]

end Usable

/-! ## Names that are used and names that are not -/

/-- A name with a blank in it. -/
theorem usable_max_hp :
    let v : Variable := ⟨"Max HP", 2, 0x270F, [], none⟩
    let p : Patch := ⟨"party", "", "party", [], [v, ⟨"Speed", 1, 7, [], none⟩], [], false, false, ""⟩
    Draft.build { name := p.name, vars := p.vars } = .ok p ∧ p.Usable ".half %MaxHP" 0 0 0 v := by
  intro v p
  have hbound := not_boundBefore .equate ".half %MaxHP" 0 (by decide +kernel) p.symbols 0 "MaxHP"
  have hkey : equateKey v.name = "MaxHP" := by decide
  refine ⟨by decide, (usable_iff (p := p) (i := 0) rfl ?_).2 ⟨?_, v, ?_, rfl⟩⟩
  · rwa [hkey]
  · rw [hkey]
    decide
  · rw [hkey]
    decide

/-- A name with brackets in it, which are no part of symbol names. -/
theorem not_usable_capped :
    let v : Variable := ⟨"Max HP (cap)", 1, 5, [], none⟩
    let p : Patch := ⟨"party", "", "party", [], [v], [], false, false, ""⟩
    Draft.build { name := p.name, vars := p.vars } = .ok p ∧ equateKey v.name = "MaxHP(cap)" ∧
      assemble ".byte 1" 0 = ([1], []) ∧
      assemble (p.symbols.prepend ".byte 1") 0 = ([1], [⟨1, .badSymbol "%MaxHP(cap)"⟩]) ∧ p.bindingNumber 0 = 1 ∧
      ¬ p.Usable ".byte 1" 0 0 0 v := by
  intro v p
  have hassemble : assemble (p.symbols.prepend ".byte 1") 0 = ([1], [⟨1, .badSymbol "%MaxHP(cap)"⟩]) := by
    decide +kernel
  have hnumber : p.bindingNumber 0 = 1 := by decide +kernel
  refine ⟨by decide, by decide, by decide +kernel, hassemble, hnumber, fun h => ?_⟩
  refine h.bound ⟨1, .badSymbol "%MaxHP(cap)"⟩ ?_ hnumber.symm
  rw [hassemble]
  exact List.mem_singleton_self _

/-- Two names that are the same without their blanks stand for the later value. -/
example :
    let vars := [⟨"Max HP", 1, 5, [], none⟩, ⟨"MaxHP", 1, 7, [], none⟩]
    let p : Patch := ⟨"party", "", "party", [], vars, [], false, false, ""⟩
    Draft.build { name := p.name, vars := p.vars } = .ok p ∧
      assemble (p.symbols.prepend ".byte %MaxHP") 0 = ([7], []) := by
  decide +kernel

end DiscPatch.Patch
