/-
Symbols in front of a source. Behind a preamble a source is assembled as if the symbols were bound from the
start, and its faults are counted from behind the preamble; a symbol keeps its value up to the line that
binds it again.
-/
import DiscPatch.Proofs.Assembly.Preamble

namespace DiscPatch.Assembly

open Text

/-! ## Symbols in front of a line -/

/-- The symbols that are known in front of line `n` of a source behind a preamble. -/
def knownAt (s : Symbols) (source : String) (address : UInt32) (n : Nat) : Symbols :=
  symbolsAfter Symbols.empty address.toNat
    ((lines (s.prepend source).toList).take ((lines s.preamble.toList).length + n))

/-- Whether one of the first `n` lines of the source binds the name. -/
def BoundBefore (kind : SymbolKind) (s : Symbols) (source : String) (address : UInt32) (n : Nat) (name : String) :
    Prop :=
  ∃ k < n, ∃ line v, (lines source.toList)[k]? = some line ∧ kind.Binds (knownAt s source address k) line name v

theorem take_lines_prepend (s : Symbols) (source : String) (n : Nat) :
    (lines (s.prepend source).toList).take ((lines s.preamble.toList).length + n) =
      lines s.preamble.toList ++ (lines source.toList).take n := by
  rw [lines_prepend_eq_append, List.take_length_add_append]

theorem knownAt_zero (s : Symbols) (source : String) (address : UInt32) :
    knownAt s source address 0 = symbolsAfter Symbols.empty address.toNat (lines s.preamble.toList) := by
  rw [knownAt, take_lines_prepend, List.take_zero, List.append_nil]

theorem knownAt_succ {s : Symbols} {source : String} {n : Nat} {line : List Char}
    (h : (lines source.toList)[n]? = some line) (address : UInt32) :
    ∃ position, knownAt s source address (n + 1) = (stepLine (knownAt s source address n) position line).symbols := by
  let front := lines s.preamble.toList ++ (lines source.toList).take n
  refine ⟨address.toNat + (assembleLines Symbols.empty address.toNat 1 front).1.length, ?_⟩
  have htake : (lines source.toList).take (n + 1) = (lines source.toList).take n ++ [line] := by
    rw [List.take_add_one, h]
    rfl
  rw [knownAt, knownAt, take_lines_prepend, take_lines_prepend, htake, ← List.append_assoc, symbolsAfter_append _ _ 1]
  rfl

/-- A symbol keeps its value until a line of the source binds its name. -/
theorem value?_knownAt {kind : SymbolKind} {s : Symbols} {source : String} {address : UInt32} {n : Nat} {name : String}
    (h : ¬ BoundBefore kind s source address n name) :
    kind.value? (knownAt s source address n) name = kind.value? (knownAt s source address 0) name := by
  induction n with
  | zero => rfl
  | succ n ih =>
    have hbefore : ¬ BoundBefore kind s source address n name := by
      rintro ⟨k, hk, hbinds⟩
      exact h ⟨k, Nat.lt_succ_of_lt hk, hbinds⟩
    rw [← ih hbefore]
    cases hline : (lines source.toList)[n]? with
    | none =>
      have hlength := List.getElem?_eq_none_iff.1 hline
      rw [knownAt, knownAt, take_lines_prepend, take_lines_prepend, List.take_of_length_le hlength,
        List.take_of_length_le (Nat.le_succ_of_le hlength)]
    | some line =>
      obtain ⟨position, hstep⟩ := knownAt_succ (s := s) hline address
      rw [hstep]
      exact value?_stepLine kind (fun v hbinds => h ⟨n, Nat.lt_succ_self n, line, v, hline, hbinds⟩) position

/-- Lines of other directives bind nothing of the kind. -/
theorem not_boundBefore (kind : SymbolKind) (source : String) (n : Nat)
    (h : ∀ line ∈ (lines source.toList).take n, (directiveOf? line).map Prod.fst ≠ some kind.directive) (s : Symbols)
    (address : UInt32) (name : String) : ¬ BoundBefore kind s source address n name := by
  rintro ⟨k, hk, line, v, hline, rest, _, _, _, hdirective, _⟩
  have hmem : line ∈ (lines source.toList).take n := List.mem_of_getElem? (by rw [List.getElem?_take_of_lt hk, hline])
  exact h line hmem (by rw [hdirective]; rfl)

theorem Symbols.OneLined.lines_preamble {s : Symbols} (h : s.OneLined) : lines s.preamble.toList = s.preambleLines := by
  have hlines := lines_prepend h ""
  rw [lines_prepend_eq_append] at hlines
  exact List.append_cancel_right hlines

/-! ## Symbols with valid names -/

/-- Symbols whose names are all valid. -/
structure Symbols.Named (s : Symbols) : Prop where
  labels : ∀ b ∈ s.labels, isSymbolName b.1.toList
  equates : ∀ b ∈ s.equates, isSymbolName b.1.toList

theorem Symbols.Named.oneLined {s : Symbols} (h : s.Named) : s.OneLined :=
  ⟨fun b hb => newline_not_mem_of_isSymbolName (h.labels b hb),
    fun b hb => newline_not_mem_of_isSymbolName (h.equates b hb)⟩

theorem Symbols.Named.length_lines {s : Symbols} (h : s.Named) :
    (lines s.preamble.toList).length = s.labels.length + s.equates.length := by
  rw [h.oneLined.lines_preamble, Symbols.preambleLines, List.length_append, List.length_map, List.length_map]

/-- A preamble of valid names binds the symbols, and does nothing else. -/
theorem Symbols.Named.after_preamble {s : Symbols} (h : s.Named) (position : Nat) :
    assembleLines Symbols.empty position 1 (lines s.preamble.toList) = ([], []) ∧
      symbolsAfter Symbols.empty position (lines s.preamble.toList) = s := by
  have hkinds : lines s.preamble.toList =
      s.labels.map (bindingLine SymbolKind.label.directive SymbolKind.label.mark) ++
        s.equates.map (bindingLine SymbolKind.equate.directive SymbolKind.equate.mark) := h.oneLined.lines_preamble
  obtain ⟨hlabels, hbound⟩ := after_bindingLines .label h.labels Symbols.empty position 1
  obtain ⟨hequates, hall⟩ := after_bindingLines .equate h.equates (SymbolKind.label.append Symbols.empty s.labels)
    position (1 + (s.labels.map (bindingLine SymbolKind.label.directive SymbolKind.label.mark)).length)
  rw [hkinds, assembleLines_append_eq, symbolsAfter_append _ _ 1, hlabels, hbound]
  dsimp only
  rw [List.length_nil, Nat.add_zero, hequates, hall]
  exact ⟨rfl, rfl⟩

/-! ## Names that may be no symbol names -/

theorem prefix_withoutComment (line : List Char) : withoutComment line <+: line := by
  induction line using withoutComment.induct with
  | case1 | case2 | case3 | case4 => exact List.nil_prefix
  | case5 c cs h1 h2 h3 ih =>
    rw [withoutComment]
    · exact (List.prefix_cons_inj c).2 ih
    all_goals assumption

/-- Names with neither blanks nor commas: up to the comma behind it, the line of a binding is that name. -/
def Plain (name : String) : Prop := ∀ c ∈ name.toList, isBlank c = false ∧ c ≠ ','

instance (name : String) : Decidable (Plain name) :=
  inferInstanceAs (Decidable (∀ c ∈ name.toList, _))

theorem plain_equateKey (name : String) : Plain (equateKey name) := by
  intro c hc
  rw [equateKey, String.toList_ofList] at hc
  simpa using (List.mem_filter.1 hc).2

/-- The line of a plain name that is no symbol name binds nothing, and is faulty. -/
theorem stepLine_bindingLine_of_plain (kind : SymbolKind) {b : String × UInt32} (hplain : Plain b.1)
    (hname : isSymbolName b.1.toList = false) (symbols : Symbols) (position : Nat) :
    ∃ cause, stepLine symbols position (bindingLine kind.directive kind.mark b) = { symbols, causes := [cause] } := by
  have hmark : isBlank kind.mark = false ∧ kind.mark ≠ ',' := by cases kind <;> decide
  have hfront : ∀ c ∈ kind.mark :: b.1.toList, isBlank c = false ∧ c ≠ ',' :=
    List.forall_mem_cons.2 ⟨hmark, hplain⟩
  rw [stepLine_of_directive (directiveOf?_bindingLine kind b), kind.step_directive]
  generalize hrest : trimmed (kind.mark :: withoutComment (b.1.toList ++ ',' :: ' ' :: digits 10 b.2.toNat)) = rest
  cases hbind : bindSymbol symbols kind.directive kind.mark kind.bind rest with
  | error cause => exact ⟨cause, rfl⟩
  | ok symbols' =>
    -- the name in front of the comma would be the one of the binding
    obtain ⟨front, expression, name, v, hcut, htrim, hvalid, -⟩ := bindSymbol_eq_ok hbind
    have hprefix : rest <+: (kind.mark :: b.1.toList) ++ ',' :: ' ' :: digits 10 b.2.toNat := by
      rw [← hrest]
      exact (trimmed_prefix_cons hmark.1 _).trans ((List.prefix_cons_inj _).2 (prefix_withoutComment _))
    have hpiece := cutAt?_of_prefix hprefix (fun hmem => (hfront ',' hmem).2 rfl) hcut
    rw [hpiece, trimmed_of_no_blank fun c hc => (hfront c hc).1] at htrim
    obtain ⟨-, rfl⟩ := List.cons.inj htrim
    rw [hname] at hvalid
    cases hvalid

theorem causes_bindingLine_iff (kind : SymbolKind) {b : String × UInt32} (hplain : Plain b.1) (symbols : Symbols)
    (position : Nat) :
    (stepLine symbols position (bindingLine kind.directive kind.mark b)).causes ≠ [] ↔
      isSymbolName b.1.toList = false := by
  cases hvalid : isSymbolName b.1.toList with
  | true =>
    rw [stepLine_bindingLine kind hvalid]
    simp
  | false =>
    obtain ⟨cause, hfault⟩ := stepLine_bindingLine_of_plain kind hplain hvalid symbols position
    rw [hfault]
    simp

/-- Behind the line of a plain name, that name has the value of the line, if it is a symbol name. -/
theorem value?_bindingLine (kind : SymbolKind) {b : String × UInt32} (hplain : Plain b.1) (symbols : Symbols)
    (position : Nat) {name : String} (hname : isSymbolName name.toList) :
    kind.value? (stepLine symbols position (bindingLine kind.directive kind.mark b)).symbols name =
      if name = b.1 then some b.2 else kind.value? symbols name := by
  cases hvalid : isSymbolName b.1.toList with
  | true =>
    rw [stepLine_bindingLine kind hvalid]
    show kind.value? (kind.append symbols [(b.1, b.2)]) name = _
    rw [kind.value?_append]
    simp only [true_and]
  | false =>
    obtain ⟨cause, hfault⟩ := stepLine_bindingLine_of_plain kind hplain hvalid symbols position
    have hne : name ≠ b.1 := by
      rintro rfl
      rw [hname] at hvalid
      cases hvalid
    rw [hfault, if_neg hne]

/-- Behind the lines of plain names, a symbol has the last of its values. -/
theorem value?_after_bindingLines (kind : SymbolKind) {bs : List (String × UInt32)} (hplain : ∀ b ∈ bs, Plain b.1)
    (symbols : Symbols) (position : Nat) {name : String} (hname : isSymbolName name.toList) :
    kind.value? (symbolsAfter symbols position (bs.map (bindingLine kind.directive kind.mark))) name =
      (bs.reverse.lookup name).or (kind.value? symbols name) := by
  induction bs generalizing symbols with
  | nil => rfl
  | cons b bs ih =>
    obtain ⟨hb, hbs⟩ := List.forall_mem_cons.1 hplain
    rw [List.map_cons, symbolsAfter, bytes_bindingLine, List.length_nil, Nat.add_zero, ih hbs,
      value?_bindingLine kind hb _ _ hname, List.reverse_cons, List.lookup_append, Option.or_assoc, List.lookup_cons]
    by_cases heq : name = b.1
    · rw [if_pos heq, beq_iff_eq.2 heq]
      rfl
    · rw [if_neg heq, beq_false_of_ne heq]
      rfl

/-! ## Source behind symbols -/

/-- Source behind a preamble of valid names gives the bytes that it gives with the symbols bound, and the
faults, counted from behind the preamble, which adds nothing itself. Until the source binds a name, the symbol
has the value it was bound to last. -/
theorem assemble_prepend {s : Symbols} (h : s.Named) (source : String) (address : UInt32) :
    assemble (s.prepend source) address =
        ((assembleFrom s source address).1,
          (assembleFrom s source address).2.map (Fault.later (s.labels.length + s.equates.length))) ∧
      assemble s.preamble address = ([], []) ∧
      ∀ kind : SymbolKind,
        (∀ (name : String) (n : Nat), isSymbolName name.toList → ¬ BoundBefore kind s source address n name →
          evaluate (knownAt s source address n) (kind.mark :: name.toList) =
            match kind.value? s name with
            | some v => .ok v.toNat
            | none => .error (.undefinedSymbol (String.ofList (kind.mark :: name.toList)))) ∧
        ∀ (name : String) (v : UInt32), kind.value? s name = some v ↔
          ∃ front back, kind.bindings s = front ++ (name, v) :: back ∧ ∀ b ∈ back, b.1 ≠ name := by
  obtain ⟨hpreamble, hsymbols⟩ := h.after_preamble address.toNat
  refine ⟨?_, hpreamble, fun kind => ⟨fun name n hname hbound => ?_, fun name v => kind.value?_eq_some_iff⟩⟩
  · unfold assemble assembleFrom
    rw [lines_prepend_eq_append, assembleLines_append_eq, hpreamble, hsymbols, h.length_lines]
    dsimp only
    rw [assembleLines_later]
    rfl
  · have hknown : kind.value? (knownAt s source address n) name = kind.value? s name := by
      rw [value?_knownAt hbound, knownAt_zero, hsymbols]
    rw [← hknown]
    exact evaluate_symbol kind hname _

/-- A label bound twice, a source that binds the equate again, and a symbol that is not bound. -/
theorem assemble_prepend_bound_again :
    let s : Symbols := ⟨[("hook", 0x80067000), ("hook", 0x80067004)], [("cap", 0x270F)]⟩
    let source := ".half %cap\n.eqv %cap, 1\n.byte %cap, @none"
    s.Named ∧ assemble (s.prepend source) 0 = ([0x0F, 0x27, 1, 0], [⟨6, .undefinedSymbol "@none"⟩]) ∧
      evaluate (knownAt s source 0 3) "@hook".toList = .ok 0x80067004 ∧
      evaluate (knownAt s source 0 1) "%cap".toList = .ok 0x270F := by
  intro s source
  have hnamed : s.Named := ⟨by decide, by decide⟩
  obtain ⟨hassemble, -, hsymbols⟩ := assemble_prepend hnamed source 0
  have hhook := not_boundBefore .label source 3 (by decide +kernel) s 0 "hook"
  have hcap := not_boundBefore .equate source 1 (by decide +kernel) s 0 "cap"
  refine ⟨hnamed, ?_, ?_, ?_⟩
  · rw [hassemble]
    decide +kernel
  · exact ((hsymbols .label).1 "hook" 3 (by decide) hhook).trans (by decide +kernel)
  · exact ((hsymbols .equate).1 "cap" 1 (by decide) hcap).trans (by decide +kernel)

end DiscPatch.Assembly
