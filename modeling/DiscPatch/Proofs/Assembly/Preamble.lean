/-
The preamble of a source: its lines bind the symbols again. Behind it the labels are those it was made
from, and it adds no bytes.
-/
import DiscPatch.Proofs.Assembly.SourceLines

namespace DiscPatch.Assembly

open Text

/-! ## Comments -/

theorem withoutComment_append {front : List Char} (h : ∀ c ∈ front, c ∉ ['#', ';', '/']) (rest : List Char) :
    withoutComment (front ++ rest) = front ++ withoutComment rest := by
  induction front with
  | nil => rfl
  | cons c front ih =>
    obtain ⟨hc, hfront⟩ := List.forall_mem_cons.1 h
    rw [List.cons_append, withoutComment, ih hfront, List.cons_append]
    · rintro rfl
      exact hc (by decide)
    · rintro rfl
      exact hc (by decide)
    · rintro _ rfl
      exact absurd (by decide) hc

theorem withoutComment_of_no_comment {line : List Char} (h : ∀ c ∈ line, c ∉ ['#', ';', '/']) :
    withoutComment line = line := by
  have happend := withoutComment_append h []
  rwa [List.append_nil, withoutComment, List.append_nil] at happend

/-! ## Lines that start with a directive -/

theorem Directive.name_range (d : Directive) : ∀ c ∈ d.name.toList, isBlank c = false ∧ c ∉ ['#', ';', '/', '\n'] := by
  cases d <;> decide

theorem Directive.ofName?_name (d : Directive) : ofName? (lowerAscii d.name) = some d := by
  cases d <;> decide

theorem directiveOf?_of_name {d : Directive} {c : Char} (hblank : isBlank c = false) (hc : c ∉ ['#', ';', '/'])
    (rest : List Char) :
    directiveOf? (d.name.toList ++ ' ' :: c :: rest) = some (d, trimmed (c :: withoutComment rest)) := by
  have hname := d.name_range
  have hcomment : withoutComment (d.name.toList ++ ' ' :: c :: rest) =
      (d.name.toList ++ [' ']) ++ c :: withoutComment rest := by
    have hback : withoutComment ([' ', c] ++ rest) = [' ', c] ++ withoutComment rest :=
      withoutComment_append (by simpa using hc) rest
    rw [withoutComment_append (fun c' hc' => by have := (hname c' hc').2; simp_all)]
    rw [List.append_assoc]
    exact congrArg _ hback
  have hdrop : (d.name.toList ++ [' ']).dropWhile isBlank = d.name.toList ++ [' '] := by
    cases d <;> decide
  have hblanks : ∀ c ∈ d.name.toList, (!isBlank c) = true := fun c hc => by rw [(hname c hc).1]; rfl
  have htake (back : List Char) : (d.name.toList ++ ' ' :: back).takeWhile (!isBlank ·) = d.name.toList := by
    rw [List.takeWhile_append_of_pos hblanks, List.takeWhile_cons_of_neg (by decide), List.append_nil]
  have hrest (back : List Char) : (d.name.toList ++ ' ' :: back).dropWhile (!isBlank ·) = ' ' :: back := by
    rw [List.dropWhile_append_of_pos hblanks, List.dropWhile_cons_of_neg (by decide)]
  unfold directiveOf?
  rw [hcomment, trimmed_append_cons hblank, hdrop, List.append_assoc, List.singleton_append]
  dsimp only
  rw [htake, hrest, String.ofList_toList, Directive.ofName?_name, trimmed_cons_of_isBlank (by decide), trimmed_trimmed]
  rfl

/-! ## Lines that bind a symbol -/

/-- The line of a directive that binds a symbol. -/
def bindingLine (d : Directive) (mark : Char) (binding : String × UInt32) : List Char :=
  d.name.toList ++ ' ' :: mark :: (binding.1.toList ++ ',' :: ' ' :: digits 10 binding.2.toNat)

theorem labelLine_eq (binding : String × UInt32) :
    (Symbols.labelLine binding).toList = bindingLine .label '@' binding ++ ['\n'] := by
  simp [Symbols.labelLine, bindingLine, decimal, Directive.name]

theorem equateLine_eq (binding : String × UInt32) :
    (Symbols.equateLine binding).toList = bindingLine .equate '%' binding ++ ['\n'] := by
  simp [Symbols.equateLine, bindingLine, decimal, Directive.name]

theorem mem_of_isSymbolName {cs : List Char} (h : isSymbolName cs) : ∀ c ∈ cs, inSymbolName c := by
  rw [isSymbolName, Bool.and_eq_true] at h
  exact List.all_eq_true.1 h.2

theorem newline_not_mem_of_isSymbolName {cs : List Char} (h : isSymbolName cs) : '\n' ∉ cs := fun hmem =>
  not_mem_of_inSymbolName (mem_of_isSymbolName h _ hmem) (by decide)

theorem termValue_digits (symbols : Symbols) (v : UInt32) : termValue symbols (digits 10 v.toNat) = .ok v.toNat := by
  have hdigits : ∀ c ∈ digits 10 v.toNat, c ≠ '@' ∧ c ≠ '%' := fun c hc =>
    (by decide : ∀ c ∈ numerals, c ≠ '@' ∧ c ≠ '%') c (mem_digits (by decide) (by decide) hc)
  have hnumber : numberValue (digits 10 v.toNat) = .ok v.toNat := by
    unfold numberValue
    rw [afterHexMark?_digits (by decide) (by decide)]
    dsimp only
    rw [readWord_digits (by decide) (by decide)]
  unfold termValue
  split
  · rename_i h
    exact absurd rfl (hdigits '@' (by rw [h]; exact List.mem_cons_self ..)).1
  · rename_i h
    exact absurd rfl (hdigits '%' (by rw [h]; exact List.mem_cons_self ..)).2
  · exact hnumber

theorem evaluate_digits (symbols : Symbols) (v : UInt32) :
    evaluate symbols (' ' :: digits 10 v.toNat) = .ok v.toNat := by
  have hnumeral : ∀ c ∈ digits 10 v.toNat, c ∈ numerals := fun c => mem_digits (by decide) (by decide)
  obtain ⟨c, hc⟩ := List.exists_mem_of_ne_nil _ (digits_ne_nil 10 v.toNat)
  rw [evaluate_eq_termValue, trimmed_cons_of_isBlank (by decide), trimmed_digits (by decide) (by decide),
    termValue_digits]
  · refine List.forall_mem_cons.2 ⟨by decide, fun c hc => ?_⟩
    exact (by decide : ∀ c ∈ numerals, isSign c = false) c (hnumeral c hc)
  · exact allBlank_eq_false (List.mem_cons_of_mem _ hc) (isBlank_of_mem_numerals c (hnumeral c hc))

/-- A valid name is bound to the value of the line. -/
theorem bindSymbol_binding {mark : Char} (hmark : isBlank mark = false) (hcomma : mark ≠ ',') {name : String}
    (hname : isSymbolName name.toList) (v : UInt32) (symbols : Symbols) (d : Directive)
    (add : Symbols → String → UInt32 → Symbols) :
    bindSymbol symbols d mark add (mark :: (name.toList ++ ',' :: ' ' :: digits 10 v.toNat)) =
      .ok (add symbols name v) := by
  have hmem := mem_of_isSymbolName hname
  have hcut : cutAt? ',' (mark :: (name.toList ++ ',' :: ' ' :: digits 10 v.toNat)) =
      some (mark :: name.toList, ' ' :: digits 10 v.toNat) := by
    have hfront : ',' ∉ mark :: name.toList := by
      intro h
      rcases List.mem_cons.1 h with h | h
      · exact hcomma h.symm
      · exact not_mem_of_inSymbolName (hmem ',' h) (by decide)
    exact cutAt?_append hfront _
  have htrim : trimmed (mark :: name.toList) = mark :: name.toList :=
    trimmed_of_no_blank (List.forall_mem_cons.2 ⟨hmark, fun c hc => isBlank_of_inSymbolName (hmem c hc)⟩)
  unfold bindSymbol
  rw [hcut]
  dsimp only
  rw [htrim, evaluate_digits, List.head?_cons, List.tail_cons, if_pos (by simpa using hname)]
  rw [ok_bind, if_pos (fits_word v), ofInt_toNat, String.ofList_toList]
  rfl

/-- The directive of a line that binds a symbol, and what stands behind it. -/
theorem directiveOf?_bindingLine (kind : SymbolKind) (b : String × UInt32) :
    directiveOf? (bindingLine kind.directive kind.mark b) = some (kind.directive,
      trimmed (kind.mark :: withoutComment (b.1.toList ++ ',' :: ' ' :: digits 10 b.2.toNat))) := by
  cases kind <;> exact directiveOf?_of_name (by decide) (by decide) _

/-- The line of a symbol with a valid name binds it. -/
theorem stepLine_bindingLine (kind : SymbolKind) {b : String × UInt32} (h : isSymbolName b.1.toList) (symbols : Symbols)
    (position : Nat) :
    stepLine symbols position (bindingLine kind.directive kind.mark b) = { symbols := kind.append symbols [b] } := by
  have hname := mem_of_isSymbolName h
  have hrest : ∀ c ∈ b.1.toList ++ ',' :: ' ' :: digits 10 b.2.toNat, c ∉ ['#', ';', '/'] := by
    intro c hc
    rcases List.mem_append.1 hc with hc | hc
    · have := not_mem_of_inSymbolName (hname c hc)
      simp_all
    · exact (by decide : ∀ c ∈ ',' :: ' ' :: numerals, c ∉ ['#', ';', '/']) c
        (List.mem_cons.2 ((List.mem_cons.1 hc).imp_right fun hc => List.mem_cons.2
          ((List.mem_cons.1 hc).imp_right (mem_digits (by decide) (by decide)))))
  have htrim : trimmed (kind.mark :: (b.1.toList ++ ',' :: ' ' :: digits 10 b.2.toNat)) =
      kind.mark :: (b.1.toList ++ ',' :: ' ' :: digits 10 b.2.toNat) := by
    refine trimmed_eq_self (fun c hc => ?_) fun c hc => ?_
    · cases hc
      cases kind <;> decide
    · have hlast : ((kind.mark :: (b.1.toList ++ [',', ' '])) ++ digits 10 b.2.toNat).getLast? = some c := by
        simpa using hc
      exact isBlank_of_mem_numerals c (mem_numerals_of_getLast? (by decide) (by decide) hlast)
  have hdirective := directiveOf?_bindingLine kind b
  rw [withoutComment_of_no_comment hrest, htrim] at hdirective
  rw [stepLine_of_directive hdirective, kind.step_directive,
    bindSymbol_binding (by cases kind <;> decide) (by cases kind <;> decide) h, kind.bind_eq_append symbols h]
  rfl

theorem bytes_ofBinding (symbols : Symbols) (bound : Except Cause Symbols) :
    (Step.ofBinding symbols bound).bytes = [] := by
  cases bound <;> rfl

/-- The line of a symbol adds no bytes, whatever the name is. -/
theorem bytes_bindingLine (kind : SymbolKind) (b : String × UInt32) (symbols : Symbols) (position : Nat) :
    (stepLine symbols position (bindingLine kind.directive kind.mark b)).bytes = [] := by
  rw [stepLine_of_directive (directiveOf?_bindingLine kind b), kind.step_directive]
  exact bytes_ofBinding ..

/-- The line of an equate leaves the labels as they are, whatever the name is. -/
theorem labels_equateLine (b : String × UInt32) (symbols : Symbols) (position : Nat) :
    (stepLine symbols position (bindingLine .equate '%' b)).symbols.labels = symbols.labels := by
  rcases symbols_stepLine symbols position (bindingLine .equate '%' b) with h | ⟨kind, name, v, hbinds, h⟩
  · rw [h]
  · obtain ⟨rest, _, _, _, hdirective, _⟩ := hbinds
    have hequate : directiveOf? (bindingLine .equate '%' b) = _ := directiveOf?_bindingLine .equate b
    rw [h]
    cases kind with
    | equate => rfl
    | label =>
      rw [hequate] at hdirective
      cases hdirective

/-! ## The whole preamble -/

/-- Symbols whose labels have valid names, and whose equates have names on one line. -/
structure Symbols.Wellnamed (s : Symbols) : Prop where
  labels : ∀ b ∈ s.labels, isSymbolName b.1.toList
  equates : ∀ b ∈ s.equates, '\n' ∉ b.1.toList

/-- Whether each symbol is bound on one line. -/
structure Symbols.OneLined (s : Symbols) : Prop where
  labels : ∀ b ∈ s.labels, '\n' ∉ b.1.toList
  equates : ∀ b ∈ s.equates, '\n' ∉ b.1.toList

theorem Symbols.Wellnamed.oneLined {s : Symbols} (h : s.Wellnamed) : s.OneLined :=
  ⟨fun b hb => newline_not_mem_of_isSymbolName (h.labels b hb), h.equates⟩

/-- The lines of the preamble. -/
def Symbols.preambleLines (s : Symbols) : List (List Char) :=
  s.labels.map (bindingLine .label '@') ++ s.equates.map (bindingLine .equate '%')

theorem withoutReturn_bindingLine (d : Directive) (mark : Char) (b : String × UInt32) :
    withoutReturn (bindingLine d mark b) = bindingLine d mark b := by
  have hassoc : bindingLine d mark b =
      (d.name.toList ++ ' ' :: mark :: (b.1.toList ++ [',', ' '])) ++ digits 10 b.2.toNat := by
    simp [bindingLine]
  unfold withoutReturn
  rw [if_neg]
  intro h
  rw [hassoc] at h
  exact absurd (mem_numerals_of_getLast? (by decide) (by decide) h) (by decide)

theorem not_mem_bindingLine {d : Directive} {mark : Char} (hmark : mark ≠ '\n') {b : String × UInt32}
    (h : '\n' ∉ b.1.toList) : '\n' ∉ bindingLine d mark b := by
  have hname : '\n' ∉ d.name.toList := fun hmem => (d.name_range _ hmem).2 (by decide)
  have hdigits : '\n' ∉ digits 10 b.2.toNat := fun hmem =>
    absurd (mem_digits (by decide) (by decide) hmem) (by decide)
  simp only [bindingLine, List.mem_append, List.mem_cons, not_or]
  exact ⟨hname, by decide, hmark.symm, h, by decide, by decide, hdigits⟩

theorem toList_preamble (s : Symbols) : s.preamble.toList = s.preambleLines.flatMap (· ++ ['\n']) := by
  simp only [Symbols.preamble, Symbols.preambleLines, String.toList_join, List.flatMap_append, List.flatMap_map,
    labelLine_eq, equateLine_eq]

/-- Source behind a preamble has its own lines behind those of the preamble. -/
theorem lines_prepend_eq_append (s : Symbols) (source : String) :
    lines (s.prepend source).toList = lines s.preamble.toList ++ lines source.toList := by
  rw [Symbols.prepend, String.toList_append, toList_preamble, lines_append_of_whole (whole_flatMap _)]

/-- Bindings with names on one line are lines of their own. -/
theorem lines_bindingLines (kind : SymbolKind) {bs : List (String × UInt32)} (h : ∀ b ∈ bs, '\n' ∉ b.1.toList)
    (rest : List Char) :
    lines ((bs.map (bindingLine kind.directive kind.mark)).flatMap (· ++ ['\n']) ++ rest) =
      bs.map (bindingLine kind.directive kind.mark) ++ lines rest := by
  have hlines : ∀ line ∈ bs.map (bindingLine kind.directive kind.mark), '\n' ∉ line := by
    intro line hline
    obtain ⟨b, hb, rfl⟩ := List.mem_map.1 hline
    exact not_mem_bindingLine (by cases kind <;> decide) (h b hb)
  rw [lines_flatMap hlines, List.map_map]
  exact congrArg (· ++ lines rest) (List.map_congr_left fun b _ => withoutReturn_bindingLine ..)

/-- Behind the lines of the labels, each equate has a line of its own. -/
theorem lines_preamble_equates (labels : List (String × UInt32)) {equates : List (String × UInt32)}
    (h : ∀ b ∈ equates, '\n' ∉ b.1.toList) :
    lines (Symbols.preamble ⟨labels, equates⟩).toList =
      lines (Symbols.preamble ⟨labels, []⟩).toList ++ equates.map (bindingLine .equate '%') := by
  have hequates : lines ((equates.map (bindingLine .equate '%')).flatMap (· ++ ['\n']) ++ []) =
      equates.map (bindingLine .equate '%') ++ [] := lines_bindingLines .equate h []
  rw [List.append_nil, List.append_nil] at hequates
  rw [toList_preamble, toList_preamble, Symbols.preambleLines, List.flatMap_append, Symbols.preambleLines, List.map_nil,
    List.append_nil, lines_append_of_whole (whole_flatMap _), hequates]

theorem lines_prepend {s : Symbols} (h : s.OneLined) (source : String) :
    lines (s.prepend source).toList = s.preambleLines ++ lines source.toList := by
  have hlabels : lines ((s.labels.map (bindingLine .label '@')).flatMap (· ++ ['\n']) ++ []) =
      s.labels.map (bindingLine .label '@') ++ [] := lines_bindingLines .label h.labels []
  rw [lines_prepend_eq_append, lines_preamble_equates s.labels h.equates, toList_preamble, Symbols.preambleLines,
    List.map_nil, List.append_nil, ← List.append_nil (List.flatMap _ _), hlabels, List.append_nil]
  rfl

/-- The lines of symbols with valid names bind these, and do nothing else. -/
theorem after_bindingLines (kind : SymbolKind) {bs : List (String × UInt32)} (h : ∀ b ∈ bs, isSymbolName b.1.toList)
    (symbols : Symbols) (position number : Nat) :
    assembleLines symbols position number (bs.map (bindingLine kind.directive kind.mark)) = ([], []) ∧
      symbolsAfter symbols position (bs.map (bindingLine kind.directive kind.mark)) = kind.append symbols bs := by
  induction bs generalizing symbols number with
  | nil =>
    refine ⟨rfl, ?_⟩
    cases kind <;> simp [symbolsAfter, SymbolKind.append]
  | cons b bs ih =>
    obtain ⟨hb, hbs⟩ := List.forall_mem_cons.1 h
    obtain ⟨hlines, hsymbols⟩ := ih hbs (kind.append symbols [b]) (number + 1)
    rw [List.map_cons, assembleLines, symbolsAfter, stepLine_bindingLine kind hb]
    dsimp only
    rw [List.length_nil, Nat.add_zero, hlines, hsymbols, kind.append_append]
    exact ⟨rfl, rfl⟩

theorem after_equateLines (equates : List (String × UInt32)) (symbols : Symbols) (position number : Nat) :
    (assembleLines symbols position number (equates.map (bindingLine .equate '%'))).1 = [] ∧
      (symbolsAfter symbols position (equates.map (bindingLine .equate '%'))).labels = symbols.labels := by
  induction equates generalizing symbols number with
  | nil => exact ⟨rfl, rfl⟩
  | cons b equates ih =>
    have hbytes : (stepLine symbols position (bindingLine .equate '%' b)).bytes = [] :=
      bytes_bindingLine .equate b symbols position
    obtain ⟨hrest, hsymbols⟩ := ih (stepLine symbols position (bindingLine .equate '%' b)).symbols (number + 1)
    rw [List.map_cons, assembleLines, symbolsAfter]
    dsimp only
    rw [hbytes, List.length_nil, Nat.add_zero]
    exact ⟨hrest, hsymbols.trans (labels_equateLine b symbols position)⟩

/-- Behind the preamble the labels are those of the symbols, and there are no bytes yet. -/
theorem after_preambleLines {s : Symbols} (h : s.Wellnamed) (position : Nat) :
    (assembleLines Symbols.empty position 1 s.preambleLines).1 = [] ∧
      (symbolsAfter Symbols.empty position s.preambleLines).labels = s.labels := by
  obtain ⟨hlines, hsymbols⟩ := after_bindingLines .label h.labels Symbols.empty position 1
  have hlines : assembleLines Symbols.empty position 1 (s.labels.map (bindingLine .label '@')) = ([], []) := hlines
  have hsymbols : symbolsAfter Symbols.empty position (s.labels.map (bindingLine .label '@')) = ⟨s.labels, []⟩ :=
    hsymbols
  unfold Symbols.preambleLines
  rw [assembleLines_append, symbolsAfter_append _ _ 1, hlines, hsymbols]
  exact after_equateLines s.equates ⟨s.labels, []⟩ position (1 + (s.labels.map (bindingLine .label '@')).length)

/-! ## Operands that are labels -/

/-- Operand `index` of line `n` is the label, which no line before it binds. -/
structure RefersTo (source : String) (n index : Nat) (name : String) : Prop where
  operand : ∃ line rest, (lines source.toList)[n]? = some line ∧ directiveOf? line = some (.word, rest) ∧
    (operands rest)[index]? = some ('@' :: name.toList)
  unbound : ∀ line ∈ (lines source.toList).take n, ¬ BindsLabel name line

/-- Where operand `index` of line `n` is stored: behind the bytes of the lines before it. -/
def operandPosition (s : Symbols) (source : String) (address : UInt32) (n index : Nat) : Nat :=
  (assembleLines Symbols.empty address.toNat 1 (s.preambleLines ++ (lines source.toList).take n)).1.length + 4 * index

/-- An operand that is a symbol has its value. -/
theorem evaluate_symbol (kind : SymbolKind) {name : String} (hname : isSymbolName name.toList) (symbols : Symbols) :
    evaluate symbols (kind.mark :: name.toList) =
      match kind.value? symbols name with
      | some v => .ok v.toNat
      | none => .error (.undefinedSymbol (String.ofList (kind.mark :: name.toList))) := by
  have hmem := mem_of_isSymbolName hname
  have hmark : isSign kind.mark = false ∧ isBlank kind.mark = false := by cases kind <;> decide
  have hsign : ∀ c ∈ kind.mark :: name.toList, isSign c = false := by
    refine List.forall_mem_cons.2 ⟨hmark.1, fun c hc => ?_⟩
    have := not_mem_of_inSymbolName (hmem c hc)
    unfold isSign
    simp_all
  have hblank : ∀ c ∈ kind.mark :: name.toList, isBlank c = false :=
    List.forall_mem_cons.2 ⟨hmark.2, fun c hc => isBlank_of_inSymbolName (hmem c hc)⟩
  have hterm : termValue symbols (kind.mark :: name.toList) =
      symbolValue (kind.value? symbols) (kind.mark :: name.toList) name.toList := by
    cases kind <;> rfl
  rw [evaluate_eq_termValue hsign (allBlank_eq_false (List.mem_cons_self ..) hmark.2), trimmed_of_no_blank hblank,
    hterm]
  have hlookup : kind.value? symbols (String.ofList name.toList) = kind.value? symbols name := by
    rw [String.ofList_toList]
  rw [← hlookup]
  exact if_pos hname

/-- For an operand that is a label its address is stored, and zero if it is not known. -/
theorem slot_label {name : String} (hname : isSymbolName name.toList) (symbols : Symbols) :
    slot symbols 4 .word ('@' :: name.toList) = Bytes.ofValue 4 ((symbols.label? name).getD 0) := by
  have hvalue := evaluate_symbol .label hname symbols
  cases hlabel : symbols.label? name with
  | some v =>
    rw [show SymbolKind.label.value? symbols name = some v from hlabel] at hvalue
    exact slot_of_ok hvalue
  | none =>
    rw [show SymbolKind.label.value? symbols name = none from hlabel] at hvalue
    have hzero : Bytes.ofValue 4 0 = List.replicate 4 0 := by decide
    exact (slot_of_error hvalue).trans hzero.symm

/-- The word stored for a label is its address. -/
theorem wordOf_encode {s : Symbols} (hs : s.Wellnamed) {source name : String} {n index : Nat} {v : UInt32}
    (hname : isSymbolName name.toList) (hv : s.label? name = some v) (h : RefersTo source n index name)
    (address : UInt32) :
    operandPosition s source address n index + 4 ≤ (encode (s.prepend source) address).bytes.length ∧
      wordOf (encode (s.prepend source) address).bytes (operandPosition s source address n index) = v := by
  obtain ⟨line, rest, hline, hdirective, hoperand⟩ := h.operand
  obtain ⟨hn, rfl⟩ := List.getElem?_eq_some_iff.1 hline
  unfold operandPosition
  generalize hfront : s.preambleLines ++ (lines source.toList).take n = front
  generalize hbefore : (assembleLines Symbols.empty address.toNat 1 front).1 = before
  generalize hafter : symbolsAfter Symbols.empty address.toNat front = symbols
  have hlabel : symbols.label? name = some v := by
    obtain ⟨-, hlabels⟩ := after_preambleLines hs address.toNat
    rw [← hafter, ← hfront, symbolsAfter_append _ _ 1, label?_symbolsAfter h.unbound, Symbols.label?, hlabels]
    exact hv
  have hslot : Bytes.value (slot symbols 4 .word ('@' :: name.toList)) = v := by
    rw [slot_label hname, hlabel, Option.getD_some, Bytes.value_ofValue (Nat.le_refl 4), Bytes.fit_four]
  have hbytes : ∃ more, (encode (s.prepend source) address).bytes =
      before ++ ((operands rest).flatMap (slot symbols 4 .word) ++ more) := by
    have hcut : lines (s.prepend source).toList =
        front ++ (lines source.toList)[n] :: (lines source.toList).drop (n + 1) := by
      rw [lines_prepend hs.oneLined, ← hfront, List.append_assoc, ← List.drop_eq_getElem_cons, List.take_append_drop]
    have hstep (position : Nat) : (stepLine symbols position (lines source.toList)[n]).bytes =
        (operands rest).flatMap (slot symbols 4 .word) := by
      rw [stepLine_of_directive hdirective]
      exact bytes_store ..
    obtain ⟨more, hmore⟩ := assembleLines_middle Symbols.empty address.toNat 1 front (lines source.toList)[n]
      ((lines source.toList).drop (n + 1))
    refine ⟨more, ?_⟩
    rw [← hcut, hbefore, hafter, hstep] at hmore
    exact hmore
  obtain ⟨more, hmore⟩ := hbytes
  obtain ⟨hfits, hword⟩ := wordOf_slots symbols .word more (operands rest) index _ hoperand
  rw [hmore]
  refine ⟨?_, ?_⟩
  · rw [List.length_append, List.length_append]
    omega
  · rw [wordOf_append _ rfl, hword, hslot]

end DiscPatch.Assembly
