/-
Source line by line: the directive of a line, what the line leaves of the labels that are bound, and the
bytes of some lines behind others.
-/
import DiscPatch.Assembly.Directives
import DiscPatch.Proofs.Assembly.References
import DiscPatch.Proofs.Except
import DiscPatch.Proofs.Text.Numerals

namespace DiscPatch.Assembly

open Text

/-! ## Symbol names -/

theorem toNat_of_inSymbolName {c : Char} (h : inSymbolName c) :
    (48 ≤ c.toNat ∧ c.toNat ≤ 57) ∨ (65 ≤ c.toNat ∧ c.toNat ≤ 90) ∨ (97 ≤ c.toNat ∧ c.toNat ≤ 122) ∨
      c.toNat = 95 ∨ c.toNat = 46 := by
  unfold inSymbolName Char.isAlphanum at h
  simp only [Bool.or_eq_true, beq_iff_eq] at h
  rcases h with ((h | h) | rfl) | rfl
  · rcases toNat_of_isAlpha h with h | h
    · exact .inr (.inl h)
    · exact .inr (.inr (.inl h))
  · exact .inl (Char.isDigit_iff_toNat.1 h)
  · decide
  · decide

theorem isBlank_of_inSymbolName {c : Char} (h : inSymbolName c) : isBlank c = false := by
  have hrange := toNat_of_inSymbolName h
  unfold isBlank
  simp only [Bool.or_eq_false_iff, Bool.and_eq_false_iff, decide_eq_false_iff_not, beq_eq_false_iff_ne]
  omega

/-- The characters that lines and operands are cut at are in no symbol name. -/
theorem not_mem_of_inSymbolName {c : Char} (h : inSymbolName c) :
    c ∉ ['+', '-', ',', '#', ';', '/', '\n', '\r'] := by
  have hcuts : ∀ c ∈ ['+', '-', ',', '#', ';', '/', '\n', '\r'], inSymbolName c = false := by decide
  intro hmem
  rw [hcuts c hmem] at h
  cases h

/-- A symbol name is an equate's name as it stands. -/
theorem equateKey_of_isSymbolName {name : String} (h : isSymbolName name.toList) : equateKey name = name := by
  rw [isSymbolName, Bool.and_eq_true] at h
  have hkept : ∀ c ∈ name.toList, (!isBlank c && c != ',') = true := by
    intro c hc
    have hname := List.all_eq_true.1 h.2 c hc
    have hcomma : c ≠ ',' := fun hcomma => not_mem_of_inSymbolName hname (by rw [hcomma]; decide)
    rw [isBlank_of_inSymbolName hname, Bool.not_false, Bool.true_and, bne_iff_ne]
    exact hcomma
  rw [equateKey, List.filter_eq_self.2 hkept, String.ofList_toList]

/-! ## Kinds of symbols -/

/-- The kinds of symbols. -/
inductive SymbolKind where
  | label
  | equate
  deriving DecidableEq

namespace SymbolKind

/-- The directive that binds a symbol. -/
def directive : SymbolKind → Directive
  | label => .label
  | equate => .equate

/-- The mark in front of a symbol's name. -/
def mark : SymbolKind → Char
  | label => '@'
  | equate => '%'

/-- Binds a symbol. -/
def bind : SymbolKind → Symbols → String → UInt32 → Symbols
  | label => Symbols.bindLabel
  | equate => Symbols.bindEquate

/-- The symbols with more bindings of the kind behind the others. -/
def append (symbols : Symbols) (bs : List (String × UInt32)) : SymbolKind → Symbols
  | label => { symbols with labels := symbols.labels ++ bs }
  | equate => { symbols with equates := symbols.equates ++ bs }

/-- The bindings of the kind, in their order. -/
def bindings (symbols : Symbols) : SymbolKind → List (String × UInt32)
  | label => symbols.labels
  | equate => symbols.equates

/-- The value of a symbol. -/
def value? : SymbolKind → Symbols → String → Option UInt32
  | label => Symbols.label?
  | equate => Symbols.equate?

theorem step_directive (kind : SymbolKind) (symbols : Symbols) (position : Nat) (rest : List Char) :
    kind.directive.step symbols position rest =
      .ofBinding symbols (bindSymbol symbols kind.directive kind.mark kind.bind rest) := by
  cases kind <;> rfl

theorem bind_eq_append (kind : SymbolKind) (symbols : Symbols) {name : String} (h : isSymbolName name.toList)
    (v : UInt32) : kind.bind symbols name v = kind.append symbols [(name, v)] := by
  cases kind with
  | label => rfl
  | equate => exact congrArg (fun key => equate.append symbols [(key, v)]) (equateKey_of_isSymbolName h)

theorem append_append (kind : SymbolKind) (symbols : Symbols) (bs cs : List (String × UInt32)) :
    kind.append (kind.append symbols bs) cs = kind.append symbols (bs ++ cs) := by
  cases kind <;> simp [append]

theorem value?_eq_lookup (kind : SymbolKind) (symbols : Symbols) (name : String) :
    kind.value? symbols name = (kind.bindings symbols).reverse.lookup name := by
  cases kind <;> rfl

/-- The last binding of a name counts. -/
theorem value?_eq_some_iff {kind : SymbolKind} {symbols : Symbols} {name : String} {v : UInt32} :
    kind.value? symbols name = some v ↔
      ∃ front back, kind.bindings symbols = front ++ (name, v) :: back ∧ ∀ b ∈ back, b.1 ≠ name := by
  rw [value?_eq_lookup, List.lookup_eq_some_iff]
  constructor
  · rintro ⟨back, front, hreverse, hback⟩
    refine ⟨front.reverse, back.reverse, ?_, fun b hb => ?_⟩
    · rw [← List.reverse_reverse (kind.bindings symbols), hreverse]
      simp
    · exact (bne_iff_ne.1 (hback b (List.mem_reverse.1 hb))).symm
  · rintro ⟨front, back, hbindings, hback⟩
    refine ⟨back.reverse, front.reverse, ?_, fun b hb => ?_⟩
    · rw [hbindings]
      simp
    · exact bne_iff_ne.2 (hback b (List.mem_reverse.1 hb)).symm

theorem value?_append (kind other : SymbolKind) (symbols : Symbols) (name name' : String) (v : UInt32) :
    kind.value? (other.append symbols [(name', v)]) name =
      if kind = other ∧ name = name' then some v else kind.value? symbols name := by
  by_cases hkind : kind = other
  · subst hkind
    have hbindings : kind.bindings (kind.append symbols [(name', v)]) = kind.bindings symbols ++ [(name', v)] := by
      cases kind <;> rfl
    rw [value?_eq_lookup, hbindings, List.reverse_append, List.reverse_singleton, List.singleton_append,
      List.lookup_cons, ← value?_eq_lookup]
    by_cases hname : name = name'
    · rw [if_pos ⟨rfl, hname⟩, beq_iff_eq.2 hname]
    · rw [if_neg fun h => hname h.2, beq_false_of_ne hname]
  · rw [if_neg fun h => hkind h.1]
    cases kind <;> cases other
    · exact absurd rfl hkind
    · rfl
    · rfl
    · exact absurd rfl hkind

end SymbolKind

/-! ## The directive of a line -/

/-- The directive of a line and what stands behind it; a line without code has none. -/
def directiveOf? (line : List Char) : Option (Directive × List Char) :=
  let code := trimmed (withoutComment line)
  (Directive.ofName? (lowerAscii (String.ofList (code.takeWhile (!isBlank ·))))).map
    (·, trimmed (code.dropWhile (!isBlank ·)))

theorem stepLine_of_directive {line rest : List Char} {d : Directive} (h : directiveOf? line = some (d, rest))
    (symbols : Symbols) (position : Nat) : stepLine symbols position line = d.step symbols position rest := by
  unfold directiveOf? at h
  obtain ⟨d', hd, heq⟩ := Option.map_eq_some_iff.1 h
  obtain ⟨rfl, rfl⟩ := Prod.mk.inj heq
  unfold stepLine
  dsimp only
  split
  · rename_i hcode
    rw [hcode] at hd
    cases hd
  · rw [hd]

theorem stepLine_of_no_directive {line : List Char} (h : directiveOf? line = none) (symbols : Symbols)
    (position : Nat) :
    (stepLine symbols position line).symbols = symbols ∧ (stepLine symbols position line).bytes = [] := by
  unfold directiveOf? at h
  have hd := Option.map_eq_none_iff.1 h
  unfold stepLine
  dsimp only
  split
  · exact ⟨rfl, rfl⟩
  · rw [hd]
    exact ⟨rfl, rfl⟩

/-! ## Symbols that lines bind -/

theorem bindSymbol_eq_ok {symbols symbols' : Symbols} {directive : Directive} {mark : Char}
    {add : Symbols → String → UInt32 → Symbols} {rest : List Char}
    (h : bindSymbol symbols directive mark add rest = .ok symbols') :
    ∃ front expression name v, cutAt? ',' rest = some (front, expression) ∧ trimmed front = mark :: name ∧
      isSymbolName name ∧ evaluate symbols expression = .ok v ∧ fits 4 v ∧
      symbols' = add symbols (String.ofList name) (UInt32.ofInt v) := by
  unfold bindSymbol at h
  cases hcut : cutAt? ',' rest with
  | none =>
    rw [hcut] at h
    cases h
  | some cut =>
    obtain ⟨front, expression⟩ := cut
    rw [hcut] at h
    dsimp only at h
    split at h
    · rename_i hname
      obtain ⟨v, hv, h⟩ := bind_eq_ok h
      split at h
      · rename_i hfits
        cases h
        rw [Bool.and_eq_true, decide_eq_true_iff] at hname
        exact ⟨front, expression, (trimmed front).tail, v, rfl, List.eq_cons_of_mem_head? hname.1, hname.2, hv, hfits,
          rfl⟩
      · cases h
    · cases h

/-- The line binds a symbol to a value, when these symbols are known in front of it. -/
def SymbolKind.Binds (kind : SymbolKind) (symbols : Symbols) (line : List Char) (name : String) (v : UInt32) : Prop :=
  ∃ rest front expression value, directiveOf? line = some (kind.directive, rest) ∧
    cutAt? ',' rest = some (front, expression) ∧ trimmed front = kind.mark :: name.toList ∧
    isSymbolName name.toList ∧ evaluate symbols expression = .ok value ∧ fits 4 value ∧ v = UInt32.ofInt value

theorem symbols_store (symbols : Symbols) (directive : Directive) (width : Nat) (range : Range) (rest : List Char) :
    (store symbols directive width range rest).symbols = symbols := by
  unfold store
  split <;> rfl

theorem symbols_ofRoom (symbols : Symbols) (n : Except Cause Nat) : (Step.ofRoom symbols n).symbols = symbols := by
  cases n <;> rfl

/-- A line leaves the symbols as they are or binds one more. -/
theorem symbols_stepLine (symbols : Symbols) (position : Nat) (line : List Char) :
    (stepLine symbols position line).symbols = symbols ∨
      ∃ kind name v, SymbolKind.Binds kind symbols line name v ∧
        (stepLine symbols position line).symbols = kind.append symbols [(name, v)] := by
  cases hd : directiveOf? line with
  | none => exact .inl (stepLine_of_no_directive hd symbols position).1
  | some found =>
    obtain ⟨d, rest⟩ := found
    rw [stepLine_of_directive hd]
    have hkind (kind : SymbolKind) (hkind : d = kind.directive) :
        (d.step symbols position rest).symbols = symbols ∨
          ∃ kind name v, SymbolKind.Binds kind symbols line name v ∧
            (d.step symbols position rest).symbols = kind.append symbols [(name, v)] := by
      subst hkind
      rw [kind.step_directive]
      cases hbind : bindSymbol symbols kind.directive kind.mark kind.bind rest with
      | error cause => exact .inl rfl
      | ok symbols' =>
        obtain ⟨front, expression, name, v, hcut, hfront, hname, hv, hfits, rfl⟩ := bindSymbol_eq_ok hbind
        have htoList := String.toList_ofList (l := name)
        refine .inr ⟨kind, String.ofList name, _, ⟨rest, front, expression, v, hd, hcut, ?_, ?_, hv, hfits, rfl⟩, ?_⟩
        · rw [htoList, hfront]
        · rw [htoList, hname]
        · exact kind.bind_eq_append symbols (by rw [htoList, hname]) _
    cases d with
    | label => exact hkind .label rfl
    | equate => exact hkind .equate rfl
    | word | half | byte => exact .inl (symbols_store ..)
    | align | space => exact .inl (symbols_ofRoom ..)

/-- A symbol that a line does not bind keeps its value. -/
theorem value?_stepLine (kind : SymbolKind) {symbols : Symbols} {name : String} {line : List Char}
    (h : ∀ v, ¬ kind.Binds symbols line name v) (position : Nat) :
    kind.value? (stepLine symbols position line).symbols name = kind.value? symbols name := by
  rcases symbols_stepLine symbols position line with hsame | ⟨other, name', v, hbinds, hsymbols⟩
  · rw [hsame]
  · rw [hsymbols, SymbolKind.value?_append, if_neg]
    rintro ⟨rfl, rfl⟩
    exact h v hbinds

/-- Whether the line binds the label. -/
def BindsLabel (name : String) (line : List Char) : Prop :=
  ∃ rest front expression, directiveOf? line = some (.label, rest) ∧
    cutAt? ',' rest = some (front, expression) ∧ trimmed front = '@' :: name.toList

theorem label?_stepLine {name : String} {line : List Char} (h : ¬ BindsLabel name line) (symbols : Symbols)
    (position : Nat) : (stepLine symbols position line).symbols.label? name = symbols.label? name :=
  value?_stepLine .label
    (fun _ ⟨rest, front, expression, _, hd, hcut, hfront, _⟩ => h ⟨rest, front, expression, hd, hcut, hfront⟩) position

/-! ## Lines behind others -/

/-- The symbols known behind some lines. -/
def symbolsAfter (symbols : Symbols) (position : Nat) : List (List Char) → Symbols
  | [] => symbols
  | line :: rest =>
    let step := stepLine symbols position line
    symbolsAfter step.symbols (position + step.bytes.length) rest

/-- Lines behind others start with the symbols and at the place where those end. -/
theorem assembleLines_append_eq (symbols : Symbols) (position number : Nat) (front rest : List (List Char)) :
    assembleLines symbols position number (front ++ rest) =
      let first := assembleLines symbols position number front
      let more := assembleLines (symbolsAfter symbols position front) (position + first.1.length)
        (number + front.length) rest
      (first.1 ++ more.1, first.2 ++ more.2) := by
  induction front generalizing symbols position number with
  | nil => rfl
  | cons line front ih =>
    rw [List.cons_append, assembleLines, assembleLines]
    dsimp only
    rw [ih]
    dsimp only
    rw [List.append_assoc, List.append_assoc, List.length_append, List.length_cons, symbolsAfter, Nat.add_assoc,
      Nat.add_assoc, Nat.add_comm 1]

theorem assembleLines_append (symbols : Symbols) (position number : Nat) (front rest : List (List Char)) :
    (assembleLines symbols position number (front ++ rest)).1 =
      (assembleLines symbols position number front).1 ++
        (assembleLines (symbolsAfter symbols position front)
          (position + (assembleLines symbols position number front).1.length) (number + front.length) rest).1 :=
  congrArg Prod.fst (assembleLines_append_eq ..)

/-- The fault, that many lines further on. -/
def Fault.later (count : Nat) (fault : Fault) : Fault := { fault with line := fault.line + count }

/-- Lines that are counted from further on give the same bytes and the same faults, further on. -/
theorem assembleLines_later (symbols : Symbols) (position number count : Nat) (ls : List (List Char)) :
    assembleLines symbols position (number + count) ls =
      ((assembleLines symbols position number ls).1,
        (assembleLines symbols position number ls).2.map (Fault.later count)) := by
  induction ls generalizing symbols position number with
  | nil => rfl
  | cons line ls ih =>
    rw [assembleLines, assembleLines, Nat.add_right_comm]
    dsimp only
    rw [ih, List.map_append, List.map_map]
    rfl

/-- The faults of lines have the numbers of these lines. -/
theorem line_of_mem_assembleLines {symbols : Symbols} {position number : Nat} {ls : List (List Char)} {fault : Fault}
    (h : fault ∈ (assembleLines symbols position number ls).2) :
    number ≤ fault.line ∧ fault.line < number + ls.length := by
  induction ls generalizing symbols position number with
  | nil => cases h
  | cons line ls ih =>
    rw [List.length_cons]
    rcases List.mem_append.1 h with h | h
    · obtain ⟨cause, -, rfl⟩ := List.mem_map.1 h
      exact ⟨Nat.le_refl number, Nat.lt_add_of_pos_right (Nat.succ_pos _)⟩
    · have hline := ih h
      omega

/-- The faults with the number of a line are its own. -/
theorem exists_fault_iff {symbols : Symbols} {position number : Nat} {front rest : List (List Char)}
    {line : List Char} :
    (∃ fault ∈ (assembleLines symbols position number (front ++ line :: rest)).2, fault.line = number + front.length) ↔
      (stepLine (symbolsAfter symbols position front)
        (position + (assembleLines symbols position number front).1.length) line).causes ≠ [] := by
  let before := assembleLines symbols position number front
  let step := stepLine (symbolsAfter symbols position front) (position + before.1.length) line
  let behind :=
    assembleLines step.symbols (position + before.1.length + step.bytes.length) (number + front.length + 1) rest
  have hfaults : (assembleLines symbols position number (front ++ line :: rest)).2 =
      before.2 ++ (step.causes.map (⟨number + front.length, ·⟩) ++ behind.2) :=
    congrArg Prod.snd (assembleLines_append_eq ..)
  rw [hfaults]
  constructor
  · rintro ⟨fault, hfault, hline⟩ hnone
    have hcauses : step.causes = [] := hnone
    rw [hcauses, List.map_nil, List.nil_append] at hfault
    rcases List.mem_append.1 hfault with hfault | hfault
    · have := line_of_mem_assembleLines hfault
      omega
    · have := line_of_mem_assembleLines hfault
      omega
  · intro hsome
    obtain ⟨cause, hcause⟩ := List.exists_mem_of_ne_nil step.causes hsome
    exact ⟨⟨_, cause⟩, List.mem_append_right _ (List.mem_append_left _ (List.mem_map_of_mem hcause)), rfl⟩

theorem symbolsAfter_append (symbols : Symbols) (position number : Nat) (front rest : List (List Char)) :
    symbolsAfter symbols position (front ++ rest) =
      symbolsAfter (symbolsAfter symbols position front)
        (position + (assembleLines symbols position number front).1.length) rest := by
  induction front generalizing symbols position number with
  | nil => rfl
  | cons line front ih =>
    rw [List.cons_append, symbolsAfter, symbolsAfter, assembleLines]
    dsimp only
    rw [ih _ _ (number + 1), List.length_append, Nat.add_assoc]

/-- The bytes of a line stand behind those of the lines before it. -/
theorem assembleLines_middle (symbols : Symbols) (position number : Nat) (front : List (List Char)) (line : List Char)
    (rest : List (List Char)) :
    ∃ more, (assembleLines symbols position number (front ++ line :: rest)).1 =
      (assembleLines symbols position number front).1 ++
        ((stepLine (symbolsAfter symbols position front)
          (position + (assembleLines symbols position number front).1.length) line).bytes ++ more) := by
  rw [assembleLines_append, assembleLines]
  exact ⟨_, rfl⟩

theorem label?_symbolsAfter {name : String} {ls : List (List Char)} (h : ∀ line ∈ ls, ¬ BindsLabel name line)
    (symbols : Symbols) (position : Nat) :
    (symbolsAfter symbols position ls).label? name = symbols.label? name := by
  induction ls generalizing symbols position with
  | nil => rfl
  | cons line ls ih =>
    obtain ⟨hline, hls⟩ := List.forall_mem_cons.1 h
    rw [symbolsAfter]
    exact (ih hls _ _).trans (label?_stepLine hline symbols position)

/-! ## Stored operands -/

/-- The bytes of an operand; a faulty one leaves zeros. -/
def slot (symbols : Symbols) (width : Nat) (range : Range) (operand : List Char) : Bytes :=
  match field symbols width range operand with
  | .ok bytes => bytes
  | .error _ => List.replicate width 0

theorem field_eq_ok {symbols : Symbols} {width : Nat} {range : Range} {operand : List Char} {bytes : Bytes}
    (h : field symbols width range operand = .ok bytes) :
    ∃ v, evaluate symbols operand = .ok v ∧ fits width v ∧ bytes = Bytes.ofValue width (UInt32.ofInt v) := by
  unfold field at h
  obtain ⟨v, hv, h⟩ := bind_eq_ok h
  split at h
  · rename_i hfits
    cases h
    exact ⟨v, hv, hfits, rfl⟩
  · cases h

theorem length_slot (symbols : Symbols) (width : Nat) (range : Range) (operand : List Char) :
    (slot symbols width range operand).length = width := by
  unfold slot
  split
  · rename_i bytes h
    obtain ⟨v, -, -, rfl⟩ := field_eq_ok h
    exact Bytes.length_ofValue width _
  · exact List.length_replicate ..

theorem bytes_store (symbols : Symbols) (directive : Directive) (width : Nat) (range : Range) (rest : List Char) :
    (store symbols directive width range rest).bytes = (operands rest).flatMap (slot symbols width range) := by
  unfold store
  split
  · rename_i h
    rw [h]
    rfl
  · dsimp only
    rw [List.flatMap_map]
    rfl

/-- The words of a directive are those of its operands, one behind the other. -/
theorem wordOf_slots (symbols : Symbols) (range : Range) (rest : Bytes) :
    ∀ (ops : List (List Char)) (i : Nat) (op : List Char), ops[i]? = some op →
      4 * i + 4 ≤ (ops.flatMap (slot symbols 4 range)).length ∧
        wordOf (ops.flatMap (slot symbols 4 range) ++ rest) (4 * i) = Bytes.value (slot symbols 4 range op)
  | [], i, op, h => by simp at h
  | first :: ops, 0, op, h => by
    obtain rfl : first = op := by simpa using h
    have hlength := length_slot symbols 4 range first
    refine ⟨?_, ?_⟩
    · rw [List.flatMap_cons, List.length_append]
      omega
    · unfold wordOf
      rw [List.flatMap_cons, List.append_assoc, Nat.mul_zero, List.drop_zero, List.take_left' hlength]
  | first :: ops, i + 1, op, h => by
    have hlength := length_slot symbols 4 range first
    obtain ⟨hle, hword⟩ := wordOf_slots symbols range rest ops i op (by simpa using h)
    rw [List.flatMap_cons, List.append_assoc, show 4 * (i + 1) = 4 + 4 * i by omega]
    refine ⟨?_, ?_⟩
    · rw [List.length_append]
      omega
    · rw [wordOf_append _ hlength, hword]

/-! ## Operands of one term -/

theorem cutAtSigns_of_no_sign {cs : List Char} (h : ∀ c ∈ cs, isSign c = false) : cutAtSigns cs = (cs, []) := by
  induction cs with
  | nil => rfl
  | cons c cs ih =>
    obtain ⟨hc, hcs⟩ := List.forall_mem_cons.1 h
    rw [cutAtSigns, ih hcs]
    dsimp only
    rw [if_neg (by rw [hc]; decide)]

/-- Without a sign an operand is one term. -/
theorem evaluate_eq_termValue {symbols : Symbols} {cs : List Char} (h : ∀ c ∈ cs, isSign c = false)
    (hblank : allBlank cs = false) : evaluate symbols cs = termValue symbols (trimmed cs) := by
  unfold evaluate
  rw [cutAtSigns_of_no_sign h]
  dsimp only
  rw [sumPieces, if_neg (by rw [hblank]; decide)]
  cases termValue symbols (trimmed cs) with
  | error cause => rfl
  | ok v =>
    show Except.ok (0 + 1 * v) = .ok v
    rw [one_mul, zero_add]

theorem fits_word (v : UInt32) : fits 4 (v.toNat : Int) = true := by
  have hlt := v.toNat_lt
  have hcapacity : Bytes.capacity 4 = 2 ^ 32 := by decide
  unfold fits
  rw [hcapacity, Bool.and_eq_true, decide_eq_true_iff, decide_eq_true_iff]
  omega

theorem ofInt_toNat (v : UInt32) : UInt32.ofInt (v.toNat : Int) = v := by
  have hmod : ((v.toNat : Int) % 2 ^ 32).toNat = v.toNat := by
    have := v.toNat_lt
    omega
  show UInt32.ofNat ((v.toNat : Int) % 2 ^ 32).toNat = v
  rw [hmod, UInt32.ofNat_toNat]

theorem slot_of_ok {symbols : Symbols} {range : Range} {operand : List Char} {v : UInt32}
    (h : evaluate symbols operand = .ok (v.toNat : Int)) : slot symbols 4 range operand = Bytes.ofValue 4 v := by
  unfold slot field
  rw [h, ok_bind, if_pos (fits_word v), ofInt_toNat]
  rfl

theorem slot_of_error {symbols : Symbols} {width : Nat} {range : Range} {operand : List Char} {cause : Cause}
    (h : evaluate symbols operand = .error cause) :
    slot symbols width range operand = List.replicate width 0 := by
  unfold slot field
  rw [h]
  rfl

end DiscPatch.Assembly
