/-
Source whose data names no symbol: it gives the same bytes whatever symbols stand in front of it.
-/
import DiscPatch.Proofs.Assembly.Preamble

namespace DiscPatch.Assembly

open Text

/-- Whether no term of the text is a symbol. -/
def IsLiteral (cs : List Char) : Prop :=
  ∀ c ∈ cs, c ≠ '@' ∧ c ≠ '%'

/-- Whether the operands that a line stores, or makes room for, are literal. -/
def LiteralLine (line : List Char) : Prop :=
  ∀ d rest, directiveOf? line = some (d, rest) → d ≠ .label → d ≠ .equate → IsLiteral rest

def LiteralSource (source : String) : Prop :=
  ∀ line ∈ lines source.toList, LiteralLine line

instance (cs : List Char) : Decidable (IsLiteral cs) :=
  inferInstanceAs (Decidable (∀ c ∈ cs, _))

instance (line : List Char) : Decidable (LiteralLine line) :=
  decidable_of_iff (∀ found ∈ directiveOf? line, found.1 ≠ .label → found.1 ≠ .equate → IsLiteral found.2)
    ⟨fun h d rest hd => h (d, rest) hd, fun h found hfound => h found.1 found.2 hfound⟩

instance (source : String) : Decidable (LiteralSource source) :=
  inferInstanceAs (Decidable (∀ line ∈ lines source.toList, _))

theorem IsLiteral.subset {cs ds : List Char} (h : IsLiteral cs) (hsubset : ds ⊆ cs) : IsLiteral ds :=
  fun c hc => h c (hsubset hc)

variable {cs : List Char} (symbols symbols' : Symbols)

/-! ## Operands -/

theorem termValue_literal (h : IsLiteral cs) : termValue symbols cs = termValue symbols' cs := by
  unfold termValue
  split
  · exact absurd rfl (h '@' (List.mem_cons_self ..)).1
  · exact absurd rfl (h '%' (List.mem_cons_self ..)).2
  · rfl

/-- The pieces between signs are parts of the text. -/
theorem cutAtSigns_subset (cs : List Char) : (cutAtSigns cs).1 ⊆ cs ∧ ∀ next ∈ (cutAtSigns cs).2, next.2 ⊆ cs := by
  induction cs with
  | nil => exact ⟨List.Subset.refl _, List.forall_mem_nil _⟩
  | cons c cs ih =>
    obtain ⟨hpiece, hrest⟩ := ih
    rw [cutAtSigns]
    dsimp only
    split
    · refine ⟨List.nil_subset _, List.forall_mem_cons.2 ⟨?_, fun next hnext => ?_⟩⟩
      · exact fun _ hmem => List.mem_cons_of_mem _ (hpiece hmem)
      · exact fun _ hmem => List.mem_cons_of_mem _ (hrest next hnext hmem)
    · refine ⟨List.cons_subset_cons _ hpiece, fun next hnext => ?_⟩
      exact fun _ hmem => List.mem_cons_of_mem _ (hrest next hnext hmem)

theorem sumPieces_literal (whole : List Char) (total sign : Int) {piece : List Char} {rest : List (Char × List Char)}
    (hpiece : IsLiteral piece) (hrest : ∀ next ∈ rest, IsLiteral next.2) :
    sumPieces symbols whole total sign piece rest = sumPieces symbols' whole total sign piece rest := by
  induction rest generalizing total sign piece with
  | nil => rw [sumPieces, sumPieces, termValue_literal symbols symbols' (hpiece.subset (trimmed_subset piece))]
  | cons next rest ih =>
    obtain ⟨hnext, hrest⟩ := List.forall_mem_cons.1 hrest
    rw [sumPieces, sumPieces, termValue_literal symbols symbols' (hpiece.subset (trimmed_subset piece))]
    simp only [ih _ _ hnext hrest]

theorem evaluate_literal (h : IsLiteral cs) : evaluate symbols cs = evaluate symbols' cs := by
  obtain ⟨hpiece, hrest⟩ := cutAtSigns_subset cs
  exact sumPieces_literal symbols symbols' cs 0 1 (h.subset hpiece) fun next hnext => h.subset (hrest next hnext)

/-! ## Lines -/

theorem mem_operands_subset {rest operand : List Char} (h : operand ∈ operands rest) : operand ⊆ rest := by
  obtain ⟨piece, hpiece, rfl⟩ := List.mem_map.1 (List.mem_filter.1 h).1
  exact List.Subset.trans (trimmed_subset piece) (subset_of_mem_splitOn hpiece)

theorem bytes_store_literal (h : IsLiteral cs) (d : Directive) (width : Nat) (range : Range) :
    (store symbols d width range cs).bytes = (store symbols' d width range cs).bytes := by
  rw [bytes_store, bytes_store]
  refine List.flatMap_congr fun operand hoperand => ?_
  unfold slot field
  rw [evaluate_literal symbols symbols' (h.subset (mem_operands_subset hoperand))]

theorem room_literal (h : IsLiteral cs) (d : Directive) (least : Int) (range : Range) :
    room symbols d least range cs = room symbols' d least range cs := by
  unfold room
  rw [evaluate_literal symbols symbols' h]

theorem bytes_ofRoom (n : Except Cause Nat) : (Step.ofRoom symbols n).bytes = (Step.ofRoom symbols' n).bytes := by
  cases n <;> rfl

theorem bytes_stepLine_literal {line : List Char} (h : LiteralLine line) (position : Nat) :
    (stepLine symbols position line).bytes = (stepLine symbols' position line).bytes := by
  cases hd : directiveOf? line with
  | none => rw [(stepLine_of_no_directive hd symbols position).2, (stepLine_of_no_directive hd symbols' position).2]
  | some d =>
    obtain ⟨d, rest⟩ := d
    rw [stepLine_of_directive hd, stepLine_of_directive hd]
    have hrest := h d rest hd
    cases d with
    | label | equate => exact (bytes_ofBinding symbols _).trans (bytes_ofBinding symbols' _).symm
    | word | half | byte => exact bytes_store_literal symbols symbols' (hrest (by decide) (by decide)) ..
    | align | space =>
      unfold Directive.step
      dsimp only
      rw [room_literal symbols symbols' (hrest (by decide) (by decide))]
      exact bytes_ofRoom symbols symbols' _

/-! ## Source -/

theorem bytes_assembleLines_literal {ls : List (List Char)} (h : ∀ line ∈ ls, LiteralLine line)
    (position number number' : Nat) :
    (assembleLines symbols position number ls).1 = (assembleLines symbols' position number' ls).1 := by
  induction ls generalizing symbols symbols' position number number' with
  | nil => rfl
  | cons line ls ih =>
    obtain ⟨hline, hls⟩ := List.forall_mem_cons.1 h
    rw [assembleLines, assembleLines]
    dsimp only
    rw [bytes_stepLine_literal symbols symbols' hline]
    exact congrArg (_ ++ ·) (ih _ _ hls ..)

/-- Lines that add no bytes by themselves add none together. -/
theorem bytes_assembleLines_eq_nil {ls : List (List Char)}
    (h : ∀ line ∈ ls, ∀ symbols position, (stepLine symbols position line).bytes = []) (symbols : Symbols)
    (position number : Nat) : (assembleLines symbols position number ls).1 = [] := by
  induction ls generalizing symbols position number with
  | nil => rfl
  | cons line ls ih =>
    obtain ⟨hline, hls⟩ := List.forall_mem_cons.1 h
    rw [assembleLines]
    dsimp only
    rw [hline, List.nil_append]
    exact ih hls ..

theorem bytes_preambleLines (s : Symbols) (position : Nat) :
    (assembleLines Symbols.empty position 1 s.preambleLines).1 = [] := by
  refine bytes_assembleLines_eq_nil (fun line hline symbols position => ?_) ..
  rcases List.mem_append.1 hline with hline | hline
  · obtain ⟨b, -, rfl⟩ := List.mem_map.1 hline
    exact bytes_bindingLine .label b symbols position
  · obtain ⟨b, -, rfl⟩ := List.mem_map.1 hline
    exact bytes_bindingLine .equate b symbols position

/-- The bytes of source behind a preamble are those of its own lines. -/
theorem bytes_assemble_prepend {s : Symbols} (hs : s.OneLined) (source : String) (address : UInt32) :
    (assemble (s.prepend source) address).1 =
      (assembleLines (symbolsAfter Symbols.empty address.toNat s.preambleLines) address.toNat
        (1 + s.preambleLines.length) (lines source.toList)).1 := by
  show (assembleLines Symbols.empty address.toNat 1 (lines (s.prepend source).toList)).1 = _
  rw [lines_prepend hs, assembleLines_append, bytes_preambleLines, List.nil_append, List.length_nil, Nat.add_zero]

/-- Symbols in front of literal source change nothing of its bytes. -/
theorem bytes_encode_prepend {s : Symbols} (hs : s.OneLined) {source : String} (h : LiteralSource source)
    (address : UInt32) : (encode (s.prepend source) address).bytes = (encode source address).bytes := by
  show (assemble (s.prepend source) address).1 = _
  rw [bytes_assemble_prepend hs]
  exact bytes_assembleLines_literal _ _ h ..

end DiscPatch.Assembly
