/-
Labels in hexadecimal text. Whatever they stand for, they are replaced by as many digits, so the symbols decide
neither whether the text can be read nor how many bytes it gives. A label on its own gives the word that source
stores for it, if the preamble in front of the source leaves the label what it was and adds no bytes.
-/
import DiscPatch.Proofs.Assembly.Bindings
import DiscPatch.Proofs.Assembly.Literal
import DiscPatch.Proofs.Bytes.Hex
import Mathlib.Data.List.TakeWhile

namespace DiscPatch.Assembly

open Text

/-! ## How many bytes -/

/-- Whatever the labels stand for, they are replaced by as many digits. -/
theorem map_kind_fillLabelsIn (symbols symbols' : Symbols) (cs : List Char) :
    (fillLabelsIn symbols cs).map (fun c => (Bytes.isHexSpace c, Bytes.isHexDigit c)) =
      (fillLabelsIn symbols' cs).map fun c => (Bytes.isHexSpace c, Bytes.isHexDigit c) := by
  have hdigits : ∀ v : UInt32, (Bytes.hexDigits (Bytes.ofValue 4 v)).map
      (fun c => (Bytes.isHexSpace c, Bytes.isHexDigit c)) = List.replicate 8 (false, true) := by
    intro v
    refine List.eq_replicate_iff.2 ⟨?_, List.forall_mem_map.2 fun c hc => ?_⟩
    · rw [List.length_map]
      rfl
    · exact (by decide : ∀ c ∈ numerals, (Bytes.isHexSpace c, Bytes.isHexDigit c) = (false, true)) c
        (Bytes.mem_hexDigits hc)
  fun_induction fillLabelsIn symbols cs with
  | case1 => rw [fillLabelsIn]
  | case2 cs name ih => rw [fillLabelsIn, if_pos rfl, List.map_append, List.map_append, hdigits, hdigits, ih]
  | case3 c cs hne ih => rw [fillLabelsIn, if_neg hne, List.map_cons, List.map_cons, ih]

/-- Filled in from any symbols, a text can be read or not, and gives as many bytes. -/
theorem length_ofHex?_fillLabels (text : String) (symbols symbols' : Symbols) :
    (Bytes.ofHex? (fillLabels text symbols)).map List.length =
      (Bytes.ofHex? (fillLabels text symbols')).map List.length := by
  refine Bytes.length_ofHex?_congr ?_
  unfold fillLabels
  rw [String.toList_ofList, String.toList_ofList]
  exact map_kind_fillLabelsIn symbols symbols' text.toList

/-! ## One label -/

section

variable {name : String} (hname : isSymbolName name.toList)

include hname

/-- A text that is one label gives the address of the label, and zero if it is not known. -/
theorem ofHex?_fillLabels_label (symbols : Symbols) :
    Bytes.ofHex? (fillLabels ("@" ++ name) symbols) = some (Bytes.ofValue 4 ((symbols.label? name).getD 0)) := by
  have hmem := mem_of_isSymbolName hname
  have hwhole : name.toList.takeWhile inSymbolName = name.toList ∧ name.toList.dropWhile inSymbolName = [] :=
    ⟨List.takeWhile_eq_self_iff.2 hmem, List.dropWhile_eq_nil_iff.2 hmem⟩
  have hfill : fillLabels ("@" ++ name) symbols = Bytes.toHex (Bytes.ofValue 4 ((symbols.label? name).getD 0)) := by
    have htext : ("@" ++ name).toList = '@' :: name.toList := String.toList_append
    unfold fillLabels Bytes.toHex
    rw [htext, fillLabelsIn, if_pos rfl, hwhole.1, hwhole.2, fillLabelsIn, List.append_nil, String.ofList_toList]
  rw [hfill, Bytes.ofHex?_toHex]

/-- A word that is one label is a line of its own, with the label as its operand. -/
theorem line_word : ∃ line, lines (".word @" ++ name).toList = [line] ∧
    directiveOf? line = some (.word, '@' :: name.toList) ∧ operands ('@' :: name.toList) = ['@' :: name.toList] := by
  have hcuts : ∀ c ∈ name.toList, isBlank c = false ∧ c ∉ ['+', '-', ',', '#', ';', '/', '\n', '\r'] := fun c hc =>
    ⟨isBlank_of_inSymbolName (mem_of_isSymbolName hname c hc), not_mem_of_inSymbolName (mem_of_isSymbolName hname c hc)⟩
  have htext : (".word @" ++ name).toList = Directive.word.name.toList ++ ' ' :: '@' :: name.toList := by
    rw [String.toList_append]
    rfl
  have hcomment : withoutComment name.toList = name.toList :=
    withoutComment_of_no_comment fun c hc => by have := (hcuts c hc).2; simp_all
  have htrim : trimmed ('@' :: name.toList) = '@' :: name.toList :=
    trimmed_of_no_blank (List.forall_mem_cons.2 ⟨by decide, fun c hc => (hcuts c hc).1⟩)
  refine ⟨(".word @" ++ name).toList, lines_of_not_mem ?_ ?_, ?_, ?_⟩
  · rw [htext]
    intro hmem
    rcases List.mem_append.1 hmem with hmem | hmem
    · exact (Directive.word.name_range '\n' hmem).2 (by decide)
    · rcases List.mem_cons.1 (List.mem_of_ne_of_mem (by decide) hmem) with hat | hmem
      · exact absurd hat (by decide)
      · exact (hcuts '\n' hmem).2 (by decide)
  · rw [htext]
    simp
  · rw [htext, directiveOf?_of_name (by decide) (by decide), hcomment, htrim]
  · have hcomma : ',' ∉ '@' :: name.toList := by
      intro hmem
      exact (hcuts ',' (List.mem_of_ne_of_mem (by decide) hmem)).2 (by decide)
    unfold operands
    rw [List.splitOn_eq_singleton hcomma, List.map_singleton, htrim]
    rfl

/-- Behind a preamble, a word that is one label is stored behind the bytes of the preamble, and is the address
that the preamble has bound the label to. -/
theorem assemble_word (s : Symbols) (address : UInt32) :
    (assemble (s.prepend (".word @" ++ name)) address).1 =
      (assemble s.preamble address).1 ++ Bytes.ofValue 4 (((knownAt s "" address 0).label? name).getD 0) := by
  obtain ⟨line, hline, hdirective, hoperands⟩ := line_word hname
  have hword (symbols : Symbols) (position : Nat) : (stepLine symbols position line).bytes =
      Bytes.ofValue 4 ((symbols.label? name).getD 0) := by
    rw [stepLine_of_directive hdirective]
    show (store symbols .word 4 .word _).bytes = _
    rw [bytes_store, hoperands, List.flatMap_singleton, slot_label hname]
  unfold assemble assembleFrom
  rw [lines_prepend_eq_append, assembleLines_append, hline, knownAt_zero, assembleLines, hword]
  dsimp only
  rw [assembleLines, List.append_nil]

/-- Source stores the word that replaces a label in hexadecimal text exactly when the preamble adds no bytes and
binds the label to its address last. -/
theorem assemble_word_eq_iff {s : Symbols} {v : UInt32} (address : UInt32) :
    (assemble (s.prepend (".word @" ++ name)) address).1 = Bytes.ofValue 4 v ↔
      (assemble s.preamble address).1 = [] ∧ ((knownAt s "" address 0).label? name).getD 0 = v := by
  rw [assemble_word hname]
  constructor
  · intro h
    have hlength := congrArg List.length h
    rw [List.length_append, Bytes.length_ofValue, Bytes.length_ofValue, Nat.add_eq_right, List.length_eq_zero_iff]
      at hlength
    rw [hlength, List.nil_append] at h
    have hvalue := congrArg Bytes.value h
    rw [Bytes.value_ofValue (Nat.le_refl 4), Bytes.value_ofValue (Nat.le_refl 4), Bytes.fit_four, Bytes.fit_four]
      at hvalue
    exact ⟨hlength, hvalue⟩
  · rintro ⟨hnone, rfl⟩
    rw [hnone, List.nil_append]

/-- A preamble whose labels have neither blanks nor commas in their names leaves each label what it was. -/
theorem label?_knownAt_of_plain {s : Symbols} (hlabels : ∀ b ∈ s.labels, Plain b.1) (hs : s.OneLined)
    (address : UInt32) : (knownAt s "" address 0).label? name = s.label? name := by
  have hvalue := value?_after_bindingLines .label hlabels Symbols.empty address.toNat hname
  rw [knownAt_zero, hs.lines_preamble, Symbols.preambleLines, symbolsAfter_append _ _ 1]
  -- the equates behind the labels bind no label
  unfold Symbols.label?
  rw [(after_equateLines s.equates _ _ 1).2]
  exact hvalue.trans (Option.or_none ..)

end

theorem Plain.newline_not_mem {name : String} (h : Plain name) : '\n' ∉ name.toList := fun hmem =>
  absurd (h '\n' hmem).1 (by decide)

theorem bytes_preamble {s : Symbols} (hs : s.OneLined) (address : UInt32) : (assemble s.preamble address).1 = [] := by
  show (assembleLines Symbols.empty address.toNat 1 (lines s.preamble.toList)).1 = []
  rw [hs.lines_preamble, bytes_preambleLines]

/-- With such labels, source stores the word that replaces a label in hexadecimal text. -/
theorem assemble_word_of_plain {s : Symbols} (hlabels : ∀ b ∈ s.labels, Plain b.1)
    (hequates : ∀ b ∈ s.equates, '\n' ∉ b.1.toList) {name : String} (hname : isSymbolName name.toList) {v : UInt32}
    (hv : s.label? name = some v) (address : UInt32) :
    (assemble (s.prepend (".word @" ++ name)) address).1 = Bytes.ofValue 4 v := by
  have hs : s.OneLined := ⟨fun b hb => (hlabels b hb).newline_not_mem, hequates⟩
  refine (assemble_word_eq_iff hname address).2 ⟨bytes_preamble hs address, ?_⟩
  rw [label?_knownAt_of_plain hname hlabels hs, hv]
  rfl

end DiscPatch.Assembly
