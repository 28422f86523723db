/-
Escaped text: reading resolves the references that writing put in, and what is written cannot be taken
for a tag or for the end of a value.
-/
import DiscPatch.Proofs.Text.Cutting
import DiscPatch.Xml.Printer
import DiscPatch.Xml.Reference

namespace DiscPatch.Xml

/-! ## References -/

/-- The characters that are written as references. -/
def escaped : List Char := ['&', '<', '>', '"', '\'']

/-- The character as it is read back. -/
def letterOf (c : Char) : Letter :=
  if c ∈ escaped then .referred c else .literal c

theorem escapeChar_of_not_mem {c : Char} (h : c ∉ escaped) : escapeChar c = [c] := by
  unfold escapeChar
  split
  · exact absurd (by decide) h
  · exact absurd (by decide) h
  · exact absurd (by decide) h
  · exact absurd (by decide) h
  · exact absurd (by decide) h
  · rfl

theorem lettersFrom_escapeChar (c : Char) (rest : List Char) :
    lettersFrom none (escapeChar c ++ rest) = (lettersFrom none rest).map (letterOf c :: ·) := by
  by_cases h : c ∈ escaped
  · simp only [escaped, List.mem_cons, List.not_mem_nil, or_false] at h
    rcases h with rfl | rfl | rfl | rfl | rfl <;> rfl
  · have hne : c ≠ '&' := by
      rintro rfl
      exact h (by decide)
    rw [escapeChar_of_not_mem h, letterOf, if_neg h, List.singleton_append, lettersFrom, if_neg hne]

theorem letters?_escape (s : String) : letters? (escape s).toList = some (s.toList.map letterOf) := by
  have hchars : ∀ cs : List Char, lettersFrom none (cs.flatMap escapeChar) = some (cs.map letterOf) := by
    intro cs
    induction cs with
    | nil => rfl
    | cons c cs ih =>
      rw [List.flatMap_cons, lettersFrom_escapeChar, ih]
      rfl
  rw [escape, String.toList_ofList]
  exact hchars s.toList

/-! ## Line ends and white space -/

/-- The character of a letter. -/
def Letter.char : Letter → Char
  | literal c => c
  | referred c => c

theorem char_letterOf (c : Char) : (letterOf c).char = c := by
  unfold letterOf
  split <;> rfl

theorem map_char_letterOf (cs : List Char) : (cs.map letterOf).map Letter.char = cs := by
  rw [List.map_map]
  exact (List.map_congr_left fun c _ => char_letterOf c).trans (List.map_id cs)

theorem lineEnds_of_no_return {ls : List Letter} (h : .literal '\r' ∉ ls) : lineEnds ls = ls.map Letter.char := by
  fun_induction lineEnds ls with
  | case1 => rfl
  | case2 c => exact absurd (by simp) h
  | case3 c rest _ ih => rw [ih (List.not_mem_of_not_mem_cons h)]; rfl
  | case4 => exact absurd (by simp) h
  | case5 rest ih => exact absurd (by simp) h
  | case6 c rest _ ih => exact absurd (by simp) h
  | case7 c rest _ _ _ ih => rw [ih (List.not_mem_of_not_mem_cons h)]; rfl

theorem spaces_of_blank {ls : List Letter} (h : ∀ c, .literal c ∈ ls → isSpace c → c = ' ') :
    spaces ls = ls.map Letter.char := by
  fun_induction spaces ls with
  | case1 => rfl
  | case2 rest ih => exact absurd (h '\r' (by simp) (by decide)) (by decide)
  | case3 c rest _ ih =>
    have hc : (if isSpace c then ' ' else c) = c := by
      split
      · exact (h c (by simp) ‹_›).symm
      · rfl
    rw [ih fun c hc => h c (List.mem_cons_of_mem _ hc), hc]
    rfl
  | case4 c rest ih =>
    rw [ih fun c hc => h c (List.mem_cons_of_mem _ hc)]
    rfl

theorem mem_of_literal_mem {cs : List Char} {c : Char} (h : .literal c ∈ cs.map letterOf) : c ∈ cs := by
  obtain ⟨c', hc', heq⟩ := List.mem_map.1 h
  have hchar : c' = c := (char_letterOf c').symm.trans (congrArg Letter.char heq)
  exact hchar ▸ hc'

/-- A text as it is read back once it is escaped: its line ends are line feeds. -/
def reread (s : String) : String :=
  String.ofList (lineEnds (s.toList.map letterOf))

theorem textContent?_escape (s : String) : textContent? (escape s).toList = some (reread s).toList := by
  unfold textContent? reread
  rw [letters?_escape, Option.map_some, String.toList_ofList]

/-- Text without carriage returns is read back as it was. -/
theorem reread_of_no_return {s : String} (h : '\r' ∉ s.toList) : reread s = s := by
  unfold reread
  rw [lineEnds_of_no_return fun hmem => h (mem_of_literal_mem hmem), map_char_letterOf, String.ofList_toList]

/-- An escaped value whose only white space is blanks is read back as it was. -/
theorem valueContent?_escape {s : String} (h : ∀ c ∈ s.toList, isSpace c → c = ' ') :
    valueContent? (escape s).toList = some s.toList := by
  unfold valueContent?
  rw [letters?_escape, Option.map_some, spaces_of_blank fun c hc => h c (mem_of_literal_mem hc), map_char_letterOf]

/-! ## Written characters -/

/-- A written character is one of the text that needs no reference, or one of a reference. -/
theorem mem_escape {s : String} {d : Char} (h : d ∈ (escape s).toList) :
    (d ∈ s.toList ∧ d ∉ escaped) ∨ d ∈ "&amp;&lt;&gt;&quot;&apos;".toList := by
  rw [escape, String.toList_ofList, List.mem_flatMap] at h
  obtain ⟨c, hc, hd⟩ := h
  by_cases hescaped : c ∈ escaped
  · right
    have hreferences : ∀ c ∈ escaped, ∀ d ∈ escapeChar c, d ∈ "&amp;&lt;&gt;&quot;&apos;".toList := by decide
    exact hreferences c hescaped d hd
  · rw [escapeChar_of_not_mem hescaped, List.mem_singleton] at hd
    exact .inl ⟨hd ▸ hc, hd ▸ hescaped⟩

/-- What is written is neither part of a tag nor a quotation mark. -/
theorem not_mem_escape {s : String} {d : Char} (h : d ∈ (escape s).toList) : d ∉ ['<', '>', '"', '\''] := by
  rcases mem_escape h with ⟨-, h⟩ | h
  · exact fun hmem => h (List.mem_cons_of_mem _ hmem)
  · exact (by decide : ∀ d ∈ "&amp;&lt;&gt;&quot;&apos;".toList, d ∉ ['<', '>', '"', '\'']) d h

theorem isXmlChar_escape {s : String} (h : ∀ c ∈ s.toList, isXmlChar c) : ∀ c ∈ (escape s).toList, isXmlChar c := by
  intro c hc
  rcases mem_escape hc with ⟨hc, -⟩ | hc
  · exact h c hc
  · exact (by decide : ∀ c ∈ "&amp;&lt;&gt;&quot;&apos;".toList, isXmlChar c) c hc

theorem escape_append (s t : String) : escape (s ++ t) = escape s ++ escape t := by
  unfold escape
  rw [String.toList_append, List.flatMap_append, String.ofList_append]

theorem escape_ne_nil {s : String} (h : s ≠ "") : (escape s).toList ≠ [] := by
  intro hnil
  have hletters := letters?_escape s
  rw [hnil] at hletters
  have hempty : s.toList = [] := List.map_eq_nil_iff.1 (Option.some.inj hletters).symm
  exact h (String.toList_eq_nil_iff.1 hempty)

end DiscPatch.Xml
