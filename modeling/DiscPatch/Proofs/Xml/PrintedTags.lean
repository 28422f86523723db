/-
The tags of printed elements: names, attributes and ends of tags are read back as they were written.
-/
import DiscPatch.Proofs.Xml.Escape
import DiscPatch.Xml.Parser
import Mathlib.Data.List.TakeWhile

namespace DiscPatch.Xml

/-! ## Scanning -/

/-- A span ends at the first character that fails the test. -/
theorem span_append_cons {test : Char → Bool} {front : List Char} {c : Char} (hfront : ∀ c ∈ front, test c)
    (hc : test c = false) (rest : List Char) : (front ++ c :: rest).span test = (front, c :: rest) := by
  rw [List.span_eq_takeWhile_dropWhile, List.takeWhile_append_of_pos hfront, List.dropWhile_append_of_pos hfront,
    List.takeWhile_cons_of_neg (by rw [hc]; decide), List.dropWhile_cons_of_neg (by rw [hc]; decide), List.append_nil]

theorem skipSpace_cons {c : Char} (h : isSpace c = false) (rest : List Char) : skipSpace (c :: rest) = c :: rest :=
  List.dropWhile_cons_of_neg (by rw [h]; decide)

theorem append_of_cutAtMark? {mark cs front rest : List Char} (h : cutAtMark? mark cs = some (front, rest)) :
    cs = front ++ (mark ++ rest) := by
  induction cs generalizing front with
  | nil => cases h
  | cons c cs ih =>
    rw [cutAtMark?] at h
    split at h
    · rename_i hmark
      cases h
      exact (List.isPrefixOf?_eq_some_iff_append_eq.1 hmark).symm
    · obtain ⟨⟨front', rest'⟩, hcut, heq⟩ := Option.map_eq_some_iff.1 h
      cases heq
      exact congrArg (c :: ·) (ih hcut)

theorem holdsMark_eq_false {mark cs : List Char} {c : Char} (hc : c ∈ mark) (h : c ∉ cs) :
    holdsMark mark cs = false := by
  unfold holdsMark
  rw [Option.isSome_eq_false_iff, Option.isNone_iff_eq_none]
  cases hcut : cutAtMark? mark cs with
  | none => rfl
  | some cut =>
    rw [append_of_cutAtMark? hcut] at h
    exact absurd (List.mem_append_right _ (List.mem_append_left _ hc)) h

/-! ## Names -/

/-- A name of letters without qualifier. -/
structure Name.Simple (name : Name) : Prop where
  unqualified : name.qualifier = ""
  nonempty : name.base ≠ ""
  letters : ∀ c ∈ name.base.toList, c.isAlpha

theorem isNameStart_of_isAlpha {c : Char} (h : c.isAlpha) : isNameStart c := by
  unfold isNameStart
  rw [h]
  rfl

theorem isNameChar_of_isAlpha {c : Char} (h : c.isAlpha) : isNameChar c := by
  unfold isNameChar
  rw [isNameStart_of_isAlpha h]
  rfl

theorem Name.Simple.text {name : Name} (h : name.Simple) : name.text = name.base := by
  unfold Name.text
  rw [if_pos h.unqualified]

theorem Name.Simple.eq_plain {name : Name} (h : name.Simple) : name = Name.plain name.base := by
  cases name with
  | mk qualifier base => exact congrArg (Name.mk · base) h.unqualified

/-- A simple name starts with a letter. -/
theorem Name.Simple.exists_cons {name : Name} (h : name.Simple) :
    ∃ c cs, name.text.toList = c :: cs ∧ c.isAlpha := by
  rw [h.text]
  cases hcs : name.base.toList with
  | nil => exact absurd (String.toList_eq_nil_iff.1 hcs) h.nonempty
  | cons c cs => exact ⟨c, cs, rfl, h.letters c (by rw [hcs]; exact List.mem_cons_self ..)⟩

/-- A simple name is read up to a character that cannot stand in names. -/
theorem readName_text {name : Name} (h : name.Simple) {c : Char} (hc : isNameChar c = false) (hcolon : c ≠ ':')
    (rest : List Char) : readName (name.text.toList ++ c :: rest) = some (name, c :: rest) := by
  obtain ⟨first, more, htext, hfirst⟩ := h.exists_cons
  have hstarts : startsName name.base.toList = true := by
    rw [← h.text, htext]
    exact isNameStart_of_isAlpha hfirst
  unfold readName
  rw [h.text, span_append_cons (fun c hc => isNameChar_of_isAlpha (h.letters c hc)) hc]
  dsimp only
  split
  · rename_i heq
    exact absurd (List.cons.inj heq).1 hcolon
  · rw [if_pos hstarts, String.ofList_toList]
    exact congrArg (fun name => some (name, c :: rest)) h.eq_plain.symm

/-! ## Attributes -/

/-- An attribute that is read back as it was written. -/
structure Attribute.Printable (a : Attribute) : Prop where
  name : a.name.Simple
  undeclared : a.name.base ≠ "xmlns"
  value : ∀ c ∈ a.value.toList, isXmlChar c ∧ (isSpace c → c = ' ')

theorem readQuoted_quote (cs : List Char) :
    readQuoted ('=' :: '"' :: cs) =
      if (cs.span fun c => c != '"' && c != '<').2.head? = some '"' then
        some ((cs.span fun c => c != '"' && c != '<').1, (cs.span fun c => c != '"' && c != '<').2.tail)
      else none := rfl

theorem readQuoted_escape (s : String) (rest : List Char) :
    readQuoted ('=' :: '"' :: ((escape s).toList ++ '"' :: rest)) = some ((escape s).toList, rest) := by
  have hinner : ∀ c ∈ (escape s).toList, (c != '"' && c != '<') = true := by
    intro c hc
    have := not_mem_escape hc
    simp_all
  rw [readQuoted_quote, span_append_cons hinner (by decide)]
  rfl

theorem readAttributes_blank (limit : Nat) {c : Char} (h : c.isAlpha) (cs : List Char) :
    readAttributes (limit + 1) (' ' :: c :: cs) = (do
      let (name, rest) ← readName (c :: cs)
      let (raw, rest) ← readQuoted rest
      let value ← valueContent? raw
      let (attributes, closed, rest) ← readAttributes limit rest
      return (⟨name, String.ofList value⟩ :: attributes, closed, rest)) := by
  have hskip : skipSpace (' ' :: c :: cs) = c :: cs := by
    have hc : isSpace c = false := by
      by_contra hspace
      simp only [isSpace, Bool.not_eq_false, Bool.or_eq_true, beq_iff_eq] at hspace
      rcases hspace with ((rfl | rfl) | rfl) | rfl <;> revert h <;> decide
    exact (List.dropWhile_cons_of_pos (by decide)).trans (skipSpace_cons hc cs)
  rw [readAttributes, hskip]
  split
  · rename_i heq
    obtain ⟨rfl, -⟩ := List.cons.inj heq
    exact absurd h (by decide)
  · rename_i heq
    obtain ⟨rfl, -⟩ := List.cons.inj heq
    exact absurd h (by decide)
  · rfl

/-- The end of a start tag, which may close the element. -/
def tagEnd (closed : Bool) : List Char :=
  if closed then [' ', '/', '>'] else ['>']

/-- The attributes of an element as they are written. -/
def writtenAttributes (attributes : List Attribute) : List Char :=
  (String.join (attributes.map Attribute.render)).toList

theorem writtenAttributes_cons (a : Attribute) (attributes : List Attribute) :
    writtenAttributes (a :: attributes) =
      ' ' :: (a.name.text.toList ++
        '=' :: '"' :: ((escape a.value).toList ++ '"' :: writtenAttributes attributes)) := by
  simp [writtenAttributes, Attribute.render]

theorem length_le_writtenAttributes (attributes : List Attribute) :
    attributes.length ≤ (writtenAttributes attributes).length := by
  induction attributes with
  | nil => exact Nat.zero_le _
  | cons a attributes ih =>
    rw [writtenAttributes_cons]
    simp only [List.length_cons, List.length_append]
    omega

/-- Written attributes are read up to the end of the tag. -/
theorem readAttributes_written {attributes : List Attribute} (h : ∀ a ∈ attributes, a.Printable) (closed : Bool)
    (rest : List Char) {limit : Nat} (hlimit : attributes.length < limit) :
    readAttributes limit (writtenAttributes attributes ++ (tagEnd closed ++ rest)) =
      some (attributes, closed, rest) := by
  obtain ⟨limit, rfl⟩ : ∃ n, limit = n + 1 := ⟨limit - 1, by omega⟩
  induction attributes generalizing limit with
  | nil => cases closed <;> rfl
  | cons a attributes ih =>
    obtain ⟨ha, hattributes⟩ := List.forall_mem_cons.1 h
    obtain ⟨c, cs, htext, hc⟩ := ha.name.exists_cons
    rw [List.length_cons] at hlimit
    obtain ⟨limit, rfl⟩ : ∃ n, limit = n + 1 := ⟨limit - 1, by omega⟩
    have hname := readName_text ha.name (c := '=') (by decide) (by decide)
      ('"' :: ((escape a.value).toList ++ '"' :: (writtenAttributes attributes ++ (tagEnd closed ++ rest))))
    rw [htext, List.cons_append] at hname
    rw [writtenAttributes_cons, htext]
    simp only [List.cons_append, List.append_assoc]
    rw [readAttributes_blank _ hc, hname]
    dsimp only [bind, Option.bind]
    rw [readQuoted_escape]
    dsimp only
    rw [valueContent?_escape fun c hc => (ha.value c hc).2]
    dsimp only
    rw [ih hattributes limit (by omega), String.ofList_toList]
    rfl

/-! ## Tags -/

/-- What stands behind the name of an element cannot be taken for a part of it. -/
theorem exists_cons_behind_name (attributes : List Attribute) (closed : Bool) (rest : List Char) :
    ∃ c cs, writtenAttributes attributes ++ (tagEnd closed ++ rest) = c :: cs ∧ isNameChar c = false ∧ c ≠ ':' := by
  cases attributes with
  | nil =>
    cases closed with
    | true => exact ⟨' ', _, rfl, by decide, by decide⟩
    | false => exact ⟨'>', _, rfl, by decide, by decide⟩
  | cons a attributes =>
    rw [writtenAttributes_cons]
    exact ⟨' ', _, rfl, by decide, by decide⟩

theorem readToken_start {name : Name} (hname : name.Simple) {attributes : List Attribute}
    (h : ∀ a ∈ attributes, a.Printable) (closed : Bool) (rest : List Char) :
    readToken ('<' :: (name.text.toList ++ (writtenAttributes attributes ++ (tagEnd closed ++ rest)))) =
      some (some (.start name attributes closed), rest) := by
  obtain ⟨first, more, htext, hfirst⟩ := hname.exists_cons
  obtain ⟨c, cs, hbehind, hc, hcolon⟩ := exists_cons_behind_name attributes closed rest
  have hread : readName (name.text.toList ++ (writtenAttributes attributes ++ (tagEnd closed ++ rest))) =
      some (name, writtenAttributes attributes ++ (tagEnd closed ++ rest)) := by
    rw [hbehind]
    exact readName_text hname hc hcolon cs
  have hlimit : attributes.length < (writtenAttributes attributes ++ (tagEnd closed ++ rest)).length := by
    have hwritten := length_le_writtenAttributes attributes
    have hend : 0 < (tagEnd closed).length := by cases closed <;> decide
    simp only [List.length_append]
    omega
  have hattributes := readAttributes_written h closed rest hlimit
  generalize writtenAttributes attributes ++ (tagEnd closed ++ rest) = behind at *
  rw [htext] at hread ⊢
  unfold readToken
  split
  -- neither a comment, nor character data, nor an instruction, nor an end starts with a letter
  iterate 4
    · rename_i heq
      obtain ⟨rfl, -⟩ := List.cons.inj (List.cons.inj heq).2
      exact absurd hfirst (by decide)
  · rename_i heq
    rw [← (List.cons.inj heq).2, hread]
    dsimp only [bind, Option.bind]
    rw [hattributes]
    rfl
  · rename_i hother
    exact absurd rfl (hother _)

theorem readToken_stop {name : Name} (hname : name.Simple) (rest : List Char) :
    readToken ('<' :: '/' :: (name.text.toList ++ '>' :: rest)) = some (some (.stop name), rest) := by
  have hread := readName_text hname (c := '>') (by decide) (by decide) rest
  show (readName (name.text.toList ++ '>' :: rest) >>= _) = _
  rw [hread]
  rfl

theorem readToken_text {raw : List Char} (hne : raw ≠ []) (h : ∀ c ∈ raw, c ∉ ['<', '>']) {rest : List Char}
    (hrest : rest = [] ∨ rest.head? = some '<') : readToken (raw ++ rest) = some (some (.text raw), rest) := by
  have hspan : (raw ++ rest).span (· != '<') = (raw, rest) := by
    have hraw : ∀ c ∈ raw, (c != '<') = true := fun c hc => by have := h c hc; simp_all
    rcases hrest with rfl | hrest
    · rw [List.append_nil, List.span_eq_takeWhile_dropWhile, List.takeWhile_eq_self_iff.2 hraw,
        List.dropWhile_eq_nil_iff.2 hraw]
    · obtain ⟨cs, rfl⟩ := List.head?_eq_some_iff.1 hrest
      exact span_append_cons hraw (by decide) cs
  have hmark : holdsMark [']', ']', '>'] raw = false :=
    holdsMark_eq_false (c := '>') (by decide) fun hmem => h _ hmem (by decide)
  obtain ⟨c, more, rfl⟩ := List.exists_cons_of_ne_nil hne
  have hc : c ≠ '<' := fun heq => h c (List.mem_cons_self ..) (by rw [heq]; decide)
  unfold readToken
  split
  iterate 5
    · rename_i heq
      exact absurd (List.cons.inj heq).1 hc
  · rw [hspan]
    dsimp only
    rw [hmark]
    rfl

end DiscPatch.Xml
