/-
Characters and cut texts: what trimming leaves alone, and the lines of two texts one behind the other.
-/
import DiscPatch.Text.Blank
import DiscPatch.Text.Lines
import Mathlib.Tactic

namespace DiscPatch.Text

/-! ## Characters -/

/-- Whether all characters of a text pass a test is decided along the text, not over all characters there are. -/
instance decidableForallMem (cs : List Char) (p : Char → Prop) [DecidablePred p] : Decidable (∀ c ∈ cs, p c) :=
  List.decidableBAll p cs

theorem toNat_of_isAlpha {c : Char} (h : c.isAlpha) :
    (65 ≤ c.toNat ∧ c.toNat ≤ 90) ∨ (97 ≤ c.toNat ∧ c.toNat ≤ 122) := by
  rcases Bool.or_eq_true_iff.1 h with h | h
  · have hupper : c.val ≥ 'A'.val ∧ c.val ≤ 'Z'.val := of_decide_eq_true h
    exact .inl hupper
  · obtain ⟨hlow, hhigh⟩ := Bool.and_eq_true_iff.1 h
    have hlower : c.val ≥ 'a'.val ∧ c.val ≤ 'z'.val := ⟨of_decide_eq_true hlow, of_decide_eq_true hhigh⟩
    exact .inr hlower

/-! ## Blanks at the ends -/

/-- A text between two characters that are no blanks is trimmed. -/
theorem trimmed_eq_self {cs : List Char} (hfront : ∀ c, cs.head? = some c → isBlank c = false)
    (hback : ∀ c, cs.getLast? = some c → isBlank c = false) : trimmed cs = cs := by
  have hdrop : ∀ {ds : List Char}, (∀ c, ds.head? = some c → isBlank c = false) → ds.dropWhile isBlank = ds := by
    intro ds h
    cases ds with
    | nil => rfl
    | cons c ds => rw [List.dropWhile_cons_of_neg (by rw [h c rfl]; decide)]
  unfold trimmed
  rw [hdrop hfront, hdrop (by rwa [List.head?_reverse]), List.reverse_reverse]

theorem trimmed_of_no_blank {cs : List Char} (h : ∀ c ∈ cs, isBlank c = false) : trimmed cs = cs :=
  trimmed_eq_self (fun c hc => h c (List.mem_of_head? hc)) fun c hc => h c (List.mem_of_getLast? hc)

/-- A blank in front does not count. -/
theorem trimmed_cons_of_isBlank {c : Char} (h : isBlank c) (cs : List Char) : trimmed (c :: cs) = trimmed cs := by
  unfold trimmed
  rw [List.dropWhile_cons_of_pos h]

/-- Nothing is dropped past an element that fails the test. -/
theorem dropWhile_append_cons {α : Type} {test : α → Bool} {a : α} (h : test a = false) (front rest : List α) :
    (front ++ a :: rest).dropWhile test = front.dropWhile test ++ a :: rest := by
  have ha : (a :: rest).dropWhile test = a :: rest := List.dropWhile_cons_of_neg (by rw [h]; decide)
  rw [List.dropWhile_append, ha]
  split
  · rename_i hempty
    rw [List.isEmpty_iff.1 hempty]
    rfl
  · rfl

/-- What stands in front of a character that is no blank stays, but for blanks at the start. -/
theorem trimmed_append_cons {c : Char} (h : isBlank c = false) (front rest : List Char) :
    trimmed (front ++ c :: rest) = front.dropWhile isBlank ++ trimmed (c :: rest) := by
  have hc : (c :: rest).dropWhile isBlank = c :: rest := List.dropWhile_cons_of_neg (by rw [h]; decide)
  unfold trimmed
  rw [dropWhile_append_cons h, hc, List.reverse_append, List.reverse_cons, List.append_assoc, List.singleton_append,
    dropWhile_append_cons h, dropWhile_append_cons h, List.reverse_append, List.reverse_append, List.reverse_cons,
    List.reverse_reverse, List.append_assoc]
  rfl

theorem head?_dropWhile_isBlank {cs : List Char} {c : Char} (h : (cs.dropWhile isBlank).head? = some c) :
    isBlank c = false := by
  have := List.head?_dropWhile_not isBlank cs
  rwa [h] at this

theorem trimmed_prefix_dropWhile (cs : List Char) : trimmed cs <+: cs.dropWhile isBlank := by
  rw [← List.reverse_suffix, trimmed, List.reverse_reverse]
  exact List.dropWhile_suffix _

theorem trimmed_prefix_cons {c : Char} (h : isBlank c = false) (cs : List Char) : trimmed (c :: cs) <+: c :: cs := by
  have hprefix := trimmed_prefix_dropWhile (c :: cs)
  rwa [List.dropWhile_cons_of_neg (by rw [h]; decide)] at hprefix

theorem head?_trimmed {cs : List Char} {c : Char} (h : (trimmed cs).head? = some c) : isBlank c = false := by
  obtain ⟨back, hback⟩ := trimmed_prefix_dropWhile cs
  have hhead : (cs.dropWhile isBlank).head? = some c := by
    rw [← hback, List.head?_append, h]
    rfl
  exact head?_dropWhile_isBlank hhead

theorem getLast?_trimmed {cs : List Char} {c : Char} (h : (trimmed cs).getLast? = some c) : isBlank c = false := by
  rw [trimmed, List.getLast?_reverse] at h
  exact head?_dropWhile_isBlank h

theorem trimmed_trimmed (cs : List Char) : trimmed (trimmed cs) = trimmed cs :=
  trimmed_eq_self (fun _ => head?_trimmed) fun _ => getLast?_trimmed

theorem trimmed_subset (cs : List Char) : trimmed cs ⊆ cs := by
  intro c hc
  have hmem := (List.dropWhile_sublist _).subset (List.mem_reverse.1 hc)
  exact (List.dropWhile_sublist _).subset (List.mem_reverse.1 hmem)

theorem toList_trim_subset (s : String) : (trim s).toList ⊆ s.toList := by
  rw [trim, String.toList_ofList]
  exact trimmed_subset s.toList

theorem trim_trim (s : String) : trim (trim s) = trim s := by
  unfold trim
  rw [String.toList_ofList, trimmed_trimmed]

theorem allBlank_eq_false {cs : List Char} {c : Char} (hmem : c ∈ cs) (h : isBlank c = false) :
    allBlank cs = false := by
  unfold allBlank
  rw [List.all_eq_false]
  exact ⟨c, hmem, by rw [h]; decide⟩

/-! ## Separators -/

theorem cutAt?_append {sep : Char} {front : List Char} (h : sep ∉ front) (rest : List Char) :
    cutAt? sep (front ++ sep :: rest) = some (front, rest) := by
  induction front with
  | nil => rw [List.nil_append, cutAt?, if_pos rfl]
  | cons c front ih =>
    obtain ⟨hc, hfront⟩ := List.ne_and_not_mem_of_not_mem_cons h
    rw [List.cons_append, cutAt?, if_neg hc.symm, ih hfront]
    rfl

theorem cutAt?_of_not_mem {sep : Char} {cs : List Char} (h : sep ∉ cs) : cutAt? sep cs = none := by
  induction cs with
  | nil => rfl
  | cons c cs ih =>
    obtain ⟨hc, hcs⟩ := List.ne_and_not_mem_of_not_mem_cons h
    rw [cutAt?, if_neg hc.symm, ih hcs]
    rfl

/-- A text that ends somewhere is cut where the whole text is, if it is cut at all. -/
theorem cutAt?_of_prefix {sep : Char} {front back cs piece rest : List Char} (hstart : cs <+: front ++ sep :: back)
    (hfront : sep ∉ front) (h : cutAt? sep cs = some (piece, rest)) : piece = front := by
  obtain ⟨more, hmore⟩ := hstart
  rcases List.append_eq_append_iff.1 hmore with ⟨tail, hshort, -⟩ | ⟨tail, rfl, htail⟩
  · have hnone : sep ∉ cs := fun hmem => hfront (hshort ▸ List.mem_append_left _ hmem)
    rw [cutAt?_of_not_mem hnone] at h
    cases h
  · cases tail with
    | nil =>
      rw [List.append_nil, cutAt?_of_not_mem hfront] at h
      cases h
    | cons c tail =>
      obtain ⟨rfl, -⟩ := List.cons.inj htail
      rw [cutAt?_append hfront] at h
      cases h
      rfl

theorem mem_intercalate {sep : List Char} {ls : List (List Char)} {c : Char} (h : c ∈ sep.intercalate ls) :
    c ∈ sep ∨ ∃ l ∈ ls, c ∈ l := by
  induction ls with
  | nil => cases h
  | cons l ls ih =>
    cases ls with
    | nil => exact .inr ⟨l, List.mem_singleton_self l, by simpa using h⟩
    | cons l' ls =>
      rw [List.intercalate_cons_cons, List.mem_append, List.mem_append] at h
      rcases h with (h | h) | h
      · exact .inr ⟨l, List.mem_cons_self .., h⟩
      · exact .inl h
      · exact (ih h).imp_right fun ⟨k, hk, hc⟩ => ⟨k, List.mem_cons_of_mem _ hk, hc⟩

theorem subset_intercalate (sep : List Char) {ls : List (List Char)} {l : List Char} (h : l ∈ ls) :
    l ⊆ sep.intercalate ls := by
  induction ls with
  | nil => cases h
  | cons first ls ih =>
    cases ls with
    | nil =>
      obtain rfl := List.mem_singleton.1 h
      simp
    | cons second ls =>
      rw [List.intercalate_cons_cons]
      rcases List.mem_cons.1 h with rfl | h
      · exact fun c hc => List.mem_append_left _ (List.mem_append_left _ hc)
      · exact fun c hc => List.mem_append_right _ (ih h hc)

theorem subset_of_mem_splitOn {sep : Char} {cs piece : List Char} (h : piece ∈ cs.splitOn sep) : piece ⊆ cs := by
  have hsubset := subset_intercalate [sep] h
  rwa [List.intercalate_splitOn] at hsubset

/-! ## Lines -/

/-- Whole lines in front are lines of their own. -/
theorem lines_append_cons (front rest : List Char) :
    lines (front ++ '\n' :: rest) = (front.splitOn '\n').map withoutReturn ++ lines rest := by
  have hrest : rest.splitOn '\n' ≠ [] := List.splitOn_ne_nil _ _
  unfold lines
  rw [List.splitOn_append_cons_self]
  dsimp only
  rw [List.dropLast_append_of_ne_nil hrest, List.getLast?_append_of_ne_nil _ hrest, List.map_append, List.append_assoc]

/-- Whether a text is nothing but whole lines. -/
def Whole (cs : List Char) : Prop := ∀ c, cs.getLast? = some c → c = '\n'

theorem whole_flatMap (ls : List (List Char)) : Whole (ls.flatMap (· ++ ['\n'])) := by
  rcases List.eq_nil_or_concat' ls with rfl | ⟨init, l, rfl⟩
  · exact fun c hc => nomatch hc
  · intro c hc
    rw [List.flatMap_append, List.flatMap_singleton, ← List.append_assoc, List.getLast?_concat] at hc
    exact (Option.some.inj hc).symm

/-- The lines behind whole lines are those of the rest. -/
theorem lines_append_of_whole {front : List Char} (h : Whole front) (rest : List Char) :
    lines (front ++ rest) = lines front ++ lines rest := by
  rcases List.eq_nil_or_concat' front with rfl | ⟨init, c, rfl⟩
  · rfl
  · obtain rfl : c = '\n' := h c List.getLast?_concat
    rw [List.append_assoc, List.singleton_append, lines_append_cons, lines_append_cons]
    show _ = (_ ++ []) ++ _
    rw [List.append_nil]

/-- A line without its own line ends. -/
theorem lines_cons {line : List Char} (hline : '\n' ∉ line) (rest : List Char) :
    lines (line ++ '\n' :: rest) = withoutReturn line :: lines rest := by
  rw [lines_append_cons, List.splitOn_eq_singleton hline]
  rfl

/-- A text without line ends is a line, if there is anything in it. -/
theorem lines_of_not_mem {cs : List Char} (h : '\n' ∉ cs) (hne : cs ≠ []) : lines cs = [cs] := by
  unfold lines
  rw [List.splitOn_eq_singleton h]
  simp [hne]

/-- Lines that were ended one by one are the lines in front. -/
theorem lines_flatMap {ls : List (List Char)} (h : ∀ line ∈ ls, '\n' ∉ line) (rest : List Char) :
    lines (ls.flatMap (· ++ ['\n']) ++ rest) = ls.map withoutReturn ++ lines rest := by
  induction ls with
  | nil => rfl
  | cons line ls ih =>
    obtain ⟨hline, hls⟩ := List.forall_mem_cons.1 h
    rw [List.flatMap_cons, List.append_assoc, List.append_assoc, List.singleton_append, lines_cons hline, ih hls]
    rfl

end DiscPatch.Text
