/-
Paths part by part: what a path has in front of it once it is seen from a directory, and which paths stay the same
when they are written down as they are found and seen from that directory once more.
-/
import DiscPatch.Files.Path
import DiscPatch.Proofs.Text.Cutting

namespace DiscPatch.Path

open Text

/-! ## Parts -/

/-- Whether a path starts at the root, and the names in it; a dot counts only where it starts the path. Paths count
as the same if their parts are the same. -/
def parts (p : Path) : Bool × List String :=
  (p.isAbsolute, (if p.isAbsolute = false ∧ p.names.head? = some "." then ["."] else []) ++ p.names.filter (· ≠ "."))

theorem names_append_cons (front back : List Char) :
    names ⟨String.ofList (front ++ '/' :: back)⟩ = names ⟨String.ofList front⟩ ++ names ⟨String.ofList back⟩ := by
  unfold names
  rw [String.toList_ofList, String.toList_ofList, String.toList_ofList, List.splitOn_append_cons_self,
    List.filter_append, List.map_append]

theorem isAbsolute_append_cons (front back back' : List Char) :
    isAbsolute ⟨String.ofList (front ++ '/' :: back)⟩ = isAbsolute ⟨String.ofList (front ++ '/' :: back')⟩ := by
  unfold isAbsolute
  rw [String.toList_ofList, String.toList_ofList]
  cases front <;> rfl

/-- A path of slashes alone starts at the root. -/
theorem names_ne_nil {p : Path} (h : p.isAbsolute = false) (hne : p.text ≠ "") : p.names ≠ [] := by
  intro hnil
  have hpieces : ∀ piece ∈ p.text.toList.splitOn '/', piece = [] := by
    simpa using List.filter_eq_nil_iff.1 (List.map_eq_nil_iff.1 hnil)
  have hslash : ∀ c ∈ p.text.toList, c = '/' := by
    intro c hc
    rw [show p.text.toList = ['/'].intercalate (p.text.toList.splitOn '/') from
      (List.intercalate_splitOn '/').symm] at hc
    rcases mem_intercalate hc with hc | ⟨piece, hpiece, hc⟩
    · exact List.mem_singleton.1 hc
    · rw [hpieces piece hpiece] at hc
      cases hc
  unfold isAbsolute at h
  cases hcs : p.text.toList with
  | nil => exact hne (String.toList_eq_nil_iff.1 hcs)
  | cons c cs =>
    rw [hcs, hslash c (hcs ▸ List.mem_cons_self ..)] at h
    exact absurd h (by simp)

/-! ## Joined paths -/

variable {dir p : Path}

/-- The text of a directory without a slash at its end. -/
def stem (dir : Path) : List Char :=
  if dir.text.toList.getLast? = some '/' then dir.text.toList.dropLast else dir.text.toList

/-- A directory is its stem, with a slash or without. -/
theorem stem_cases (dir : Path) : dir.text.toList = dir.stem ∨ dir.text.toList = dir.stem ++ ['/'] := by
  unfold stem
  split
  · rename_i hlast
    exact .inr (List.dropLast_append_getLast? '/' hlast).symm
  · exact .inl rfl

theorem join_eq (hdir : dir.text ≠ "") (hp : p.isAbsolute = false) :
    dir.join p = ⟨String.ofList (dir.stem ++ '/' :: p.text.toList)⟩ := by
  unfold join stem
  rw [if_neg (by simp [hdir, hp])]
  split
  · rename_i hlast
    rw [← List.singleton_append, ← List.append_assoc, List.dropLast_append_getLast? '/' hlast, ← String.toList_append,
      String.ofList_toList]
  · congr 1
    apply String.toList_inj.1
    rw [String.toList_ofList, String.toList_append, String.toList_append, List.append_assoc]
    rfl

theorem names_stem (dir : Path) : names ⟨String.ofList dir.stem⟩ = dir.names := by
  have hnames : dir.names = names ⟨String.ofList dir.text.toList⟩ := by rw [String.ofList_toList]
  rcases stem_cases dir with h | h
  · rw [hnames, h]
  · rw [hnames, h, names_append_cons]
    exact (List.append_nil _).symm

/-- A path seen from a directory has the names of the directory in front of its own. -/
theorem names_join (hdir : dir.text ≠ "") (hp : p.isAbsolute = false) : (dir.join p).names = dir.names ++ p.names := by
  rw [join_eq hdir hp, names_append_cons, names_stem, String.ofList_toList]

theorem isAbsolute_join (hdir : dir.text ≠ "") (hp : p.isAbsolute = false) :
    (dir.join p).isAbsolute = dir.isAbsolute := by
  have habsolute : dir.isAbsolute = isAbsolute ⟨String.ofList dir.text.toList⟩ := by rw [String.ofList_toList]
  rw [join_eq hdir hp, habsolute]
  rcases stem_cases dir with h | h
  · have hne : dir.stem ≠ [] := fun hnil => hdir (String.toList_eq_nil_iff.1 (h.trans hnil))
    obtain ⟨c, cs, hcs⟩ := List.exists_cons_of_ne_nil hne
    unfold isAbsolute
    rw [h, String.toList_ofList, String.toList_ofList, hcs]
    rfl
  · rw [h]
    exact isAbsolute_append_cons ..

/-! ## Joined again -/

/-- What stands in front of a path that was seen from a directory and then trimmed: the directory without blanks in
front of it. -/
def lead (dir : Path) : Path :=
  ⟨trim (dir.text ++ "/")⟩

/-- A path seen from a directory is trimmed where the path and the front of the directory are. -/
theorem trim_join (hdir : dir.text ≠ "") (hp : p.isAbsolute = false) (htrim : trim p.text = p.text) :
    trim (dir.join p).text = String.ofList (dir.stem.dropWhile isBlank ++ '/' :: p.text.toList) := by
  have hback : trimmed ('/' :: p.text.toList) = '/' :: p.text.toList := by
    refine trimmed_eq_self (fun c hc => ?_) fun c hc => ?_
    · cases hc
      rfl
    · rw [List.getLast?_cons] at hc
      cases hlast : p.text.toList.getLast? with
      | none =>
        rw [hlast] at hc
        cases hc
        rfl
      | some d =>
        rw [hlast] at hc
        cases hc
        rw [← htrim, trim, String.toList_ofList] at hlast
        exact getLast?_trimmed hlast
  rw [join_eq hdir hp, trim, String.toList_ofList, trimmed_append_cons rfl, hback]

theorem exists_lead (dir : Path) : ∃ back, dir.lead = ⟨String.ofList (dir.stem.dropWhile isBlank ++ '/' :: back)⟩ ∧
    names ⟨String.ofList back⟩ = [] := by
  have hlead : dir.lead = ⟨String.ofList (dir.text.toList.dropWhile isBlank ++ ['/'])⟩ := by
    unfold lead trim
    rw [String.toList_append, show "/".toList = ['/'] from rfl, trimmed_append_cons rfl]
    rfl
  rcases stem_cases dir with h | h
  · exact ⟨[], by rw [hlead, h], rfl⟩
  · refine ⟨['/'], ?_, rfl⟩
    rw [hlead, h, dropWhile_append_cons rfl, List.append_assoc]
    rfl

theorem names_trim_join (hdir : dir.text ≠ "") (hp : p.isAbsolute = false) (htrim : trim p.text = p.text) :
    names ⟨trim (dir.join p).text⟩ = dir.lead.names ++ p.names := by
  obtain ⟨back, hlead, hback⟩ := exists_lead dir
  rw [trim_join hdir hp htrim, hlead, names_append_cons, names_append_cons, hback, List.append_nil,
    String.ofList_toList]

theorem isAbsolute_trim_join (hdir : dir.text ≠ "") (hp : p.isAbsolute = false) (htrim : trim p.text = p.text) :
    isAbsolute ⟨trim (dir.join p).text⟩ = dir.lead.isAbsolute := by
  obtain ⟨back, hlead, -⟩ := exists_lead dir
  rw [trim_join hdir hp htrim, hlead]
  exact isAbsolute_append_cons ..

theorem lead_text_ne (dir : Path) : dir.lead.text ≠ "" := by
  obtain ⟨back, hlead, -⟩ := exists_lead dir
  intro hnil
  rw [hlead] at hnil
  have hlength := congrArg String.length hnil
  simp at hlength

/-- The parts of a directory are a single dot if it does not start at the root and has no other names. -/
theorem parts_lead_iff (dir : Path) :
    dir.lead.parts = (false, ["."]) ↔ dir.lead.isAbsolute = false ∧ dir.lead.names.filter (· ≠ ".") = [] := by
  unfold parts
  rw [Prod.mk.injEq]
  refine and_congr_right fun habsolute => ?_
  constructor
  · intro h
    have hdot : "." ∉ dir.lead.names.filter (· ≠ ".") := fun hmem => by simpa using (List.mem_filter.1 hmem).2
    split at h
    · rw [List.singleton_append, List.cons.injEq] at h
      exact h.2
    · rw [List.nil_append] at h
      rw [h] at hdot
      exact (hdot (List.mem_singleton_self ".")).elim
  · intro h
    have hdots : ∀ name ∈ dir.lead.names, name = "." := by simpa using List.filter_eq_nil_iff.1 h
    obtain ⟨name, more, hnames⟩ := List.exists_cons_of_ne_nil (names_ne_nil habsolute (lead_text_ne dir))
    rw [h, hnames, hdots name (hnames ▸ List.mem_cons_self ..), List.head?_cons, if_pos ⟨habsolute, rfl⟩]
    rfl

theorem dropWhile_isBlank_stem (h : dir.isAbsolute) : dir.stem.dropWhile isBlank = dir.stem := by
  have hhead : dir.text.toList.head? = some '/' := of_decide_eq_true h
  cases hstem : dir.stem with
  | nil => rfl
  | cons c cs =>
    have hc : c = '/' := by
      rcases stem_cases dir with h | h <;>
        · rw [h, hstem] at hhead
          exact Option.some.inj hhead
    rw [hc, List.dropWhile_cons_of_neg (by decide)]

/-- A path that starts at the root, or that was seen from an empty directory, stays as it is if it is seen from that
directory again. -/
theorem join_trim_eq_self (htrim : trim p.text = p.text) (h : (dir.join p).isAbsolute ∨ dir.text = "") :
    dir.join ⟨trim (dir.join p).text⟩ = dir.join p := by
  by_cases hown : p.isAbsolute ∨ dir.text = ""
  · have hjoin : dir.join p = p := if_pos hown
    rw [hjoin, htrim]
    exact hjoin
  · obtain ⟨hp, hdir⟩ := not_or.1 hown
    rw [Bool.not_eq_true] at hp
    have habsolute := h.resolve_right hdir
    have hroot : dir.isAbsolute := isAbsolute_join hdir hp ▸ habsolute
    have htext : trim (dir.join p).text = (dir.join p).text := by
      rw [trim_join hdir hp htrim, dropWhile_isBlank_stem hroot, join_eq hdir hp]
    rw [htext]
    exact if_pos (.inl habsolute)

/-- A path that was seen from a directory, written down and seen from it again is the same as before if it starts at
the root, or if the directory is empty or a dot; else it is another one. -/
theorem parts_join_trim_iff (htrim : trim p.text = p.text) :
    (dir.join ⟨trim (dir.join p).text⟩).parts = (dir.join p).parts ↔
      (dir.join p).isAbsolute ∨ dir.text = "" ∨ dir.lead.parts = (false, ["."]) := by
  by_cases hsame : (dir.join p).isAbsolute ∨ dir.text = ""
  · rw [join_trim_eq_self htrim hsame]
    exact iff_of_true rfl (or_assoc.1 (.inl hsame))
  rw [← or_assoc, or_iff_right hsame, parts_lead_iff]
  obtain ⟨hjoined, hdir⟩ := not_or.1 hsame
  rw [Bool.not_eq_true] at hjoined
  have hp : p.isAbsolute = false := by
    rw [Bool.eq_false_iff]
    intro hp
    rw [show dir.join p = p from if_pos (.inl hp), hp] at hjoined
    cases hjoined
  have hrelative : dir.isAbsolute = false := (isAbsolute_join hdir hp).symm.trans hjoined
  have hagain := isAbsolute_trim_join hdir hp htrim
  cases hlead : dir.lead.isAbsolute with
  | true =>
    rw [hlead] at hagain
    refine iff_of_false (fun hparts => ?_) (fun h => nomatch h.1)
    rw [show dir.join ⟨trim (dir.join p).text⟩ = ⟨trim (dir.join p).text⟩ from if_pos (.inl hagain)] at hparts
    unfold parts at hparts
    rw [hagain, hjoined, Prod.mk.injEq] at hparts
    cases hparts.1
  | false =>
    rw [hlead] at hagain
    have hnames : dir.names ≠ [] := names_ne_nil hrelative hdir
    have hhead (more : List String) : (dir.names ++ more).head? = dir.names.head? := by
      rw [List.head?_append_of_ne_nil _ hnames]
    unfold parts
    rw [isAbsolute_join hdir hagain, isAbsolute_join hdir hp, names_join hdir hagain, names_join hdir hp,
      names_trim_join hdir hp htrim, hhead, hhead, Prod.mk.injEq, List.append_cancel_left_eq, List.filter_append,
      List.filter_append, List.filter_append, List.append_cancel_left_eq]
    simp

example : ["", ".", " ./.", "data", "/data"].map (fun dir => (lead ⟨dir⟩).parts) =
    [(true, []), (false, ["."]), (false, ["."]), (false, ["data"]), (true, ["data"])] := by
  decide +kernel

end DiscPatch.Path
