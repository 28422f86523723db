/-
What documents hold: the texts and values of a tree that was read are characters of XML, whether they were
written or referred to.
-/
import DiscPatch.Proofs.Xml.PrintedTags

namespace DiscPatch.Xml

/-! ## Trees of certain characters -/

namespace Node

mutual

/-- Whether the texts and the attribute values in a node have such characters only. -/
def Holds (inText inValue : Char → Prop) : Node → Prop
  | text content => ∀ c ∈ content.toList, inText c
  | element _ attributes children =>
    (∀ a ∈ attributes, ∀ c ∈ a.value.toList, inValue c) ∧ AllHold inText inValue children

/-- Whether the nodes of a list have such characters only. -/
def AllHold (inText inValue : Char → Prop) : List Node → Prop
  | [] => True
  | n :: rest => Holds inText inValue n ∧ AllHold inText inValue rest

end

mutual

/-- Whether a node has such characters only can be decided. -/
def decideHolds (inText inValue : Char → Prop) [DecidablePred inText] [DecidablePred inValue] :
    ∀ n : Node, Decidable (n.Holds inText inValue)
  | text content => inferInstanceAs (Decidable (∀ c ∈ content.toList, inText c))
  | element _ attributes children =>
    have := decideAllHold inText inValue children
    inferInstanceAs (Decidable ((∀ a ∈ attributes, ∀ c ∈ a.value.toList, inValue c) ∧ AllHold inText inValue children))

/-- Whether the nodes of a list have such characters only can be decided. -/
def decideAllHold (inText inValue : Char → Prop) [DecidablePred inText] [DecidablePred inValue] :
    ∀ ns : List Node, Decidable (AllHold inText inValue ns)
  | [] => inferInstanceAs (Decidable True)
  | n :: rest =>
    have := decideHolds inText inValue n
    have := decideAllHold inText inValue rest
    inferInstanceAs (Decidable (n.Holds inText inValue ∧ AllHold inText inValue rest))

end

instance (inText inValue : Char → Prop) [DecidablePred inText] [DecidablePred inValue] (n : Node) :
    Decidable (n.Holds inText inValue) :=
  decideHolds inText inValue n

/-- Whether a node has characters of XML only. -/
def Valid (n : Node) : Prop :=
  n.Holds (isXmlChar ·) (isXmlChar ·)

variable {inText inValue : Char → Prop}

theorem allHold_iff {ns : List Node} : AllHold inText inValue ns ↔ ∀ n ∈ ns, n.Holds inText inValue := by
  induction ns with
  | nil => simp [AllHold]
  | cons n ns ih => simp [AllHold, ih]

theorem Holds.attr? {n : Node} (h : n.Holds inText inValue) {key value : String} (hkey : n.attr? key = some value) :
    ∀ c ∈ value.toList, inValue c := by
  cases n with
  | text content => cases hkey
  | element name attributes children =>
    obtain ⟨a, ha, rfl⟩ := Option.map_eq_some_iff.1 hkey
    exact h.1 a (List.mem_of_find?_eq_some ha)

theorem Holds.elements {n : Node} (h : n.Holds inText inValue) {tag : String} {child : Node}
    (hchild : child ∈ n.elements tag) : child.Holds inText inValue := by
  cases n with
  | text content => cases hchild
  | element name attributes children => exact allHold_iff.1 h.2 child (List.mem_of_mem_filter hchild)

mutual

theorem Holds.innerText : ∀ {n : Node}, n.Holds inText inValue → ∀ c ∈ n.innerText.toList, inText c
  | text _, h => h
  | element _ _ _, h => AllHold.innerTexts h.2

theorem AllHold.innerTexts : ∀ {ns : List Node}, AllHold inText inValue ns → ∀ c ∈ (innerTexts ns).toList, inText c
  | [], _ => by simp [Node.innerTexts]
  | _ :: _, h => by
    rw [Node.innerTexts, String.toList_append]
    exact List.forall_mem_append.2 ⟨Holds.innerText h.1, AllHold.innerTexts h.2⟩

end

section

variable {inText₁ inValue₁ inText₂ inValue₂ : Char → Prop}

mutual

/-- What two restrictions say of each character they say of the node. -/
theorem Holds.combine (htext : ∀ c, inText₁ c → inText₂ c → inText c)
    (hvalue : ∀ c, inValue₁ c → inValue₂ c → inValue c) :
    ∀ {n : Node}, n.Holds inText₁ inValue₁ → n.Holds inText₂ inValue₂ → n.Holds inText inValue
  | text _, h₁, h₂ => fun c hc => htext c (h₁ c hc) (h₂ c hc)
  | element _ _ _, h₁, h₂ =>
    ⟨fun a ha c hc => hvalue c (h₁.1 a ha c hc) (h₂.1 a ha c hc), AllHold.combine htext hvalue h₁.2 h₂.2⟩

theorem AllHold.combine (htext : ∀ c, inText₁ c → inText₂ c → inText c)
    (hvalue : ∀ c, inValue₁ c → inValue₂ c → inValue c) :
    ∀ {ns : List Node}, AllHold inText₁ inValue₁ ns → AllHold inText₂ inValue₂ ns → AllHold inText inValue ns
  | [], _, _ => trivial
  | _ :: _, h₁, h₂ => ⟨Holds.combine htext hvalue h₁.1 h₂.1, AllHold.combine htext hvalue h₁.2 h₂.2⟩

end

end

/-- Whether the texts and values of a node are read as they are printed: there are no carriage returns, and no
white space but blanks in attribute values. -/
def Clean (n : Node) : Prop :=
  n.Holds (fun c => isXmlChar c ∧ c ≠ '\r') fun c => isXmlChar c ∧ (isSpace c → c = ' ')

theorem Valid.clean {n : Node} (h : n.Valid)
    (hplain : n.Holds (fun c => c ≠ '\r') fun c => c ≠ '\r' ∧ c ≠ '\t' ∧ c ≠ '\n') : n.Clean := by
  refine Holds.combine (fun c => And.intro) (fun c hchar hc => ⟨hchar, fun hspace => ?_⟩) h hplain
  simp only [isSpace, Bool.or_eq_true, beq_iff_eq] at hspace
  tauto

end Node

/-! ## Text and values -/

theorem isXmlChar_of_referred? {body : List Char} {c : Char} (h : referred? body = some c) : isXmlChar c := by
  unfold referred? at h
  exact (Option.filter_eq_some_iff.1 h).2

theorem isXmlChar_of_lettersFrom {body : Option (List Char)} {cs : List Char} {ls : List Letter}
    (hcs : ∀ c ∈ cs, isXmlChar c) (h : lettersFrom body cs = some ls) : ∀ l ∈ ls, isXmlChar l.char := by
  induction cs generalizing body ls with
  | nil =>
    cases body with
    | none => cases h; exact fun l hl => nomatch hl
    | some body => cases h
  | cons c cs ih =>
    obtain ⟨hc, hcs⟩ := List.forall_mem_cons.1 hcs
    cases body with
    | none =>
      rw [lettersFrom] at h
      split at h
      · exact ih hcs h
      · obtain ⟨more, hmore, rfl⟩ := Option.map_eq_some_iff.1 h
        exact List.forall_mem_cons.2 ⟨hc, ih hcs hmore⟩
    | some body =>
      rw [lettersFrom] at h
      split at h
      · split at h
        · rename_i r hr
          obtain ⟨more, hmore, rfl⟩ := Option.map_eq_some_iff.1 h
          exact List.forall_mem_cons.2 ⟨isXmlChar_of_referred? hr, ih hcs hmore⟩
        · cases h
      · exact ih hcs h

theorem isXmlChar_lineEnds {ls : List Letter} (h : ∀ l ∈ ls, isXmlChar l.char) : ∀ c ∈ lineEnds ls, isXmlChar c := by
  have hfeed : isXmlChar '\n' := by decide
  fun_induction lineEnds ls with
  | case1 => exact List.forall_mem_nil _
  | case2 c => exact List.forall_mem_cons.2 ⟨h _ (List.mem_cons_self ..), by decide⟩
  | case3 c rest _ ih =>
    obtain ⟨hc, hrest⟩ := List.forall_mem_cons.1 h
    exact List.forall_mem_cons.2 ⟨hc, ih hrest⟩
  | case4 => decide
  | case5 rest ih => exact List.forall_mem_cons.2 ⟨hfeed, ih (List.forall_mem_cons.1 (List.forall_mem_cons.1 h).2).2⟩
  | case6 c rest _ ih => exact List.forall_mem_cons.2 ⟨hfeed, ih (List.forall_mem_cons.1 h).2⟩
  | case7 c rest _ _ _ ih =>
    obtain ⟨hc, hrest⟩ := List.forall_mem_cons.1 h
    exact List.forall_mem_cons.2 ⟨hc, ih hrest⟩

theorem isXmlChar_spaces {ls : List Letter} (h : ∀ l ∈ ls, isXmlChar l.char) : ∀ c ∈ spaces ls, isXmlChar c := by
  have hblank : isXmlChar ' ' := by decide
  fun_induction spaces ls with
  | case1 => exact List.forall_mem_nil _
  | case2 rest ih => exact List.forall_mem_cons.2 ⟨hblank, ih (List.forall_mem_cons.1 (List.forall_mem_cons.1 h).2).2⟩
  | case3 c rest _ ih =>
    obtain ⟨hc, hrest⟩ := List.forall_mem_cons.1 h
    refine List.forall_mem_cons.2 ⟨?_, ih hrest⟩
    split
    · exact hblank
    · exact hc
  | case4 c rest ih =>
    obtain ⟨hc, hrest⟩ := List.forall_mem_cons.1 h
    exact List.forall_mem_cons.2 ⟨hc, ih hrest⟩

theorem isXmlChar_textContent? {raw content : List Char} (hraw : ∀ c ∈ raw, isXmlChar c)
    (h : textContent? raw = some content) : ∀ c ∈ content, isXmlChar c := by
  obtain ⟨ls, hls, rfl⟩ := Option.map_eq_some_iff.1 h
  exact isXmlChar_lineEnds (isXmlChar_of_lettersFrom hraw hls)

theorem isXmlChar_dataContent {raw : List Char} (hraw : ∀ c ∈ raw, isXmlChar c) :
    ∀ c ∈ dataContent raw, isXmlChar c := by
  refine isXmlChar_lineEnds fun l hl => ?_
  obtain ⟨c, hc, rfl⟩ := List.mem_map.1 hl
  exact hraw c hc

theorem isXmlChar_valueContent? {raw value : List Char} (hraw : ∀ c ∈ raw, isXmlChar c)
    (h : valueContent? raw = some value) : ∀ c ∈ value, isXmlChar c := by
  obtain ⟨ls, hls, rfl⟩ := Option.map_eq_some_iff.1 h
  exact isXmlChar_spaces (isXmlChar_of_lettersFrom hraw hls)

/-! ## Reading over a text -/

theorem skipSpace_subset (cs : List Char) : skipSpace cs ⊆ cs :=
  (List.dropWhile_sublist _).subset

theorem span_subset {test : Char → Bool} {cs front rest : List Char} (h : cs.span test = (front, rest)) :
    front ⊆ cs ∧ rest ⊆ cs := by
  rw [List.span_eq_takeWhile_dropWhile] at h
  cases h
  exact ⟨(List.takeWhile_sublist _).subset, (List.dropWhile_sublist _).subset⟩

theorem cutAtMark?_subset {mark cs front rest : List Char} (h : cutAtMark? mark cs = some (front, rest)) :
    front ⊆ cs ∧ rest ⊆ cs := by
  rw [append_of_cutAtMark? h]
  exact ⟨List.subset_append_left _ _, List.subset_append_of_subset_right _ (List.subset_append_right _ _)⟩

theorem readName_subset {cs rest : List Char} {name : Name} (h : readName cs = some (name, rest)) : rest ⊆ cs := by
  unfold readName at h
  obtain ⟨front, behind, hspan⟩ : ∃ front behind, cs.span isNameChar = (front, behind) := ⟨_, _, rfl⟩
  have hbehind := (span_subset hspan).2
  rw [hspan] at h
  dsimp only at h
  split at h
  · rename_i inner
    obtain ⟨back, last, hback⟩ : ∃ back last, inner.span isNameChar = (back, last) := ⟨_, _, rfl⟩
    rw [hback] at h
    dsimp only at h
    split at h
    · cases h
      exact fun c hc => hbehind (List.mem_cons_of_mem _ ((span_subset hback).2 hc))
    · cases h
  · split at h
    · cases h
      exact hbehind
    · cases h

theorem readQuoted_subset {cs raw rest : List Char} (h : readQuoted cs = some (raw, rest)) : raw ⊆ cs ∧ rest ⊆ cs := by
  unfold readQuoted at h
  split at h
  · rename_i behind heq
    have hbehind : behind ⊆ cs := fun c hc => skipSpace_subset cs (heq ▸ List.mem_cons_of_mem _ hc)
    split at h
    · rename_i q inner hquote
      have hinner : inner ⊆ cs := fun c hc => hbehind (skipSpace_subset behind (hquote ▸ List.mem_cons_of_mem _ hc))
      split at h
      · obtain ⟨front, last, hspan⟩ : ∃ front last, inner.span (fun c => c != q && c != '<') = (front, last) :=
          ⟨_, _, rfl⟩
        rw [hspan] at h
        dsimp only at h
        split at h
        · cases h
          exact ⟨fun c hc => hinner ((span_subset hspan).1 hc),
            fun c hc => hinner ((span_subset hspan).2 (List.mem_of_mem_tail hc))⟩
        · cases h
      · cases h
    · cases h
  · cases h

/-- Attributes that are read have values of the characters of XML, and so has what is left. -/
theorem readAttributes_holds {limit : Nat} {cs rest : List Char} {attributes : List Attribute} {closed : Bool}
    (hcs : ∀ c ∈ cs, isXmlChar c) (h : readAttributes limit cs = some (attributes, closed, rest)) :
    (∀ a ∈ attributes, ∀ c ∈ a.value.toList, isXmlChar c) ∧ rest ⊆ cs := by
  induction limit generalizing cs attributes closed rest with
  | zero => cases h
  | succ limit ih =>
    rw [readAttributes] at h
    split at h
    · rename_i behind heq
      cases h
      refine ⟨List.forall_mem_nil _, fun c hc => skipSpace_subset cs ?_⟩
      rw [heq]
      exact List.mem_cons_of_mem _ (List.mem_cons_of_mem _ hc)
    · rename_i behind heq
      cases h
      refine ⟨List.forall_mem_nil _, fun c hc => skipSpace_subset cs ?_⟩
      rw [heq]
      exact List.mem_cons_of_mem _ hc
    · split at h
      · obtain ⟨⟨name, behind⟩, hname, h⟩ := Option.bind_eq_some_iff.1 h
        obtain ⟨⟨raw, last⟩, hquoted, h⟩ := Option.bind_eq_some_iff.1 h
        obtain ⟨value, hvalue, h⟩ := Option.bind_eq_some_iff.1 h
        obtain ⟨⟨more, _, _⟩, hmore, h⟩ := Option.bind_eq_some_iff.1 h
        have hbehind : behind ⊆ cs := fun c hc => skipSpace_subset cs (readName_subset hname hc)
        have hraw : raw ⊆ cs := fun c hc => hbehind ((readQuoted_subset hquoted).1 hc)
        have hlast : last ⊆ cs := fun c hc => hbehind ((readQuoted_subset hquoted).2 hc)
        obtain ⟨hholds, hrest⟩ := ih (fun c hc => hcs c (hlast hc)) hmore
        cases h
        refine ⟨List.forall_mem_cons.2 ⟨?_, hholds⟩, fun c hc => hlast (hrest hc)⟩
        rw [String.toList_ofList]
        exact isXmlChar_valueContent? (fun c hc => hcs c (hraw hc)) hvalue
      · cases h

/-! ## Tokens -/

/-- Whether a token has values and texts of the characters of XML. -/
def Token.Valid : Token → Prop
  | start _ attributes _ => ∀ a ∈ attributes, ∀ c ∈ a.value.toList, isXmlChar c
  | stop _ => True
  | text raw => ∀ c ∈ raw, isXmlChar c
  | data raw => ∀ c ∈ raw, isXmlChar c

theorem skipComment_subset {cs rest : List Char} (h : skipComment cs = some rest) : rest ⊆ cs := by
  obtain ⟨⟨comment, behind⟩, hcut, h⟩ := Option.bind_eq_some_iff.1 h
  dsimp only at h
  split at h
  · cases h
  · cases h
    exact (cutAtMark?_subset hcut).2

theorem skipInstruction_subset {cs rest : List Char} (h : skipInstruction cs = some rest) : rest ⊆ cs := by
  unfold skipInstruction at h
  dsimp only at h
  split at h
  · cases h
  · split at h
    · obtain ⟨⟨front, behind⟩, hcut, h⟩ := Option.bind_eq_some_iff.1 h
      cases h
      exact fun c hc => (List.dropWhile_sublist _).subset ((cutAtMark?_subset hcut).2 hc)
    · cases h

theorem readToken_valid {cs rest : List Char} {token? : Option Token} (hcs : ∀ c ∈ cs, isXmlChar c)
    (h : readToken cs = some (token?, rest)) : (∀ token, token? = some token → token.Valid) ∧ rest ⊆ cs := by
  unfold readToken at h
  split at h
  · obtain ⟨behind, hskip, heq⟩ := Option.map_eq_some_iff.1 h
    cases heq
    exact ⟨(fun _ htoken => nomatch htoken), fun c hc => by simp [skipComment_subset hskip hc]⟩
  · obtain ⟨⟨raw, behind⟩, hcut, heq⟩ := Option.map_eq_some_iff.1 h
    cases heq
    refine ⟨fun token htoken => ?_, fun c hc => by simp [(cutAtMark?_subset hcut).2 hc]⟩
    cases htoken
    exact fun c hc => hcs c (by simp [(cutAtMark?_subset hcut).1 hc])
  · obtain ⟨behind, hskip, heq⟩ := Option.map_eq_some_iff.1 h
    cases heq
    exact ⟨(fun _ htoken => nomatch htoken), fun c hc => by simp [skipInstruction_subset hskip hc]⟩
  · obtain ⟨⟨name, behind⟩, hname, h⟩ := Option.bind_eq_some_iff.1 h
    dsimp only at h
    split at h
    · rename_i last hlast
      cases h
      refine ⟨fun token htoken => ?_, fun c hc => ?_⟩
      · cases htoken
        trivial
      · have hmem : c ∈ skipSpace behind := hlast ▸ List.mem_cons_of_mem _ hc
        simp [readName_subset hname (skipSpace_subset behind hmem)]
    · cases h
  · obtain ⟨⟨name, behind⟩, hname, h⟩ := Option.bind_eq_some_iff.1 h
    obtain ⟨⟨attributes, closed, last⟩, hattributes, h⟩ := Option.bind_eq_some_iff.1 h
    obtain ⟨hholds, hlast⟩ := readAttributes_holds
      (fun c hc => hcs c (List.mem_cons_of_mem _ (readName_subset hname hc))) hattributes
    cases h
    refine ⟨fun token htoken => ?_, fun c hc => List.mem_cons_of_mem _ (readName_subset hname (hlast hc))⟩
    cases htoken
    exact hholds
  · obtain ⟨raw, behind, hspan⟩ : ∃ raw behind, cs.span (· != '<') = (raw, behind) := ⟨_, _, rfl⟩
    rw [hspan] at h
    dsimp only at h
    split at h
    · cases h
    · cases h
      refine ⟨fun token htoken => ?_, (span_subset hspan).2⟩
      cases htoken
      exact fun c hc => hcs c ((span_subset hspan).1 hc)

theorem readTokens_valid {limit : Nat} {cs : List Char} {ts : List Token} (hcs : ∀ c ∈ cs, isXmlChar c)
    (h : readTokens limit cs = some ts) : ∀ token ∈ ts, token.Valid := by
  induction limit generalizing cs ts with
  | zero =>
    cases cs with
    | nil => cases h; exact List.forall_mem_nil _
    | cons c cs => cases h
  | succ limit ih =>
    cases cs with
    | nil => cases h; exact List.forall_mem_nil _
    | cons c cs =>
      rw [readTokens] at h
      obtain ⟨⟨token?, rest⟩, htoken, h⟩ := Option.bind_eq_some_iff.1 h
      obtain ⟨more, hmore, h⟩ := Option.bind_eq_some_iff.1 h
      obtain ⟨hvalid, hrest⟩ := readToken_valid hcs htoken
      cases h
      refine List.forall_mem_append.2 ⟨fun token htoken => hvalid token (Option.mem_toList.1 htoken), ?_⟩
      exact ih (fun c hc => hcs c (hrest hc)) hmore

/-! ## Trees -/

/-- Whether what an open element holds so far has characters of XML only. -/
structure Frame.Valid (f : Frame) : Prop where
  attributes : ∀ a ∈ f.attributes, ∀ c ∈ a.value.toList, isXmlChar c
  nodes : ∀ n ∈ f.nodes, n.Valid

theorem Frame.Valid.node {f : Frame} (h : f.Valid) : f.node.Valid :=
  ⟨h.attributes, Node.allHold_iff.2 fun n hn => h.nodes n (List.mem_reverse.1 hn)⟩

theorem Frame.Valid.add {f : Frame} (h : f.Valid) {n : Node} (hn : n.Valid) :
    (f.add n).Valid :=
  ⟨h.attributes, List.forall_mem_cons.2 ⟨hn, h.nodes⟩⟩

theorem enter?_subset {scope inner : Scope} {name : Name} {attributes plain : List Attribute}
    (h : enter? scope name attributes = some (inner, plain)) : plain ⊆ attributes := by
  obtain ⟨own, -, h⟩ := Option.bind_eq_some_iff.1 h
  dsimp only at h
  split at h
  · cases h
    exact (List.filter_sublist ..).subset
  · cases h

theorem attach_valid {n : Node} (hn : n.Valid) {open_ : List Frame}
    (h : ∀ f ∈ open_, f.Valid) :
    (∀ f ∈ (attach n open_).1, f.Valid) ∧ ∀ r, (attach n open_).2 = some r → r.Valid := by
  cases open_ with
  | nil =>
    refine ⟨List.forall_mem_nil _, fun r hr => ?_⟩
    cases hr
    exact hn
  | cons f outer =>
    obtain ⟨hf, houter⟩ := List.forall_mem_cons.1 h
    exact ⟨List.forall_mem_cons.2 ⟨hf.add hn, houter⟩, fun r hr => nomatch hr⟩

theorem build_valid {open_ : List Frame} {root : Option Node} {ts : List Token} {n : Node}
    (hopen : ∀ f ∈ open_, f.Valid) (hroot : ∀ r, root = some r → r.Valid)
    (hts : ∀ token ∈ ts, token.Valid) (h : build open_ root ts = some n) : n.Valid := by
  induction ts generalizing open_ root with
  | nil =>
    cases open_ with
    | nil => exact hroot n h
    | cons f outer => cases h
  | cons token ts ih =>
    obtain ⟨htoken, hmore⟩ := List.forall_mem_cons.1 hts
    cases token with
    | start name attributes closed =>
      rw [build] at h
      split at h
      · cases h
      · obtain ⟨⟨scope, plain⟩, henter, h⟩ := Option.bind_eq_some_iff.1 h
        have hplain : ∀ a ∈ plain, ∀ c ∈ a.value.toList, isXmlChar c := fun a ha => htoken a (enter?_subset henter ha)
        dsimp only at h
        split at h
        · obtain ⟨hframes, hdone⟩ := attach_valid (n := .element name plain []) ⟨hplain, trivial⟩ hopen
          exact ih hframes hdone hmore h
        · exact ih (List.forall_mem_cons.2 ⟨⟨hplain, List.forall_mem_nil _⟩, hopen⟩) hroot hmore h
    | stop name =>
      cases open_ with
      | nil => cases h
      | cons f outer =>
        obtain ⟨hf, houter⟩ := List.forall_mem_cons.1 hopen
        rw [build] at h
        split at h
        · obtain ⟨hframes, hdone⟩ := attach_valid hf.node houter
          exact ih hframes hdone hmore h
        · cases h
    | text raw =>
      cases open_ with
      | nil =>
        rw [build] at h
        split at h
        · exact ih hopen hroot hmore h
        · cases h
      | cons f outer =>
        obtain ⟨hf, houter⟩ := List.forall_mem_cons.1 hopen
        rw [build] at h
        obtain ⟨content, hcontent, h⟩ := Option.bind_eq_some_iff.1 h
        have hnode : (Node.text (String.ofList content)).Valid := by
          show ∀ c ∈ (String.ofList content).toList, isXmlChar c
          rw [String.toList_ofList]
          exact isXmlChar_textContent? htoken hcontent
        exact ih (List.forall_mem_cons.2 ⟨hf.add hnode, houter⟩) hroot hmore h
    | data raw =>
      cases open_ with
      | nil => cases h
      | cons f outer =>
        obtain ⟨hf, houter⟩ := List.forall_mem_cons.1 hopen
        rw [build] at h
        have hnode : (Node.text (String.ofList (dataContent raw))).Valid := by
          show ∀ c ∈ (String.ofList (dataContent raw)).toList, isXmlChar c
          rw [String.toList_ofList]
          exact isXmlChar_dataContent htoken
        exact ih (List.forall_mem_cons.2 ⟨hf.add hnode, houter⟩) hroot hmore h

/-! ## Documents -/

theorem skipDeclared_subset {word cs rest : List Char} (h : skipDeclared word cs = some rest) : rest ⊆ cs := by
  unfold skipDeclared at h
  split at h
  · obtain ⟨⟨name, behind⟩, hname, h⟩ := Option.bind_eq_some_iff.1 h
    obtain ⟨⟨raw, last⟩, hquoted, h⟩ := Option.bind_eq_some_iff.1 h
    cases h
    exact fun c hc => readName_subset hname ((readQuoted_subset hquoted).2 hc)
  · cases h

theorem skipGap_subset {cs rest : List Char} (h : skipGap cs = some rest) : rest ⊆ cs := by
  unfold skipGap at h
  split at h
  · cases h
    exact skipSpace_subset cs
  · cases h

theorem skipDeclaration_subset {cs rest : List Char} (h : skipDeclaration cs = some rest) : rest ⊆ cs := by
  unfold skipDeclaration at h
  split at h
  · cases h
    exact List.Subset.refl _
  · rename_i inner hprefix
    have hinner : inner ⊆ cs := by
      rw [← List.isPrefixOf?_eq_some_iff_append_eq.1 hprefix]
      exact List.subset_append_right _ _
    obtain ⟨version, hversion, h⟩ := Option.bind_eq_some_iff.1 h
    obtain ⟨gap, hgap, h⟩ := Option.bind_eq_some_iff.1 h
    have hgapCs : gap ⊆ cs := fun c hc =>
      hinner (skipSpace_subset inner (skipDeclared_subset hversion (skipGap_subset hgap hc)))
    -- behind the encoding there may be one more part
    have hlast : ∀ {encoding : List Char} (word : List Char), encoding ⊆ cs →
        ['?', '>'].isPrefixOf? (skipSpace ((skipDeclared word encoding).getD encoding)) = some rest → rest ⊆ cs := by
      intro encoding word hencoding hend c hc
      have hmem : c ∈ (skipDeclared word encoding).getD encoding := by
        refine skipSpace_subset _ ?_
        rw [← List.isPrefixOf?_eq_some_iff_append_eq.1 hend]
        exact List.mem_append_right _ hc
      cases hdeclared : skipDeclared word encoding with
      | none =>
        rw [hdeclared] at hmem
        exact hencoding hmem
      | some behind =>
        rw [hdeclared] at hmem
        exact hencoding (skipDeclared_subset hdeclared hmem)
    dsimp only at h
    split at h
    · rename_i behind hbehind
      obtain ⟨encoding, hencoding, h⟩ := Option.bind_eq_some_iff.1 h
      exact hlast _ (fun c hc => hgapCs (skipDeclared_subset hbehind (skipGap_subset hencoding hc))) h
    · exact hlast _ hgapCs h

/-- The tree of a document has characters of XML only. -/
theorem valid_of_parse? {s : String} {root : Node} (h : parse? s = some root) : root.Valid := by
  unfold parse? at h
  dsimp only at h
  split at h
  · rename_i hall
    obtain ⟨cs, hcs, h⟩ := Option.bind_eq_some_iff.1 h
    obtain ⟨ts, hts, h⟩ := Option.bind_eq_some_iff.1 h
    have hxml : ∀ c ∈ cs, isXmlChar c := fun c hc => List.all_eq_true.1 hall c (skipDeclaration_subset hcs hc)
    exact build_valid (List.forall_mem_nil _) (by simp) (readTokens_valid hxml hts) h
  · cases h

end DiscPatch.Xml
