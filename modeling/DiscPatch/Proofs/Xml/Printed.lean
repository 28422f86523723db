/-
Printed documents: reading one gives the tree it was printed from, with neighbouring texts as one text
and without the empty ones. A carriage return in a text becomes a line feed.
-/
import DiscPatch.Proofs.Xml.PrintedTags

namespace DiscPatch.Xml

namespace Node

/-! ## Tidy trees -/

/-- A text as nodes; an empty one is none. -/
def textNodes (content : String) : List Node :=
  if content = "" then [] else [text content]

mutual

/-- The node with its texts merged. -/
def tidy : Node → Node
  | text content => text content
  | element name attributes children => element name attributes (tidyAll "" children)

/-- Nodes with their texts merged, behind a text that stands in front of them. -/
def tidyAll (pending : String) : List Node → List Node
  | [] => textNodes pending
  | text content :: rest => tidyAll (pending ++ content) rest
  | element name attributes children :: rest =>
    textNodes pending ++ tidy (element name attributes children) :: tidyAll "" rest

end

theorem tag?_tidy (n : Node) : n.tidy.tag? = n.tag? := by
  cases n <;> rfl

theorem attr?_tidy (n : Node) (key : String) : n.tidy.attr? key = n.attr? key := by
  cases n <;> rfl

theorem elements_tidy (n : Node) (tag : String) : n.tidy.elements tag = (n.elements tag).map tidy := by
  have htext : ∀ content, (textNodes content).filter (·.tag? = some tag) = [] := by
    intro content
    unfold textNodes
    split <;> rfl
  have hall : ∀ (ns : List Node) (pending : String), (tidyAll pending ns).filter (·.tag? = some tag) =
      (ns.filter (·.tag? = some tag)).map tidy := by
    intro ns
    induction ns with
    | nil => exact htext
    | cons n ns ih =>
      intro pending
      cases n with
      | text content => exact ih _
      | element name attributes children =>
        rw [tidyAll, List.filter_append, htext, List.nil_append, List.filter_cons, List.filter_cons, ih, tag?_tidy]
        split <;> rfl
  cases n with
  | text content => rfl
  | element name attributes children => exact hall children ""

theorem innerTexts_textNodes (content : String) (rest : List Node) :
    innerTexts (textNodes content ++ rest) = content ++ innerTexts rest := by
  unfold textNodes
  split
  · rename_i h
    rw [h, String.empty_append]
    rfl
  · rfl

mutual

theorem innerText_tidy : ∀ n : Node, n.tidy.innerText = n.innerText
  | text _ => rfl
  | element _ _ children => (innerTexts_tidyAll children "").trans (String.empty_append ..)

theorem innerTexts_tidyAll : ∀ (ns : List Node) (pending : String),
    innerTexts (tidyAll pending ns) = pending ++ innerTexts ns
  | [], pending => by
    rw [tidyAll, ← List.append_nil (textNodes pending), innerTexts_textNodes]
  | text content :: rest, pending => by
    rw [tidyAll, innerTexts_tidyAll rest, innerTexts, innerText, String.append_assoc]
  | element name attributes children :: rest, pending => by
    rw [tidyAll, innerTexts_textNodes, innerTexts, innerText_tidy (element name attributes children),
      innerTexts_tidyAll rest, String.empty_append]
    rfl

end

/-! ## Changed texts -/

mutual

/-- The node with each of its texts changed. -/
def mapTexts (f : String → String) : Node → Node
  | text content => text (f content)
  | element name attributes children => element name attributes (mapAllTexts f children)

/-- The nodes of a list with each of their texts changed. -/
def mapAllTexts (f : String → String) : List Node → List Node
  | [] => []
  | n :: rest => mapTexts f n :: mapAllTexts f rest

end

theorem mapAllTexts_eq_map (f : String → String) (ns : List Node) : mapAllTexts f ns = ns.map (mapTexts f) := by
  induction ns with
  | nil => rfl
  | cons n ns ih => rw [mapAllTexts, ih, List.map_cons]

theorem tag?_mapTexts (f : String → String) (n : Node) : (n.mapTexts f).tag? = n.tag? := by
  cases n <;> rfl

theorem attr?_mapTexts (f : String → String) (n : Node) (key : String) : (n.mapTexts f).attr? key = n.attr? key := by
  cases n <;> rfl

theorem elements_mapTexts (f : String → String) (n : Node) (tag : String) :
    (n.mapTexts f).elements tag = (n.elements tag).map (mapTexts f) := by
  cases n with
  | text content => rfl
  | element name attributes children =>
    show (mapAllTexts f children).filter _ = (children.filter _).map _
    rw [mapAllTexts_eq_map, List.filter_map]
    exact congrArg (List.map _) (List.filter_congr fun n _ => by rw [Function.comp_apply, tag?_mapTexts])

/-- The node as it is read back from what is printed for it. -/
def readBack (n : Node) : Node :=
  n.tidy.mapTexts reread

theorem attr?_readBack (n : Node) (key : String) : n.readBack.attr? key = n.attr? key :=
  (attr?_mapTexts ..).trans (attr?_tidy n key)

theorem elements_readBack (n : Node) (tag : String) : n.readBack.elements tag = (n.elements tag).map readBack := by
  unfold readBack
  rw [elements_mapTexts, elements_tidy, List.map_map]
  rfl

/-! ## Printable trees -/

mutual

/-- Whether the tags of a node are read back from what is printed for them, and its texts are of a kind. -/
def Printable (kind : String → Prop) : Node → Prop
  | text content => kind content
  | element name attributes children =>
    name.Simple ∧ (∀ a ∈ attributes, a.Printable) ∧ (attributes.map (·.name.base)).Nodup ∧ AllPrintable kind children

/-- Whether the tags of all nodes of a list are read back, and their texts are of a kind. -/
def AllPrintable (kind : String → Prop) : List Node → Prop
  | [] => True
  | n :: rest => Printable kind n ∧ AllPrintable kind rest

end

theorem allPrintable_iff {kind : String → Prop} {ns : List Node} :
    AllPrintable kind ns ↔ ∀ n ∈ ns, n.Printable kind := by
  induction ns with
  | nil => simp [AllPrintable]
  | cons n ns ih => simp [AllPrintable, ih]

end Node

/-- Whether a text is read back as it is: it has no carriage returns. -/
def ContentText (text : String) : Prop :=
  ∀ c ∈ text.toList, isXmlChar c ∧ c ≠ '\r'

theorem ContentText.reread_eq {text : String} (h : ContentText text) : reread text = text :=
  reread_of_no_return fun hmem => (h _ hmem).2 rfl

theorem ContentText.append {a b : String} (ha : ContentText a) (hb : ContentText b) : ContentText (a ++ b) := by
  unfold ContentText
  rw [String.toList_append]
  exact List.forall_mem_append.2 ⟨ha, hb⟩

theorem contentText_empty : ContentText "" := by
  unfold ContentText
  decide

namespace Node

theorem map_textNodes {pending : String} (h : ContentText pending) :
    (textNodes pending).map (mapTexts reread) = textNodes pending := by
  unfold textNodes
  split
  · rfl
  · rw [List.map_singleton, mapTexts, h.reread_eq]

mutual

/-- Where no text changes, a node is read back as the tidy one. -/
theorem readBack_eq_tidy : ∀ n : Node, n.Printable ContentText → n.readBack = n.tidy
  | text content, h => congrArg text (ContentText.reread_eq h)
  | element name attributes children, ⟨_, _, _, h⟩ => by
    show element name attributes (mapAllTexts reread (tidyAll "" children)) = _
    rw [mapAllTexts_eq_map, map_tidyAll children h "" contentText_empty]
    rfl

theorem map_tidyAll : ∀ ns : List Node, AllPrintable ContentText ns → ∀ pending, ContentText pending →
    (tidyAll pending ns).map (mapTexts reread) = tidyAll pending ns
  | [], _, _, hpending => map_textNodes hpending
  | text _ :: rest, ⟨hcontent, hrest⟩, _, hpending => map_tidyAll rest hrest _ (hpending.append hcontent)
  | element name attributes children :: rest, ⟨hchild, hrest⟩, pending, hpending => by
    rw [tidyAll, List.map_append, List.map_cons, map_textNodes hpending, map_tidyAll rest hrest "" contentText_empty]
    exact congrArg (fun n => textNodes pending ++ n :: _) (readBack_eq_tidy (element name attributes children) hchild)

end

end Node

/-! ## Names in scope -/

theorem Attribute.Printable.declares_eq_false {a : Attribute} (h : a.Printable) : a.declares = false := by
  unfold Attribute.declares
  rw [h.name.unqualified, decide_eq_false h.undeclared]
  rfl

theorem declared?_of_printable {attributes : List Attribute} (h : ∀ a ∈ attributes, a.Printable) :
    declared? attributes = some [] := by
  induction attributes with
  | nil => rfl
  | cons a attributes ih =>
    obtain ⟨ha, hattributes⟩ := List.forall_mem_cons.1 h
    have hqualifier : a.name.qualifier ≠ "xmlns" := by
      rw [ha.name.unqualified]
      decide
    rw [declared?, ih hattributes]
    dsimp only [bind, Option.bind]
    rw [if_neg hqualifier, if_neg ha.undeclared]

theorem attributesAgree_of_printable {attributes : List Attribute} (h : ∀ a ∈ attributes, a.Printable)
    (hnodup : (attributes.map (·.name.base)).Nodup) : attributesAgree [] attributes := by
  have hspaces : (attributes.mapM fun a => (a.space? []).map fun space => (space, a.name.base)) =
      some (attributes.map fun a => (none, a.name.base)) := by
    clear hnodup
    induction attributes with
    | nil => rfl
    | cons a attributes ih =>
      obtain ⟨ha, hattributes⟩ := List.forall_mem_cons.1 h
      have hspace : a.space? [] = some none := by
        unfold Attribute.space?
        rw [if_pos ha.name.unqualified]
      rw [List.mapM_cons, hspace, ih hattributes]
      rfl
  have hmeanings : (attributes.map fun a => ((none : Option String), a.name.base)).Nodup := by
    have hinjective : Function.Injective fun base : String => ((none : Option String), base) :=
      fun _ _ heq => (Prod.mk.inj heq).2
    have := hnodup.map hinjective
    rwa [List.map_map] at this
  unfold attributesAgree
  rw [hspaces]
  exact decide_eq_true hmeanings

/-- Printable attributes declare nothing and agree with each other. -/
theorem enter?_of_printable {name : Name} (hname : name.Simple) {attributes : List Attribute}
    (h : ∀ a ∈ attributes, a.Printable) (hnodup : (attributes.map (·.name.base)).Nodup) :
    enter? [] name attributes = some ([], attributes) := by
  have hplain : attributes.filter (!·.declares) = attributes :=
    List.filter_eq_self.2 fun a ha => by rw [(h a ha).declares_eq_false]; rfl
  have hallowed : elementAllowed [] name = true := by
    unfold elementAllowed
    rw [hname.unqualified]
    rfl
  unfold enter?
  rw [declared?_of_printable h]
  dsimp only [bind, Option.bind]
  rw [hplain, List.append_nil, hallowed, attributesAgree_of_printable h hnodup]
  rfl

/-! ## Reading what was printed -/

/-- Whether the tokens are those of the text, read with as many steps as it has characters or more. -/
def Reads (cs : List Char) (ts : List Token) : Prop :=
  ∀ limit, cs.length ≤ limit → readTokens limit cs = some ts

theorem Reads.nil : Reads [] [] := by
  intro limit _
  cases limit <;> rfl

theorem Reads.step {c : Char} {cs rest : List Char} {token : Token} {ts : List Token}
    (h : readToken (c :: cs) = some (some token, rest)) (hlength : rest.length ≤ cs.length) (hrest : Reads rest ts) :
    Reads (c :: cs) (token :: ts) := by
  intro limit hlimit
  rw [List.length_cons] at hlimit
  obtain ⟨limit, rfl⟩ : ∃ n, limit = n + 1 := ⟨limit - 1, by omega⟩
  rw [readTokens, h]
  dsimp only [bind, Option.bind]
  rw [hrest limit (by omega)]
  rfl

/-- A printed tag is read as one token, whether it is closed at once or not. -/
theorem Reads.start {name : Name} (hname : name.Simple) {attributes : List Attribute}
    (hattributes : ∀ a ∈ attributes, a.Printable) (closed : Bool) {rest : List Char} {ts : List Token}
    (h : Reads rest ts) :
    Reads ('<' :: (name.text.toList ++ (writtenAttributes attributes ++ (tagEnd closed ++ rest))))
      (.start name attributes closed :: ts) :=
  Reads.step (readToken_start hname hattributes closed rest) (by simp only [List.length_append]; omega) h

/-- Whether the text, behind what is read so far, gives the root element. -/
def Builds (open_ : List Frame) (root : Option Node) (cs : List Char) (n : Node) : Prop :=
  ∃ ts, Reads cs ts ∧ build open_ root ts = some n

theorem build_start {name : Name} (hname : name.Simple) {attributes : List Attribute}
    (hattributes : ∀ a ∈ attributes, a.Printable) (hnodup : (attributes.map (·.name.base)).Nodup)
    {open_ : List Frame} (hscope : ∀ f ∈ open_, f.scope = []) (closed : Bool) (ts : List Token) :
    build open_ none (.start name attributes closed :: ts) =
      if closed then
        build (attach (.element name attributes []) open_).1 (attach (.element name attributes []) open_).2 ts
      else build (⟨name, attributes, [], []⟩ :: open_) none ts := by
  have hfirst : ¬ (open_.isEmpty && (none : Option Node).isSome) = true := by
    rw [Option.isSome_none, Bool.and_false]
    decide
  have hinner : (open_.head?.map (·.scope)).getD [] = [] := by
    cases open_ with
    | nil => rfl
    | cons f outer => exact hscope f (List.mem_cons_self ..)
  rw [build, if_neg hfirst]
  dsimp only
  rw [hinner, enter?_of_printable hname hattributes hnodup]
  rfl

section

variable {f : Frame} {outer : List Frame} {rest : List Char} {n : Node}

theorem Builds.text {content : String} (hrest : rest.head? = some '<')
    (h : Builds ({ f with nodes := ((Node.textNodes content).map (Node.mapTexts reread)).reverse ++ f.nodes } :: outer)
      none rest n) :
    Builds (f :: outer) none ((escape content).toList ++ rest) n := by
  unfold Node.textNodes at h
  split at h
  · rename_i hempty
    rw [hempty]
    exact h
  · rename_i hne
    obtain ⟨ts, hreads, hbuild⟩ := h
    have hchars : ∀ c ∈ (escape content).toList, c ∉ ['<', '>'] := fun c hc => by
      have := not_mem_escape hc
      simp_all
    have htoken := readToken_text (escape_ne_nil hne) hchars (.inr hrest)
    refine ⟨.text (escape content).toList :: ts, ?_, ?_⟩
    · obtain ⟨c, cs, hcs⟩ := List.exists_cons_of_ne_nil (escape_ne_nil hne)
      rw [hcs] at htoken ⊢
      exact Reads.step htoken (by simp) hreads
    · rw [build, textContent?_escape]
      dsimp only [bind, Option.bind]
      rw [String.ofList_toList]
      exact hbuild

theorem Builds.start {name : Name} (hname : name.Simple) {attributes : List Attribute}
    (hattributes : ∀ a ∈ attributes, a.Printable) (hnodup : (attributes.map (·.name.base)).Nodup)
    {open_ : List Frame} (hscope : ∀ f ∈ open_, f.scope = [])
    (h : Builds (⟨name, attributes, [], []⟩ :: open_) none rest n) :
    Builds open_ none
      ('<' :: (name.text.toList ++ (writtenAttributes attributes ++ (tagEnd false ++ rest)))) n := by
  obtain ⟨ts, hreads, hbuild⟩ := h
  exact ⟨_, hreads.start hname hattributes false, (build_start hname hattributes hnodup hscope false ts).trans hbuild⟩

theorem Builds.closed {name : Name} (hname : name.Simple) {attributes : List Attribute}
    (hattributes : ∀ a ∈ attributes, a.Printable) (hnodup : (attributes.map (·.name.base)).Nodup)
    {open_ : List Frame} (hscope : ∀ f ∈ open_, f.scope = [])
    (h : Builds (attach (.element name attributes []) open_).1 (attach (.element name attributes []) open_).2 rest n) :
    Builds open_ none
      ('<' :: (name.text.toList ++ (writtenAttributes attributes ++ (tagEnd true ++ rest)))) n := by
  obtain ⟨ts, hreads, hbuild⟩ := h
  exact ⟨_, hreads.start hname hattributes true, (build_start hname hattributes hnodup hscope true ts).trans hbuild⟩

theorem Builds.stop (hname : f.name.Simple)
    (h : Builds (attach f.node outer).1 (attach f.node outer).2 rest n) :
    Builds (f :: outer) none ('<' :: '/' :: (f.name.text.toList ++ '>' :: rest)) n := by
  obtain ⟨ts, hreads, hbuild⟩ := h
  refine ⟨.stop f.name :: ts, ?_, ?_⟩
  · exact Reads.step (readToken_stop hname rest) (by simp only [List.length_cons, List.length_append]; omega) hreads
  · rw [build, if_pos rfl]
    exact hbuild

end

namespace Node

theorem render_closed (name : Name) (attributes : List Attribute) (rest : List Char) :
    (element name attributes []).render.toList ++ rest =
      '<' :: (name.text.toList ++ (writtenAttributes attributes ++ (tagEnd true ++ rest))) := by
  simp [render, writtenAttributes, tagEnd]

theorem render_open (name : Name) (attributes : List Attribute) (child : Node) (more : List Node) (rest : List Char) :
    (element name attributes (child :: more)).render.toList ++ rest =
      '<' :: (name.text.toList ++ (writtenAttributes attributes ++ (tagEnd false ++
        ((renderAll (child :: more)).toList ++ '<' :: '/' :: (name.text.toList ++ '>' :: rest))))) := by
  simp [render, renderAll, writtenAttributes, tagEnd]

theorem head?_render (name : Name) (attributes : List Attribute) (children : List Node) (rest : List Char) :
    ((element name attributes children).render.toList ++ rest).head? = some '<' := by
  cases children with
  | nil => rw [render_closed]; rfl
  | cons child more => rw [render_open]; rfl

variable {kind : String → Prop}

mutual

/-- Behind a printed element, the element as it is read back is in the innermost open one, or is the root. -/
theorem builds_render : ∀ (n : Node), n.Printable kind → n.tag?.isSome → ∀ {open_ : List Frame}
    {rest : List Char} {r : Node}, (∀ f ∈ open_, f.scope = []) →
    Builds (attach n.readBack open_).1 (attach n.readBack open_).2 rest r →
      Builds open_ none (n.render.toList ++ rest) r
  | text _, _, htag, _, _, _, _, _ => absurd htag (nomatch ·)
  | element name attributes [], hprintable, _, open_, rest, r, hscope, h => by
    obtain ⟨hname, hattributes, hnodup, -⟩ := hprintable
    rw [render_closed]
    exact Builds.closed hname hattributes hnodup hscope h
  | element name attributes (child :: more), hprintable, _, open_, rest, r, hscope, h => by
    obtain ⟨hname, hattributes, hnodup, hchildren⟩ := hprintable
    rw [render_open]
    refine Builds.start hname hattributes hnodup hscope ?_
    -- no text is pending behind the tag
    show Builds _ none ((escape "").toList ++ ((renderAll (child :: more)).toList ++ _)) r
    refine builds_renderAll (child :: more) hchildren "" (List.forall_mem_cons.2 ⟨rfl, hscope⟩) rfl ?_
    refine Builds.stop hname ?_
    have hnode : Frame.node ⟨name, attributes, [], ((tidyAll "" (child :: more)).map (mapTexts reread)).reverse ++ []⟩ =
        (element name attributes (child :: more)).readBack := by
      rw [Frame.node, List.append_nil, List.reverse_reverse, ← mapAllTexts_eq_map]
      rfl
    rw [hnode]
    exact h

/-- Behind printed nodes, the nodes as they are read back are in the innermost open element. -/
theorem builds_renderAll : ∀ (ns : List Node), AllPrintable kind ns → ∀ (pending : String) {f : Frame}
    {outer : List Frame} {rest : List Char} {r : Node}, (∀ f' ∈ f :: outer, f'.scope = []) → rest.head? = some '<' →
    Builds ({ f with nodes := ((tidyAll pending ns).map (mapTexts reread)).reverse ++ f.nodes } :: outer) none rest r →
    Builds (f :: outer) none ((escape pending).toList ++ ((renderAll ns).toList ++ rest)) r
  | [], _, pending, f, outer, rest, r, _, hrest, h => Builds.text hrest h
  | text content :: more, hprintable, pending, f, outer, rest, r, hscope, hrest, h => by
    -- neighbouring texts are printed as one, so the text joins the pending one
    have hmerge : (escape pending).toList ++ ((renderAll (text content :: more)).toList ++ rest) =
        (escape (pending ++ content)).toList ++ ((renderAll more).toList ++ rest) := by
      simp [renderAll, render, escape_append]
    rw [hmerge]
    exact builds_renderAll more hprintable.2 _ hscope hrest h
  | element name attributes children :: more, hprintable, pending, f, outer, rest, r, hscope, hrest, h => by
    have happend : (renderAll (element name attributes children :: more)).toList ++ rest =
        (element name attributes children).render.toList ++
          ((escape "").toList ++ ((renderAll more).toList ++ rest)) := by
      simp [renderAll, escape]
    rw [happend]
    -- the pending text ends where the tag starts
    refine Builds.text (head?_render name attributes children _) ?_
    refine builds_render (element name attributes children) hprintable.1 rfl ?_ ?_
    · exact List.forall_mem_cons.2 (List.forall_mem_cons.1 hscope)
    · refine builds_renderAll more hprintable.2 "" ?_ hrest ?_
      · exact List.forall_mem_cons.2 (List.forall_mem_cons.1 hscope)
      · rw [tidyAll, List.map_append, List.map_cons, List.reverse_append, List.reverse_cons, List.append_assoc,
          List.append_assoc] at h
        exact h

end

/-! ## Documents -/

theorem isXmlChar_of_isAlpha {c : Char} (h : c.isAlpha) : isXmlChar c := by
  have hrange := Text.toNat_of_isAlpha h
  unfold isXmlChar
  rw [if_neg (by omega), Bool.and_eq_true, bne_iff_ne, bne_iff_ne]
  omega

theorem isXmlChar_text {name : Name} (h : name.Simple) : ∀ c ∈ name.text.toList, isXmlChar c := by
  rw [h.text]
  exact fun c hc => isXmlChar_of_isAlpha (h.letters c hc)

theorem isXmlChar_writtenAttributes {attributes : List Attribute} (h : ∀ a ∈ attributes, a.Printable) :
    ∀ c ∈ writtenAttributes attributes, isXmlChar c := by
  induction attributes with
  | nil => exact fun c hc => nomatch hc
  | cons a attributes ih =>
    obtain ⟨ha, hattributes⟩ := List.forall_mem_cons.1 h
    rw [writtenAttributes_cons]
    refine List.forall_mem_cons.2 ⟨by decide, List.forall_mem_append.2 ⟨isXmlChar_text ha.name, ?_⟩⟩
    refine List.forall_mem_cons.2 ⟨by decide, List.forall_mem_cons.2 ⟨by decide, List.forall_mem_append.2 ⟨?_, ?_⟩⟩⟩
    · exact isXmlChar_escape fun c hc => (ha.value c hc).1
    · exact List.forall_mem_cons.2 ⟨by decide, ih hattributes⟩

mutual

theorem isXmlChar_render : ∀ n : Node, n.Printable ContentText → ∀ c ∈ n.render.toList, isXmlChar c
  | text content, hprintable => by
    rw [render]
    exact isXmlChar_escape fun c hc => (hprintable c hc).1
  | element name attributes children, hprintable => by
    obtain ⟨hname, hattributes, -, hchildren⟩ := hprintable
    have hend : ∀ closed, ∀ c ∈ tagEnd closed, isXmlChar c := by decide
    cases children with
    | nil =>
      rw [← List.append_nil (render _).toList, render_closed, List.append_nil]
      exact List.forall_mem_cons.2 ⟨by decide, List.forall_mem_append.2 ⟨isXmlChar_text hname,
        List.forall_mem_append.2 ⟨isXmlChar_writtenAttributes hattributes, hend true⟩⟩⟩
    | cons child more =>
      rw [← List.append_nil (render _).toList, render_open]
      refine List.forall_mem_cons.2 ⟨by decide, List.forall_mem_append.2 ⟨isXmlChar_text hname,
        List.forall_mem_append.2 ⟨isXmlChar_writtenAttributes hattributes,
          List.forall_mem_append.2 ⟨hend false, List.forall_mem_append.2 ⟨?_, ?_⟩⟩⟩⟩⟩
      · exact isXmlChar_renderAll (child :: more) hchildren
      · exact List.forall_mem_cons.2 ⟨by decide, List.forall_mem_cons.2 ⟨by decide,
          List.forall_mem_append.2 ⟨isXmlChar_text hname, by decide⟩⟩⟩

theorem isXmlChar_renderAll : ∀ ns : List Node, AllPrintable ContentText ns → ∀ c ∈ (renderAll ns).toList, isXmlChar c
  | [], _ => by simp [renderAll]
  | n :: more, hprintable => by
    rw [renderAll, String.toList_append]
    exact List.forall_mem_append.2 ⟨isXmlChar_render n hprintable.1, isXmlChar_renderAll more hprintable.2⟩

end

end Node

theorem Builds.space {root : Option Node} {raw rest : List Char} {n : Node} (hne : raw ≠ [])
    (hraw : ∀ c ∈ raw, isSpace c) (hrest : rest = [] ∨ rest.head? = some '<') (h : Builds [] root rest n) :
    Builds [] root (raw ++ rest) n := by
  obtain ⟨ts, hreads, hbuild⟩ := h
  have hmarks : ∀ c ∈ raw, c ∉ ['<', '>'] := by
    intro c hc hmem
    have := (by decide : ∀ c ∈ ['<', '>'], isSpace c = false) c hmem
    rw [hraw c hc] at this
    cases this
  have htoken := readToken_text hne hmarks hrest
  refine ⟨.text raw :: ts, ?_, ?_⟩
  · obtain ⟨c, cs, rfl⟩ := List.exists_cons_of_ne_nil hne
    exact Reads.step htoken (by simp) hreads
  · rw [build, if_pos (List.all_eq_true.2 hraw)]
    exact hbuild

/-- The declaration in front of printed documents. -/
def declarationText : String :=
  "<?xml version=\"1.0\" encoding=\"utf-8\" ?>"

theorem skipDeclaration_declarationText (rest : List Char) :
    skipDeclaration (declarationText.toList ++ rest) = some rest := by
  rfl

/-- What the tokens behind the declaration build is read, if the document has characters of XML only. -/
theorem parse?_of_builds {s : String} {rest : List Char} {n : Node} (hmark : skipMark s.toList = s.toList)
    (hdeclaration : skipDeclaration s.toList = some rest) (h : Builds [] none rest n) :
    parse? s = if s.toList.all isXmlChar then some n else none := by
  obtain ⟨ts, hreads, hbuild⟩ := h
  unfold parse?
  dsimp only
  rw [hmark, hdeclaration]
  dsimp only [bind, Option.bind]
  rw [tokens?, hreads _ (Nat.le_refl _)]
  exact ite_congr rfl (fun _ => hbuild) fun _ => rfl

section

variable {kind : String → Prop} {n : Node}

theorem Node.head?_render_append (htag : n.tag?.isSome) (rest : List Char) :
    (n.render.toList ++ rest).head? = some '<' := by
  cases n with
  | text content => exact absurd htag (nomatch ·)
  | element name attributes children => exact Node.head?_render name attributes children rest

/-- A printed document is read as the tree that is read back, if it has characters of XML only. -/
theorem parse?_rendered (hprintable : n.Printable kind) (htag : n.tag?.isSome) :
    parse? (declarationText ++ "\n" ++ n.render ++ "\n") =
      if n.render.toList.all isXmlChar then some n.readBack else none := by
  have hchars : (declarationText ++ "\n" ++ n.render ++ "\n").toList =
      declarationText.toList ++ (['\n'] ++ (n.render.toList ++ (['\n'] ++ []))) := by
    simp
  have hxml : (declarationText.toList ++ (['\n'] ++ (n.render.toList ++ (['\n'] ++ [])))).all isXmlChar =
      n.render.toList.all isXmlChar := by
    have hdeclaration : declarationText.toList.all isXmlChar = true := by decide
    have hbreak : ['\n'].all isXmlChar = true := by decide
    rw [List.all_append, List.all_append, List.all_append, List.append_nil, hdeclaration, hbreak, Bool.and_true]
    rfl
  have hbuilds : Builds [] none (['\n'] ++ (n.render.toList ++ (['\n'] ++ []))) n.readBack := by
    refine Builds.space (by decide) (by decide) (.inr (Node.head?_render_append htag _))
      (Node.builds_render n hprintable htag (by simp) ?_)
    exact Builds.space (by decide) (by decide) (.inl rfl) ⟨[], Reads.nil, rfl⟩
  have hparse := parse?_of_builds (s := declarationText ++ "\n" ++ n.render ++ "\n")
    (by rw [hchars]; rfl) (by rw [hchars, skipDeclaration_declarationText]) hbuilds
  rw [hparse, hchars, hxml]

/-- A printed document without carriage returns is read as the tidy tree. -/
theorem parse?_printed (hprintable : n.Printable ContentText) (htag : n.tag?.isSome) :
    parse? (declarationText ++ "\n" ++ n.render ++ "\n") = some n.tidy := by
  rw [parse?_rendered hprintable htag, if_pos (List.all_eq_true.2 (n.isXmlChar_render hprintable)),
    n.readBack_eq_tidy hprintable]

/-- An element can be read without a declaration in front. -/
theorem parse?_render (hprintable : n.Printable ContentText) (htag : n.tag?.isSome) :
    parse? n.render = some n.tidy := by
  have hbuilds : Builds [] none (n.render.toList ++ []) n.readBack :=
    Node.builds_render n hprintable htag (by simp) ⟨[], Reads.nil, rfl⟩
  rw [List.append_nil] at hbuilds
  -- behind the opening bracket stands a letter, so this is no declaration
  have hstart : ∃ c cs, n.render.toList = '<' :: c :: cs ∧ c.isAlpha := by
    cases n with
    | text content => exact absurd htag (nomatch ·)
    | element name attributes children =>
      obtain ⟨c, cs, hname, hc⟩ := hprintable.1.exists_cons
      cases children with
      | nil =>
        have hrender := Node.render_closed name attributes []
        rw [List.append_nil, hname] at hrender
        exact ⟨c, _, hrender, hc⟩
      | cons child more =>
        have hrender := Node.render_open name attributes child more []
        rw [List.append_nil, hname] at hrender
        exact ⟨c, _, hrender, hc⟩
  obtain ⟨c, cs, hrender, hc⟩ := hstart
  have hmark : skipMark n.render.toList = n.render.toList := by
    rw [hrender]
    rfl
  have hdeclaration : skipDeclaration n.render.toList = some n.render.toList := by
    have hne : c ≠ '?' := by
      rintro rfl
      exact absurd hc (by decide)
    have hprefix : ['<', '?', 'x', 'm', 'l', ' '].isPrefixOf? ('<' :: c :: cs) = none := by
      simp [List.isPrefixOf?, hne.symm]
    unfold skipDeclaration
    rw [hrender, hprefix]
  rw [parse?_of_builds hmark hdeclaration hbuilds, if_pos (List.all_eq_true.2 (n.isXmlChar_render hprintable)),
    n.readBack_eq_tidy hprintable]

end

end DiscPatch.Xml
