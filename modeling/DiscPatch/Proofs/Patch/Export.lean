/-
Exported patches: what the attributes of their elements are, which elements they hold, and that all of it
can be printed and read back.
-/
import DiscPatch.Patch.Export
import DiscPatch.Proofs.AddressSpace
import DiscPatch.Proofs.Bytes.Hex
import DiscPatch.Proofs.Xml.Printed

namespace DiscPatch.Patch

open Text Xml Assembly

/-! ## Attributes -/

/-- The value of an attribute without qualifier. -/
def valueIn (key : String) (attributes : List Attribute) : Option String :=
  (attributes.find? (·.name = Name.plain key)).map (·.value)

theorem attr?_element (tag key : String) (attributes : List Attribute) (children : List Node) :
    (element tag attributes children).attr? key = valueIn key attributes := rfl

theorem valueIn_nil (key : String) : valueIn key [] = none := rfl

theorem valueIn_append (key : String) (front back : List Attribute) :
    valueIn key (front ++ back) = (valueIn key front).or (valueIn key back) := by
  unfold valueIn
  rw [List.find?_append]
  cases front.find? (·.name = Name.plain key) <;> rfl

theorem valueIn_cons (key k value : String) (attributes : List Attribute) :
    valueIn key (attr k value :: attributes) = if k = key then some value else valueIn key attributes := by
  unfold valueIn attr Name.plain
  by_cases h : k = key <;> simp [h]

/-- The attributes that are written. -/
def writtenKeys : List String :=
  ["name", "hideInDefault", "hidden", "file", "sector", "offset", "mode", "label", "movable", "replaceLabels", "symbol",
    "specific", "bytes", "reference", "operator", "operand", "default", "expectedLength"]

/-- Whether a text can be the value of an attribute: it has no white space but blanks. -/
def ValueText (text : String) : Prop :=
  ∀ c ∈ text.toList, isXmlChar c ∧ (isSpace c → c = ' ')

theorem simple_plain {base : String} (h : base ≠ "" ∧ ∀ c ∈ base.toList, c.isAlpha) : (Name.plain base).Simple :=
  ⟨rfl, h.1, h.2⟩

theorem printable_attr {key value : String} (hkey : key ∈ writtenKeys) (hvalue : ValueText value) :
    (attr key value).Printable := by
  have hkeys : ∀ key ∈ writtenKeys, (key ≠ "" ∧ ∀ c ∈ key.toList, c.isAlpha) ∧ key ≠ "xmlns" := by decide +kernel
  obtain ⟨hsimple, hxmlns⟩ := hkeys key hkey
  exact ⟨simple_plain hsimple, hxmlns, hvalue⟩

theorem valueText_numerals {cs : List Char} (h : ∀ c ∈ cs, c ∈ numerals) : ValueText (String.ofList cs) := by
  have hnumerals : ∀ c ∈ numerals, isXmlChar c ∧ (isSpace c → c = ' ') := by decide
  intro c hc
  rw [String.toList_ofList] at hc
  exact hnumerals c (h c hc)

theorem valueText_hex (n : Nat) : ValueText (hex n) :=
  valueText_numerals fun _ => mem_digits (by decide) (by decide)

theorem valueText_decimal (n : Nat) : ValueText (decimal n) :=
  valueText_numerals fun _ => mem_digits (by decide) (by decide)

/-! ## Locations -/

/-- What the element of a segment says. -/
structure LocationOf (space : AddressSpace) (s : Segment) (n : Node) : Prop where
  tag : n.tag? = some "Location"
  file : n.attr? "file" = space.nameOf? s.sector
  sector : space.nameOf? s.sector = none → n.attr? "sector" = some (hex s.sector.id.toNat)
  offset : n.attr? "offset" = if s.isChained then none else some (hex s.offset.toNat)
  mode : n.attr? "mode" = if s.assembly?.isSome then some "asm" else if s.isData then some "data" else none
  label : n.attr? "label" = s.label?
  movable : n.attr? "movable" =
    if s.movesSimply = s.assembly?.isSome then none else some (if s.movesSimply then "true" else "false")
  replaceLabels : n.attr? "replaceLabels" = if !s.assembly?.isSome && s.labelledHex?.isSome then some "true" else none
  others : ∀ key ∈ ["specific", "offsetMode", "align", "inputFile"], n.attr? key = none
  content : n.innerText = contentText s

section

variable {space : AddressSpace} {s : Segment}

/-- The attributes of the element of a segment, part by part. -/
theorem attr?_location (h : s.source = .inline) (key : String) :
    (Segment.toXml space s).attr? key =
      (valueIn key [sectorAttribute space s.sector]).or
        ((if s.isChained then none else valueIn key [attr "offset" (hex s.offset.toNat)]).or
        ((valueIn key (modeAttr s)).or
        ((s.label?.bind fun label => valueIn key [attr "label" label]).or
        ((if s.movesSimply = s.assembly?.isSome then none
          else valueIn key [attr "movable" (if s.movesSimply then "true" else "false")]).or
        (valueIn key (flagAttr "replaceLabels" (!s.assembly?.isSome && s.labelledHex?.isSome))))))) := by
  unfold Segment.toXml
  rw [h]
  dsimp only
  rw [attr?_element]
  simp only [valueIn_append, apply_ite (valueIn key), valueIn_nil, Option.or_assoc]
  cases s.label? <;> rfl

theorem toXml_eq_element (h : s.source = .inline) :
    ∃ attributes, Segment.toXml space s = element "Location" attributes [.text (contentText s)] := by
  unfold Segment.toXml
  rw [h]
  exact ⟨_, rfl⟩

theorem locationOf_toXml (space : AddressSpace) (h : s.source = .inline) :
    LocationOf space s (Segment.toXml space s).tidy := by
  obtain ⟨attributes, helement⟩ : ∃ attributes, Segment.toXml space s = element "Location" attributes
      [.text (contentText s)] := toXml_eq_element h
  have htag : (Segment.toXml space s).tidy.tag? = some "Location" := by
    rw [Node.tag?_tidy, helement]
    rfl
  have hcontent : (Segment.toXml space s).tidy.innerText = contentText s := by
    rw [Node.innerText_tidy, helement]
    show contentText s ++ "" = contentText s
    exact String.append_empty
  have hattr (key : String) := (Node.attr?_tidy (Segment.toXml space s) key).trans (attr?_location h key)
  unfold sectorAttribute modeAttr flagAttr at hattr
  refine ⟨htag, ?_, fun hnone => ?sector, ?_, ?_, ?_, ?_, ?_, fun key hkey => ?others, hcontent⟩
  case sector =>
    rw [hattr, hnone]
    rfl
  case others =>
    rw [hattr]
    simp only [List.mem_cons, List.not_mem_nil, or_false] at hkey
    rcases hkey with rfl | rfl | rfl | rfl <;>
      (cases space.nameOf? s.sector <;> cases s.label? <;> simp [valueIn_cons, valueIn_nil, apply_ite (valueIn _)])
  all_goals
    rw [hattr]
    cases space.nameOf? s.sector <;> cases s.label? <;> simp [valueIn_cons, valueIn_nil, apply_ite (valueIn _)]

end

/-! ## Variables -/

/-- The list of places that is written. -/
def placeList (space : AddressSpace) (places : List Place) : String :=
  ",".intercalate (places.map (Place.entry space))

/-- What the element of a variable says. -/
structure VariableOf (space : AddressSpace) (v : Variable) (n : Node) : Prop where
  tag : n.tag? = some "Variable"
  name : n.attr? "name" = some v.name
  bytes : n.attr? "bytes" = some (decimal v.size)
  symbol : n.attr? "symbol" = if v.isPlaceless then some "true" else none
  specific : n.attr? "specific" =
    if v.isPlaceless then none else some (placeList space v.places)
  default : n.attr? "default" = if v.isDerived then none else some (hex v.value.toNat)
  reference : n.attr? "reference" = v.reference?.map (·.name)
  operator : n.attr? "operator" =
    v.reference?.bind fun r => if r.operator = .copy then none else some r.operator.symbol
  operand : n.attr? "operand" = v.reference?.map fun r => hex r.operand.toNat
  others : ∀ key ∈ ["offset", "offsetMode"], n.attr? key = none

/-- The attributes that say what the value of a variable is, or what it is made from. -/
def valueAttrs (v : Variable) : List Attribute :=
  match v.reference? with
  | some r =>
    [attr "reference" r.name] ++ (if r.operator = .copy then [] else [attr "operator" r.operator.symbol]) ++
      [attr "operand" (hex r.operand.toNat)]
  | none => [attr "default" (hex v.value.toNat)]

theorem toXml_variable (space : AddressSpace) (v : Variable) :
    Variable.toXml space v = element "Variable" ([attr "name" v.name,
      if v.isPlaceless then attr "symbol" "true" else attr "specific" (placeList space v.places),
      attr "bytes" (decimal v.size)] ++ valueAttrs v) [] := by
  unfold Variable.toXml valueAttrs
  cases v.reference? <;> rfl

theorem variableOf_toXml (space : AddressSpace) (v : Variable) : VariableOf space v (Variable.toXml space v).tidy := by
  have hattr : ∀ key, (Variable.toXml space v).tidy.attr? key = valueIn key ([attr "name" v.name,
      if v.isPlaceless then attr "symbol" "true" else attr "specific" (placeList space v.places),
      attr "bytes" (decimal v.size)] ++ valueAttrs v) := by
    intro key
    rw [Node.attr?_tidy, toXml_variable]
    rfl
  refine ⟨rfl, ?_, ?_, ?_, ?_, ?_, ?_, ?_, ?_, fun key hkey => ?others⟩
  case others =>
    rw [hattr]
    unfold valueAttrs
    simp only [List.mem_cons, List.not_mem_nil, or_false] at hkey
    rcases hkey with rfl | rfl <;> cases v.isPlaceless <;> cases v.reference? <;>
      simp [valueIn_cons, valueIn_append, valueIn_nil, apply_ite (valueIn _)]
  all_goals
    rw [hattr]
    unfold valueAttrs
    cases v.isPlaceless <;> cases hreference : v.reference? <;>
      simp [valueIn_cons, valueIn_append, valueIn_nil, apply_ite (valueIn _), Variable.isDerived, hreference]

/-! ## Patches -/

/-- Of the nodes on lines of their own, the texts between them have no name. -/
theorem filter_onLines (outer margin tag : String) (nodes : List Node) :
    (onLines outer margin nodes).filter (·.tag? = some tag) = nodes.filter (·.tag? = some tag) := by
  have htext : ∀ content, [Node.text content].filter (·.tag? = some tag) = [] := fun content => rfl
  have hline : ∀ n : Node, ([Node.text margin] ++ ([n] ++ [Node.text "\n"])).filter (·.tag? = some tag) =
      [n].filter (·.tag? = some tag) := by
    intro n
    rw [List.filter_append, List.filter_append, htext, htext, List.nil_append, List.append_nil]
  have hlines : (nodes.flatMap fun n => [Node.text margin, n, .text "\n"]).filter (·.tag? = some tag) =
      nodes.filter (·.tag? = some tag) := by
    induction nodes with
    | nil => rfl
    | cons n nodes ih =>
      have hcons : (n :: nodes).filter (·.tag? = some tag) =
          [n].filter (·.tag? = some tag) ++ nodes.filter (·.tag? = some tag) :=
        List.filter_append [n] nodes
      rw [List.flatMap_cons, List.filter_append, ih, hcons]
      exact congrArg (· ++ nodes.filter (·.tag? = some tag)) (hline n)
  have hend : (if outer = "" then [] else [Node.text outer]).filter (·.tag? = some tag) = [] := by
    split <;> simp [Node.tag?]
  unfold onLines
  rw [List.filter_append, List.filter_cons_of_neg (by simp [Node.tag?]), hlines, hend, List.append_nil]

theorem elements_onLines (tag name outer margin : String) (attributes : List Attribute) (nodes : List Node) :
    (element name attributes (onLines outer margin nodes)).tidy.elements tag =
      (nodes.filter (·.tag? = some tag)).map Node.tidy := by
  rw [Node.elements_tidy]
  exact congrArg (List.map Node.tidy) (filter_onLines outer margin tag nodes)

/-- Nodes of one name are found by it, and by no other. -/
theorem filter_map_tag {α : Type} {f : α → Node} {l : List α} {name : String} (h : ∀ a ∈ l, (f a).tag? = some name)
    (tag : String) : (l.map f).filter (·.tag? = some tag) = if name = tag then l.map f else [] := by
  split
  · rename_i heq
    refine List.filter_eq_self.2 fun n hn => ?_
    obtain ⟨a, ha, rfl⟩ := List.mem_map.1 hn
    rw [h a ha, heq, decide_eq_true_iff]
  · rename_i hne
    refine List.filter_eq_nil_iff.2 fun n hn => ?_
    obtain ⟨a, ha, rfl⟩ := List.mem_map.1 hn
    rw [h a ha, decide_eq_true_iff]
    exact fun heq => hne (Option.some.inj heq)

theorem Segment.takesFile_of_inline {s : Segment} (h : s.source = .inline) : s.takesFile = false := by
  rw [Segment.takesFile, Segment.expected?, h]
  rfl

/-- What the element of a patch says that imports no file. -/
structure PatchOf (space : AddressSpace) (p : Patch) (n : Node) : Prop where
  tag : n.tag? = some "Patch"
  name : n.attr? "name" = some p.name
  others : ∀ key ∈ ["file", "sector", "ignore"], n.attr? key = none
  locations : n.elements "Location" = p.segments.map fun s => (Segment.toXml space s).tidy
  vars : n.elements "Variable" = p.vars.map fun v => (Variable.toXml space v).tidy
  elements : ∀ tag ∈ ["Include", "STRLocation"], n.elements tag = []

theorem patchOf_toXml (space : AddressSpace) {p : Patch} (h : ∀ s ∈ p.segments, s.source = .inline) :
    PatchOf space p (toXml space p).tidy := by
  have hfind : p.segments.find? (·.takesFile) = none := by
    refine List.find?_eq_none.2 fun s hs => ?_
    rw [Segment.takesFile_of_inline (h s hs)]
    decide
  let flags := flagAttr "hideInDefault" p.hiddenByDefault ++ flagAttr "hidden" p.isHidden
  let description := if p.description = "" then [] else [descriptionXml p]
  let nodes := description ++ p.segments.map (Segment.toXml space) ++ p.vars.map (Variable.toXml space)
  have hxml : toXml space p = element "Patch" (attr "name" p.name :: flags) (onLines "    " "        " nodes) := by
    unfold toXml
    rw [hfind]
  have hattr (key : String) : (toXml space p).tidy.attr? key = valueIn key (attr "name" p.name :: flags) := by
    rw [Node.attr?_tidy, hxml]
    rfl
  have hnodes (tag : String) (htag : tag ≠ "Description") : (toXml space p).tidy.elements tag =
      ((if "Location" = tag then p.segments.map (Segment.toXml space) else []) ++
        (if "Variable" = tag then p.vars.map (Variable.toXml space) else [])).map Node.tidy := by
    have hdescription : description.filter (·.tag? = some tag) = [] := by
      show (if p.description = "" then [] else [descriptionXml p]).filter _ = []
      split
      · rfl
      · refine List.filter_cons_of_neg fun heq => htag ?_
        exact (Option.some.inj (of_decide_eq_true heq)).symm
    have hlocation : ∀ s ∈ p.segments, (Segment.toXml space s).tag? = some "Location" := fun s hs =>
      (Node.tag?_tidy _).symm.trans (locationOf_toXml space (h s hs)).tag
    have hvariable : ∀ v ∈ p.vars, (Variable.toXml space v).tag? = some "Variable" := fun _ _ => rfl
    rw [hxml, elements_onLines, List.filter_append, List.filter_append, hdescription, List.nil_append,
      filter_map_tag hlocation, filter_map_tag hvariable]
  refine ⟨?_, ?_, fun key hkey => ?_, ?_, ?_, fun tag htag => ?_⟩
  · rw [Node.tag?_tidy, hxml]
    rfl
  · rw [hattr, valueIn_cons, if_pos rfl]
  · rw [hattr]
    show valueIn key (attr "name" p.name ::
      (flagAttr "hideInDefault" p.hiddenByDefault ++ flagAttr "hidden" p.isHidden)) = none
    unfold flagAttr
    simp only [List.mem_cons, List.not_mem_nil, or_false] at hkey
    rcases hkey with rfl | rfl | rfl <;>
      simp [valueIn_cons, valueIn_append, valueIn_nil, apply_ite (valueIn _)]
  · rw [hnodes _ (by decide), if_pos rfl, if_neg (by decide), List.append_nil, List.map_map]
    rfl
  · rw [hnodes _ (by decide), if_neg (by decide), if_pos rfl, List.nil_append, List.map_map]
    rfl
  · simp only [List.mem_cons, List.not_mem_nil, or_false] at htag
    rcases htag with rfl | rfl <;> exact hnodes _ (by decide)

/-- What the element of a patch says that imports a file. -/
structure ImportOf (space : AddressSpace) (p : Patch) (s : Segment) (n : Node) : Prop where
  tag : n.tag? = some "ImportFilePatch"
  name : n.attr? "name" = some p.name
  file : ∃ file, n.elements "ImportFile" = [file] ∧ file.attr? "file" = space.nameOf? s.sector ∧
    (space.nameOf? s.sector = none → file.attr? "sector" = some (hex s.sector.id.toNat)) ∧
    file.attr? "offset" = some (hex s.offset.toNat) ∧
    file.attr? "expectedLength" = some (hex (s.expected?.getD 0).toNat)

theorem importOf_toXml (space : AddressSpace) {p : Patch} {s : Segment} (h : p.segments.find? (·.takesFile) = some s) :
    ImportOf space p s (toXml space p).tidy := by
  let attributes := [sectorAttribute space s.sector, attr "offset" (hex s.offset.toNat),
    attr "expectedLength" (hex (s.expected?.getD 0).toNat)]
  have hxml : toXml space p = element "ImportFilePatch" [attr "name" p.name]
      (onLines "    " "        " [descriptionXml p, element "ImportFile" attributes []]) := by
    unfold toXml
    rw [h]
  have hattr (key : String) : (element "ImportFile" attributes []).tidy.attr? key =
      valueIn key ([sectorAttribute space s.sector] ++ [attr "offset" (hex s.offset.toNat),
        attr "expectedLength" (hex (s.expected?.getD 0).toNat)]) :=
    Node.attr?_tidy _ key
  refine ⟨?_, ?_, (element "ImportFile" attributes []).tidy, ?_, ?_, fun hnone => ?_, ?_, ?_⟩
  · rw [Node.tag?_tidy, hxml]
    rfl
  · rw [Node.attr?_tidy, hxml]
    rfl
  · rw [hxml, elements_onLines]
    rfl
  · rw [hattr, sectorAttribute]
    cases space.nameOf? s.sector <;> simp [valueIn_cons, valueIn_nil]
  · rw [hattr, sectorAttribute, hnone]
    rfl
  · rw [hattr, sectorAttribute]
    cases space.nameOf? s.sector <;> rfl
  · rw [hattr, sectorAttribute]
    cases space.nameOf? s.sector <;> rfl

/-! ## What can be printed -/

theorem ValueText.contentText {text : String} (h : ValueText text) : ContentText text := by
  intro c hc
  refine ⟨(h c hc).1, ?_⟩
  rintro rfl
  exact absurd ((h _ hc).2 (by decide)) (by decide)

theorem valueText_append {a b : String} (ha : ValueText a) (hb : ValueText b) : ValueText (a ++ b) := by
  unfold ValueText
  rw [String.toList_append]
  exact List.forall_mem_append.2 ⟨ha, hb⟩

theorem valueText_of_symbol {text : String} (h : ∀ c ∈ text.toList, inSymbolName c) : ValueText text := by
  intro c hc
  have hrange := toNat_of_inSymbolName (h c hc)
  refine ⟨?_, fun hspace => ?_⟩
  · unfold isXmlChar
    rw [if_neg (by omega), Bool.and_eq_true, bne_iff_ne, bne_iff_ne]
    omega
  · simp only [isSpace, Bool.or_eq_true, beq_iff_eq] at hspace
    rcases hspace with ((rfl | rfl) | rfl) | rfl <;> revert hrange <;> decide

theorem valueText_join {texts : List String} (h : ∀ text ∈ texts, ValueText text) :
    ValueText (",".intercalate texts) := by
  intro c hc
  rw [String.toList_intercalate] at hc
  rcases mem_intercalate hc with hc | ⟨cs, hcs, hc⟩
  · rw [List.mem_singleton.1 hc]
    decide
  · obtain ⟨text, htext, rfl⟩ := List.mem_map.1 hcs
    exact h text htext c hc

theorem printable_onLines {kind : String → Prop} (hbreak : kind "\n") {outer margin : String}
    (houter : outer ≠ "" → kind outer) (hmargin : kind margin) {nodes : List Node} (h : ∀ n ∈ nodes, n.Printable kind) :
    Node.AllPrintable kind (onLines outer margin nodes) := by
  unfold onLines
  rw [Node.allPrintable_iff]
  refine List.forall_mem_append.2 ⟨List.forall_mem_cons.2 ⟨hbreak, ?_⟩, ?_⟩
  · intro n hn
    obtain ⟨m, hm, hn⟩ := List.mem_flatMap.1 hn
    simp only [List.mem_cons, List.not_mem_nil, or_false] at hn
    rcases hn with rfl | rfl | rfl
    · exact hmargin
    · exact h n hm
    · exact hbreak
  · split
    · exact List.forall_mem_nil _
    · rename_i hne
      exact List.forall_mem_singleton.2 (houter hne)

/-- Attributes that can be printed, their keys among the given ones and in the order of these. -/
structure Keyed (keys : List String) (attributes : List Attribute) : Prop where
  printable : ∀ a ∈ attributes, a.Printable
  keys : (attributes.map (·.name.base)).Sublist keys

theorem Keyed.nil (keys : List String) : Keyed keys [] :=
  ⟨List.forall_mem_nil _, List.nil_sublist _⟩

theorem Keyed.append {keys keys' : List String} {front back : List Attribute} (hfront : Keyed keys front)
    (hback : Keyed keys' back) : Keyed (keys ++ keys') (front ++ back) := by
  refine ⟨List.forall_mem_append.2 ⟨hfront.printable, hback.printable⟩, ?_⟩
  rw [List.map_append]
  exact hfront.keys.append hback.keys

theorem keyed_attr {key value : String} (hkey : key ∈ writtenKeys) (hvalue : ValueText value) :
    Keyed [key] [attr key value] :=
  ⟨List.forall_mem_singleton.2 (printable_attr hkey hvalue), List.Sublist.refl _⟩

theorem keyed_flagAttr {key : String} (hkey : key ∈ writtenKeys) (value : Bool) : Keyed [key] (flagAttr key value) := by
  unfold flagAttr
  split
  · exact keyed_attr hkey (by unfold ValueText; decide)
  · exact Keyed.nil _

theorem printable_element {kind : String → Prop} {tag : String} (htag : tag ≠ "" ∧ ∀ c ∈ tag.toList, c.isAlpha)
    {keys : List String} (hkeys : keys.Nodup) {attributes : List Attribute} (h : Keyed keys attributes)
    {children : List Node} (hchildren : Node.AllPrintable kind children) :
    (element tag attributes children).Printable kind :=
  ⟨simple_plain htag, h.printable, hkeys.sublist h.keys, hchildren⟩

/-- Whether the names of sectors can be values of attributes. -/
def NamesPrintable (space : AddressSpace) : Prop :=
  ∀ s name, space.nameOf? s = some name → ValueText name

theorem namesPrintable_of_named {space : AddressSpace} (h : space.Named) : NamesPrintable space :=
  fun s name hname => valueText_of_symbol (h.symbol s name hname)

section

variable {space : AddressSpace} (hspace : NamesPrintable space) {kind : String → Prop}

include hspace

theorem keyed_sectorAttribute (s : Sector) : Keyed ["file", "sector"] [sectorAttribute space s] := by
  unfold sectorAttribute
  split
  · rename_i name hname
    exact (keyed_attr (by decide) (hspace s name hname)).append (Keyed.nil _)
  · exact (Keyed.nil ["file"]).append (keyed_attr (by decide) (valueText_hex _))

/-- The element of a segment can be printed. -/
theorem printable_location {s : Segment} (h : s.source = .inline)
    (hlabel : ∀ label, s.label? = some label → ValueText label) (hcontent : kind (contentText s)) :
    (Segment.toXml space s).Printable kind := by
  have hword : ∀ text ∈ ["asm", "data", "true", "false"], ValueText text := by
    unfold ValueText
    decide
  have hoffset : Keyed ["offset"] (if s.isChained then [] else [attr "offset" (hex s.offset.toNat)]) := by
    split
    · exact Keyed.nil _
    · exact keyed_attr (by decide) (valueText_hex _)
  have hmode : Keyed ["mode"] (modeAttr s) := by
    unfold modeAttr
    split
    · exact keyed_attr (by decide) (hword _ (by decide))
    · split
      · exact keyed_attr (by decide) (hword _ (by decide))
      · exact Keyed.nil _
  have hmovable : Keyed ["movable"] (if s.movesSimply = s.assembly?.isSome then []
      else [attr "movable" (if s.movesSimply then "true" else "false")]) := by
    split
    · exact Keyed.nil _
    · refine keyed_attr (by decide) ?_
      split <;> exact hword _ (by decide)
  have hreplace : Keyed ["replaceLabels"] (flagAttr "replaceLabels" (!s.assembly?.isSome && s.labelledHex?.isSome)) :=
    keyed_flagAttr (by decide) _
  unfold Segment.toXml
  rw [h]
  refine printable_element (by decide) (by decide) ((((((keyed_sectorAttribute hspace s.sector).append hoffset).append
    hmode).append (show Keyed ["label"] _ from ?label)).append hmovable).append hreplace) ⟨hcontent, trivial⟩
  split
  · rename_i label heq
    exact keyed_attr (by decide) (hlabel label heq)
  · exact Keyed.nil _

theorem valueText_entry (place : Place) : ValueText (Place.entry space place) := by
  have hdisplay : ValueText (space.display place.sector) := by
    unfold AddressSpace.display
    cases hname : space.nameOf? place.sector with
    | none => exact valueText_decimal _
    | some name => exact hspace _ name hname
  have hcolon : ValueText ":" := by
    unfold ValueText
    decide
  exact valueText_append (valueText_append hdisplay hcolon) (valueText_hex _)

/-- The element of a variable can be printed. -/
theorem printable_variable {v : Variable} (hname : ValueText v.name)
    (hreference : ∀ r, v.reference? = some r → ValueText r.name) : (Variable.toXml space v).Printable kind := by
  have hplaces : Keyed ["symbol", "specific"] [if v.isPlaceless then attr "symbol" "true"
      else attr "specific" (placeList space v.places)] := by
    split
    · exact (keyed_attr (by decide) (by unfold ValueText; decide)).append (Keyed.nil ["specific"])
    · refine (Keyed.nil ["symbol"]).append (keyed_attr (by decide) (valueText_join ?_))
      exact List.forall_mem_map.2 fun place _ => valueText_entry hspace place
  have hvalue : Keyed ["default", "reference", "operator", "operand"] (valueAttrs v) := by
    have hsymbol : ∀ operator : Operator, ValueText operator.symbol := by
      unfold ValueText
      intro operator
      cases operator <;> decide
    unfold valueAttrs
    split
    · rename_i r hr
      have hoperator : Keyed ["operator"] (if r.operator = .copy then [] else [attr "operator" r.operator.symbol]) := by
        split
        · exact Keyed.nil _
        · exact keyed_attr (by decide) (hsymbol _)
      exact (Keyed.nil ["default"]).append (((keyed_attr (by decide) (hreference r hr)).append hoperator).append
        (keyed_attr (by decide) (valueText_hex r.operand.toNat)))
    · exact (keyed_attr (by decide) (valueText_hex v.value.toNat)).append
        (Keyed.nil ["reference", "operator", "operand"])
  rw [toXml_variable]
  exact printable_element (by decide) (by decide) ((((keyed_attr (by decide) hname).append hplaces).append
    (keyed_attr (by decide) (valueText_decimal v.size))).append hvalue) trivial

end

theorem printable_description {kind : String → Prop} {p : Patch} (h : kind p.description) :
    (descriptionXml p).Printable kind :=
  printable_element (by decide) (by decide) (Keyed.nil []) ⟨h, trivial⟩

/-- What makes a patch printable: its names can be values of attributes, and its texts are of a kind, where it
imports no file those of its segments too. -/
structure Writable (kind : String → Prop) (p : Patch) : Prop where
  name : ValueText p.name
  description : kind p.description
  inline : ∀ s ∈ p.segments, s.takesFile = false → s.source = .inline
  labels : ∀ s ∈ p.segments, ∀ label, s.label? = some label → ValueText label
  contents : ∀ s ∈ p.segments, kind (contentText s)
  names : ∀ v ∈ p.vars, ValueText v.name
  references : ∀ v ∈ p.vars, ∀ r, v.reference? = some r → ValueText r.name

theorem Writable.imp {kind kind' : String → Prop} (himp : ∀ text, kind text → kind' text) {p : Patch}
    (h : p.Writable kind) : p.Writable kind' :=
  { h with description := himp _ h.description, contents := fun s hs => himp _ (h.contents s hs) }

section

variable {space : AddressSpace} {kind : String → Prop} (hlayout : ∀ text ∈ ["\n", "    ", "        "], kind text)

include hlayout

/-- The element of a patch can be printed, if those of its segments and the texts between them can. -/
theorem printable_toXml (hspace : NamesPrintable space) {p : Patch} (hname : ValueText p.name)
    (hdescription : kind p.description)
    (hsegments : ∀ s ∈ p.segments, s.takesFile = false → (Segment.toXml space s).Printable kind)
    (hnames : ∀ v ∈ p.vars, ValueText v.name)
    (hreferences : ∀ v ∈ p.vars, ∀ r, v.reference? = some r → ValueText r.name) : (toXml space p).Printable kind := by
  have hlines : ∀ {nodes : List Node}, (∀ n ∈ nodes, n.Printable kind) →
      Node.AllPrintable kind (onLines "    " "        " nodes) := fun hnodes =>
    printable_onLines (hlayout _ (by decide)) (fun _ => hlayout _ (by decide)) (hlayout _ (by decide)) hnodes
  unfold toXml
  split
  · rename_i s hs
    refine printable_element (by decide) (by decide) (keyed_attr (by decide) hname)
      (hlines (List.forall_mem_cons.2 ⟨printable_description hdescription, List.forall_mem_singleton.2 ?_⟩))
    exact printable_element (by decide) (by decide) (((keyed_sectorAttribute hspace s.sector).append
      (keyed_attr (by decide) (valueText_hex s.offset.toNat))).append
        (keyed_attr (by decide) (valueText_hex (s.expected?.getD 0).toNat))) trivial
  · rename_i hnone
    refine printable_element (by decide) (by decide) ((keyed_attr (by decide) hname).append
      ((keyed_flagAttr (by decide) p.hiddenByDefault).append (keyed_flagAttr (by decide) p.isHidden)))
      (hlines (List.forall_mem_append.2 ⟨List.forall_mem_append.2 ⟨?_, List.forall_mem_map.2 fun s hs => ?_⟩,
        List.forall_mem_map.2 fun v hv => printable_variable hspace (hnames v hv) (hreferences v hv)⟩))
    · split
      · exact List.forall_mem_nil _
      · exact List.forall_mem_singleton.2 (printable_description hdescription)
    · exact hsegments s hs (by simpa using List.find?_eq_none.1 hnone s hs)

/-- A document can be printed, if the elements of its patches and the texts between them can. -/
theorem printable_documentXml {ps : List Patch} (h : ∀ p ∈ ps, (toXml space p).Printable kind) :
    (documentXml space ps).Printable kind :=
  printable_element (by decide) (by decide) (Keyed.nil [])
    (printable_onLines (hlayout _ (by decide)) (fun hne => absurd rfl hne) (hlayout _ (by decide))
      (List.forall_mem_map.2 h))

end

/-- The document of writable patches can be printed, if the texts between its elements can. -/
theorem printable_document {space : AddressSpace} (hspace : NamesPrintable space) {kind : String → Prop}
    (hlayout : ∀ text ∈ ["\n", "    ", "        "], kind text) {ps : List Patch} (h : ∀ p ∈ ps, p.Writable kind) :
    (documentXml space ps).Printable kind := by
  refine printable_documentXml hlayout fun p hp => ?_
  have hw := h p hp
  exact printable_toXml hlayout hspace hw.name hw.description (fun s hs hnone => printable_location hspace
    (hw.inline s hs hnone) (hw.labels s hs) (hw.contents s hs)) hw.names hw.references

/-! ## Documents -/

theorem isImport_eq_isSome_find? (p : Patch) : p.isImport = (p.segments.find? (·.takesFile)).isSome := by
  rw [Bool.eq_iff_iff, List.find?_isSome]
  exact List.any_eq_true

theorem tag?_toXml (space : AddressSpace) (p : Patch) :
    (toXml space p).tag? = some (if p.isImport then "ImportFilePatch" else "Patch") := by
  rw [isImport_eq_isSome_find?]
  unfold toXml
  cases p.segments.find? (·.takesFile) <;> rfl

/-- The elements of patches that import no file come under the one name, those of the imports behind them under the
other. -/
theorem elements_document (space : AddressSpace) {patches imports : List Patch}
    (hpatches : ∀ p ∈ patches, p.isImport = false) (himports : ∀ p ∈ imports, p.isImport = true) :
    (documentXml space (patches ++ imports)).elements "Patch" = patches.map (toXml space) ∧
      (documentXml space (patches ++ imports)).elements "ImportFilePatch" = imports.map (toXml space) := by
  have helements (tag : String) : (documentXml space (patches ++ imports)).elements tag =
      (if "Patch" = tag then patches.map (toXml space) else []) ++
        if "ImportFilePatch" = tag then imports.map (toXml space) else [] := by
    have hplain : ∀ p ∈ patches, (toXml space p).tag? = some "Patch" := fun p hp => by
      rw [tag?_toXml, hpatches p hp, if_neg (by decide)]
    have himport : ∀ p ∈ imports, (toXml space p).tag? = some "ImportFilePatch" := fun p hp => by
      rw [tag?_toXml, himports p hp, if_pos rfl]
    show (onLines "" "    " _).filter (·.tag? = some tag) = _
    rw [filter_onLines, List.map_append, List.filter_append, filter_map_tag hplain, filter_map_tag himport]
  exact ⟨(helements "Patch").trans (List.append_nil _), helements "ImportFilePatch"⟩

theorem documentText_eq (space : AddressSpace) (ps : List Patch) :
    documentText space ps = declarationText ++ "\n" ++ (documentXml space ps).render ++ "\n" := by
  have hhead : "<?xml version=\"1.0\" encoding=\"utf-8\" ?>\n" = declarationText ++ "\n" := by decide +kernel
  unfold documentText
  rw [hhead]

/-- An exported document without carriage returns is read as the tree it was printed from. -/
theorem parse?_documentText {space : AddressSpace} (hspace : NamesPrintable space) {ps : List Patch}
    (h : ∀ p ∈ ps, p.Writable ContentText) : parse? (documentText space ps) = some (documentXml space ps).tidy := by
  have hlayout : ∀ text ∈ ["\n", "    ", "        "], ContentText text := by
    unfold ContentText
    decide
  rw [documentText_eq]
  exact parse?_printed (printable_document hspace hlayout h) rfl

end DiscPatch.Patch
