/-
Variables read again: the list of places that is written for a variable leads back to its places, and a
variable that is not derived comes out the same from its element.
-/
import DiscPatch.Description.VariableElement
import DiscPatch.Proofs.Bytes.Field
import DiscPatch.Proofs.Description.Placement
import DiscPatch.Proofs.Patch.Export
import DiscPatch.Proofs.Xml.Contents

namespace DiscPatch.Description

open Text Xml Patch Assembly

variable {space : AddressSpace}

/-! ## Lists of places -/

theorem inSymbolName_numerals : ∀ c ∈ numerals, inSymbolName c := by
  decide

/-- What names a sector can stand in lists of places. -/
theorem unmarked_display (hspace : space.Listed) (s : Sector) :
    ∀ c ∈ (space.display s).toList, isBlank c = false ∧ c ≠ ':' ∧ c ≠ ',' := by
  intro c hc
  unfold AddressSpace.display at hc
  cases hname : space.nameOf? s with
  | some name =>
    rw [hname] at hc
    exact hspace.unmarked s name hname c hc
  | none =>
    rw [hname, Option.getD_none, decimal, String.toList_ofList] at hc
    exact unmarked_of_inSymbolName (inSymbolName_numerals c (mem_digits (by decide) (by decide) hc))

/-- What names a sector leads back to it. -/
theorem ofIdOrName_display (hspace : space.Listed) {s : Sector} (h : s.platform = space.platform) :
    space.ofIdOrName (space.display s) = .ok s := by
  unfold AddressSpace.ofIdOrName AddressSpace.display
  cases hname : space.nameOf? s with
  | some name =>
    rw [Option.getD_some, hspace.notNumber s name hname]
    exact hspace.ofName s name hname
  | none =>
    rw [Option.getD_none, decimalWord?_decimal, ← h]

theorem toList_entry (place : Place) :
    (Place.entry space place).toList =
      (space.display place.sector).toList ++ ':' :: digits 16 place.offset.toNat := by
  have hhex : (hex place.offset.toNat).toList = digits 16 place.offset.toNat := String.toList_ofList
  unfold Place.entry
  rw [String.toList_append, String.toList_append, hhex, List.append_assoc]
  rfl

/-- No entry looks like the end of one, or like a blank between two. -/
theorem unmarked_entry (hspace : space.Listed) (place : Place) :
    ∀ c ∈ (Place.entry space place).toList, isBlank c = false ∧ c ≠ ',' := by
  intro c hc
  rw [toList_entry, List.mem_append, List.mem_cons] at hc
  rcases hc with hc | rfl | hc
  · obtain ⟨hblank, -, hcomma⟩ := unmarked_display hspace place.sector c hc
    exact ⟨hblank, hcomma⟩
  · decide
  · obtain ⟨hblank, -, hcomma⟩ :=
      unmarked_of_inSymbolName (inSymbolName_numerals c (mem_digits (by decide) (by decide) hc))
    exact ⟨hblank, hcomma⟩

/-- Entries that were written lead to their sectors and offsets. -/
theorem readEntries_written (hspace : space.Listed) {places : List Place} (h : ∀ place ∈ places, Placed space place)
    (last : Option Sector) :
    readEntries space last (places.map fun place => (Place.entry space place).toList) =
      .ok (places.map fun place => (place.sector, hex place.offset.toNat)) := by
  induction places generalizing last with
  | nil => rfl
  | cons place places ih =>
    obtain ⟨hplace, hplaces⟩ := List.forall_mem_cons.1 h
    have hcolon : ':' ∉ (space.display place.sector).toList := fun hmem =>
      (unmarked_display hspace place.sector ':' hmem).2.1 rfl
    unfold readEntries
    rw [List.map_cons, toList_entry]
    dsimp only
    rw [cutAt?_append hcolon]
    dsimp only
    rw [String.ofList_toList, ofIdOrName_display hspace hplace.platform]
    show (readEntries space (some place.sector) _ >>= _) = _
    rw [ih hplaces]
    rfl

theorem withoutBlanks_placeList (hspace : space.Listed) (places : List Place) :
    withoutBlanks (placeList space places).toList =
      [','].intercalate (places.map fun place => (Place.entry space place).toList) := by
  unfold placeList
  rw [String.toList_intercalate, List.map_map]
  refine List.filter_eq_self.2 fun c hc => ?_
  rcases mem_intercalate hc with hc | ⟨cs, hcs, hc⟩
  · rw [List.mem_singleton.1 hc]
    decide
  · obtain ⟨place, -, rfl⟩ := List.mem_map.1 hcs
    rw [(unmarked_entry hspace place c hc).1]
    rfl

theorem entries_written (hspace : space.Listed) {n : Node} {places : List Place} (hne : places ≠ [])
    (h : ∀ place ∈ places, Placed space place) (hspecific : n.attr? "specific" = some (placeList space places))
    (standard : Option Sector) :
    entries space n standard = .ok (places.map fun place => (place.sector, hex place.offset.toNat)) := by
  have hcomma : ∀ text ∈ places.map (fun place => (Place.entry space place).toList), ',' ∉ text := by
    intro text htext hmem
    obtain ⟨place, -, rfl⟩ := List.mem_map.1 htext
    exact (unmarked_entry hspace place ',' hmem).2 rfl
  have hsplit := List.splitOn_intercalate ',' hcomma (by rwa [Ne, List.map_eq_nil_iff])
  unfold entries compactAttr
  rw [hspecific, Option.getD_some, withoutBlanks_placeList hspace]
  split
  · rename_i hnil
    -- a list without any text would be cut into one empty text
    rw [hnil] at hsplit
    obtain ⟨place, more, rfl⟩ := List.exists_cons_of_ne_nil hne
    have hempty : [] = (Place.entry space place).toList := (List.cons.inj hsplit).1
    rw [toList_entry] at hempty
    simp at hempty
  · rw [hsplit]
    exact readEntries_written hspace h standard

/-- The list of places that was written leads to the places. -/
theorem placement_written (hspace : space.Listed) {n : Node} {places : List Place} (hne : places ≠ [])
    (h : ∀ place ∈ places, Placed space place) (hmode : n.attr? "offsetMode" = none)
    (hspecific : n.attr? "specific" = some (placeList space places))
    (standard : Option Sector) (previous : Option Previous) (align : Nat) :
    placement space n standard previous align = .ok ⟨places, false⟩ := by
  have hram : countsInRam n = false := by
    unfold countsInRam
    rw [hmode]
  have hplaces : (places.map fun place => (place.sector, hex place.offset.toNat)).mapM (fun entry =>
      (hexNumber .offset entry.2).map (placeOfFile space entry.1)) = .ok places := by
    rw [mapM_eq_ok_iff, List.forall₂_map_left_iff, List.forall₂_same]
    intro place hplace
    show (hexNumber .offset (hex place.offset.toNat)).map _ = .ok place
    rw [hexNumber_hex]
    exact congrArg (fun ram => Except.ok (Place.mk place.sector place.offset ram)) (h place hplace).ram.symm
  unfold placement
  rw [entries_written hspace hne h hspecific, hram, ok_bind]
  split
  · rename_i hnil _
    exact absurd (List.map_eq_nil_iff.1 hnil) hne
  · rename_i hnil _
    exact absurd (List.map_eq_nil_iff.1 hnil) hne
  · rw [if_neg (by decide)]
    exact congrArg (· >>= fun places => pure (Placement.mk places false)) hplaces

/-! ## Variables that were read -/

/-- A variable whose element says all that is read from it. -/
structure Storable (space : AddressSpace) (v : Variable) : Prop where
  name : ValueText v.name
  size : 1 ≤ v.size ∧ v.size ≤ 4
  value : Bytes.fit v.size v.value = v.value
  places : ∀ place ∈ v.places, Placed space place
  reference : ∀ r, v.reference? = some r → ValueText r.name ∧ trim r.name = r.name

/-- The places of a variable. -/
def readPlaces (space : AddressSpace) (standard : Option Sector) (last : Option Variable) (n : Node) :
    Except Error (List Place) :=
  if marksSymbol n then .ok []
  else (placement space n standard (last.bind endOfVariable) (alignment n 0)).map (·.places)

/-- The value that a variable starts with. -/
def readValue (n : Node) : Except Error UInt32 :=
  match n.attr? "default" with
  | some text => hexNumber .default text
  | none => .ok 0

/-- A variable is read part by part. -/
theorem readVariable_eq (space : AddressSpace) (standard : Option Sector) (last : Option Variable) (n : Node) :
    readVariable space standard last n = (do
      let name ← required n "name"
      let size ← variableSize n name
      let places ← readPlaces space standard last n
      let value ← readValue n
      return { name, size, value := Bytes.fit size value, places, reference? := referenceOf? n }) := by
  unfold readVariable readPlaces readValue
  cases marksSymbol n <;> cases n.attr? "default" <;> rfl

theorem variableSize_eq_ok {n : Node} {name : String} {size : Nat} (h : variableSize n name = .ok size) :
    1 ≤ size ∧ size ≤ 4 := by
  have hbound : ∀ size', (if 1 ≤ size' ∧ size' ≤ 4 then .ok size'
      else .error (.description (.variableSize name size'))) = Except.ok (ε := Error) size → 1 ≤ size ∧ size ≤ 4 := by
    intro size' h
    split at h
    · rename_i hsize
      cases h
      exact hsize
    · cases h
  unfold variableSize at h
  dsimp only at h
  split at h
  · exact hbound 1 h
  · split at h
    · exact hbound _ h
    · cases h

theorem referenceOf?_eq_some {n : Node} (hclean : n.Clean) {r : Reference} (h : referenceOf? n = some r) :
    ValueText r.name ∧ trim r.name = r.name := by
  obtain ⟨text, htext, rfl⟩ := Option.map_eq_some_iff.1 h
  have hvalue : ValueText text := hclean.attr? htext
  exact ⟨fun c hc => hvalue c (toList_trim_subset text hc), trim_trim text⟩

theorem storable_readVariable (hspace : space.Named) {n : Node} (hclean : n.Clean) {standard : Option Sector}
    (hstandard : OnPlatform space standard) {last : Option Variable} (hlast : ∀ v, last = some v → Storable space v)
    {v : Variable} (h : readVariable space standard last n = .ok v) :
    Storable space v ∧ v.reference? = referenceOf? n := by
  have hprevious : OnPlatform space ((last.bind endOfVariable).map (·.sector)) := by
    intro sector hsector
    obtain ⟨previous, hprevious, rfl⟩ := Option.map_eq_some_iff.1 hsector
    obtain ⟨w, hw, hend⟩ := Option.bind_eq_some_iff.1 hprevious
    obtain ⟨place, hplace, rfl⟩ := Option.map_eq_some_iff.1 hend
    exact ((hlast w hw).places place (List.mem_of_getLast? hplace)).platform
  rw [readVariable_eq] at h
  obtain ⟨name, hname, h⟩ := bind_eq_ok h
  obtain ⟨size, hsize, h⟩ := bind_eq_ok h
  obtain ⟨places, hplaces, h⟩ := bind_eq_ok h
  obtain ⟨value, hvalue, h⟩ := bind_eq_ok h
  cases h
  refine ⟨⟨hclean.attr? (required_eq_ok_iff.1 hname), variableSize_eq_ok hsize, Bytes.fit_fit size value, ?_,
    fun r => referenceOf?_eq_some hclean⟩, rfl⟩
  show ∀ place ∈ places, Placed space place
  unfold readPlaces at hplaces
  split at hplaces
  · cases hplaces
    exact List.forall_mem_nil _
  · obtain ⟨spot, hspot, rfl⟩ := map_eq_ok hplaces
    exact placed_placement hspace hstandard hprevious hspot

/-- Variables that are read behind storable ones are storable, and derived ones come from elements that say so. -/
theorem storable_readVariables (hspace : space.Named) {standard : Option Sector} (hstandard : OnPlatform space standard)
    {nodes : List Node} (hnodes : ∀ n ∈ nodes, n.Clean) {vars : List Variable}
    (h : readVariables space standard [] nodes = .ok vars) :
    ∀ v ∈ vars, Storable space v ∧ ∃ n ∈ nodes, v.reference? = referenceOf? n := by
  refine foldlM_induction (motive := fun known => ∀ v ∈ known, Storable space v ∧ ∃ n ∈ nodes, v.reference? =
    referenceOf? n) (fun n hn known known' hknown hstep => ?_) (List.forall_mem_nil _) h
  obtain ⟨v, hv, hstep⟩ := bind_eq_ok hstep
  cases hstep
  refine List.forall_mem_append.2 ⟨hknown, List.forall_mem_singleton.2 ?_⟩
  obtain ⟨hstorable, hreference⟩ := storable_readVariable hspace (hnodes n hn) hstandard
    (fun w hw => (hknown w (List.mem_of_getLast? hw)).1) hv
  exact ⟨hstorable, n, hn, hreference⟩

/-! ## Variables that were written -/

theorem variableSize_written {n : Node} {name : String} {size : Nat} (h : n.attr? "bytes" = some (decimal size))
    (hsize : 1 ≤ size ∧ size ≤ 4) : variableSize n name = .ok size := by
  have hlt : size < 2 ^ 32 := by omega
  have hword : decimalWord? (decimal size) = some (UInt32.ofNat size) := by
    have := decimalWord?_decimal (UInt32.ofNat size)
    rwa [UInt32.toNat_ofNat_of_lt' hlt] at this
  unfold variableSize
  rw [h]
  dsimp only
  rw [hword]
  dsimp only
  rw [ok_bind, UInt32.toNat_ofNat_of_lt' hlt, Nat.mod_eq_of_lt (by omega), if_pos hsize]
  rfl

theorem referenceOf?_written {n : Node} {v : Variable} (h : VariableOf space v n)
    (hname : ∀ r, v.reference? = some r → trim r.name = r.name) : referenceOf? n = v.reference? := by
  have hsymbol : ∀ operator : Operator,
      Operator.ofText ((if operator = .copy then none else some operator.symbol).getD "") = operator := by
    intro operator
    cases operator <;> decide
  unfold referenceOf?
  rw [h.reference, h.operator, h.operand]
  cases hreference : v.reference? with
  | none => rfl
  | some r =>
    dsimp only [Option.map_some, Option.bind_some]
    rw [hname r hreference, hsymbol, hexWord?_hex]
    rfl

/-- A written variable is read as the variable wherever it stands, but for the value of a derived one. -/
theorem readVariable_written (hspace : space.Listed) {n : Node} {v : Variable} (h : VariableOf space v n)
    (hv : Storable space v) (standard : Option Sector) (last : Option Variable) :
    readVariable space standard last n = .ok { v with value := if v.isDerived then 0 else v.value } := by
  have hname := required_eq_ok_iff.2 h.name
  have hplaces : readPlaces space standard last n = .ok v.places := by
    unfold readPlaces marksSymbol
    rw [h.symbol]
    cases hempty : v.isPlaceless with
    | true =>
      rw [List.isEmpty_iff.1 hempty]
      rfl
    | false =>
      have hne : v.places ≠ [] := fun hnil => by
        rw [Variable.isPlaceless, hnil] at hempty
        cases hempty
      have hspecific := h.specific
      rw [hempty] at hspecific
      have hspot := placement_written hspace hne hv.places (h.others "offsetMode" (by decide)) hspecific standard
        (last.bind endOfVariable) (alignment n 0)
      rw [hspot]
      rfl
  have hvalue : ∃ value, readValue n = .ok value ∧
      Bytes.fit v.size value = if v.isDerived then 0 else v.value := by
    unfold readValue
    rw [h.default]
    cases v.isDerived with
    | true => exact ⟨0, rfl, Bytes.fit_zero v.size⟩
    | false => exact ⟨v.value, hexNumber_hex _ _, hv.value⟩
  obtain ⟨value, hvalue, hfit⟩ := hvalue
  rw [readVariable_eq, hname, ok_bind, variableSize_written h.bytes hv.size, ok_bind, hplaces, ok_bind, hvalue, ok_bind,
    referenceOf?_written h fun r hr => (hv.reference r hr).2, hfit]
  rfl

/-- Written variables that are not derived are read as the variables, whatever is known before. -/
theorem readVariables_written (hspace : space.Listed) {vars : List Variable}
    (h : ∀ v ∈ vars, Storable space v ∧ v.reference? = none) (known : List Variable) :
    readVariables space none known (vars.map fun v => (Variable.toXml space v).tidy) = .ok (known ++ vars) := by
  induction vars generalizing known with
  | nil =>
    rw [List.append_nil]
    rfl
  | cons v vars ih =>
    obtain ⟨⟨hv, hliteral⟩, hvars⟩ := List.forall_mem_cons.1 h
    have hread : readVariable space none known.getLast? (Variable.toXml space v).tidy = .ok v := by
      have hvalue : (if v.isDerived then 0 else v.value) = v.value := by
        rw [Variable.isDerived, hliteral]
        rfl
      rw [readVariable_written hspace (variableOf_toXml space v) hv, hvalue]
    unfold readVariables at ih ⊢
    rw [List.map_cons, List.foldlM_cons, hread, ok_bind]
    show (List.foldlM _ (known ++ [v]) _) = _
    rw [ih hvars, List.append_assoc]
    rfl

/-! ## Written and read again -/

/-- A variable over a table with distinct names is read again from what is written for it, whatever the sector of
the patch and the variable before are: with the same name, size, places and reference, and with the same value unless
that is derived. -/
theorem readVariable_toXml (table : SectorTable) (htable : table.Distinct)
    (hnames : ∀ e ∈ table.sectors, ValueText e.name) (v : Variable) (hname : ValueText v.name)
    (hsize : 1 ≤ v.size ∧ v.size ≤ 4) (hvalue : v.value.toNat < 256 ^ v.size)
    (hplaces : ∀ place ∈ v.places, place.sector.platform = table.platform ∧
      place.ram = table.space.toRam place.sector place.offset)
    (hreference : ∀ r, v.reference? = some r → ValueText r.name ∧ trim r.name = r.name) :
    ∃ n, Xml.parse? (Variable.toXml table.space v).render = some n ∧ ∀ standard last,
      readVariable table.space standard last n = .ok { v with value := if v.isDerived then 0 else v.value } := by
  have hprintable : NamesPrintable table.space := by
    intro s name hs
    obtain ⟨e, he, rfl, -⟩ := SectorTable.exists_of_nameOf? hs
    exact hnames e he
  have hfit : Bytes.fit v.size v.value = v.value := by
    apply UInt32.toNat_inj.1
    rw [Bytes.toNat_fit, Nat.min_eq_left hsize.2, Nat.mod_eq_of_lt hvalue]
  have hstorable : Storable table.space v :=
    ⟨hname, hsize, hfit, fun place hplace => ⟨(hplaces place hplace).1, (hplaces place hplace).2⟩, hreference⟩
  exact ⟨(Variable.toXml table.space v).tidy,
    parse?_render (printable_variable hprintable hname fun r hr => (hreference r hr).1) rfl,
    readVariable_written htable.listed (variableOf_toXml table.space v) hstorable⟩

/-- A table whose names have marks in them, and one of which is no number for its size only. -/
def markedTable : SectorTable where
  platform := .psx
  uncachedBits? := none
  sectors := [⟨"<&\">", 24, some 0xF800, none⟩, ⟨"99999999999", 62, none, none⟩, ⟨"ü", 63, none, none⟩]

/-- A derived variable with places in sectors of the table and in another one. -/
def quotient : Variable where
  name := "hp & 'mp'"
  size := 2
  value := 513
  places := [24, 62, 7, 24].map fun id => placeOfFile markedTable.space ⟨.psx, id⟩ 0xFFFFFFFF
  reference? := some ⟨"<base>", .divide, 0xFFFFFFFF⟩

theorem readVariable_toXml_quotient :
    ∃ n, Xml.parse? (Variable.toXml markedTable.space quotient).render = some n ∧ ∀ standard last,
      readVariable markedTable.space standard last n = .ok { quotient with value := 0 } :=
  readVariable_toXml markedTable ⟨by decide +kernel, by decide +kernel, by decide +kernel⟩
    (by unfold ValueText; decide +kernel) quotient (by unfold ValueText; decide +kernel) (by decide) (by decide)
    (by decide +kernel) (by
      rintro r ⟨⟩
      exact ⟨by unfold ValueText; decide +kernel, by decide +kernel⟩)

end DiscPatch.Description
