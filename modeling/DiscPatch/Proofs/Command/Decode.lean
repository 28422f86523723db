/-
One command. The decoder takes the shortest reading of the front bytes that is an id of the table, so
a stored command is found again exactly when its id is not shadowed: when no shorter reading of it is
another id. A command made from the table then decodes to itself, whatever follows it, and every
decoded command is one that could have been made, under an id that is not shadowed.
-/
import DiscPatch.Command.Stream
import DiscPatch.Proofs.Bytes.Field

namespace DiscPatch.Command

/-! ## Matching ids -/

theorem Table.eq_of_id_eq {table : Table} {t u : Layout} (ht : t ∈ table.layouts) (hu : u ∈ table.layouts)
    (h : t.id = u.id) : t = u :=
  List.inj_on_of_nodup_map table.nodup ht hu h

theorem Table.get?_id {table : Table} {t : Layout} (h : t ∈ table.layouts) : table.get? t.id = some t := by
  cases hg : table.get? t.id with
  | none =>
    unfold Table.get? at hg
    have := List.find?_eq_none.1 hg t h
    simp at this
  | some u =>
    obtain ⟨hu, he⟩ := Table.get?_eq_some hg
    rw [Table.eq_of_id_eq hu h he]

/-- The first hit in an increasing list is the hit at the least element. -/
theorem findSome?_eq_some_iff_least {α : Type} {f : Nat → Option α} {a : α} :
    ∀ {l : List Nat}, l.Pairwise (· < ·) →
      (l.findSome? f = some a ↔ ∃ n ∈ l, f n = some a ∧ ∀ m ∈ l, m < n → f m = none)
  | [], _ => by simp
  | k :: l, hl => by
    obtain ⟨hk, hl⟩ := List.pairwise_cons.1 hl
    rw [List.findSome?_cons]
    cases hf : f k with
    | some b =>
      constructor
      · rintro h
        cases h
        exact ⟨k, List.mem_cons_self .., hf, fun m hm hlt => by
          rcases List.mem_cons.1 hm with rfl | hm
          · omega
          · have := hk m hm; omega⟩
      · rintro ⟨n, hn, hfn, hleast⟩
        rcases List.mem_cons.1 hn with rfl | hn
        · rw [hf] at hfn; exact hfn
        · rw [hleast k (List.mem_cons_self ..) (hk n hn)] at hf; cases hf
    | none =>
      rw [findSome?_eq_some_iff_least hl]
      constructor
      · rintro ⟨n, hn, hfn, hleast⟩
        refine ⟨n, List.mem_cons_of_mem _ hn, hfn, fun m hm hlt => ?_⟩
        rcases List.mem_cons.1 hm with rfl | hm
        · exact hf
        · exact hleast m hm hlt
      · rintro ⟨n, hn, hfn, hleast⟩
        rcases List.mem_cons.1 hn with rfl | hn
        · rw [hf] at hfn; cases hfn
        · exact ⟨n, hn, hfn, fun m hm => hleast m (List.mem_cons_of_mem _ hm)⟩

/-- The layout whose id the first `n` bytes are. -/
def named? (table : Table) (bytes : Bytes) (n : Nat) : Option Layout :=
  (Bytes.split? n bytes).bind fun (front, _) => table.get? (Bytes.value front)

theorem named?_eq_some_iff {table : Table} {bytes : Bytes} {n : Nat} {t : Layout} :
    named? table bytes n = some t ↔
      n ≤ bytes.length ∧ t ∈ table.layouts ∧ t.id = Bytes.value (bytes.take n) := by
  unfold named?
  constructor
  · intro h
    obtain ⟨⟨front, rest⟩, hs, hg⟩ := Option.bind_eq_some_iff.1 h
    obtain ⟨rfl, hl⟩ := Bytes.split?_eq_some hs
    obtain ⟨ht, he⟩ := Table.get?_eq_some hg
    refine ⟨by rw [List.length_append]; omega, ht, ?_⟩
    rw [he, ← hl, List.take_left]
  · rintro ⟨hn, ht, he⟩
    rw [Bytes.split?_eq_of_le hn]
    show table.get? (Bytes.value (bytes.take n)) = some t
    rw [← he, Table.get?_id ht]

/-- A layout is matched when it is named by some bytes and no fewer bytes name one. -/
theorem match?_eq_some_iff {table : Table} {bytes : Bytes} {t : Layout} :
    match? table bytes = some t ↔
      ∃ n ∈ [1, 2, 3, 4], named? table bytes n = some t ∧
        ∀ m ∈ [1, 2, 3, 4], m < n → named? table bytes m = none :=
  findSome?_eq_some_iff_least (by decide)

/-! ## Shadowed ids -/

/-- An id is shadowed when its low one, two or three bytes are another id of the table. -/
def Shadowed (table : Table) (id : UInt32) : Prop :=
  ∃ n ∈ [1, 2, 3], ∃ t ∈ table.layouts, t.id.toNat = id.toNat % 256 ^ n ∧ t.id ≠ id

instance (table : Table) (id : UInt32) : Decidable (Shadowed table id) :=
  inferInstanceAs (Decidable (∃ n ∈ [1, 2, 3], _))

/-- A shorter reading of what names a layout is its id modulo a power of 256. -/
theorem toNat_value_take_of_named {table : Table} {bytes : Bytes} {m n : Nat} {t : Layout}
    (h : named? table bytes n = some t) (hmn : m ≤ n) (hn : n ≤ 4) :
    (Bytes.value (bytes.take m)).toNat = t.id.toNat % 256 ^ m := by
  rw [(named?_eq_some_iff.1 h).2.2, ← Bytes.toNat_value_take (by omega), List.take_take, Nat.min_eq_left hmn]

/-- Bytes that name a layout match it, unless its id is shadowed. -/
theorem match?_of_named {table : Table} {bytes : Bytes} {n : Nat} {t : Layout} (hn : n ∈ [1, 2, 3, 4])
    (h : named? table bytes n = some t) (hs : ¬ Shadowed table t.id) : match? table bytes = some t := by
  cases hm : match? table bytes with
  | none =>
    have := List.findSome?_eq_none_iff.1 hm n hn
    exact absurd (h.symm.trans this) (by simp)
  | some u =>
    obtain ⟨m, hm, hu, hleast⟩ := match?_eq_some_iff.1 hm
    obtain ⟨-, hul, huid⟩ := named?_eq_some_iff.1 hu
    have htl := (named?_eq_some_iff.1 h).2.1
    have hmn : m ≤ n := by
      by_contra hlt
      rw [hleast n hn (by omega)] at h; cases h
    by_cases he : u.id = t.id
    · rw [Table.eq_of_id_eq hul htl he]
    · have hval := toNat_value_take_of_named h hmn (by simp at hn; omega)
      have hm3 : m ∈ [1, 2, 3] := by
        rcases Nat.lt_or_eq_of_le hmn with hlt | rfl
        · simp at hm hn ⊢; omega
        · rw [hu] at h; cases h; exact absurd rfl he
      exact absurd ⟨m, hm3, u, hul, by rw [huid]; exact hval, he⟩ hs

/-- The id of a matched layout is not shadowed: the other id would have been met first. -/
theorem not_shadowed_of_match? {table : Table} {bytes : Bytes} {t : Layout}
    (h : match? table bytes = some t) : ¬ Shadowed table t.id := by
  rintro ⟨m, hm, u, hul, hu, hne⟩
  obtain ⟨n, hn, ht, hleast⟩ := match?_eq_some_iff.1 h
  obtain ⟨hlen, -, htid⟩ := named?_eq_some_iff.1 ht
  rcases Nat.lt_or_ge m n with hlt | hge
  · have hval := toNat_value_take_of_named ht hlt.le (by simp at hn; omega)
    have hnamed : named? table bytes m = some u :=
      named?_eq_some_iff.2 ⟨by omega, hul, UInt32.toNat_inj.1 (by rw [hval, hu])⟩
    rw [hleast m (by simp at hm ⊢; omega) hlt] at hnamed; cases hnamed
  · -- at least as many bytes as were read: the remainder is the id itself
    have hid : t.id.toNat < 256 ^ m := by
      have hl : (bytes.take n).length ≤ 4 := by simp at hn ⊢; omega
      have := Bytes.toNat_value_lt hl
      rw [List.length_take, Nat.min_eq_left hlen, ← htid] at this
      exact this.trans_le (Nat.pow_le_pow_right (by norm_num) hge)
    exact hne (UInt32.toNat_inj.1 (by rw [hu, Nat.mod_eq_of_lt hid]))

/-! ## Commands of a table -/

/-- The commands of a table: values for one of its layouts, any of them set again later. -/
inductive Made (table : Table) : Command → Prop
  | ofValues {t : Layout} (h : t ∈ table.layouts) (values : List UInt32) : Made table (ofValues t values)
  | withValue {c : Command} (h : Made table c) (index : Nat) (v : UInt32) : Made table (c.withValue index v)

/-- The value of an argument is one that its field can hold. -/
def Argument.Fits (a : Argument) : Prop := a.value = Bytes.fit a.parameter.width a.value

/-- A command has a layout of the table, and a value of the right width for each parameter. -/
structure Fits (table : Table) (c : Command) : Prop where
  known : c.layout ∈ table.layouts
  parameters : c.arguments.map (·.parameter) = c.layout.parameters
  values : ∀ a ∈ c.arguments, a.Fits

theorem Argument.fits_ofValue (p : Parameter) (v : UInt32) : (Argument.ofValue p v).Fits :=
  (Bytes.fit_fit p.width v).symm

theorem map_parameter_argumentsOf : ∀ (ps : List Parameter) (values : List UInt32),
    (argumentsOf ps values).map (·.parameter) = ps
  | [], _ => by rw [argumentsOf]; rfl
  | p :: ps, [] => by rw [argumentsOf, List.map_cons, map_parameter_argumentsOf ps []]; rfl
  | p :: ps, v :: vs => by rw [argumentsOf, List.map_cons, map_parameter_argumentsOf ps vs]; rfl

theorem fits_argumentsOf : ∀ (ps : List Parameter) (values : List UInt32), ∀ a ∈ argumentsOf ps values, a.Fits
  | [], _, a, h => by rw [argumentsOf] at h; cases h
  | p :: ps, [], a, h => by
    rw [argumentsOf] at h
    rcases List.mem_cons.1 h with rfl | h
    · exact Argument.fits_ofValue p 0
    · exact fits_argumentsOf ps [] a h
  | p :: ps, v :: vs, a, h => by
    rw [argumentsOf] at h
    rcases List.mem_cons.1 h with rfl | h
    · exact Argument.fits_ofValue p v
    · exact fits_argumentsOf ps vs a h

/-- Arguments that fit are those of their own values. -/
theorem argumentsOf_values : ∀ {as : List Argument}, (∀ a ∈ as, a.Fits) →
    argumentsOf (as.map (·.parameter)) (as.map (·.value)) = as
  | [], _ => rfl
  | a :: as, h => by
    have ha : Argument.ofValue a.parameter a.value = a := by
      unfold Argument.ofValue
      rw [← h a (List.mem_cons_self ..)]
    rw [List.map_cons, List.map_cons, argumentsOf, ha,
      argumentsOf_values fun b hb => h b (List.mem_cons_of_mem _ hb)]

/-- Setting an argument keeps its parameter and leaves a value that fits. -/
theorem fits_modify (v : UInt32) : ∀ {as : List Argument} (index : Nat), (∀ a ∈ as, a.Fits) →
    let set := as.modify index fun a => Argument.ofValue a.parameter v
    set.map (·.parameter) = as.map (·.parameter) ∧ ∀ a ∈ set, a.Fits
  | [], index, h => by
    rw [List.modify_nil]
    exact ⟨rfl, h⟩
  | a :: as, 0, h => by
    rw [List.modify_zero_cons]
    refine ⟨rfl, fun b hb => ?_⟩
    rcases List.mem_cons.1 hb with rfl | hb
    · exact Argument.fits_ofValue a.parameter v
    · exact h b (List.mem_cons_of_mem _ hb)
  | a :: as, index + 1, h => by
    obtain ⟨hp, hf⟩ := fits_modify v index fun b hb => h b (List.mem_cons_of_mem _ hb)
    rw [List.modify_succ_cons]
    refine ⟨by rw [List.map_cons, hp, List.map_cons], fun b hb => ?_⟩
    rcases List.mem_cons.1 hb with rfl | hb
    · exact h b (List.mem_cons_self ..)
    · exact hf b hb

theorem Fits.withValue {table : Table} {c : Command} (h : Fits table c) (index : Nat) (v : UInt32) :
    Fits table (c.withValue index v) := by
  obtain ⟨hp, hf⟩ := fits_modify v index h.values
  exact ⟨h.known, hp.trans h.parameters, hf⟩

/-- The commands made from a table are those that fit it. -/
theorem made_iff_fits {table : Table} {c : Command} : Made table c ↔ Fits table c := by
  constructor
  · intro h
    induction h with
    | ofValues ht values =>
      exact ⟨ht, map_parameter_argumentsOf _ values, fits_argumentsOf _ values⟩
    | withValue _ index v ih => exact ih.withValue index v
  · intro h
    have he : c = ofValues c.layout (c.arguments.map (·.value)) := by
      unfold ofValues
      rw [← h.parameters, argumentsOf_values h.values]
    rw [he]
    exact .ofValues h.known _

/-! ## Arguments -/

/-- The bytes of an argument. -/
def Argument.bytes (a : Argument) : Bytes := Bytes.ofValue a.parameter.width a.value

theorem Argument.length_bytes (a : Argument) : a.bytes.length = a.parameter.width :=
  Bytes.length_ofValue _ _

theorem encode_eq (c : Command) :
    c.encode = Bytes.ofValue c.layout.width c.layout.id ++ c.arguments.flatMap Argument.bytes := rfl

theorem length_flatMap_bytes (as : List Argument) :
    (as.flatMap Argument.bytes).length = Bytes.total ((as.map (·.parameter)).map (·.width)) := by
  induction as with
  | nil => rfl
  | cons a as ih =>
    rw [List.flatMap_cons, List.length_append, ih, Argument.length_bytes]
    rfl

/-- Arguments are read back from their bytes, whatever follows. -/
theorem readArguments_append (rest : Bytes) : ∀ {as : List Argument},
    (∀ a ∈ as, Layout.IsWidth a.parameter.width) → (∀ a ∈ as, a.Fits) →
    readArguments (as.map (·.parameter)) (as.flatMap Argument.bytes ++ rest) = some as
  | [], _, _ => rfl
  | a :: as, hw, hf => by
    have hread : Argument.ofValue a.parameter (Bytes.value a.bytes) = a := by
      unfold Argument.ofValue Argument.bytes
      rw [Bytes.value_ofValue (hw a (List.mem_cons_self ..)).2, Bytes.fit_fit, ← hf a (List.mem_cons_self ..)]
    have ih := readArguments_append rest (fun b hb => hw b (List.mem_cons_of_mem a hb))
      fun b hb => hf b (List.mem_cons_of_mem a hb)
    rw [List.map_cons, readArguments, List.flatMap_cons, List.append_assoc,
      Bytes.split?_append a.length_bytes]
    simp only [Option.bind_some, ih, Option.map_some]
    rw [hread]

/-- The arguments that are read belong to the parameters, fit, and have the bytes in front. -/
theorem readArguments_eq_some : ∀ {ps : List Parameter} {bytes : Bytes} {as : List Argument},
    (∀ p ∈ ps, Layout.IsWidth p.width) → readArguments ps bytes = some as →
    as.map (·.parameter) = ps ∧ (∀ a ∈ as, a.Fits) ∧ as.flatMap Argument.bytes <+: bytes
  | [], bytes, as, _, h => by
    cases h
    exact ⟨rfl, by simp, List.nil_prefix⟩
  | p :: ps, bytes, as, hw, h => by
    obtain ⟨⟨field, rest⟩, hs, h⟩ := Option.bind_eq_some_iff.1 h
    obtain ⟨as, hr, rfl⟩ := Option.map_eq_some_iff.1 h
    obtain ⟨rfl, hl⟩ := Bytes.split?_eq_some hs
    obtain ⟨hp, hf, hb⟩ := readArguments_eq_some (fun q hq => hw q (List.mem_cons_of_mem _ hq)) hr
    have hwp := (hw p (List.mem_cons_self ..)).2
    have hbytes : (Argument.ofValue p (Bytes.value field)).bytes = field := by
      unfold Argument.ofValue Argument.bytes
      rw [Bytes.ofValue_fit hwp, ← hl, Bytes.ofValue_value (hl ▸ hwp)]
    refine ⟨by rw [List.map_cons, hp]; rfl, fun a ha => ?_, ?_⟩
    · rcases List.mem_cons.1 ha with rfl | ha
      · exact Argument.fits_ofValue p _
      · exact hf a ha
    · rw [List.flatMap_cons, hbytes]
      exact (List.prefix_append_right_inj _).2 hb

/-- Arguments can be read when there are bytes for all of them. -/
theorem exists_readArguments : ∀ (ps : List Parameter) {bytes : Bytes},
    Bytes.total (ps.map (·.width)) ≤ bytes.length → ∃ as, readArguments ps bytes = some as
  | [], _, _ => ⟨[], rfl⟩
  | p :: ps, bytes, h => by
    have h : p.width + Bytes.total (ps.map (·.width)) ≤ bytes.length := h
    have hrest : Bytes.total (ps.map (·.width)) ≤ (bytes.drop p.width).length := by
      rw [List.length_drop]; omega
    obtain ⟨as, ih⟩ := exists_readArguments ps hrest
    refine ⟨Argument.ofValue p (Bytes.value (bytes.take p.width)) :: as, ?_⟩
    rw [readArguments, Bytes.split?_eq_of_le (by omega)]
    simp only [Option.bind_some, ih, Option.map_some]

/-! ## One command -/

theorem Fits.length_encode {table : Table} {c : Command} (h : Fits table c) : c.encode.length = c.size := by
  rw [encode_eq, List.length_append, Bytes.length_ofValue, length_flatMap_bytes, h.parameters]
  rfl

/-- The id of a layout is what the bytes of its field name. -/
theorem named?_encode {table : Table} {t : Layout} (h : t ∈ table.layouts) {n : Nat} (hn : n ≤ 4)
    (hid : t.id.toNat < 256 ^ n) (rest : Bytes) :
    named? table (Bytes.ofValue n t.id ++ rest) n = some t := by
  refine named?_eq_some_iff.2 ⟨by rw [List.length_append, Bytes.length_ofValue]; omega, h, ?_⟩
  apply UInt32.toNat_inj.1
  rw [List.take_left' (Bytes.length_ofValue n t.id), Bytes.toNat_value_ofValue hn, Nat.mod_eq_of_lt hid]

/-- A command under an id that is not shadowed decodes to itself, whatever follows. -/
theorem decode?_encode_append {table : Table} {c : Command} (hf : Fits table c)
    (hs : ¬ Shadowed table c.id) (rest : Bytes) : decode? table (c.encode ++ rest) = some c := by
  have hfields := table.fieldsFit c.layout hf.known
  have hid : c.layout.id.toNat < 256 ^ c.layout.width := by
    rw [← Bytes.capacity_eq]; exact table.idsFit c.layout hf.known
  have hwidth : c.layout.width ∈ [1, 2, 3, 4] := by
    have := hfields.1; unfold Layout.IsWidth at this; simp; omega
  have hargs := readArguments_append rest
    (fun a ha => hfields.2 a.parameter (hf.parameters ▸ List.mem_map_of_mem ha)) hf.values
  rw [hf.parameters] at hargs
  rw [encode_eq, List.append_assoc, decode?,
    match?_of_named hwidth (named?_encode hf.known hfields.1.2 hid _) hs, Option.bind_some,
    Bytes.split?_append (Bytes.length_ofValue _ _)]
  simp only [Option.bind_some, hargs, Option.map_some]

/-- A decoded command fits the table under an id that is not shadowed; its layout is the one matched,
and the bytes of its arguments stand behind the field of its id. -/
theorem decode?_eq_some {table : Table} {bytes : Bytes} {c : Command} (h : decode? table bytes = some c) :
    Fits table c ∧ ¬ Shadowed table c.id ∧ match? table bytes = some c.layout ∧
      c.layout.width ≤ bytes.length ∧ c.arguments.flatMap Argument.bytes <+: bytes.drop c.layout.width := by
  obtain ⟨t, ht, h⟩ := Option.bind_eq_some_iff.1 h
  obtain ⟨⟨front, rest⟩, hs, h⟩ := Option.bind_eq_some_iff.1 h
  obtain ⟨as, hr, rfl⟩ := Option.map_eq_some_iff.1 h
  obtain ⟨rfl, hl⟩ := Bytes.split?_eq_some hs
  have hmem := (match?_mem ht).1
  obtain ⟨hp, hf, hb⟩ := readArguments_eq_some (table.fieldsFit t hmem).2 hr
  refine ⟨⟨hmem, hp, hf⟩, not_shadowed_of_match? ht, ht, ?_, ?_⟩
  · rw [List.length_append]; show t.width ≤ _; omega
  · show _ <+: (front ++ rest).drop t.width
    rw [List.drop_left' hl]; exact hb

/-- A command takes no more bytes than there are. -/
theorem size_le_of_decode? {table : Table} {bytes : Bytes} {c : Command} (h : decode? table bytes = some c) :
    c.size ≤ bytes.length := by
  obtain ⟨hf, -, -, hw, hb⟩ := decode?_eq_some h
  have hl := hb.length_le
  rw [length_flatMap_bytes, hf.parameters, List.length_drop] at hl
  show c.layout.width + Bytes.total _ ≤ _
  omega

/-- Where a layout is matched and there are bytes for all its fields, a command is decoded. -/
theorem exists_decode? {table : Table} {bytes : Bytes} {t : Layout} (h : match? table bytes = some t)
    (hl : t.size ≤ bytes.length) : ∃ c, decode? table bytes = some c ∧ c.layout = t := by
  have hl : t.width + Bytes.total (t.parameters.map (·.width)) ≤ bytes.length := hl
  have hrest : Bytes.total (t.parameters.map (·.width)) ≤ (bytes.drop t.width).length := by
    rw [List.length_drop]; omega
  obtain ⟨as, ha⟩ := exists_readArguments t.parameters hrest
  refine ⟨⟨t, as⟩, ?_, rfl⟩
  rw [decode?, h, Option.bind_some, Bytes.split?_eq_of_le (by omega)]
  simp only [Option.bind_some, ha, Option.map_some]

end DiscPatch.Command
