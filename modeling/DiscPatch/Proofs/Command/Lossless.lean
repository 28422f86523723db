/-
Which tables decode without loss. An id is matched on as few bytes as possible but takes its whole
field, so the bytes of the field behind the match are never compared. Encoding what was decoded gives
back the bytes exactly for the tables whose ids fill their fields; for any other table some bytes come
back changed.
-/
import DiscPatch.Proofs.Command.RoundTrip

namespace DiscPatch.Command

/-- The id of a layout fills its field: the field is one byte, or the last byte of the id is not
zero. -/
def Layout.IdFills (t : Layout) : Prop := t.width = 1 ∨ 256 ^ (t.width - 1) ≤ t.id.toNat

instance (t : Layout) : Decidable t.IdFills :=
  inferInstanceAs (Decidable (_ ∨ _))

/-- Every id that can be met fills its field. -/
def Table.IdsFill (table : Table) : Prop :=
  ∀ t ∈ table.layouts, ¬ Shadowed table t.id → t.IdFills

instance (table : Table) : Decidable table.IdsFill :=
  inferInstanceAs (Decidable (∀ t ∈ table.layouts, _))

/-! ## Tables whose ids fill their fields -/

/-- A matched id that fills its field is the value of that field. -/
theorem ofValue_id_of_match? {table : Table} {bytes : Bytes} {t : Layout} (h : match? table bytes = some t)
    (hl : t.width ≤ bytes.length) (hfill : t.IdFills) :
    Bytes.ofValue t.width t.id = bytes.take t.width := by
  obtain ⟨n, hn, ht, -⟩ := match?_eq_some_iff.1 h
  obtain ⟨hlen, hmem, hid⟩ := named?_eq_some_iff.1 ht
  have hw := (table.fieldsFit t hmem).1
  have hfit : t.id.toNat < 256 ^ t.width := by
    rw [← Bytes.capacity_eq]; exact table.idsFit t hmem
  have hn1 : 1 ≤ n ∧ n ≤ 4 := by simp at hn; omega
  -- the match is no shorter than the field, or the id would be too small to fill it
  have hwn : t.width ≤ n := by
    rcases hfill with h1 | hfill
    · omega
    · by_contra hlt
      have hl4 : (bytes.take n).length ≤ 4 := by rw [List.length_take]; omega
      have hlt' := Bytes.toNat_value_lt hl4
      rw [List.length_take, Nat.min_eq_left hlen, ← hid] at hlt'
      have : 256 ^ n ≤ 256 ^ (t.width - 1) := Nat.pow_le_pow_right (by norm_num) (by omega)
      omega
  have hval : Bytes.value (bytes.take t.width) = t.id := by
    apply UInt32.toNat_inj.1
    rw [toNat_value_take_of_named ht hwn hn1.2, Nat.mod_eq_of_lt hfit]
  have hl4 : (bytes.take t.width).length ≤ 4 := by rw [List.length_take]; exact (Nat.min_le_left _ _).trans hw.2
  have h := Bytes.ofValue_value hl4
  rwa [List.length_take, Nat.min_eq_left hl, hval] at h

/-- A decoded command whose id fills its field has the bytes in front. -/
theorem encode_prefix_of_decode? {table : Table} {bytes : Bytes} {c : Command}
    (h : decode? table bytes = some c) (hfill : c.layout.IdFills) : c.encode <+: bytes := by
  obtain ⟨-, -, hm, hl, hb⟩ := decode?_eq_some h
  rw [encode_eq, ofValue_id_of_match? hm hl hfill]
  have := (List.prefix_append_right_inj (bytes.take c.layout.width)).2 hb
  rwa [List.take_append_drop] at this

theorem encodeAll_decodeAll_prefix {table : Table} (hfill : table.IdsFill) (sentinels : List UInt32)
    (bytes : Bytes) : encodeAll (decodeAll table sentinels bytes) <+: bytes := by
  have one {bytes : Bytes} {c : Command} (h : decode? table bytes = some c) : c.encode <+: bytes := by
    obtain ⟨hf, hs, -⟩ := decode?_eq_some h
    exact encode_prefix_of_decode? h (hfill c.layout hf.known hs)
  refine decodeAll_induction (P := fun bytes cs => encodeAll cs <+: bytes) (fun _ _ => List.nil_prefix)
    (fun bytes c h _ => ?_) (fun bytes c cs h _ ih => ?_) bytes
  · rw [encodeAll_cons, show encodeAll [] = [] from rfl, List.append_nil]
    exact one h
  · rw [encodeAll_cons]
    obtain ⟨rest, rfl⟩ := one h
    rw [List.drop_left' (decode?_eq_some h).1.length_encode] at ih
    exact (List.prefix_append_right_inj _).2 ih

/-! ## Tables with an id that does not fill its field -/

/-- A layout's id with a one in the last byte of its field, then zeros for the parameters. -/
def smudged (t : Layout) : Bytes :=
  (Bytes.ofValue (t.width - 1) t.id ++ [1]) ++ List.replicate (Bytes.total (t.parameters.map (·.width))) 0

theorem length_smudged {t : Layout} (h : 1 ≤ t.width) : (smudged t).length = t.size := by
  simp only [smudged, List.length_append, Bytes.length_ofValue, List.length_replicate, List.length_singleton]
  show t.width - 1 + 1 + _ = t.width + _
  omega

/-- The smudged bytes decode to one command, which takes them all and is stored with a zero instead. -/
theorem decodeAll_smudged {table : Table} {t : Layout} (ht : t ∈ table.layouts)
    (hs : ¬ Shadowed table t.id) (hfill : ¬ t.IdFills) (sentinels : List UInt32) :
    let back := encodeAll (decodeAll table sentinels (smudged t))
    back.length = (smudged t).length ∧ back ≠ smudged t := by
  intro back
  have hw : 1 ≤ t.width ∧ t.width ≤ 4 := (table.fieldsFit t ht).1
  unfold Layout.IdFills at hfill
  have hid : t.id.toNat < 256 ^ (t.width - 1) := by omega
  have hnamed : named? table (smudged t) (t.width - 1) = some t := by
    rw [smudged, List.append_assoc]
    exact named?_encode ht (by omega) hid _
  have hmatch := match?_of_named (by simp; omega) hnamed hs
  obtain ⟨c, hc, rfl⟩ := exists_decode? hmatch (length_smudged hw.1).ge
  have hf := (decode?_eq_some hc).1
  have hrun : decodeAll table sentinels (smudged c.layout) = [c] := by
    have hdrop : (smudged c.layout).drop c.size = [] :=
      List.drop_eq_nil_of_le (length_smudged hw.1).le
    rw [decodeAll_of_some hc, hdrop, decodeAll_nil, ite_self]
  have hback : back = c.encode := by
    show encodeAll (decodeAll table sentinels (smudged c.layout)) = _
    rw [hrun, encodeAll_cons, show encodeAll [] = [] from rfl, List.append_nil]
  rw [hback]
  refine ⟨hf.length_encode.trans (length_smudged hw.1).symm, fun he => ?_⟩
  obtain ⟨n, hn⟩ : ∃ n, c.layout.width = n + 1 := ⟨c.layout.width - 1, by omega⟩
  rw [hn, Nat.add_sub_cancel] at hid
  rw [encode_eq, smudged, hn, Nat.add_sub_cancel, Bytes.ofValue_succ_of_lt hid] at he
  have := List.append_inj_left he (by simp)
  simp at this

/-- Decoding loses nothing exactly for the tables whose ids fill their fields. For any other table
some bytes are all decoded, and come back changed. -/
theorem encodeAll_decodeAll_prefix_iff (table : Table) :
    ((∀ (bytes : Bytes) (sentinels : List UInt32),
        encodeAll (decodeAll table sentinels bytes) <+: bytes) ↔ table.IdsFill) ∧
    (¬ table.IdsFill → ∃ bytes : Bytes, ∀ sentinels : List UInt32,
      (encodeAll (decodeAll table sentinels bytes)).length = bytes.length ∧
        encodeAll (decodeAll table sentinels bytes) ≠ bytes) := by
  have altered (h : ¬ table.IdsFill) : ∃ bytes : Bytes, ∀ sentinels : List UInt32,
      (encodeAll (decodeAll table sentinels bytes)).length = bytes.length ∧
        encodeAll (decodeAll table sentinels bytes) ≠ bytes := by
    unfold Table.IdsFill at h
    push Not at h
    obtain ⟨t, ht, hs, hfill⟩ := h
    exact ⟨smudged t, decodeAll_smudged ht hs hfill⟩
  refine ⟨⟨fun h => ?_, fun h bytes sentinels => encodeAll_decodeAll_prefix h sentinels bytes⟩, altered⟩
  by_contra hfill
  obtain ⟨bytes, hb⟩ := altered hfill
  obtain ⟨hl, hne⟩ := hb []
  exact hne ((h bytes []).eq_of_length hl)

end DiscPatch.Command
