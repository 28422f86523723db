/-
An update right after an update. Where each derived variable refers to one declared before it, one pass derives
every variable for good; and a segment that is encoded again with the same symbols comes out as it was, whether
its bytes were replaced or kept.
-/
import DiscPatch.Proofs.Patch.Derivation
import DiscPatch.Proofs.Patch.LabelReference

namespace DiscPatch.Patch

open Assembly

/-! ## References to variables in front -/

/-- Whether each derived variable refers to a known name or to a variable in front of it. -/
def LooksBack (known : List String) : List Variable → Prop
  | [] => True
  | v :: rest => (∀ r ∈ v.reference?, r.name ∈ known) ∧ LooksBack (known ++ [v.name]) rest

instance decidableLooksBack : (known : List String) → (vars : List Variable) → Decidable (LooksBack known vars)
  | _, [] => .isTrue trivial
  | known, v :: rest =>
    letI := decidableLooksBack (known ++ [v.name]) rest
    inferInstanceAs (Decidable (_ ∧ _))

/-- Names and references are fixed about a variable, so no operation turns a reference around. -/
theorem LooksBack.of_signatures {vars vars' : List Variable} {known : List String} (h : LooksBack known vars)
    (heq : vars'.map Variable.signature = vars.map Variable.signature) : LooksBack known vars' := by
  induction vars generalizing vars' known with
  | nil =>
    rw [List.map_nil, List.map_eq_nil_iff] at heq
    rw [heq]
    trivial
  | cons v rest ih =>
    cases vars' with
    | nil => cases heq
    | cons v' rest' =>
      obtain ⟨hv, hrest⟩ := List.cons.inj heq
      have hname : v'.name = v.name := congrArg Variable.Signature.name hv
      have hreference : v'.reference? = v.reference? := congrArg Variable.Signature.reference? hv
      refine ⟨?_, ?_⟩
      · rw [hreference]
        exact h.1
      · rw [hname]
        exact ih h.2 hrest

theorem Runs.looksBack {p q : Patch} (hruns : Runs p q) (h : LooksBack [] p.vars) : LooksBack [] q.vars :=
  h.of_signatures hruns.extends.signatures

/-! ## Deriving again -/

theorem lookup?_append_of_mem {done : List Variable} {name : String} (h : name ∈ done.map (·.name))
    (rest : List Variable) : lookup? (done ++ rest) name = lookup? done name := by
  obtain ⟨u, hu⟩ := exists_lookup? h
  rw [hu]
  unfold lookup? at hu ⊢
  rw [List.find?_append, hu]
  rfl

/-- What is derived from a variable in front depends on nothing behind that. -/
theorem derive_append {done : List Variable} {v : Variable} (h : ∀ r ∈ v.reference?, r.name ∈ done.map (·.name))
    (rest : List Variable) : derive (done ++ rest) v = derive done v := by
  unfold derive
  cases hr : v.reference? with
  | none => rfl
  | some r =>
    dsimp only
    rw [lookup?_append_of_mem (h r hr)]

theorem Variable.set_set (v : Variable) (value : UInt32) : (v.set value).set value = v.set value := rfl

/-- A derived variable is derived to what it is. -/
theorem derive_of_derived {vars : List Variable} {v w : Variable} (h : derive vars v = .ok w) :
    derive vars w = .ok w := by
  unfold derive at h
  cases hr : v.reference? with
  | none =>
    rw [hr] at h
    cases h
    exact derive_of_literal hr
  | some r =>
    rw [hr] at h
    dsimp only at h
    cases hreferent : lookup? vars r.name with
    | none =>
      rw [hreferent] at h
      cases h
    | some referent =>
      rw [hreferent] at h
      dsimp only at h
      cases hvalue : r.operator.result? referent.value r.operand with
      | none =>
        rw [hvalue] at h
        cases h
      | some value =>
        rw [hvalue] at h
        cases h
        have hr' : (v.set value).reference? = some r := hr
        unfold derive
        rw [hr']
        dsimp only
        rw [hreferent]
        dsimp only
        rw [hvalue]
        exact congrArg Except.ok (v.set_set value)

/-- Deriving what was derived gives the same values and the same faults. -/
theorem deriveFrom_derived {rest : List Variable} (done : List Variable) (h : LooksBack (done.map (·.name)) rest) :
    ∃ new, (deriveFrom done rest).1 = done ++ new ∧ deriveFrom done new = deriveFrom done rest := by
  induction rest generalizing done with
  | nil => exact ⟨[], (List.append_nil done).symm, rfl⟩
  | cons v rest ih =>
    obtain ⟨hv, hrest⟩ := h
    cases hd : derive done v with
    | ok w =>
      have hname : w.name = v.name := congrArg Variable.Signature.name (evolves_of_derive hd).signature
      have hreference : w.reference? = v.reference? :=
        congrArg Variable.Signature.reference? (evolves_of_derive hd).signature
      have hw : ∀ r ∈ w.reference?, r.name ∈ done.map (·.name) := by rwa [hreference]
      obtain ⟨new, hnew, hagain⟩ := ih (done ++ [w]) (by simpa [hname] using hrest)
      have hfirst : deriveFrom done (v :: rest) = deriveFrom (done ++ [w]) rest := by
        rw [deriveFrom, derive_append hv, hd]
      have hsecond : deriveFrom done (w :: new) = deriveFrom (done ++ [w]) new := by
        rw [deriveFrom, derive_append hw, derive_of_derived hd]
      refine ⟨w :: new, ?_, ?_⟩
      · rw [hfirst, hnew, List.append_assoc]
        rfl
      · rw [hfirst, hsecond, hagain]
    | error fault =>
      obtain ⟨new, hnew, hagain⟩ := ih (done ++ [v]) (by simpa using hrest)
      -- the variable keeps its value, and fails again in the same way
      have hstep (l : List Variable) : deriveFrom done (v :: l) =
          ((deriveFrom (done ++ [v]) l).1, fault :: (deriveFrom (done ++ [v]) l).2) := by
        rw [deriveFrom, derive_append hv, hd]
      refine ⟨v :: new, ?_, ?_⟩
      · rw [hstep, hnew, List.append_assoc]
        rfl
      · rw [hstep, hstep, hagain]

/-! ## Encoding again -/

/-- A segment that was encoded is left as it is by the same encoding. -/
theorem Segment.refresh_refresh (assembler : Assembler) (symbols : Symbols) (moves : List RamMove) (s : Segment) :
    (s.refresh assembler symbols moves).refresh assembler symbols moves = s.refresh assembler symbols moves := by
  cases hhex : s.labelledHex? with
  | some source =>
    cases hbytes : Bytes.ofHex? (assembler.fillLabels source symbols) with
    | some bytes => simp [refresh, hhex, hbytes]
    | none => simp [refresh, hhex, hbytes]
  | none =>
    cases hassembly : s.assembly? with
    | none => simp [refresh, hhex, hassembly]
    | some source =>
      simp only [refresh, hhex, hassembly]
      -- the same bytes come out, and where the old ones were kept these are the old ones
      split <;> simp_all

/-! ## The whole patch -/

theorem update_update_of_looksBack {p : Patch} (h : LooksBack [] p.vars) (assembler : Assembler) :
    (p.update assembler).update assembler = p.update assembler := by
  obtain ⟨new, hnew, hagain⟩ := deriveFrom_derived [] h
  let symbols := symbolsOf p.segments (deriveFrom [] p.vars).1
  let segments := p.segments.map (Segment.refresh assembler symbols p.moves)
  have hvars : (p.update assembler).vars = new := hnew
  have hderive : deriveFrom [] (p.update assembler).vars = deriveFrom [] p.vars := by
    rw [hvars]
    exact hagain
  have hsymbols : symbolsOf segments (deriveFrom [] p.vars).1 = symbols := symbols_update assembler p
  have hsegments : segments.map (Segment.refresh assembler symbols p.moves) = segments := by
    rw [List.map_map]
    exact List.map_congr_left fun s _ => s.refresh_refresh assembler symbols p.moves
  unfold update
  dsimp only
  rw [show deriveFrom [] (deriveFrom [] p.vars).1 = deriveFrom [] p.vars from hderive]
  show Patch.mk _ _ _ (segments.map (Segment.refresh assembler (symbolsOf segments (deriveFrom [] p.vars).1) p.moves))
    _ _ _ _ (faultsOf (segments.map (Segment.refresh assembler
      (symbolsOf segments (deriveFrom [] p.vars).1) p.moves)) ++ _) = _
  rw [hsymbols, hsegments]

/-- In every state of a patch whose derived variables refer to variables declared before them, a second update in
a row changes nothing at all, whatever the assembler, the moves and the errors are. -/
theorem update_update_of_runs {p q : Patch} (h : LooksBack [] p.vars) (hruns : Runs p q) (assembler : Assembler) :
    (q.update assembler).update assembler = q.update assembler :=
  update_update_of_looksBack (hruns.looksBack h) assembler

/-- A variable derived from the one in front of it, and one divided by zero. -/
def meter : Draft where
  name := "meter"
  segments := [
    { Segment.ofBytes ⟨.psx, 24⟩ 0x800 [1, 2, 3, 4] with ram := 0x80010000, label? := some "target" },
    { (Segment.ofBytes ⟨.psx, 24⟩ 0x2000 []).assembled ".word @target, %Offset" with
      ram := 0x80011800, movesSimply := false },
    { (Segment.ofBytes ⟨.psx, 24⟩ 0x3000 [7, 7]).assembled "beq" with ram := 0x80012800 }]
  vars := [
    ⟨"Base", 1, 5, [], none⟩,
    ⟨"Offset", 1, 0, [], some ⟨"Base", .add, 1⟩⟩,
    ⟨"Ratio", 1, 3, [], some ⟨"Offset", .divide, 0⟩⟩]

/-- Between a move, a new value and errors of two kinds, the first update changes the patch and the second does
not. -/
theorem update_update_meter :
    ∃ p q, meter.build = .ok p ∧ LooksBack [] p.vars ∧ Runs p q ∧ q.moves ≠ [] ∧ (q.update directives).faultText ≠ "" ∧
      (q.update directives).segments.map (·.bytes) = [[1, 2, 3, 4], [0, 2, 1, 0x80, 10, 0, 0, 0], [7, 7]] ∧
      q.update directives ≠ q ∧ (q.update directives).update directives = q.update directives := by
  let p := meter.patch
  let moved := p.move directives SectorTable.psx.space [⟨⟨.psx, 24⟩, 0x800, 0x1800, 0x100⟩]
  let q := { moved with vars := ⟨"Base", 1, 9, [], none⟩ :: meter.vars.tail }
  have hset : moved.setVariable "Base" 9 = .ok q := by decide +kernel
  have hbackward : LooksBack [] p.vars := by decide
  have hruns : Runs p q := (Relation.ReflTransGen.single (.move _ _ p _)).tail (.setVariable hset)
  refine ⟨p, q, rfl, hbackward, hruns, by decide +kernel, by decide +kernel, by decide +kernel, by decide +kernel, ?_⟩
  exact update_update_of_runs hbackward hruns directives

end DiscPatch.Patch
