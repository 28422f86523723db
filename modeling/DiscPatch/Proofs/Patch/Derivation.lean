/-
Derived variables after an update. Variables are derived in the order of their declaration, each from what
its referent is at that moment: from the new value of a referent declared before it, from the old one of
any other. So one update settles every derived variable whose referent stands before it or is not derived
itself, and a variable in front of a derived one is left behind.
-/
import DiscPatch.Assembly.Directives
import DiscPatch.Proofs.Patch.Invariant

namespace DiscPatch.Patch

open Assembly

/-! ## Deriving in order -/

/-- A variable derived where that is possible, and as it was where not. -/
def Variable.derivedIn (vars : List Variable) (v : Variable) : Variable :=
  match derive vars v with
  | .ok w => w
  | .error _ => v

/-- The variables as they are when the one at `i` is derived. -/
def midway (new old : List Variable) (i : Nat) : List Variable :=
  new.take i ++ old.drop i

/-- Each variable is derived from those before it as they have become and those behind it as they were. -/
theorem deriveFrom_eq (rest done : List Variable) :
    ∃ new, (deriveFrom done rest).1 = done ++ new ∧
      ∀ (i : Nat) (v : Variable), rest[i]? = some v →
        new[i]? = some (v.derivedIn (done ++ midway new rest i)) := by
  induction rest generalizing done with
  | nil => exact ⟨[], by rw [deriveFrom, List.append_nil], by simp⟩
  | cons v rest ih =>
    let w := v.derivedIn (done ++ v :: rest)
    have hstep : (deriveFrom done (v :: rest)).1 = (deriveFrom (done ++ [w]) rest).1 := by
      rw [deriveFrom]
      show _ = (deriveFrom (done ++ [v.derivedIn (done ++ v :: rest)]) rest).1
      unfold Variable.derivedIn
      cases derive (done ++ v :: rest) v <;> rfl
    obtain ⟨new, hnew, hat⟩ := ih (done ++ [w])
    refine ⟨w :: new, by rw [hstep, hnew, List.append_assoc]; rfl, fun i u hu => ?_⟩
    cases i with
    | zero =>
      cases hu
      rfl
    | succ i =>
      rw [List.getElem?_cons_succ, hat i u hu, List.append_assoc]
      rfl

theorem vars_update_eq (assembler : Assembler) (p : Patch) {i : Nat} {v : Variable} (h : p.vars[i]? = some v) :
    (p.update assembler).vars[i]? = some (v.derivedIn (midway (p.update assembler).vars p.vars i)) := by
  obtain ⟨new, hnew, hat⟩ := deriveFrom_eq p.vars []
  have hvars : (p.update assembler).vars = new := hnew
  rw [hvars]
  exact hat i v h

/-! ## Referents -/

theorem lookup?_of_getElem? {vars : List Variable} (hnodup : (vars.map (·.name)).Nodup) {j : Nat} {w : Variable}
    (h : vars[j]? = some w) : lookup? vars w.name = some w := by
  obtain ⟨u, hu⟩ := exists_lookup? (List.mem_map_of_mem (f := (·.name)) (List.mem_of_getElem? h))
  have hname : u.name = w.name := by simpa using List.find?_some hu
  rw [hu, List.inj_on_of_nodup_map hnodup (List.mem_of_find?_eq_some hu) (List.mem_of_getElem? h) hname]

/-- The value that a derived variable gets from its referent, unless that is a division by zero. -/
def Variable.derivedFrom? (v referent : Variable) : Option UInt32 :=
  v.reference?.bind fun r => (r.operator.result? referent.value r.operand).map (Bytes.fit v.size)

theorem Variable.derivedFrom?_congr {v w : Variable} (h : v.signature = w.signature) (referent : Variable) :
    v.derivedFrom? referent = w.derivedFrom? referent := by
  have hsize : v.size = w.size := congrArg Variable.Signature.size h
  have hreference : v.reference? = w.reference? := congrArg Variable.Signature.reference? h
  unfold derivedFrom?
  rw [hsize, hreference]

/-- Whether a derivation has a value does not depend on the value of the referent. -/
theorem Variable.derivedFrom?_isSome (v w w' : Variable) :
    (v.derivedFrom? w).isSome = (v.derivedFrom? w').isSome := by
  unfold derivedFrom?
  cases v.reference? with
  | none => rfl
  | some r =>
    rw [Option.bind_some, Option.bind_some, Option.isSome_map, Option.isSome_map]
    cases r.operator with
    | divide =>
      rw [Operator.result?, Operator.result?]
      by_cases h : r.operand = 0
      · rw [if_pos h, if_pos h]
      · rw [if_neg h, if_neg h]
        rfl
    | add | subtract | multiply | copy => rfl

theorem Variable.value_derivedIn {vars : List Variable} {v referent : Variable} {r : Reference} {x : UInt32}
    (hr : v.reference? = some r) (hreferent : lookup? vars r.name = some referent)
    (hx : v.derivedFrom? referent = some x) : (v.derivedIn vars).value = x := by
  unfold derivedFrom? at hx
  rw [hr, Option.bind_some] at hx
  obtain ⟨value, hvalue, hx⟩ := Option.map_eq_some_iff.1 hx
  have hderive : derive vars v = .ok (v.set value) := by
    unfold derive
    rw [hr]
    dsimp only
    rw [hreferent]
    dsimp only
    rw [hvalue]
  unfold derivedIn
  rw [hderive]
  exact hx

theorem derive_of_literal {vars : List Variable} {v : Variable} (h : v.reference? = none) : derive vars v = .ok v := by
  unfold derive
  rw [h]

theorem Variable.derivedIn_of_literal {vars : List Variable} {v : Variable} (h : v.reference? = none) :
    v.derivedIn vars = v := by
  unfold derivedIn
  rw [derive_of_literal h]

theorem deriveFrom_of_literal {rest : List Variable} (h : ∀ v ∈ rest, v.reference? = none) (done : List Variable) :
    deriveFrom done rest = (done ++ rest, []) := by
  induction rest generalizing done with
  | nil => rw [deriveFrom, List.append_nil]
  | cons v rest ih =>
    obtain ⟨hv, hrest⟩ := List.forall_mem_cons.1 h
    rw [deriveFrom, derive_of_literal hv]
    exact (ih hrest (done ++ [v])).trans (by rw [List.append_assoc]; rfl)

/-! ## One update -/

theorem getElem?_signature {vars vars' : List Variable}
    (h : vars'.map Variable.signature = vars.map Variable.signature) {i : Nat} {v : Variable}
    (hv : vars'[i]? = some v) : ∃ w, vars[i]? = some w ∧ w.signature = v.signature := by
  have heq : (vars.map Variable.signature)[i]? = some v.signature := by
    rw [← h, List.getElem?_map, hv]
    rfl
  rw [List.getElem?_map] at heq
  exact Option.map_eq_some_iff.1 heq

theorem signatures_midway {new old : List Variable}
    (h : new.map Variable.signature = old.map Variable.signature) (i : Nat) :
    (midway new old i).map Variable.signature = old.map Variable.signature := by
  unfold midway
  rw [List.map_append, List.map_take, h, List.map_drop, List.take_append_drop]

theorem getElem?_midway {new old : List Variable} {i : Nat} (hi : i ≤ new.length) (j : Nat) :
    (midway new old i)[j]? = if j < i then new[j]? else old[j]? := by
  have htake : (new.take i).length = i := List.length_take_of_le hi
  unfold midway
  by_cases hj : j < i
  · rw [if_pos hj, List.getElem?_append_left (by omega), List.getElem?_take_of_lt hj]
  · rw [if_neg hj, List.getElem?_append_right (by omega), htake, List.getElem?_drop]
    congr 1
    omega

/-- A derived variable gets its value from the referent as it has become where that stands before it, and as
it was where not. It agrees with the referent as it has become exactly in the first case, or if both give
the same value; a referent that is not derived itself stays what it was. -/
theorem value_update_iff (assembler : Assembler) {d : Draft} {p q : Patch} (hbuild : d.build = .ok p)
    (hruns : Runs p q) {i : Nat} {v : Variable} {r : Reference}
    (hv : (q.update assembler).vars[i]? = some v) (hr : v.reference? = some r) :
    ∃ j before after, q.vars[j]? = some before ∧ (q.update assembler).vars[j]? = some after ∧
      after.name = r.name ∧ (after.reference? = none → after = before) ∧
      ∀ x, v.derivedFrom? after = some x →
        v.derivedFrom? (if j < i then after else before) = some v.value ∧
        (v.value = x ↔ j < i ∨ v.derivedFrom? before = some x) := by
  let new := (q.update assembler).vars
  have hnew : new.map Variable.signature = q.vars.map Variable.signature := signatures_update assembler q
  have hresolved : Resolved q.vars := hruns.resolved hbuild
  -- the referent, before and after
  obtain ⟨after, hafter, hname⟩ : ∃ w ∈ new, w.name = r.name :=
    List.mem_map.1 ((hresolved.of_signatures hnew).references v (List.mem_of_getElem? hv) r hr)
  obtain ⟨j, hj⟩ := List.mem_iff_getElem?.1 hafter
  obtain ⟨before, hbefore, hsignature⟩ := getElem?_signature hnew hj
  obtain ⟨old, hold, hsame⟩ := getElem?_signature hnew hv
  refine ⟨j, before, after, hbefore, hj, hname, fun hliteral => ?_, fun x hx => ?_⟩
  · have hnone : before.reference? = none :=
      (congrArg Variable.Signature.reference? hsignature).trans hliteral
    have heq := vars_update_eq assembler q hbefore
    rw [Variable.derivedIn_of_literal hnone, hj] at heq
    exact Option.some.inj heq
  · let source := if j < i then after else before
    have hlookup : lookup? (midway new q.vars i) r.name = some source := by
      have hi : i ≤ new.length := (List.getElem?_eq_some_iff.1 hv).1.le
      have hat : (midway new q.vars i)[j]? = some source := by
        rw [getElem?_midway hi, hj, hbefore]
        show (if j < i then some after else some before) = some (if j < i then after else before)
        split <;> rfl
      have hsource : source.name = r.name := by
        show (if j < i then after else before).name = r.name
        split
        · exact hname
        · exact (congrArg Variable.Signature.name hsignature).trans hname
      rw [← hsource]
      exact lookup?_of_getElem? (hresolved.of_signatures (signatures_midway hnew i)).names hat
    have hvalue : v.derivedFrom? source = some v.value := by
      obtain ⟨y, hy⟩ : ∃ y, v.derivedFrom? source = some y := by
        rw [← Option.isSome_iff_exists, v.derivedFrom?_isSome source after, hx]
        rfl
      have heq := vars_update_eq assembler q hold
      rw [hv] at heq
      have hold' : old.reference? = some r := (congrArg Variable.Signature.reference? hsame).trans hr
      have hy' : old.derivedFrom? source = some y := (Variable.derivedFrom?_congr hsame source).trans hy
      rw [hy, Option.some.inj heq, Variable.value_derivedIn hold' hlookup hy']
    refine ⟨hvalue, ?_⟩
    by_cases hlt : j < i
    · have hsource : source = after := if_pos hlt
      rw [hsource, hx] at hvalue
      exact iff_of_true (Option.some.inj hvalue).symm (.inl hlt)
    · have hsource : source = before := if_neg hlt
      rw [hsource] at hvalue
      rw [hvalue, Option.some.injEq]
      exact (or_iff_right hlt).symm

/-! ## Chains of derived variables -/

/-- Whether a variable of the first name is derived from the second name. -/
def DerivesFrom (vars : List Variable) (a b : String) : Prop :=
  ∃ v ∈ vars, v.name = a ∧ ∃ r, v.reference? = some r ∧ r.name = b

/-- Whether no variable is derived from itself, not even through others. -/
def Acyclic (vars : List Variable) : Prop :=
  ∀ name, ¬ Relation.TransGen (DerivesFrom vars) name name

/-- Names whose ranks fall with each derivation form no cycle. -/
theorem acyclic_of_rank {vars : List Variable} (rank : String → Nat)
    (h : ∀ v ∈ vars, ∀ r, v.reference? = some r → rank r.name < rank v.name) : Acyclic vars := by
  have hfall : ∀ a b, Relation.TransGen (DerivesFrom vars) a b → rank b < rank a := by
    intro a b hab
    induction hab with
    | single hstep =>
      obtain ⟨v, hv, rfl, r, hr, rfl⟩ := hstep
      exact h v hv r hr
    | tail _ hstep ih =>
      obtain ⟨v, hv, rfl, r, hr, rfl⟩ := hstep
      exact (h v hv r hr).trans ih
  exact fun name hcycle => (hfall name name hcycle).false

/-- A literal variable behind two derived ones, each of them one more than the next. -/
def countdown : Draft where
  name := "countdown"
  vars := [
    ⟨"Position", 1, 0, [], some ⟨"Offset", .add, 1⟩⟩,
    ⟨"Offset", 1, 0, [], some ⟨"Base", .add, 1⟩⟩,
    ⟨"Base", 1, 5, [], none⟩]

/-- The variable in front of the literal one agrees with it after each update. -/
theorem value_update_offset :
    ∃ p q v after, countdown.build = .ok p ∧ Runs p q ∧ (q.update directives).vars[1]? = some v ∧
      v.reference? = some ⟨"Base", .add, 1⟩ ∧ after.name = "Base" ∧ after ∈ (q.update directives).vars ∧
      v.derivedFrom? after = some 10 ∧ v.value = 10 := by
  let p : Patch := ⟨"countdown", "", "countdown", [], countdown.vars, [], false, false, ""⟩
  let q : Patch := { p.update directives with
    vars := [⟨"Position", 1, 1, [], some ⟨"Offset", .add, 1⟩⟩,
      ⟨"Offset", 1, 6, [], some ⟨"Base", .add, 1⟩⟩, ⟨"Base", 1, 9, [], none⟩] }
  have hset : (p.update directives).setVariable "Base" 9 = .ok q := by decide
  have hruns : Runs p q := (Relation.ReflTransGen.single (.update directives p)).tail (.setVariable hset)
  obtain ⟨j, before, after, -, hafter, hname, hliteral, hvalue⟩ :=
    value_update_iff directives (d := countdown) (p := p) rfl hruns (i := 1) rfl rfl
  have hmem := List.mem_of_getElem? hafter
  obtain rfl : after = ⟨"Base", 1, 9, [], none⟩ := by
    have hlookup := lookup?_of_getElem? (by decide) hafter
    rw [hname] at hlookup
    exact (Option.some.inj hlookup).symm
  have hderived := hvalue 10 (by decide)
  refine ⟨p, q, _, _, rfl, hruns, rfl, rfl, rfl, hmem, by decide, hderived.2.2 (.inr ?_)⟩
  rw [← hliteral rfl]
  decide

/-- The variable in front of a derived one is derived from its old value. -/
theorem value_update_position :
    ∃ p v after, countdown.build = .ok p ∧ Acyclic p.vars ∧ v ∈ (p.update directives).vars ∧
      v.reference? = some ⟨"Offset", .add, 1⟩ ∧ lookup? (p.update directives).vars "Offset" = some after ∧
      v.derivedFrom? after = some 7 ∧ v.value = 1 := by
  exact ⟨_, ⟨"Position", 1, 1, [], some ⟨"Offset", .add, 1⟩⟩, ⟨"Offset", 1, 6, [], some ⟨"Base", .add, 1⟩⟩,
    rfl, acyclic_of_rank String.length (by decide), by decide, rfl, by decide, by decide, rfl⟩

end DiscPatch.Patch
