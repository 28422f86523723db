/-
Steps that may fail: what each step returned when all of them succeed.
-/
import Mathlib.Tactic

namespace DiscPatch

variable {ε α β : Type}

theorem ok_bind (a : α) (f : α → Except ε β) : (Except.ok a >>= f) = f a := rfl

theorem bind_eq_ok {x : Except ε α} {f : α → Except ε β} {b : β} (h : (x >>= f) = .ok b) :
    ∃ a, x = .ok a ∧ f a = .ok b := by
  cases x with
  | error e => cases h
  | ok a => exact ⟨a, rfl, h⟩

theorem bind_eq_error_iff {x : Except ε α} {f : α → Except ε β} {e : ε} :
    (x >>= f) = .error e ↔ x = .error e ∨ ∃ a, x = .ok a ∧ f a = .error e := by
  cases x with
  | error e' =>
    refine ⟨fun h => .inl (congrArg Except.error (Except.error.inj h)), ?_⟩
    rintro (h | ⟨a, h, -⟩)
    · exact congrArg Except.error (Except.error.inj h)
    · cases h
  | ok a =>
    refine ⟨fun h => .inr ⟨a, rfl, h⟩, ?_⟩
    rintro (h | ⟨b, h, he⟩)
    · cases h
    · cases h
      exact he

theorem map_eq_ok {x : Except ε α} {f : α → β} {b : β} (h : x.map f = .ok b) : ∃ a, x = .ok a ∧ f a = b := by
  cases x with
  | error e => cases h
  | ok a => exact ⟨a, rfl, Except.ok.inj h⟩

theorem map_eq_error_iff {x : Except ε α} {f : α → β} {e : ε} : x.map f = .error e ↔ x = .error e := by
  cases x <;> simp [Except.map]

theorem mapError_eq_ok_iff {ε' : Type} {f : ε → ε'} {x : Except ε α} {a : α} : x.mapError f = .ok a ↔ x = .ok a := by
  cases x <;> simp [Except.mapError]

theorem mapError_eq_error_iff {ε' : Type} {f : ε → ε'} {x : Except ε α} {e' : ε'} :
    x.mapError f = .error e' ↔ ∃ e, x = .error e ∧ f e = e' := by
  cases x <;> simp [Except.mapError]

theorem toOption_eq_some_iff {x : Except ε α} {a : α} : x.toOption = some a ↔ x = .ok a := by
  cases x with
  | error e => exact ⟨fun h => (by cases h), fun h => (by cases h)⟩
  | ok b => exact ⟨fun h => congrArg Except.ok (Option.some.inj h), fun h => congrArg some (Except.ok.inj h)⟩

/-- A list of steps succeeds when each of them does. -/
theorem mapM_eq_ok_iff {f : α → Except ε β} {l : List α} {bs : List β} :
    l.mapM f = .ok bs ↔ List.Forall₂ (fun a b => f a = .ok b) l bs := by
  induction l generalizing bs with
  | nil =>
    rw [List.mapM_nil, List.forall₂_nil_left_iff]
    exact ⟨fun h => (Except.ok.inj h).symm, fun h => congrArg Except.ok h.symm⟩
  | cons a l ih =>
    rw [List.mapM_cons, List.forall₂_cons_left_iff]
    constructor
    · intro h
      obtain ⟨b, hb, h⟩ := bind_eq_ok h
      obtain ⟨more, hmore, h⟩ := bind_eq_ok h
      cases h
      exact ⟨b, more, hb, ih.1 hmore, rfl⟩
    · rintro ⟨b, more, hb, hmore, rfl⟩
      rw [hb, ok_bind, ih.2 hmore]
      rfl

theorem mapM_congr {f g : α → Except ε β} {l : List α} (h : ∀ a ∈ l, f a = g a) : l.mapM f = l.mapM g := by
  induction l with
  | nil => rfl
  | cons a l ih =>
    obtain ⟨ha, hl⟩ := List.forall_mem_cons.1 h
    rw [List.mapM_cons, List.mapM_cons, ha, ih hl]

theorem mapM_cons_eq_error_iff {f : α → Except ε β} {a : α} {l : List α} {e : ε} :
    (a :: l).mapM f = .error e ↔ f a = .error e ∨ (∃ b, f a = .ok b) ∧ l.mapM f = .error e := by
  rw [List.mapM_cons, bind_eq_error_iff]
  refine or_congr_right ⟨?_, ?_⟩
  · rintro ⟨b, hb, h⟩
    rcases bind_eq_error_iff.1 h with h | ⟨_, -, h⟩
    · exact ⟨⟨b, hb⟩, h⟩
    · cases h
  · rintro ⟨⟨b, hb⟩, h⟩
    exact ⟨b, hb, bind_eq_error_iff.2 (.inl h)⟩

/-- A list of steps fails with the error of the first step that fails. -/
theorem mapM_eq_error_iff {f : α → Except ε β} {l : List α} {e : ε} :
    l.mapM f = .error e ↔
      ∃ front a back, l = front ++ a :: back ∧ (∀ x ∈ front, ∃ b, f x = .ok b) ∧ f a = .error e := by
  induction l with
  | nil =>
    refine iff_of_false (fun h => by cases h) ?_
    rintro ⟨front, a, back, h, -⟩
    cases front <;> cases h
  | cons a l ih =>
    rw [mapM_cons_eq_error_iff, ih]
    constructor
    · rintro (ha | ⟨ha, front, a', back, rfl, hfront, ha'⟩)
      · exact ⟨[], a, l, rfl, List.forall_mem_nil _, ha⟩
      · exact ⟨a :: front, a', back, rfl, List.forall_mem_cons.2 ⟨ha, hfront⟩, ha'⟩
    · rintro ⟨front, a', back, h, hfront, ha'⟩
      cases front with
      | nil =>
        cases h
        exact .inl ha'
      | cons x front =>
        cases h
        obtain ⟨ha, hfront⟩ := List.forall_mem_cons.1 hfront
        exact .inr ⟨ha, front, a', back, rfl, hfront, ha'⟩

theorem mem_of_mapM_eq_ok {f : α → Except ε β} {l : List α} {bs : List β} (h : l.mapM f = .ok bs) {b : β}
    (hb : b ∈ bs) : ∃ a ∈ l, f a = .ok b := by
  induction mapM_eq_ok_iff.1 h with
  | nil => cases hb
  | cons hstep hrest ih =>
    rcases List.mem_cons.1 hb with rfl | hb
    · exact ⟨_, List.mem_cons_self .., hstep⟩
    · obtain ⟨a, ha, hstep⟩ := ih (mapM_eq_ok_iff.2 hrest) hb
      exact ⟨a, List.mem_cons_of_mem _ ha, hstep⟩

/-- The parts of the results come from parts of the list. -/
theorem exists_append_of_mapM_eq_ok {f : α → Except ε β} {l : List α} {bs bs' : List β}
    (h : l.mapM f = .ok (bs ++ bs')) :
    ∃ front back, l = front ++ back ∧ front.mapM f = .ok bs ∧ back.mapM f = .ok bs' := by
  have hsteps := mapM_eq_ok_iff.1 h
  exact ⟨l.take bs.length, l.drop bs.length, (List.take_append_drop ..).symm,
    mapM_eq_ok_iff.2 (List.forall₂_take_append _ _ _ hsteps), mapM_eq_ok_iff.2 (List.forall₂_drop_append _ _ _ hsteps)⟩

/-- A list of steps succeeds and leaves everything as it looked exactly when each of them does. -/
theorem exists_mapM_iff {γ : Type} {f : α → Except ε β} {look : α → γ} {look' : β → γ} {l : List α} :
    (∃ bs, l.mapM f = .ok bs ∧ bs.map look' = l.map look) ↔ ∀ a ∈ l, ∃ b, f a = .ok b ∧ look' b = look a := by
  induction l with
  | nil => exact ⟨fun _ => List.forall_mem_nil _, fun _ => ⟨[], rfl, rfl⟩⟩
  | cons a l ih =>
    rw [List.forall_mem_cons, ← ih, List.mapM_cons]
    constructor
    · rintro ⟨bs, h, hlook⟩
      obtain ⟨b, hb, h⟩ := bind_eq_ok h
      obtain ⟨more, hmore, h⟩ := bind_eq_ok h
      cases h
      obtain ⟨hhead, htail⟩ := List.cons.inj hlook
      exact ⟨⟨b, hb, hhead⟩, more, hmore, htail⟩
    · rintro ⟨⟨b, hb, hhead⟩, more, hmore, htail⟩
      refine ⟨b :: more, ?_, congrArg₂ List.cons hhead htail⟩
      rw [hb, ok_bind, hmore]
      rfl

/-- A loop that puts one result behind the others is a list of steps. -/
theorem foldlM_append_eq_mapM {step : List β → α → Except ε (List β)} {f : α → Except ε β} {l : List α}
    (hstep : ∀ a ∈ l, ∀ bs, step bs a = (f a).map fun b => bs ++ [b]) (bs : List β) :
    l.foldlM step bs = (l.mapM f).map (bs ++ ·) := by
  induction l generalizing bs with
  | nil =>
    show Except.ok bs = Except.ok (bs ++ [])
    rw [List.append_nil]
  | cons a l ih =>
    obtain ⟨ha, hl⟩ := List.forall_mem_cons.1 hstep
    rw [List.foldlM_cons, List.mapM_cons, ha]
    cases f a with
    | error e => rfl
    | ok b =>
      show l.foldlM step (bs ++ [b]) = _
      rw [ih hl, ok_bind]
      cases l.mapM f with
      | error e => rfl
      | ok more => exact congrArg Except.ok (List.append_assoc bs [b] more)

/-- A loop that puts one result behind the others gives a result for each element, in order. -/
theorem forall₂_of_foldlM {R : α → β → Prop} {step : List β → α → Except ε (List β)} {l : List α}
    (hstep : ∀ a ∈ l, ∀ bs bs', step bs a = .ok bs' → ∃ b, bs' = bs ++ [b] ∧ R a b) {bs out : List β}
    (h : l.foldlM step bs = .ok out) : ∃ more, out = bs ++ more ∧ List.Forall₂ R l more := by
  induction l generalizing bs with
  | nil => exact ⟨[], (Except.ok.inj h).symm.trans (List.append_nil bs).symm, .nil⟩
  | cons a l ih =>
    obtain ⟨ha, hl⟩ := List.forall_mem_cons.1 hstep
    rw [List.foldlM_cons] at h
    obtain ⟨bs', hbs', h⟩ := bind_eq_ok h
    obtain ⟨b, rfl, hb⟩ := ha bs bs' hbs'
    obtain ⟨more, rfl, hmore⟩ := ih hl h
    exact ⟨b :: more, List.append_assoc bs [b] more, .cons hb hmore⟩

/-- Where no step changes what is seen of its element, the list looks the same afterwards. -/
theorem map_eq_map_of_mapM_eq_ok {γ : Type} {f : α → Except ε β} {look : α → γ} {look' : β → γ}
    (hlook : ∀ a b, f a = .ok b → look' b = look a) {l : List α} {bs : List β} (h : l.mapM f = .ok bs) :
    bs.map look' = l.map look := by
  induction mapM_eq_ok_iff.1 h with
  | nil => rfl
  | cons hstep hrest ih =>
    rw [List.map_cons, List.map_cons, hlook _ _ hstep, ih (mapM_eq_ok_iff.2 hrest)]

/-- Steps that the elements of a list tell, taken one after the other. -/
inductive InTurn (step : β → α → β → Prop) : β → List α → β → Prop
  | nil (b : β) : InTurn step b [] b
  | cons {a : α} {l : List α} {b b' c : β} (h : step b a b') (hrest : InTurn step b' l c) : InTurn step b (a :: l) c

theorem foldlM_eq_ok_iff_inTurn {step : β → α → β → Prop} {f : β → α → Except ε β}
    (hstep : ∀ b a b', f b a = .ok b' ↔ step b a b') {l : List α} {b c : β} :
    l.foldlM f b = .ok c ↔ InTurn step b l c := by
  induction l generalizing b with
  | nil =>
    constructor
    · intro h
      cases h
      exact .nil _
    · intro h
      cases h
      rfl
  | cons a l ih =>
    rw [List.foldlM_cons]
    constructor
    · intro h
      obtain ⟨b', hb', h⟩ := bind_eq_ok h
      exact .cons ((hstep b a b').1 hb') (ih.1 h)
    · intro h
      cases h with
      | cons h hrest =>
        rw [(hstep _ _ _).2 h, ok_bind]
        exact ih.2 hrest

/-- What every step of a loop keeps holds after the loop. -/
theorem foldlM_induction {motive : β → Prop} {f : β → α → Except ε β} {l : List α} {b c : β}
    (hstep : ∀ a ∈ l, ∀ b c, motive b → f b a = .ok c → motive c) (hb : motive b) (h : l.foldlM f b = .ok c) :
    motive c := by
  induction l generalizing b with
  | nil =>
    cases h
    exact hb
  | cons a l ih =>
    rw [List.foldlM_cons] at h
    obtain ⟨b', hb', h⟩ := bind_eq_ok h
    exact ih (fun a ha => hstep a (List.mem_cons_of_mem _ ha)) (hstep a (List.mem_cons_self ..) b b' hb hb') h

end DiscPatch
