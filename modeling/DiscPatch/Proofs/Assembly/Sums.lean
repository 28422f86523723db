/-
Operands as signed sums. An operand is cut at its signs, and the pieces with something in them are its terms: the
first term without a value tells what is wrong with the operand, and where each has one, it counts positive or
negative after the minus signs in front of it. Reading the text character by character, with a total of 64 bits,
gives the same. A directive that stores data then has a field for each operand, which holds the sum where it fits.
-/
import DiscPatch.Proofs.Assembly.Size

namespace DiscPatch.Assembly

open Text

variable {symbols : Symbols} {whole : List Char}

/-! ## The terms of a text -/

/-- A part of an operand: the number of minus signs between it and the part before it, and its text between blanks. -/
structure Term where
  minuses : Nat
  text : List Char
  deriving DecidableEq, Repr

/-- The pieces of a text, each with the sign in front of it; the first one counts as behind a plus sign. -/
def signedPieces (cs : List Char) : List (Char × List Char) :=
  ('+' :: cs.filter isSign).zip (cs.splitOnP isSign)

/-- The pieces that are not blank, where `minuses` minus signs stand in front of them already. -/
def termsFrom (minuses : Nat) : List (Char × List Char) → List Term
  | [] => []
  | (sign, piece) :: rest =>
    let minuses := if sign = '-' then minuses + 1 else minuses
    if allBlank piece then termsFrom minuses rest else ⟨minuses, trimmed piece⟩ :: termsFrom 0 rest

/-- The terms of an operand. -/
def terms (cs : List Char) : List Term :=
  termsFrom 0 (signedPieces cs)

/-- What stands behind the last sign, or the whole text. -/
def lastPiece (cs : List Char) : List Char :=
  (cs.splitOnP isSign).getLast (List.splitOnP_ne_nil isSign cs)

/-- The sum of the values of terms, each negative behind an odd number of minus signs. -/
def signedSum (ts : List Term) (vs : List Int) : Int :=
  (ts.zipWith (fun t v => (-1) ^ t.minuses * v) vs).sum

theorem signedSum_cons (t : Term) (ts : List Term) (v : Int) (vs : List Int) :
    signedSum (t :: ts) (v :: vs) = (-1) ^ t.minuses * v + signedSum ts vs :=
  List.sum_cons

/-! ## Cutting at the signs -/

theorem splitOnP_isSign (cs : List Char) :
    cs.splitOnP isSign = (cutAtSigns cs).1 :: (cutAtSigns cs).2.map Prod.snd := by
  induction cs with
  | nil => rfl
  | cons c cs ih =>
    rw [List.splitOnP_cons_eq_if_modifyHead, cutAtSigns, ih]
    by_cases hc : isSign c = true <;> simp [hc]

theorem filter_isSign (cs : List Char) : cs.filter isSign = (cutAtSigns cs).2.map Prod.fst := by
  induction cs with
  | nil => rfl
  | cons c cs ih =>
    rw [List.filter_cons, cutAtSigns, ih]
    by_cases hc : isSign c = true <;> simp [hc]

theorem signedPieces_eq (cs : List Char) : signedPieces cs = ('+', (cutAtSigns cs).1) :: (cutAtSigns cs).2 := by
  simp [signedPieces, splitOnP_isSign, filter_isSign, List.zip_map']

theorem lastPiece_eq (cs : List Char) :
    lastPiece cs = ((cutAtSigns cs).1 :: (cutAtSigns cs).2.map Prod.snd).getLast (List.cons_ne_nil _ _) := by
  simp only [lastPiece, splitOnP_isSign]

/-! ## Sums of pieces -/

/-- The sign in front of the pieces counts like the minus signs before it. -/
theorem termsFrom_cons (minuses : Nat) (sign : Char) (piece : List Char) (rest : List (Char × List Char)) :
    termsFrom minuses ((sign, piece) :: rest) =
      termsFrom (if sign = '-' then minuses + 1 else minuses) (('+', piece) :: rest) := by
  simp [termsFrom]

theorem termsFrom_of_blank {piece : List Char} (h : allBlank piece = true) (minuses : Nat)
    (rest : List (Char × List Char)) : termsFrom minuses (('+', piece) :: rest) = termsFrom minuses rest := by
  simp [termsFrom, h]

theorem termsFrom_of_not_blank {piece : List Char} (h : allBlank piece = false) (minuses : Nat)
    (rest : List (Char × List Char)) :
    termsFrom minuses (('+', piece) :: rest) = ⟨minuses, trimmed piece⟩ :: termsFrom 0 rest := by
  simp [termsFrom, h]

/-- Adding up pieces takes the values of their terms one after the other, and only then looks at the last piece. -/
theorem sumPieces_eq (symbols : Symbols) (whole : List Char) (total : Int) (minuses : Nat) (piece : List Char)
    (rest : List (Char × List Char)) :
    sumPieces symbols whole total ((-1) ^ minuses) piece rest = do
      let vs ← (termsFrom minuses (('+', piece) :: rest)).mapM fun t => termValue symbols t.text
      if allBlank ((piece :: rest.map Prod.snd).getLast (List.cons_ne_nil _ _)) then
        .error (.badSymbol (String.ofList (trimmed whole)))
      else return total + signedSum (termsFrom minuses (('+', piece) :: rest)) vs := by
  induction rest generalizing total minuses piece with
  | nil =>
    rw [sumPieces]
    cases hblank : allBlank piece with
    | true =>
      rw [termsFrom_of_blank hblank]
      simp [termsFrom, hblank]
    | false =>
      rw [termsFrom_of_not_blank hblank]
      cases hvalue : termValue symbols (trimmed piece) <;> simp [termsFrom, hblank, hvalue, signedSum]
  | cons next rest ih =>
    obtain ⟨c, next⟩ := next
    rw [sumPieces]
    cases hblank : allBlank piece with
    | true =>
      have hsign : (if c = '-' then -(-1 : Int) ^ minuses else (-1) ^ minuses) =
          (-1) ^ (if c = '-' then minuses + 1 else minuses) := by
        split <;> simp [pow_succ]
      rw [if_pos rfl, hsign, ih, termsFrom_of_blank hblank, termsFrom_cons]
      rfl
    | false =>
      have hsign : (if c = '-' then (-1 : Int) else 1) = (-1) ^ (if c = '-' then 0 + 1 else 0) := by
        split <;> simp
      rw [if_neg (by simp), hsign, termsFrom_of_not_blank hblank, termsFrom_cons]
      cases hvalue : termValue symbols (trimmed piece) with
      | error cause => simp [hvalue]; rfl
      | ok v =>
        rw [ok_bind, ih]
        simp only [List.mapM_cons, hvalue, ok_bind, bind_assoc, pure_bind, signedSum_cons, add_assoc]
        rfl

/-- The terms of an operand have their values one after the other before the text behind its last sign counts. -/
theorem evaluate_eq (symbols : Symbols) (cs : List Char) :
    evaluate symbols cs = do
      let vs ← (terms cs).mapM fun t => termValue symbols t.text
      if allBlank (lastPiece cs) then .error (.badSymbol (String.ofList (trimmed cs)))
      else return signedSum (terms cs) vs := by
  have hsum := sumPieces_eq symbols cs 0 0 (cutAtSigns cs).1 (cutAtSigns cs).2
  simp only [pow_zero, zero_add] at hsum
  rw [lastPiece_eq, terms, signedPieces_eq]
  exact hsum

/-! ## Totals of 64 bits -/

/-- Whether the number fits into 64 bits with a sign. -/
def InWord64 (v : Int) : Prop :=
  -2 ^ 63 ≤ v ∧ v < 2 ^ 63

instance (v : Int) : Decidable (InWord64 v) :=
  inferInstanceAs (Decidable (_ ∧ _))

/-- Reads an operand character by character: `total` is the sum so far, `sign` the factor of the next term and
`piece` what was read of it. Nothing is given where a total does not fit into 64 bits. -/
def scan (symbols : Symbols) (whole : List Char) (total sign : Int) (piece : List Char) :
    List Char → Option (Except Cause Int)
  | [] =>
    if allBlank piece then some (.error (.badSymbol (String.ofList (trimmed whole))))
    else
      match termValue symbols (trimmed piece) with
      | .error cause => some (.error cause)
      | .ok v => if InWord64 (total + sign * v) then some (.ok (total + sign * v)) else none
  | c :: cs =>
    if isSign c then
      if allBlank piece then scan symbols whole total (if c = '-' then -sign else sign) piece cs
      else
        match termValue symbols (trimmed piece) with
        | .error cause => some (.error cause)
        | .ok v =>
          if InWord64 (total + sign * v) then
            scan symbols whole (total + sign * v) (if c = '-' then -1 else 1) [] cs
          else none
    else scan symbols whole total sign (piece ++ [c]) cs

theorem allBlank_append {front : List Char} (h : allBlank front = true) (cs : List Char) :
    allBlank (front ++ cs) = allBlank cs := by
  unfold allBlank at h ⊢
  rw [List.all_append, h, Bool.true_and]

theorem trimmed_append_of_blank {front : List Char} (h : allBlank front = true) (cs : List Char) :
    trimmed (front ++ cs) = trimmed cs := by
  induction front with
  | nil => rfl
  | cons c front ih =>
    simp only [allBlank, List.all_cons, Bool.and_eq_true] at h
    rw [List.cons_append, trimmed_cons_of_isBlank h.1]
    exact ih h.2

/-- Blanks that were kept in front of a piece do not count. -/
theorem sumPieces_append_of_blank {front : List Char} (h : allBlank front = true) (total sign : Int)
    (piece : List Char) (rest : List (Char × List Char)) :
    sumPieces symbols whole total sign (front ++ piece) rest = sumPieces symbols whole total sign piece rest := by
  cases rest with
  | nil => simp only [sumPieces, allBlank_append h, trimmed_append_of_blank h]
  | cons next rest => simp only [sumPieces, allBlank_append h, trimmed_append_of_blank h]

/-- A term has the value of a word. -/
theorem termValue_lt {token : List Char} {v : Int} (h : termValue symbols token = .ok v) : 0 ≤ v ∧ v < 2 ^ 32 := by
  have hword (w : UInt32) : 0 ≤ (w.toNat : Int) ∧ (w.toNat : Int) < 2 ^ 32 := by
    have := w.toNat_lt
    omega
  have hsymbol {lookup : String → Option UInt32} {name : List Char} (h : symbolValue lookup token name = .ok v) :
      0 ≤ v ∧ v < 2 ^ 32 := by
    unfold symbolValue at h
    split at h
    · split at h
      · cases h
        exact hword _
      · cases h
    · cases h
  unfold termValue at h
  split at h
  · exact hsymbol h
  · exact hsymbol h
  · unfold numberValue at h
    dsimp only at h
    split at h
    · cases h
      exact hword _
    · cases h

/-- A piece with a value has a character, which pays for what it adds to a total. -/
theorem total_add_le {total sign v : Int} {piece : List Char} {read : Nat} (hsign : sign = 1 ∨ sign = -1)
    (htotal : |total| ≤ 2 ^ 32 * read) (hblank : allBlank piece = false)
    (hvalue : termValue symbols (trimmed piece) = .ok v) :
    |total + sign * v| ≤ 2 ^ 32 * ((read + piece.length : Nat) : Int) := by
  have hne : piece ≠ [] := by
    rintro rfl
    cases hblank
  have hlength := List.length_pos_iff.2 hne
  obtain ⟨hlow, hhigh⟩ := termValue_lt hvalue
  rw [abs_le] at htotal ⊢
  rcases hsign with rfl | rfl <;> push_cast <;> omega

theorem InWord64.of_abs_le {v : Int} {n : Nat} (h : |v| ≤ 2 ^ 32 * n) (hn : n < 2 ^ 30) : InWord64 v := by
  rw [abs_le] at h
  unfold InWord64
  omega

/-- Where `read` counts the characters in front of the piece, the total fits into 64 bits throughout. -/
theorem scan_eq_sumPieces {total sign : Int} (piece cs : List Char) {read : Nat}
    (hsign : sign = 1 ∨ sign = -1) (htotal : |total| ≤ 2 ^ 32 * read)
    (hlength : read + piece.length + cs.length < 2 ^ 30) :
    scan symbols whole total sign piece cs =
      some (sumPieces symbols whole total sign (piece ++ (cutAtSigns cs).1) (cutAtSigns cs).2) := by
  induction cs generalizing total sign piece read with
  | nil =>
    simp only [scan, cutAtSigns, List.append_nil, sumPieces]
    cases hblank : allBlank piece with
    | true => rfl
    | false =>
      cases hvalue : termValue symbols (trimmed piece) with
      | error cause => rfl
      | ok v =>
        have hfits := InWord64.of_abs_le (total_add_le hsign htotal hblank hvalue) (by simpa using hlength)
        simp [hfits]
  | cons c cs ih =>
    rw [List.length_cons] at hlength
    rw [scan, cutAtSigns]
    cases hc : isSign c with
    | false =>
      have hread := ih (piece ++ [c]) hsign htotal (by simp; omega)
      simpa using hread
    | true =>
      cases hblank : allBlank piece with
      | true =>
        have hflip : (if c = '-' then -sign else sign) = 1 ∨ (if c = '-' then -sign else sign) = -1 := by
          split <;> omega
        have htotal' : |total| ≤ 2 ^ 32 * ((read + 1 : Nat) : Int) := by omega
        have hread := ih piece hflip htotal' (by omega)
        simp only [if_true, List.append_nil, hread, sumPieces, hblank, sumPieces_append_of_blank hblank]
      | false =>
        cases hvalue : termValue symbols (trimmed piece) with
        | error cause =>
          simp [sumPieces, hblank, hvalue]
          rfl
        | ok v =>
          have hnext : (if c = '-' then (-1 : Int) else 1) = 1 ∨ (if c = '-' then (-1 : Int) else 1) = -1 := by
            split <;> simp
          have hbound := total_add_le hsign htotal hblank hvalue
          have hfits := InWord64.of_abs_le hbound (by omega)
          have hread := ih [] hnext hbound (by simp; omega)
          simp [sumPieces, hblank, hvalue, hfits, hread]
          rfl

/-- Below `2 ^ 30` characters no total leaves 64 bits, and the reading gives the value of the operand. -/
theorem scan_eq_evaluate (symbols : Symbols) {cs : List Char} (h : cs.length < 2 ^ 30) :
    scan symbols cs 0 1 [] cs = some (evaluate symbols cs) :=
  have htotal : |(0 : Int)| ≤ 2 ^ 32 * ((0 : Nat) : Int) := by simp
  scan_eq_sumPieces [] cs (.inl rfl) htotal (by simpa using h)

/-! ## Fields -/

/-- Whether a value is in the range of signed or of unsigned fields of `width` bytes. -/
def InField (width : Nat) (v : Int) : Prop :=
  -2 ^ (8 * width - 1) ≤ v ∧ v < 2 ^ (8 * width)

instance (width : Nat) (v : Int) : Decidable (InField width v) :=
  inferInstanceAs (Decidable (_ ∧ _))

/-- What becomes of an operand: its value modulo those that a field can hold, little-endian, if it is in range, and
else zeros with one cause. -/
def StoredAs (symbols : Symbols) (width : Nat) (operand : List Char) (bytes : Bytes) (causes : List Cause) : Prop :=
  (∃ v, evaluate symbols operand = .ok v ∧ InField width v ∧
    bytes = Bytes.ofValue width (UInt32.ofNat (v % 256 ^ width).toNat) ∧ causes = []) ∨
  (∀ v, evaluate symbols operand = .ok v → ¬ InField width v) ∧ bytes = List.replicate width 0 ∧
    ∃ cause, causes = [cause]

/-- Whether the bytes of a step are those of the operands, one behind the other, and its causes are theirs. -/
def StoresEach (symbols : Symbols) (width : Nat) (operands : List (List Char)) (step : Step) : Prop :=
  ∃ slots : List (Bytes × List Cause),
    List.Forall₂ (fun operand s => StoredAs symbols width operand s.1 s.2) operands slots ∧
    step.bytes = slots.flatMap Prod.fst ∧ step.causes = slots.flatMap Prod.snd

theorem fits_iff {width : Nat} (h : 0 < width) (v : Int) : fits width v ↔ InField width v := by
  have hcapacity : (Bytes.capacity width : Int) = 2 * 2 ^ (8 * width - 1) := by
    obtain ⟨n, rfl⟩ : ∃ n, width = n + 1 := ⟨width - 1, by omega⟩
    have hpow : (256 : Int) ^ n = 2 ^ (8 * n) := by rw [pow_mul]; norm_num
    rw [Bytes.capacity_eq, show 8 * (n + 1) - 1 = 8 * n + 7 by omega]
    push_cast
    rw [pow_succ, hpow, pow_add]
    ring
  have hpow : (2 : Int) ^ (8 * width) = 2 * 2 ^ (8 * width - 1) := by
    rw [← pow_succ', show 8 * width - 1 + 1 = 8 * width by omega]
  unfold fits InField
  rw [hcapacity, hpow, Bool.and_eq_true, decide_eq_true_iff, decide_eq_true_iff]
  omega

/-- A field keeps a value modulo the number of those it can hold. -/
theorem ofValue_ofInt {width : Nat} (h : width ≤ 4) (v : Int) :
    Bytes.ofValue width (UInt32.ofInt v) = Bytes.ofValue width (UInt32.ofNat (v % 256 ^ width).toNat) := by
  have hdvd : (256 : Int) ^ width ∣ 2 ^ 32 := by exact_mod_cast Bytes.pow_dvd_word h
  have hword : (UInt32.ofInt v).toNat = (v % 2 ^ 32).toNat := by
    show (UInt32.ofNat (v % 2 ^ 32).toNat).toNat = _
    rw [UInt32.toNat_ofNat_of_lt' (by show _ < 2 ^ 32; omega)]
  have hmod : (v % 2 ^ 32).toNat % 256 ^ width = (v % 256 ^ width).toNat := by
    have hpos : (0 : Int) < 256 ^ width := by positivity
    have hnonneg := Int.emod_nonneg v hpos.ne'
    zify
    rw [Int.toNat_of_nonneg (by omega), Int.toNat_of_nonneg hnonneg, Int.emod_emod_of_dvd v hdvd]
  rw [← Bytes.ofValue_fit h, Bytes.fit, Nat.min_eq_left h, Bytes.capacity_eq, hword, hmod]

/-- What is wrong with an operand, if anything. -/
def slotCauses (symbols : Symbols) (width : Nat) (range : Range) (operand : List Char) : List Cause :=
  match field symbols width range operand with
  | .ok _ => []
  | .error cause => [cause]

theorem causes_store {rest : List Char} (h : operands rest ≠ []) (symbols : Symbols) (d : Directive) (width : Nat)
    (range : Range) :
    (store symbols d width range rest).causes = (operands rest).flatMap (slotCauses symbols width range) := by
  unfold store
  split
  · contradiction
  · dsimp only
    rw [List.filterMap_map, List.filterMap_eq_flatMap_toList]
    refine List.flatMap_congr fun operand _ => ?_
    unfold slotCauses
    rw [Function.comp_apply]
    split <;> simp_all

/-- An operand has its value in the slot, or the slot is empty and there is one cause. -/
theorem storedAs_slot {width : Nat} (hpos : 0 < width) (hle : width ≤ 4) (symbols : Symbols) (range : Range)
    (operand : List Char) :
    StoredAs symbols width operand (slot symbols width range operand) (slotCauses symbols width range operand) := by
  unfold slot slotCauses field
  cases hvalue : evaluate symbols operand with
  | error cause =>
    refine .inr ⟨fun v hv => ?_, rfl, cause, rfl⟩
    rw [hvalue] at hv
    cases hv
  | ok v =>
    rw [ok_bind]
    by_cases hfits : fits width v
    · rw [if_pos hfits]
      exact .inl ⟨v, hvalue, (fits_iff hpos v).1 hfits, ofValue_ofInt hle v, rfl⟩
    · rw [if_neg hfits]
      refine .inr ⟨fun v' hv' => ?_, rfl, _, rfl⟩
      rw [hvalue] at hv'
      cases hv'
      exact fun hrange => hfits ((fits_iff hpos v).2 hrange)

/-- A directive that stores data deals with its operands one by one. -/
theorem storesEach_step {d : Directive} {width : Nat} (hwidth : d.slotWidth? = some width) (symbols : Symbols)
    (position : Nat) {rest : List Char} (hrest : operands rest ≠ []) :
    StoresEach symbols width (operands rest) (d.step symbols position rest) := by
  have hstore (range : Range) (hpos : 0 < width) (hle : width ≤ 4) :
      StoresEach symbols width (operands rest) (store symbols d width range rest) := by
    refine ⟨(operands rest).map fun operand =>
      (slot symbols width range operand, slotCauses symbols width range operand), ?_, ?_, ?_⟩
    · rw [List.forall₂_map_right_iff, List.forall₂_same]
      exact fun operand _ => storedAs_slot hpos hle symbols range operand
    · rw [bytes_store, List.flatMap_map]
    · rw [causes_store hrest, List.flatMap_map]
  cases d with
  | word | half | byte =>
    cases hwidth
    exact hstore _ (by decide) (by decide)
  | label | equate | align | space => cases hwidth

/-! ## Operands -/

/-- The first term without a value tells what is wrong with an operand; where each has a value, the operand ends in a
term or is at fault, and its value is the sum of its terms, over which no total of 64 bits overflows. -/
theorem evaluate_signedSum (symbols : Symbols) {cs : List Char} (h : cs.length < 2 ^ 30) :
    (∀ front t back cause, terms cs = front ++ t :: back →
      (∀ s ∈ front, ∃ v, termValue symbols s.text = .ok v) → termValue symbols t.text = .error cause →
      evaluate symbols cs = .error cause) ∧
    (∀ vs, List.Forall₂ (fun t v => termValue symbols t.text = .ok v) (terms cs) vs →
      evaluate symbols cs =
        if allBlank (lastPiece cs) then .error (.badSymbol (String.ofList (trimmed cs)))
        else .ok (signedSum (terms cs) vs)) ∧
    scan symbols cs 0 1 [] cs = some (evaluate symbols cs) ∧
    ∀ line d rest width position, directiveOf? line = some (d, rest) → d.slotWidth? = some width →
      operands rest ≠ [] → StoresEach symbols width (operands rest) (stepLine symbols position line) := by
  refine ⟨?_, ?_, scan_eq_evaluate symbols h, ?_⟩
  · intro front t back cause hterms hfront ht
    have herror : (terms cs).mapM (fun t => termValue symbols t.text) = .error cause :=
      mapM_eq_error_iff.2 ⟨front, t, back, hterms, hfront, ht⟩
    rw [evaluate_eq, herror]
    rfl
  · intro vs hvs
    have hvalues : (terms cs).mapM (fun t => termValue symbols t.text) = .ok vs := mapM_eq_ok_iff.2 hvs
    rw [evaluate_eq, hvalues, ok_bind]
    rfl
  · intro line d rest width position hd hwidth hrest
    rw [stepLine_of_directive hd]
    exact storesEach_step hwidth symbols position hrest

/-- Signs in runs, in front and between blanks: two of the three terms count positive, the last one negative behind
three minus signs. The sum has a field of two bytes, and without its last term the text is at fault. -/
theorem evaluate_signedSum_sign_runs :
    let symbols : Symbols := ⟨[("hook", 5)], []⟩
    let operand := "- - 0X10 + @hook- \t-+-300".toList
    operand.length < 2 ^ 30 ∧
      terms operand = [⟨2, "0X10".toList⟩, ⟨0, "@hook".toList⟩, ⟨3, "300".toList⟩] ∧
      evaluate symbols operand = .ok (-279) ∧
      scan symbols operand 0 1 [] operand = some (.ok (-279)) ∧
      (stepLine symbols 0 (".half ".toList ++ operand)).bytes = [0xE9, 0xFE] ∧
      evaluate symbols "0x10 + -".toList = .error (.badSymbol "0x10 + -") ∧
      evaluate symbols "0x10 + @jump -".toList = .error (.undefinedSymbol "@jump") := by
  intro symbols operand
  have hlength : operand.length < 2 ^ 30 := by decide
  obtain ⟨-, hsum, hscan, hstore⟩ := evaluate_signedSum symbols hlength
  have hvalue : evaluate symbols operand = .ok (-279) :=
    hsum [16, 5, 300] (.cons (by decide) (.cons (by decide) (.cons (by decide) .nil)))
  refine ⟨hlength, by decide, hvalue, hvalue ▸ hscan, ?_, ?_, ?_⟩
  · obtain ⟨slots, hslots, hbytes, -⟩ :=
      hstore (".half ".toList ++ operand) .half operand 2 0 (by decide +kernel) rfl (by decide +kernel)
    have hone : operands operand = [operand] := by decide +kernel
    rw [hone] at hslots
    obtain ⟨s, more, hs, hmore, rfl⟩ := List.forall₂_cons_left_iff.1 hslots
    cases hmore
    rw [hbytes]
    rcases hs with ⟨v, hv, -, hs, -⟩ | ⟨hnone, -⟩
    · rw [hvalue] at hv
      cases hv
      rw [List.flatMap_singleton, hs]
      decide
    · exact absurd (by decide) (hnone _ hvalue)
  · obtain ⟨-, hfault, -⟩ := evaluate_signedSum symbols (show "0x10 + -".toList.length < 2 ^ 30 by decide)
    exact hfault [16] (.cons (by decide) .nil)
  · obtain ⟨hfirst, -⟩ := evaluate_signedSum symbols (show "0x10 + @jump -".toList.length < 2 ^ 30 by decide)
    exact hfirst [⟨0, "0x10".toList⟩] ⟨0, "@jump".toList⟩ [] _ (by decide)
      (List.forall_mem_singleton.2 ⟨16, by decide⟩) (by decide)

end DiscPatch.Assembly
