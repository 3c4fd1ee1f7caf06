import UnitMatrix.Proofs.Number.Bits
import UnitMatrix.Proofs.Number.Layout

/-! Numbers read back from their text. Whatever the style, reading the whole text of a number returns
that number, negative zero, infinity and what is not a number included. -/

namespace UnitMatrix

def Closes (rest : List Char) : Prop := ∀ c ∈ rest.head?, c = ',' ∨ c = ']'

namespace Layout

variable {f : Binary} {l : Layout} {rest : List Char}

theorem splitSign_exponent (signsExponent : Bool) (e : Int) (rest : List Char) :
    splitSign (exponentSign signsExponent e ++ (Nat.toDigits 10 e.natAbs ++ rest)) =
      (decide (e < 0), Nat.toDigits 10 e.natAbs ++ rest) := by
  by_cases he : e < 0
  · simp [exponentSign, he, splitSign]
  · cases signsExponent with
    | true => simp [exponentSign, he, splitSign]
    | false =>
      rw [exponentSign, if_neg he, if_neg Bool.false_ne_true, decide_eq_false he, List.nil_append]
      refine splitSign_eq fun c hc => ?_
      rw [List.head?_append_of_ne_nil _ Nat.toDigits_ne_nil] at hc
      have hdigit := isDigit_of_mem_toDigits (List.mem_of_mem_head? hc)
      constructor <;> rintro rfl <;> exact absurd hdigit (by decide)

theorem signed_natAbs (e : Int) :
    (if decide (e < 0) then -(e.natAbs : Int) else e.natAbs) = e := by
  simp only [decide_eq_true_eq]
  omega

/-- The exponent stops the digits before it. -/
theorem head_exponentText (hrest : Closes rest) (signsExponent : Bool) (e? : Option Int) :
    ∀ c ∈ (exponentText signsExponent e? ++ rest).head?, c.isDigit = false ∧ c ≠ '.' := by
  intro c hc
  cases e? with
  | none => rcases hrest c hc with rfl | rfl <;> decide
  | some e =>
    cases hc
    decide

theorem head_fractionText (hrest : Closes rest) (signsExponent : Bool) :
    ∀ c ∈ (fractionText l.fraction ++ (exponentText signsExponent l.exponent? ++ rest)).head?,
      c.isDigit = false := by
  intro c hc
  unfold fractionText at hc
  split at hc
  next => exact (head_exponentText hrest _ _ c hc).1
  next =>
    cases hc
    rfl

theorem span_whole (hl : l.Normal) (hrest : Closes rest) (signsExponent : Bool) :
    (l.text signsExponent ++ rest).span Char.isDigit =
      (l.whole, fractionText l.fraction ++ (exponentText signsExponent l.exponent? ++ rest)) := by
  rw [text, List.append_assoc, List.append_assoc]
  exact span_isDigit (fun c hc => hl.isDigit c (List.mem_append_left _ hc))
    (head_fractionText hrest signsExponent)

theorem span_fraction (hl : l.Normal) (hrest : Closes rest) (signsExponent : Bool) :
    (l.fraction ++ (exponentText signsExponent l.exponent? ++ rest)).span Char.isDigit =
      (l.fraction, exponentText signsExponent l.exponent? ++ rest) :=
  span_isDigit (fun c hc => hl.isDigit c (List.mem_append_right _ hc))
    fun c hc => (head_exponentText hrest signsExponent _ c hc).1

theorem exponentValue?_exponentText (signsExponent : Bool) (e? : Option Int) :
    exponentValue? (exponentText signsExponent e?) = some (e?.getD 0) := by
  cases e? with
  | none => rfl
  | some e =>
    have hsign := splitSign_exponent signsExponent e []
    have hdigits : ∀ c ∈ Nat.toDigits 10 e.natAbs, c.isDigit = true := fun c =>
      isDigit_of_mem_toDigits
    rw [List.append_nil] at hsign
    simp only [exponentText, exponentValue?, hsign]
    rw [if_pos ⟨.inl trivial, Nat.toDigits_ne_nil, List.all_eq_true.2 hdigits⟩, digitsValue_toDigits,
      signed_natAbs]
    rfl

theorem decimalMagnitude?_text (hl : l.Normal) (signsExponent : Bool) :
    decimalMagnitude? f (l.text signsExponent) = some (l.nearest f) := by
  have hclose : Closes [] := fun c hc => by cases hc
  have hwhole := span_whole hl hclose signsExponent
  have hfraction := span_fraction hl hclose signsExponent
  simp only [List.append_nil] at hwhole hfraction
  have hexponent := exponentValue?_exponentText signsExponent l.exponent?
  unfold decimalMagnitude? nearest
  rw [hwhole]
  -- without a fraction there is no point, and an exponent follows the digits at once
  cases hf : l.fraction with
  | nil =>
    cases he : l.exponent? with
    | none => simp [fractionText, exponentText, exponentValue?, hl.ne_nil]
    | some e =>
      rw [he] at hexponent
      simp only [fractionText, exponentText, if_true, List.nil_append, hl.ne_nil, false_and,
        if_false]
      exact congrArg (Option.map _) hexponent
  | cons c cs =>
    rw [hf, List.cons_append] at hfraction
    simp only [fractionText, reduceCtorEq, if_false, List.cons_append, hl.ne_nil, false_and,
      hfraction]
    exact congrArg (Option.map _) hexponent

end Layout

namespace Binary

variable {f : Binary} {b : Nat}

theorem withSign_magnitude (hb : b < 2 * f.signBit) :
    f.withSign (f.isNegative b) (f.magnitude b) = b := by
  unfold withSign isNegative magnitude
  by_cases hneg : f.signBit ≤ b
  · rw [if_pos (decide_eq_true hneg), Nat.mod_eq_sub_mod hneg, Nat.mod_eq_of_lt (by omega)]
    omega
  · rw [if_neg (by simpa using hneg), Nat.mod_eq_of_lt (by omega)]

theorem infinity_le_signBit : f.infinity ≤ f.signBit := by
  rw [infinity, signBit, Nat.pow_eq, Nat.pow_eq, Nat.pow_eq, Nat.pow_add]
  exact Nat.mul_le_mul_right _ (Nat.sub_le _ _)

theorem magnitude_withSign (negative : Bool) {m : Nat} (hm : m < f.infinity) :
    f.magnitude (f.withSign negative m) = m := by
  have hlt := hm.trans_le infinity_le_signBit
  cases negative with
  | true => exact (Nat.add_mod_left _ _).trans (Nat.mod_eq_of_lt hlt)
  | false => exact Nat.mod_eq_of_lt hlt

theorem isNegative_withSign (negative : Bool) {m : Nat} (hm : m < f.infinity) :
    f.isNegative (f.withSign negative m) = negative := by
  have hlt := hm.trans_le infinity_le_signBit
  cases negative with
  | true => exact decide_eq_true (Nat.le_add_right _ _)
  | false => exact decide_eq_false (Nat.not_le_of_lt hlt)

theorem withSign_lt (negative : Bool) {m : Nat} (hm : m < f.infinity) :
    f.withSign negative m < 2 * f.signBit := by
  have hlt := hm.trans_le infinity_le_signBit
  unfold withSign
  split <;> omega

end Binary

structure Binary.Canonical (f : Binary) (b : Nat) : Prop where
  lt : b < 2 * f.signBit
  eq_nan : f.isNaN b = true → b = f.nan

theorem canonical_toBits {α : Type} [Floating α] [LawfulFloating α] (x : α) :
    (Floating.format α).Canonical (Floating.toBits x) :=
  ⟨LawfulFloating.toBits_lt x, LawfulFloating.toBits_of_isNaN x⟩

variable {f : Binary} {b : Nat}

theorem splitSign_signed (negative : Bool) {text : List Char}
    (h : ∀ c ∈ text.head?, c ≠ '-' ∧ c ≠ '+') :
    splitSign ((if negative then ['-'] else []) ++ text) = (negative, text) := by
  cases negative with
  | true => rfl
  | false => exact splitSign_eq h

/-- What begins with a digit is none of the words. -/
theorem ne_word {text : List Char} (h : ∃ c ∈ text.head?, c.isDigit = true) {word : String}
    (hword : ∀ c ∈ word.toList.head?, c.isDigit = false) :
    String.ofList (text.map Char.toLower) ≠ word := by
  rintro rfl
  obtain ⟨c, hc, hdigit⟩ := h
  have hlower : c.toLower = c := dif_neg fun h => by
    have hle := (Char.isDigit_iff_toNat.1 hdigit).2
    have hge : 65 ≤ c.toNat := h.1
    exact absurd (hge.trans hle) (by decide)
  have hhead : (String.ofList (text.map Char.toLower)).toList.head? = some c := by
    rw [String.toList_ofList, List.head?_map, hc, Option.map_some, hlower]
  rw [hword c hhead] at hdigit
  cases hdigit

theorem Layout.head_text {l : Layout} (hl : l.Normal) (signsExponent : Bool) :
    ∃ c ∈ (l.text signsExponent).head?, c.isDigit = true := by
  obtain ⟨c, hc⟩ := Option.isSome_iff_exists.1 (List.isSome_head?.2 hl.ne_nil)
  refine ⟨c, ?_, hl.isDigit c (List.mem_append_left _ (List.mem_of_mem_head? hc))⟩
  rw [text, List.head?_append_of_ne_nil _ hl.ne_nil]
  exact hc

theorem readFloat_text (hf : 4 ≤ f.precision) (hb : f.Canonical b) (s : NumberStyle) :
    readFloat f (s.text f b) = .ok b := by
  unfold NumberStyle.text
  split
  next hnan =>
    rw [hb.eq_nan hnan]
    rfl
  next hnan =>
    have hsign := Binary.withSign_magnitude hb.lt
    by_cases hfinite : f.isFinite b = true
    · have hm : f.magnitude b < f.infinity := of_decide_eq_true hfinite
      have hl := Layout.normal_ofMagnitude (s := s) hf hm
      -- the text behind the sign begins with a digit, so it is no word and has no other sign
      obtain ⟨c, hc, hdigit⟩ := Layout.head_text hl s.signsExponent
      have hword : ∀ word : String, (∀ c ∈ word.toList.head?, c.isDigit = false) → _ ≠ word :=
        fun word => ne_word ⟨c, hc, hdigit⟩
      rw [if_pos hfinite, ← Layout.text_ofMagnitude hf hm]
      unfold readFloat
      rw [splitSign_signed _ (fun c' hc' => ?_), if_neg (by simp [hl.ne_nil, Layout.text])]
      · simp only [hword "inf" (by simp), hword "infinity" (by simp), hword "nan" (by simp),
          or_self, if_false, Layout.decimalMagnitude?_text hl, Layout.nearest_ofMagnitude hf hm,
          hsign]
      · obtain rfl : c = c' := Option.some.inj (hc.symm.trans hc')
        constructor <;> rintro rfl <;> exact absurd hdigit (by decide)
    · have hm : f.magnitude b = f.infinity := by
        have hle : ¬ f.infinity < f.magnitude b := fun h => hnan (decide_eq_true h)
        have hge : ¬ f.magnitude b < f.infinity := fun h => hfinite (decide_eq_true h)
        omega
      rw [hm] at hsign
      rw [if_neg hfinite]
      unfold readFloat
      rw [splitSign_signed _ (by simp), if_neg (by simp)]
      exact congrArg Except.ok hsign

theorem map_readFloat_text (α : Type) [Floating α] [LawfulFloating α]
    (hf : 4 ≤ (Floating.format α).precision) (s : NumberStyle) (x : α) :
    (readFloat (Floating.format α) (s.text (Floating.format α) (Floating.toBits x))).map
      Floating.ofBits = .ok x := by
  rw [readFloat_text hf (canonical_toBits x), Except.map, LawfulFloating.ofBits_toBits]

section Integers

variable {lo hi : Int}

def signed (negative : Bool) (n : Nat) : Int := if negative then -(n : Int) else n

theorem radixDigit?_ten {c : Char} (h : c.isDigit = true) :
    radixDigit? 10 c = some (digitValue c) := by
  have hle := (Char.isDigit_iff_toNat.1 h).2
  have hlt : c.toNat - '0'.toNat < 10 := by
    simp at hle ⊢
    omega
  simp only [radixDigit?, h, if_true, Option.filter_some, decide_eq_true hlt]
  rfl

/-- Digits read one by one count up to the number they stand for; nothing on the way there is out of
range, for it lies between the first and the last. -/
theorem readDigits_eq (negative : Bool) {ds : List Char} (hds : ∀ c ∈ ds, c.isDigit = true)
    {v w : Ranged lo hi} {n : Nat} (hv : v.val = signed negative n)
    (hw : w.val = signed negative (n * 10 ^ ds.length + digitsValue ds)) :
    readDigits 10 negative v ds = .ok w := by
  induction ds generalizing v n with
  | nil =>
    rw [List.length_nil, Nat.pow_zero, Nat.mul_one] at hw
    rw [Ranged.ext (hv.trans hw.symm)]
    rfl
  | cons c ds ih =>
    have hrest : digitsValue (c :: ds) = digitValue c * 10 ^ ds.length + digitsValue ds := by
      simpa [digitsValue] using digitsValue_append [c] ds
    have hfinal : n * 10 ^ (c :: ds).length + digitsValue (c :: ds) =
        (n * 10 + digitValue c) * 10 ^ ds.length + digitsValue ds := by
      rw [hrest, List.length_cons, Nat.pow_succ]
      ring
    have hbefore : n * 10 + digitValue c ≤ n * 10 ^ (c :: ds).length + digitsValue (c :: ds) := by
      rw [hfinal]
      exact (Nat.le_mul_of_pos_right _ (Nat.pow_pos (by decide))).trans (Nat.le_add_right ..)
    have hnext : v.val * (10 : Nat) + (if negative then -(digitValue c : Int) else digitValue c) =
        signed negative (n * 10 + digitValue c) := by
      rw [hv]
      cases negative <;> simp only [signed] <;> grind
    have hrange : lo ≤ signed negative (n * 10 + digitValue c) ∧
        signed negative (n * 10 + digitValue c) ≤ hi := by
      have := v.lo_le
      have := v.le_hi
      have := w.lo_le
      have := w.le_hi
      cases negative <;> simp only [signed, Bool.false_eq_true, if_false, if_true] at * <;> omega
    rw [hfinal] at hw
    have hread := ih (fun c' hc' => hds c' (List.mem_cons_of_mem _ hc'))
      (v := ⟨_, hrange.1, hrange.2⟩) rfl hw
    simp only [readDigits, radixDigit?_ten (hds c List.mem_cons_self), hnext, Ranged.ofInt?,
      dif_pos hrange, hread]

theorem readRadix_digits {zero : Ranged lo hi} {ds : List Char} (hne : ds ≠ [])
    (hds : ∀ c ∈ ds, c.isDigit = true) : readRadix zero 10 ds = readDigits 10 false zero ds := by
  unfold readRadix
  split
  next => exact absurd rfl hne
  next => exact absurd (hds '+' (by simp)) (by decide)
  next => exact absurd (hds '-' (by simp)) (by decide)
  next => exact absurd (hds '+' (by simp)) (by decide)
  next => exact absurd (hds '-' (by simp)) (by decide)
  next => rfl

theorem readInteger_text {zero x : Ranged lo hi} (hzero : zero.val = 0) :
    readInteger zero (Raw.text.integerText x.val) = .ok x := by
  have hds : ∀ c ∈ Nat.toDigits 10 x.val.natAbs, c.isDigit = true := fun c =>
    isDigit_of_mem_toDigits
  have hne : Nat.toDigits 10 x.val.natAbs ≠ [] := Nat.toDigits_ne_nil
  have hvalue : ∀ negative, x.val = signed negative x.val.natAbs →
      readDigits 10 negative zero (Nat.toDigits 10 x.val.natAbs) = .ok x := by
    intro negative hx
    refine readDigits_eq negative hds (n := 0) (by simp [hzero, signed]) ?_
    rw [digitsValue_toDigits, Nat.zero_mul, Nat.zero_add, ← hx]
  unfold Raw.text.integerText
  by_cases hneg : x.val < 0
  · have hlo : lo < 0 := x.lo_le.trans_lt hneg
    have hsigned := hvalue true (by simp only [signed, if_true]; omega)
    obtain ⟨c, cs, hcs⟩ := List.exists_cons_of_ne_nil hne
    simp only [hneg, if_true, List.singleton_append, hcs] at hsigned ⊢
    rw [readInteger, readRadix, if_pos hlo, hsigned]
    all_goals simp
  · rw [if_neg hneg, List.nil_append]
    have hradix := (readRadix_digits hne hds).trans
      (hvalue false (by simp only [signed, Bool.false_eq_true, if_false]; omega))
    unfold readInteger
    split
    next h => exact absurd (hds 'x' (by simp [h])) (by decide)
    next => exact hradix

end Integers

/-- The text of a number reads back as the number. -/
theorem Raw.read_text (style : Binary → NumberStyle) (k : Raw) (x : k.Carrier) :
    k.read (k.text style x) = .ok x := by
  cases k with
  | double => exact map_readFloat_text Float (by decide) _ x
  | single => exact map_readFloat_text Float32 (by decide) _ x
  | signed => exact readInteger_text rfl
  | byte => exact readInteger_text rfl

end UnitMatrix
