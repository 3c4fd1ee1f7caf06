import UnitMatrix.Json.Writer
import UnitMatrix.Json.Reader
import UnitMatrix.Proofs.Number.ReadBack

/-! Numbers in a JSON text. What stands before a comma or a bracket is scanned into the parts that it
was laid out in. A parser that rounds once reads a finite number back from them: its digits are few
enough for all of them to count, and a float is never taken for an integer. -/

namespace UnitMatrix

namespace Json

open NumberStyle (zeros)

variable {l : Layout} {rest : List Char}

theorem requireDigits_append {ds : List Char} (hne : ds ≠ []) (hds : ∀ c ∈ ds, c.isDigit = true)
    (hrest : ∀ c ∈ rest.head?, c.isDigit = false) : requireDigits (ds ++ rest) = .ok (ds, rest) := by
  unfold requireDigits
  rw [span_isDigit hds hrest]
  split
  next h => exact absurd (congrArg Prod.fst h) hne
  next h => exact absurd (congrArg Prod.fst h) hne
  next => rfl

theorem scanWhole_text (hl : l.Normal) (hrest : Closes rest) (signsExponent : Bool) :
    scanWhole (l.text signsExponent ++ rest) = .ok (l.whole, Layout.fractionText l.fraction ++
      (Layout.exponentText signsExponent l.exponent? ++ rest)) := by
  have hhead := Layout.head_fractionText (l := l) hrest signsExponent
  have hdigits := requireDigits_append hl.ne_nil
    (fun c hc => hl.isDigit c (List.mem_append_left _ hc)) hhead
  rw [Layout.text, List.append_assoc, List.append_assoc]
  unfold scanWhole
  split
  next h => simp [hl.ne_nil] at h
  next c t h =>
    -- a zero in front is the whole part, so what follows it is no digit
    obtain ⟨d, ds, hwhole⟩ := List.exists_cons_of_ne_nil hl.ne_nil
    rw [hwhole, List.cons_append, List.cons.injEq] at h
    obtain ⟨rfl, h⟩ := h
    have hzero := hl.eq_zero (by rw [hwhole]; rfl)
    obtain rfl : ds = [] := by
      rw [hwhole] at hzero
      exact (List.cons.inj hzero).2
    rw [List.nil_append] at h
    rw [h] at hhead
    rw [hwhole, h, if_neg (by rw [hhead c rfl]; decide)]
  next => exact hdigits

theorem scanFraction_append {fraction : List Char} (hds : ∀ c ∈ fraction, c.isDigit = true)
    (hrest : ∀ c ∈ rest.head?, c.isDigit = false ∧ c ≠ '.') :
    scanFraction (Layout.fractionText fraction ++ rest) = .ok (fraction, rest) := by
  unfold Layout.fractionText
  split
  next hnil =>
    rw [hnil, List.nil_append]
    unfold scanFraction
    split
    next => exact absurd rfl (hrest '.' rfl).2
    next => rfl
  next hne => exact requireDigits_append hne hds fun c hc => (hrest c hc).1

theorem scanExponent_append (hrest : Closes rest) (signsExponent : Bool) (e? : Option Int) :
    scanExponent (Layout.exponentText signsExponent e? ++ rest) = .ok (e?, rest) := by
  cases e? with
  | none =>
    rw [Layout.exponentText, List.nil_append]
    cases rest with
    | nil => rfl
    | cons c rest =>
      have hc : ¬ (c = 'e' ∨ c = 'E') := by rcases hrest c rfl with rfl | rfl <;> decide
      exact if_neg hc
  | some e =>
    have hhead : ∀ c ∈ rest.head?, c.isDigit = false := fun c hc => by
      rcases hrest c hc with rfl | rfl <;> decide
    have hdigits := requireDigits_append (Nat.toDigits_ne_nil (b := 10) (n := e.natAbs))
      (fun c => isDigit_of_mem_toDigits) hhead
    simp only [Layout.exponentText, List.cons_append, List.append_assoc, scanExponent,
      Layout.splitSign_exponent, hdigits, true_or, if_true]
    simp only [bind, Except.bind, digitsValue_toDigits, Layout.signed_natAbs]

theorem scanNumeral_text (hl : l.Normal) (hrest : Closes rest) (negative signsExponent : Bool) :
    scanNumeral ((if negative then ['-'] else []) ++ (l.text signsExponent ++ rest)) =
      .ok (⟨negative, l.whole, l.fraction, l.exponent?⟩, rest) := by
  have hunsigned : ∀ negative : Bool, (do
      let whole ← scanWhole (l.text signsExponent ++ rest)
      let fraction ← scanFraction whole.2
      let exponent ← scanExponent fraction.2
      .ok ((⟨negative, whole.1, fraction.1, exponent.1⟩ : Numeral), exponent.2)) =
        (.ok (⟨negative, l.whole, l.fraction, l.exponent?⟩, rest) : Except Fault _) := by
    intro negative
    have hfraction := scanFraction_append (fun c hc => hl.isDigit c (List.mem_append_right _ hc))
      (Layout.head_exponentText hrest signsExponent l.exponent?)
    simp only [scanWhole_text hl hrest, bind, Except.bind, hfraction, scanExponent_append hrest]
  cases negative with
  | true => exact hunsigned true
  | false =>
    obtain ⟨c, hc, hdigit⟩ := Layout.head_text hl signsExponent
    have hminus : ∀ text, l.text signsExponent ++ rest ≠ '-' :: text := fun text h => by
      have hhead := congrArg List.head? h
      rw [List.head?_append, Option.or_of_isSome (Option.isSome_of_mem hc), hc] at hhead
      cases hhead
      exact absurd hdigit (by decide)
    rw [if_neg Bool.false_ne_true, List.nil_append]
    unfold scanNumeral
    split
    next h =>
      split at h
      next htext => exact absurd htext (hminus _)
      next =>
        cases h
        exact hunsigned false

/-- The digits of a written number that count: no zeros in front, none at the end of a fraction. -/
def significant (l : Layout) : List Char :=
  (l.whole ++ (l.fraction.reverse.dropWhile (· = '0')).reverse).dropWhile (· = '0')

variable {f : Binary} {m : Nat}

/-- Few digits all count, so the number is rounded as it was written. -/
theorem ofDecimal_scaled (negative : Bool) (hfew : f.FewDigits (significant l).length) :
    f.ofDecimal (Numeral.scaled f ⟨negative, l.whole, l.fraction, l.exponent?⟩).1
      (Numeral.scaled f ⟨negative, l.whole, l.fraction, l.exponent?⟩).2 = l.nearest f := by
  have hcond : (decide ((significant l).length ≤ f.precision) ||
      decide ((significant l).length ≤ f.midpointDigits)) = true := by
    rw [Bool.or_eq_true, decide_eq_true_eq, decide_eq_true_eq]
    exact hfew
  unfold significant at hcond
  obtain ⟨z, hz⟩ := exists_zeros_after l.fraction
  obtain ⟨y, hy⟩ := exists_zeros_before (l.whole ++ (l.fraction.reverse.dropWhile (· = '0')).reverse)
  have hlength := congrArg List.length hz
  unfold Numeral.scaled Layout.nearest
  dsimp only
  rw [if_pos hcond]
  generalize (l.fraction.reverse.dropWhile (· = '0')).reverse = fraction at *
  rw [List.length_append, zeros, List.length_replicate] at hlength
  rw [hz, ← List.append_assoc, digitsValue_append_zeros, Binary.ofDecimal_mul_pow]
  congr 1
  · conv_rhs => rw [hy, digitsValue_zeros_append]
  · rw [List.length_append, zeros, List.length_replicate]
    push_cast
    ring

theorem length_dropWhile_le {α : Type} (p : α → Bool) (xs ys : List α) :
    (xs.dropWhile p).length ≤ ((xs ++ ys).dropWhile p).length := by
  rw [List.dropWhile_append]
  split
  next h => simp [List.isEmpty_iff.1 h]
  next => simp

/-- Zeros in front do not count, and neither do those at the end of a fraction. -/
theorem length_significant_le {n : Nat} {ds : List Char}
    (h : l.whole ++ l.fraction = zeros n ++ ds) : (significant l).length ≤ ds.length := by
  obtain ⟨z, hz⟩ := exists_zeros_after l.fraction
  have hsplit : (l.whole ++ (l.fraction.reverse.dropWhile (· = '0')).reverse) ++ zeros z =
      zeros n ++ ds := by
    rw [List.append_assoc, ← hz, h]
  have hzeros : ∀ c ∈ zeros n, decide (c = '0') = true := fun c hc => by
    simp [(List.mem_replicate.1 hc).2]
  calc (significant l).length
      ≤ ((zeros n ++ ds).dropWhile (· = '0')).length := hsplit ▸ length_dropWhile_le _ _ _
    _ = (ds.dropWhile (· = '0')).length := by rw [List.dropWhile_append_of_pos hzeros]
    _ ≤ ds.length := List.length_dropWhile_le _ _

theorem fewDigits_positional {d : Decimal} (hf : 13 ≤ f.precision) (hd : f.FewDigits d.digits.length)
    (hpositional : (style f).isPositional d = true) :
    f.FewDigits (significant (.positional true d)).length := by
  unfold Layout.positional
  split
  next => exact hd.mono (length_significant_le (n := (-d.point).toNat + 1) rfl)
  next =>
    split
    next hlength =>
      -- every digit before the point counts, and the style writes out so many only
      have hhigh : d.point ≤ f.precision := by
        simp only [NumberStyle.isPositional, style, Bool.and_eq_true, decide_eq_true_eq]
          at hpositional
        split at hpositional <;> dsimp only at hpositional <;> omega
      refine .inl ((List.length_dropWhile_le _ _).trans ?_)
      simp [zeros]
      omega
    next => exact hd.mono (length_significant_le (n := 0) (List.take_append_drop _ _))

theorem fewDigits_ofMagnitude (hf : 13 ≤ f.precision) (hm : m < f.infinity) :
    f.FewDigits (significant (.ofMagnitude (style f) f m)).length := by
  have hd := Binary.fewDigits_written .even (by omega) hm
  unfold Layout.ofMagnitude
  dsimp only
  split
  next h => exact fewDigits_positional hf hd h
  next => exact hd.mono (length_significant_le (n := 0) (List.take_append_drop _ _))

/-- A float has a point or an exponent. -/
theorem isWhole_ofMagnitude (hf : 4 ≤ f.precision) (hm : m < f.infinity) (negative : Bool)
    (whole : List Char) :
    let l := Layout.ofMagnitude (style f) f m
    Numeral.isWhole ⟨negative, whole, l.fraction, l.exponent?⟩ = false := by
  have hd := Binary.normal_written .even hf hm
  unfold Numeral.isWhole
  unfold Layout.ofMagnitude
  dsimp only
  split
  next => simp [style, Layout.fraction_positional_ne_nil hd]
  next => simp [Layout.scientific]

/-- A finite number is read as the bits that it was written from. -/
theorem nearestBits_ofMagnitude (hf : 13 ≤ f.precision) (hm : m < f.infinity) (negative : Bool) :
    let l := Layout.ofMagnitude (style f) f m
    Numeral.nearestBits f ⟨negative, l.whole, l.fraction, l.exponent?⟩ =
      .ok (f.withSign negative m) := by
  intro l
  have hscaled := ofDecimal_scaled negative (fewDigits_ofMagnitude hf hm)
  rw [Layout.nearest_ofMagnitude (by omega) hm] at hscaled
  unfold Numeral.nearestBits
  simp only [l, hscaled, if_neg hm.ne]

theorem skipSpace_eq {text : List Char} (h : ∀ c ∈ text.head?, isSpace c = false) :
    skipSpace text = text := by
  cases text with
  | nil => rfl
  | cons c text => exact List.dropWhile_cons_of_neg (by simp [h c rfl])

theorem isSpace_of_isDigit {c : Char} (h : c.isDigit = true) : isSpace c = false := by
  have hle := (Char.isDigit_iff_toNat.1 h).1
  simp only [isSpace, Bool.or_eq_false_iff, beq_eq_false_iff_ne]
  refine ⟨⟨⟨?_, ?_⟩, ?_⟩, ?_⟩ <;> rintro rfl <;> exact absurd hle (by decide)

def BeginsNumber (text : List Char) : Prop := ∃ c ∈ text.head?, (c == '-' || c.isDigit) = true

theorem BeginsNumber.append {text : List Char} (h : BeginsNumber text) (rest : List Char) :
    BeginsNumber (text ++ rest) := by
  obtain ⟨c, hc, hbegin⟩ := h
  refine ⟨c, ?_, hbegin⟩
  rw [List.head?_append, Option.or_of_isSome (Option.isSome_of_mem hc)]
  exact hc

theorem beginsNumber_text (hl : l.Normal) (negative signsExponent : Bool) :
    BeginsNumber ((if negative then ['-'] else []) ++ l.text signsExponent) := by
  obtain ⟨c, hc, hdigit⟩ := Layout.head_text hl signsExponent
  cases negative with
  | true => exact ⟨'-', rfl, rfl⟩
  | false => exact ⟨c, hc, by simp [hdigit]⟩

theorem BeginsNumber.skipSpace_eq {text : List Char} (h : BeginsNumber text) :
    skipSpace text = text := by
  obtain ⟨c, hc, hbegin⟩ := h
  refine Json.skipSpace_eq fun d hd => ?_
  obtain rfl : c = d := Option.some.inj (hc.symm.trans hd)
  rcases Bool.or_eq_true_iff.1 hbegin with h | h
  · rw [beq_iff_eq.1 h]
    rfl
  · exact isSpace_of_isDigit h

theorem BeginsNumber.startsNumeral {text : List Char} (h : BeginsNumber text) :
    startsNumeral text = true := by
  obtain ⟨c, hc, hbegin⟩ := h
  cases text with
  | nil => cases hc
  | cons d text =>
    cases hc
    exact hbegin

theorem text_of_isFinite (hf : 4 ≤ f.precision) {bits : Nat} (hfinite : f.isFinite bits = true) :
    (style f).text f bits = (if f.isNegative bits then ['-'] else []) ++
      (Layout.ofMagnitude (style f) f (f.magnitude bits)).text true := by
  have hm : f.magnitude bits < f.infinity := of_decide_eq_true hfinite
  have hnan : ¬ f.isNaN bits = true := by
    simp only [Binary.isNaN, decide_eq_true_eq]
    omega
  rw [NumberStyle.text, if_neg hnan, if_pos hfinite, ← Layout.text_ofMagnitude hf hm]
  rfl

theorem map_nearestBits_ofMagnitude (α : Type) [Floating α] [LawfulFloating α]
    (hf : 13 ≤ (Floating.format α).precision) {x : α}
    (hfinite : (Floating.format α).isFinite (Floating.toBits x) = true) :
    let f := Floating.format α
    let l := Layout.ofMagnitude (style f) f (f.magnitude (Floating.toBits x))
    (Numeral.nearestBits f ⟨f.isNegative (Floating.toBits x), l.whole, l.fraction, l.exponent?⟩).map
      Floating.ofBits = .ok x := by
  intro f l
  rw [nearestBits_ofMagnitude hf (of_decide_eq_true hfinite),
    Binary.withSign_magnitude (LawfulFloating.toBits_lt x)]
  exact congrArg Except.ok (LawfulFloating.ofBits_toBits x)

section Integers

variable {lo hi : Int}

def wholeLayout (n : Int) : Layout := ⟨Nat.toDigits 10 n.natAbs, [], none⟩

theorem normal_wholeLayout (n : Int) : (wholeLayout n).Normal := by
  refine ⟨fun c hc => ?_, Nat.toDigits_ne_nil, fun h => ?_⟩
  · rw [wholeLayout, List.append_nil] at hc
    exact isDigit_of_mem_toDigits hc
  · rcases Nat.eq_zero_or_pos n.natAbs with h0 | hpos
    · rw [wholeLayout, h0]
      rfl
    · exact absurd h (head?_toDigits hpos)

theorem integerText_eq (n : Int) : Raw.text.integerText n =
    (if decide (n < 0) then ['-'] else []) ++ (wholeLayout n).text true := by
  simp [Raw.text.integerText, wholeLayout, Layout.text, Layout.fractionText, Layout.exponentText]

theorem integer?_wholeLayout {n : Int} (hlo : -9223372036854775808 ≤ n)
    (hhi : n ≤ 18446744073709551615) :
    Numeral.integer? ⟨decide (n < 0), Nat.toDigits 10 n.natAbs, [], none⟩ = some n := by
  unfold Numeral.integer?
  simp only [Numeral.isWhole, digitsValue_toDigits, decide_eq_true_eq]
  by_cases hn : n < 0
  · have hnat : (n.natAbs : Int) = -n := by omega
    have hrange : 0 < n.natAbs ∧ n.natAbs ≤ Nat.pow 2 63 := by
      simp only [Nat.pow_eq]
      omega
    simp [hn, hrange, hnat]
  · have hnat : (n.natAbs : Int) = n := by omega
    have hrange : n.natAbs < Nat.pow 2 64 := by
      simp only [Nat.pow_eq]
      omega
    simp [hn, hrange, hnat]

theorem toRanged_wholeLayout (hlo : -9223372036854775808 ≤ lo) (hhi : hi ≤ 18446744073709551615)
    (r : Rounding) (x : Ranged lo hi) :
    Numeral.toRanged r ⟨decide (x.val < 0), Nat.toDigits 10 x.val.natAbs, [], none⟩ = .ok x := by
  have hinteger := integer?_wholeLayout (hlo.trans x.lo_le) (x.le_hi.trans hhi)
  simp only [Numeral.toRanged, hinteger, Ranged.ofInt?_val]

end Integers

def layout : (k : Raw) → k.Carrier → Bool × Layout
  | .double, x =>
    let f := Binary.binary64
    (f.isNegative (Floating.toBits x), .ofMagnitude (style f) f (f.magnitude (Floating.toBits x)))
  | .single, x =>
    let f := Binary.binary32
    (f.isNegative (Floating.toBits x), .ofMagnitude (style f) f (f.magnitude (Floating.toBits x)))
  | .signed, x => (decide (x.val < 0), wholeLayout x.val)
  | .byte, x => (decide (x.val < 0), wholeLayout x.val)

def numeral (k : Raw) (x : k.Carrier) : Numeral :=
  ⟨(layout k x).1, (layout k x).2.whole, (layout k x).2.fraction, (layout k x).2.exponent?⟩

variable {k : Raw} {x : k.Carrier} (hx : isFinite k x = true) {r : Rounding}

include hx

theorem normal_layout : (layout k x).2.Normal := by
  cases k with
  | double => exact Layout.normal_ofMagnitude (by decide) (of_decide_eq_true hx)
  | single => exact Layout.normal_ofMagnitude (by decide) (of_decide_eq_true hx)
  | signed => exact normal_wholeLayout _
  | byte => exact normal_wholeLayout _

theorem numberText_eq : numberText k x =
    (if (layout k x).1 then ['-'] else []) ++ (layout k x).2.text true := by
  rw [numberText, if_pos hx]
  cases k with
  | double => exact text_of_isFinite (by decide) hx
  | single => exact text_of_isFinite (by decide) hx
  | signed => exact integerText_eq _
  | byte => exact integerText_eq _

theorem scanNumeral_numberText (hrest : Closes rest) :
    scanNumeral (numberText k x ++ rest) = .ok (numeral k x, rest) := by
  rw [numberText_eq hx, List.append_assoc]
  exact scanNumeral_text (normal_layout hx) hrest _ _

theorem beginsNumber_numberText : BeginsNumber (numberText k x) := by
  rw [numberText_eq hx]
  exact beginsNumber_text (normal_layout hx) _ _

theorem readNumber_numberText (hrest : Closes rest) :
    readNumber r k (numberText k x ++ rest) = ((numeral k x).toRaw r k).map (·, rest) := by
  have hbegins := (beginsNumber_numberText hx).append rest
  unfold readNumber
  simp only [hbegins.skipSpace_eq, hbegins.startsNumeral, if_true,
    scanNumeral_numberText hx hrest, bind, Except.bind]
  cases (numeral k x).toRaw r k <;> rfl

/-- Rounding once gives the number back. -/
theorem toRaw_once : (numeral k x).toRaw .once k = .ok x := by
  cases k with
  | double => exact map_nearestBits_ofMagnitude Float (by decide) hx
  | single =>
    -- only whole numbers are ever rounded twice, and no float is written as one
    have hwhole : (numeral .single x).isWhole = false :=
      isWhole_ofMagnitude (by decide) (of_decide_eq_true hx) ..
    have hbits : (numeral .single x).toSingleBits .once = (numeral .single x).nearestBits .binary32 := by
      simp [Numeral.toSingleBits, Numeral.isRoundedTwice, hwhole]
    exact (congrArg (Except.map Floating.ofBits) hbits).trans
      (map_nearestBits_ofMagnitude Float32 (by decide) hx)
  | signed => exact toRanged_wholeLayout (by decide) (by decide) .once x
  | byte => exact toRanged_wholeLayout (by decide) (by decide) .once x

end Json

end UnitMatrix
