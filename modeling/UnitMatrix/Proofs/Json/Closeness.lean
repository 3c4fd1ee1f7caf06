import UnitMatrix.Proofs.Json.Powers

/-! What is left of a printed number by a parser that rounds after every step. The digits of the text are
few, so it is read as the decimal that was written, and it becomes a number again: a double a few
neighbours away at most, a single and an integer the same as before. -/

namespace UnitMatrix

namespace Json

open Binary (binary64 binary32)
open NumberStyle (zeros)

theorem digitsValue_lt {ds : List Char} (h : ∀ c ∈ ds, c.isDigit = true) :
    digitsValue ds < 10 ^ ds.length := by
  induction ds using List.reverseRecOn with
  | nil => decide
  | append_singleton ds c ih =>
    have hlast : digitsValue [c] < 10 := by
      have hc := Char.isDigit_iff_toNat.1 (h c (by simp))
      have hbounds : '0'.toNat = 48 ∧ '9'.toNat = 57 := ⟨rfl, rfl⟩
      simp only [digitsValue, List.foldl_cons, List.foldl_nil, digitValue]
      omega
    have hfront := ih fun d hd => h d (List.mem_append_left _ hd)
    rw [digitsValue_append, List.length_append, List.length_singleton, Nat.pow_one, Nat.pow_succ]
    omega

variable {f : Binary} {m n : Nat}

/-- The digits of a text, zeros in front of the point and behind it included. -/
theorem digitsValue_ofMagnitude_lt (hf : 4 ≤ f.precision) (hm : m < f.infinity)
    (hdigits : (f.written .even m).digits.length ≤ n)
    (hhigh : (if f.precision ≤ 24 then 14 else 17) ≤ n) :
    let l := Layout.ofMagnitude (style f) f m
    digitsValue (l.whole ++ l.fraction) < 10 ^ n := by
  have hd := Binary.normal_written .even hf hm
  generalize hdecimal : f.written .even m = d at *
  have hshort : digitsValue d.digits < 10 ^ n :=
    (digitsValue_lt hd.isDigit).trans_le (Nat.pow_le_pow_right (by decide) hdigits)
  unfold Layout.ofMagnitude
  simp only [show (style f).tie = .even from rfl, show (style f).keepsPoint = true from rfl, hdecimal]
  split
  next hpositional =>
    unfold Layout.positional
    split
    next =>
      have hvalue : digitsValue (['0'] ++ (zeros (-d.point).toNat ++ d.digits)) =
          digitsValue d.digits := by
        rw [← List.append_assoc]
        exact digitsValue_zeros_append _ ((-d.point).toNat + 1)
      exact hvalue.trans_lt hshort
    next =>
      split
      next hlength =>
        -- as many digits stand before the point as the style writes out
        have hpoint : d.point + 1 ≤ n := by
          simp only [NumberStyle.isPositional, style, Bool.and_eq_true, decide_eq_true_eq]
            at hpositional
          split at hpositional <;> split at hhigh <;> dsimp only at hpositional <;> omega
        refine (digitsValue_lt fun c hc => ?_).trans_le (Nat.pow_le_pow_right (by decide) ?_)
        · rcases List.mem_append.1 hc with hc | hc
          · exact (List.mem_append.1 hc).elim (hd.isDigit c) isDigit_of_mem_zeros
          · rw [List.mem_singleton.1 hc]
            rfl
        · simp [zeros]
          omega
      next =>
        dsimp only
        rwa [List.take_append_drop]
  next =>
    dsimp only [Layout.scientific]
    rwa [List.take_append_drop]

theorem length_written_le {count : Nat} (hcount : f.Suffices count) (hf : 4 ≤ f.precision)
    (hbits : 2 ≤ f.exponentBits) (tie : Tie) (hm : m < f.infinity) :
    (f.written tie m).digits.length ≤ count + 1 := by
  unfold Binary.written
  split
  next => simp
  next h0 =>
    obtain ⟨n, e, -, -, hlength⟩ :=
      Binary.exists_chosen_eq_shortest hcount hf hbits tie hm (Nat.pos_of_ne_zero h0)
    exact hlength

/-- What a printed number is read as when it is rounded after every step, a double in any case. -/
def reached (f : Binary) (m : Nat) : Nat :=
  let l := Layout.ofMagnitude (style f) f m
  Numeral.timesPower (binary64.ofDecimal (digitsValue (l.whole ++ l.fraction)) 0)
    (l.exponent?.getD 0 - l.fraction.length)

theorem reached_zero : reached binary64 0 = 0 ∧ reached binary32 0 = 0 := by decide +kernel

theorem stepwiseBits_ofMagnitude (negative : Bool)
    (hdigits : let l := Layout.ofMagnitude (style f) f m
      digitsValue (l.whole ++ l.fraction) < 2 ^ 64)
    (hfinite : reached f m < binary64.infinity) :
    let l := Layout.ofMagnitude (style f) f m
    Numeral.stepwiseBits ⟨negative, l.whole, l.fraction, l.exponent?⟩ =
      .ok (binary64.withSign negative (reached f m)) := by
  intro l
  have hgathered := Numeral.gathered_eq (n := ⟨negative, l.whole, l.fraction, l.exponent?⟩) hdigits
  unfold Numeral.stepwiseBits
  simp only [hgathered]
  exact if_neg hfinite.ne

theorem digits_double_lt {m : Nat} (hm : m < binary64.infinity) :
    let l := Layout.ofMagnitude (style binary64) binary64 m
    digitsValue (l.whole ++ l.fraction) < 10 ^ 17 :=
  digitsValue_ofMagnitude_lt (by decide) hm
    (length_written_le Binary.suffices_sixteen (by decide) (by decide) .even hm) (by decide)

theorem reached_close {m : Nat} (hm : m < binary64.infinity) :
    reached binary64 m ≤ m + 7 ∧ m ≤ reached binary64 m + 7 ∧
      reached binary64 m < binary64.infinity := by
  have hnearest := Layout.nearest_ofMagnitude (s := style binary64) (f := binary64) (by decide) hm
  have hdigits := digits_double_lt hm
  rcases Nat.eq_zero_or_pos m with rfl | hm0
  · rw [reached_zero.1]
    decide
  · by_cases hroom : m + 3 < binary64.infinity
    · exact Numeral.timesPower_close (Binary.pos_of_ofDecimal (hm0.trans_eq hnearest.symm))
        (hdigits.trans (by decide)) hnearest hm0 hroom
    · -- three magnitudes are left
      have hlargest : reached binary64 (binary64.infinity - 1) = binary64.infinity - 1 ∧
          reached binary64 (binary64.infinity - 2) = binary64.infinity - 1 ∧
          reached binary64 (binary64.infinity - 3) = binary64.infinity - 3 := by
        decide +kernel
      obtain rfl | rfl | rfl : m = binary64.infinity - 1 ∨ m = binary64.infinity - 2 ∨
          m = binary64.infinity - 3 := by
        omega
      all_goals omega

theorem digits_single_lt {m : Nat} (hm : m < binary32.infinity) :
    let l := Layout.ofMagnitude (style binary32) binary32 m
    digitsValue (l.whole ++ l.fraction) < 10 ^ 14 :=
  digitsValue_ofMagnitude_lt (by decide) hm
    ((length_written_le Binary.suffices_eight (by decide) (by decide) .even hm).trans (by decide))
    (by decide)

/-- The decimal that is written, as the text shows it. -/
theorem exists_chosen_decimal {count : Nat} (hcount : f.Suffices count) (hf : 4 ≤ f.precision)
    (hbits : 2 ≤ f.exponentBits) (hm : m < f.infinity) (hm0 : 0 < m) : ∃ n e,
    f.Chosen m n e ∧ ∀ g : Binary,
      let l := Layout.ofMagnitude (style f) f m
      g.decimal (digitsValue (l.whole ++ l.fraction)) (l.exponent?.getD 0 - l.fraction.length) =
        g.decimal n e := by
  obtain ⟨n, e, hchosen, heq, -⟩ := Binary.exists_chosen_eq_shortest hcount hf hbits .even hm hm0
  have hwritten : f.written .even m = .ofScaled n e := (if_neg hm0.ne').trans heq
  obtain ⟨k, hvalue, hexponent⟩ := Layout.shifts_ofMagnitude (s := style f) hf hm
  obtain ⟨z, hdigits, hpoint⟩ := Decimal.exists_zeros_ofScaled n e
  have hn : n = digitsValue (Decimal.ofScaled n e).digits * 10 ^ z := by
    rw [← digitsValue_append_zeros, ← hdigits, digitsValue_toDigits]
  rw [show (style f).tie = .even from rfl, hwritten] at hvalue hexponent
  refine ⟨n, e, hchosen, fun g => ?_⟩
  dsimp only
  rw [hvalue, Binary.decimal_mul_pow, ← hexponent, hpoint, ← Binary.decimal_mul_pow, ← hn]

/-- A printed single is read as itself. -/
theorem convert_reached {m : Nat} (hm : m < binary32.infinity) :
    reached binary32 m < binary64.infinity ∧ binary64.convert binary32 (reached binary32 m) = m := by
  cases m with
  | zero =>
    rw [reached_zero.2, Binary.convert_eq_rounded (by decide), Binary.units_zero, Nat.cast_zero, zero_mul,
      zero_div]
    exact ⟨by decide, Binary.rounded_zero (by decide) (by decide)⟩
  | succ m =>
    obtain ⟨n, e, hchosen, hdecimal⟩ :=
      exists_chosen_decimal Binary.suffices_eight (by decide) (by decide) hm (Nat.succ_pos m)
    obtain ⟨hfinite, hconvert | ⟨rfl, rfl⟩⟩ :=
      Numeral.convert_timesPower hm hchosen (digits_single_lt hm) (hdecimal binary32)
    · exact ⟨hfinite, hconvert⟩
    · -- close to a midpoint, but on the right side of it
      have hsingle : binary64.convert binary32 (reached binary32 (binary32.ofDecimal 7038531 (-32))) =
          binary32.ofDecimal 7038531 (-32) := by
        decide +kernel
      rw [hchosen.reads] at hsingle
      exact ⟨hfinite, hsingle⟩

/-- Finite numbers of the same sign, at most seven neighbours apart. -/
structure IsNeighbour (x y : Float) : Prop where
  finite : binary64.isFinite (Floating.toBits y) = true
  sign : binary64.isNegative (Floating.toBits y) = binary64.isNegative (Floating.toBits x)
  le : binary64.magnitude (Floating.toBits y) ≤ binary64.magnitude (Floating.toBits x) + 7
  ge : binary64.magnitude (Floating.toBits x) ≤ binary64.magnitude (Floating.toBits y) + 7

/-- What a number becomes at worst: a neighbour if it is a double, itself if it is not. -/
def IsClose : (k : Raw) → k.Carrier → k.Carrier → Prop
  | .double, x, y => IsNeighbour x y
  | .single, x, y => y = x
  | .signed, x, y => y = x
  | .byte, x, y => y = x

/-- The numbers of which nothing is lost: those that are no doubles, and the doubles with short texts. -/
def IsShort : (k : Raw) → k.Carrier → Prop
  | .double, x => (numeral .double x).IsShort
  | .single, _ => True
  | .signed, _ => True
  | .byte, _ => True

theorem toRaw_stepwise_double {x : Float} (hx : isFinite .double x = true) :
    ∃ y, (numeral .double x).toRaw .stepwise .double = .ok y ∧ IsNeighbour x y := by
  have hm : binary64.magnitude (Floating.toBits x) < binary64.infinity := of_decide_eq_true hx
  obtain ⟨hle, hge, hfinite⟩ := reached_close hm
  have hbits := stepwiseBits_ofMagnitude (binary64.isNegative (Floating.toBits x))
    ((digits_double_lt hm).trans (by decide)) hfinite
  obtain ⟨y, hy⟩ : ∃ y, y = reached binary64 (binary64.magnitude (Floating.toBits x)) := ⟨_, rfl⟩
  rw [← hy] at hbits hle hge hfinite
  refine ⟨_, congrArg (Except.map Floating.ofBits) hbits, ?_⟩
  have hmagnitude := Binary.magnitude_withSign (binary64.isNegative (Floating.toBits x)) hfinite
  have hsame := toBits_ofBits_of_isFinite
    (Binary.withSign_lt (f := binary64) (binary64.isNegative (Floating.toBits x)) hfinite)
    (decide_eq_true (hmagnitude.trans_lt hfinite))
  refine ⟨?_, ?_, ?_, ?_⟩ <;> rw [hsame]
  · exact decide_eq_true (hmagnitude.trans_lt hfinite)
  · exact Binary.isNegative_withSign _ hfinite
  · rwa [hmagnitude]
  · rwa [hmagnitude]

theorem toRaw_stepwise_single {x : Float32} (hx : isFinite .single x = true) :
    (numeral .single x).toRaw .stepwise .single = .ok x := by
  have hm : binary32.magnitude (Floating.toBits x) < binary32.infinity := of_decide_eq_true hx
  obtain ⟨hfinite, hconvert⟩ := convert_reached hm
  have hbits := stepwiseBits_ofMagnitude (binary32.isNegative (Floating.toBits x))
    ((digits_single_lt hm).trans (by decide)) hfinite
  -- no float is written as a whole number, so a double is made of it first
  have hwhole : (numeral .single x).isWhole = false := isWhole_ofMagnitude (by decide) hm ..
  have hinteger : (numeral .single x).integer? = none := by
    simp [Numeral.integer?, hwhole]
  have hdouble : (numeral .single x).toDoubleBits .stepwise = .ok (binary64.withSign
      (binary32.isNegative (Floating.toBits x)) (reached binary32 (binary32.magnitude (Floating.toBits x)))) :=
    hbits
  have hsingle : (numeral .single x).toSingleBits .stepwise = .ok (Floating.toBits x) := by
    simp only [Numeral.toSingleBits, hinteger, Option.isNone_none, if_true, Numeral.narrowed, hdouble,
      bind, Except.bind, Binary.magnitude_withSign _ hfinite, hconvert]
    exact congrArg Except.ok (Binary.withSign_magnitude (LawfulFloating.toBits_lt x))
  show ((numeral .single x).toSingleBits .stepwise).map Floating.ofBits = .ok x
  rw [hsingle]
  exact congrArg Except.ok (LawfulFloating.ofBits_toBits x)

theorem IsNeighbour.refl {x : Float} (hx : isFinite .double x = true) : IsNeighbour x x :=
  ⟨hx, rfl, Nat.le_add_right _ _, Nat.le_add_right _ _⟩

variable {k : Raw} {x : k.Carrier} (hx : isFinite k x = true)

include hx

/-- A finite number is read back however it is rounded, as itself or as a neighbour. -/
theorem exists_toRaw (r : Rounding) : ∃ y, (numeral k x).toRaw r k = .ok y ∧ IsClose k x y := by
  cases k with
  | double =>
    cases r with
    | once => exact ⟨x, toRaw_once hx, IsNeighbour.refl hx⟩
    | stepwise => exact toRaw_stepwise_double hx
  | single =>
    cases r with
    | once => exact ⟨x, toRaw_once hx, rfl⟩
    | stepwise => exact ⟨x, toRaw_stepwise_single hx, rfl⟩
  | signed => exact ⟨x, toRanged_wholeLayout (by decide) (by decide) r x, rfl⟩
  | byte => exact ⟨x, toRanged_wholeLayout (by decide) (by decide) r x, rfl⟩

/-- Where nothing can be lost, a number is read back as itself. -/
theorem toRaw_of_isShort (h : IsShort k x) (r : Rounding) : (numeral k x).toRaw r k = .ok x := by
  obtain ⟨y, hy, hclose⟩ := exists_toRaw hx r
  cases k with
  | double =>
    cases r with
    | once => exact toRaw_once hx
    | stepwise =>
      have hfew := fewDigits_ofMagnitude (f := .binary64) (by decide) (of_decide_eq_true hx)
      exact (congrArg (Except.map Floating.ofBits) (Numeral.stepwiseBits_eq _ hfew h)).trans
        (toRaw_once hx)
  | single => exact hclose ▸ hy
  | signed => exact hclose ▸ hy
  | byte => exact hclose ▸ hy

end Json

end UnitMatrix
