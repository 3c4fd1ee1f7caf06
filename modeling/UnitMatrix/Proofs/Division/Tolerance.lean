import UnitMatrix.Division
import UnitMatrix.Proofs.Number.FloatField

/-! The tolerance of the first pivot, in floats. The norm that sets the tolerance is also the one that is
compared with it. Wherever the norm lies in the format, its relative error is exact; so only the
extents of the divisor decide, unless the squares that the norm is made of are lost: rounded to zero
or beyond the largest number. -/

namespace UnitMatrix

namespace Binary

variable {f : Binary} {b : Nat}

/-- Far above the unit a significand has its leading bit and room below. -/
theorem exists_units_eq (hfraction : 1 ≤ f.fractionBits) (hb : b < f.infinity)
    (hfar : 2 ^ (2 * f.fractionBits) ≤ f.units b) :
    ∃ s t, f.units b = s * 2 ^ (t + f.fractionBits) ∧ 2 ^ f.fractionBits ≤ s ∧
      s < 2 ^ f.fractionBits * 2 ∧ t + f.fractionBits + 2 < 2 ^ f.exponentBits := by
  obtain ⟨s, t', hunits, rfl, hs, hlead⟩ := units_eq (f := f) b
  have ht : f.fractionBits ≤ t' := by
    have hlt : 2 ^ (2 * f.fractionBits) < 2 ^ (f.fractionBits + 1 + t') := by
      rw [Nat.pow_add, Nat.pow_succ]
      exact hfar.trans_lt (hunits ▸ Nat.mul_lt_mul_of_pos_right hs (Nat.two_pow_pos _))
    have := (Nat.pow_lt_pow_iff_right (by decide)).1 hlt
    omega
  obtain ⟨t, rfl⟩ := Nat.exists_eq_add_of_le' ht
  have hlead : 2 ^ f.fractionBits ≤ s := hlead.resolve_right (by omega)
  refine ⟨s, t, hunits, hlead, hs, ?_⟩
  have hlt : (t + f.fractionBits + 1) * 2 ^ f.fractionBits <
      (2 ^ f.exponentBits - 1) * 2 ^ f.fractionBits := by
    rw [Nat.add_mul, Nat.one_mul]
    exact Nat.lt_of_le_of_lt (Nat.add_le_add_left hlead _) hb
  have := Nat.lt_of_mul_lt_mul_right hlt
  omega

/-- The relative error of a magnitude far above the unit is exact, and one place of the magnitude is no
more than that. -/
theorem exists_error (hprecision : 1 ≤ f.precision) (hfraction : 1 ≤ f.fractionBits)
    (hunit : f.fractionBits ≤ f.unitExponent) (hb : b < f.infinity)
    (hfar : 2 ^ (2 * f.fractionBits) ≤ f.units b) :
    ∃ c < f.infinity,
      f.nearest (f.units b * 2 ^ (f.unitExponent - f.fractionBits)) (2 ^ f.unitExponent) = c ∧
        f.units b = f.units c * 2 ^ f.fractionBits ∧ ∃ p < b, f.units b ≤ f.units p + f.units c := by
  obtain ⟨s, t, hunits, hlead, hs, ht⟩ := exists_units_eq hfraction hb hfar
  -- the error has another exponent and the same significand
  obtain ⟨c, hc, hunitsc⟩ := exists_units (f := f) hs (t := t) (by omega)
  have hscaled : f.units b = f.units c * 2 ^ f.fractionBits := by
    rw [hunits, hunitsc, Nat.pow_add, Nat.mul_assoc]
  refine ⟨c, hc, ?_, hscaled, ?_⟩
  · rw [hscaled, Nat.mul_assoc, ← Nat.pow_add, Nat.add_sub_cancel' hunit]
    exact nearest_units hprecision hc (Nat.two_pow_pos _)
  · obtain ⟨r, rfl⟩ := Nat.exists_eq_add_of_le' ((Nat.two_pow_pos _).trans_le hlead)
    obtain ⟨p, hp, hunitsp⟩ := exists_units (f := f) (s := r) (t := t + f.fractionBits) (by omega) ht
    have hplace : 2 ^ (t + f.fractionBits) ≤ f.units c := by
      rw [hunitsc, Nat.pow_add, Nat.mul_comm]
      exact Nat.mul_le_mul_right _ hlead
    rw [Nat.add_mul, Nat.one_mul, ← hunitsp] at hunits
    have hpow := Nat.two_pow_pos (t + f.fractionBits)
    exact ⟨p, lt_of_units_lt hprecision hp hb (by omega), by omega⟩

/-- A whole number of errors reaches the magnitude only if the number makes up for the error. -/
theorem le_error_mul_iff (hprecision : 1 ≤ f.precision)
    (hroom : f.unitExponent + 2 < 2 ^ f.exponentBits) (hb : b < f.infinity) {c p : Nat}
    (hscaled : f.units b = f.units c * 2 ^ f.fractionBits) (hp : p < b)
    (hplace : f.units b ≤ f.units p + f.units c) {scale : Nat}
    (hscale : f.nearest (scale * 2 ^ f.unitExponent) 1 < f.infinity) :
    b ≤ f.nearest (f.units c * f.units (f.nearest (scale * 2 ^ f.unitExponent) 1))
      (2 ^ f.unitExponent) ↔ 2 ^ f.fractionBits ≤ scale := by
  have hpow : 0 < 2 ^ f.unitExponent := Nat.two_pow_pos _
  constructor
  · -- a smaller whole number is exact, and the product lies at least one place below
    intro hle
    by_contra hlt
    have hlt := Nat.lt_of_not_le hlt
    obtain ⟨d, hd, hunitsd⟩ := exists_units (f := f) (s := scale) (by omega) hroom
    have hproduct : f.units c * scale ≤ f.units p := by
      have hsucc : f.units c * (scale + 1) ≤ f.units b :=
        hscaled ▸ Nat.mul_le_mul_left _ hlt
      rw [Nat.mul_add] at hsucc
      omega
    have hbelow : f.nearest (f.units c * f.units d) (2 ^ f.unitExponent) ≤ p := by
      refine nearest_le_of_le_units hprecision (hp.trans hb) hpow ?_
      rw [hunitsd, ← Nat.mul_assoc]
      exact Nat.mul_le_mul_right _ hproduct
    rw [← hunitsd, nearest_units_one hprecision hd] at hle
    omega
  · intro hle
    obtain ⟨d, hd, hunitsd⟩ := exists_units (f := f) (s := 2 ^ f.fractionBits) (by
      have := Nat.two_pow_pos f.fractionBits
      omega) hroom
    have hle' : f.units d ≤ f.units (f.nearest (scale * 2 ^ f.unitExponent) 1) := by
      refine units_mono hprecision hd hscale (le_nearest_of_units_le hprecision hd Nat.one_pos ?_)
      rw [hunitsd, Nat.mul_one]
      exact Nat.mul_le_mul_right _ hle
    refine le_nearest_of_units_le hprecision hb hpow ?_
    rw [hscaled, Nat.mul_assoc, ← hunitsd]
    exact Nat.mul_le_mul_left _ hle'

end Binary

section Norms

open RootField FloatField

variable {K : Type} [Floating K] [RootField K] [FloatField K] {x : K} {values : List K}

/-- No sign, and far above the unit unless it is zero or infinity. -/
structure FarAboveUnit (x : K) : Prop where
  unsigned : Unsigned x
  le_units : Floating.toBits x ≠ 0 → Floating.toBits x ≠ (Floating.format K).infinity →
    2 ^ (2 * (Floating.format K).fractionBits) ≤ (Floating.format K).units (Floating.toBits x)

/-- Roots are zero or infinite with the number, and far above the unit elsewhere. -/
theorem sqrt_cases (hx : Unsigned x) :
    (Floating.toBits x = 0 ∧ Floating.toBits (sqrt x) = 0) ∨
      (Floating.toBits x = (Floating.format K).infinity ∧
        Floating.toBits (sqrt x) = (Floating.format K).infinity) ∨
      (0 < Floating.toBits x ∧ Floating.toBits x < (Floating.format K).infinity ∧
        Floating.toBits (sqrt x) < (Floating.format K).infinity ∧
          2 ^ (2 * (Floating.format K).fractionBits) ≤
            (Floating.format K).units (Floating.toBits (sqrt x))) := by
  rcases Nat.eq_zero_or_pos (Floating.toBits x) with h0 | h0
  · exact .inl ⟨h0, toBits_sqrt_zero h0⟩
  · rcases Nat.eq_or_lt_of_le hx with hx | hx
    · exact .inr (.inl ⟨hx, toBits_sqrt_infinity hx⟩)
    · exact .inr (.inr ⟨h0, hx, toBits_sqrt h0 hx⟩)

theorem farAboveUnit_sqrt (hx : Unsigned x) : FarAboveUnit (sqrt x) := by
  rcases sqrt_cases hx with ⟨-, hzero⟩ | ⟨-, hinfinity⟩ | ⟨-, -, hlt, hfar⟩
  · exact ⟨hzero.trans_le (Nat.zero_le _), fun h => absurd hzero h⟩
  · exact ⟨hinfinity.le, fun _ h => absurd hinfinity h⟩
  · exact ⟨hlt.le, fun _ _ => hfar⟩

theorem toBits_sqrt_eq_zero_iff (hx : Unsigned x) :
    Floating.toBits (sqrt x) = 0 ↔ Floating.toBits x = 0 := by
  have hinf := format_infinity_pos (K := K)
  rcases sqrt_cases hx with ⟨h0, hzero⟩ | ⟨hx, hinfinity⟩ | ⟨h0, -, -, hfar⟩
  · rw [h0, hzero]
  · rw [hx, hinfinity]
  · have hpos : Floating.toBits (sqrt x) ≠ 0 := by
      intro h
      rw [h, Binary.units_zero] at hfar
      have := Nat.two_pow_pos (2 * (Floating.format K).fractionBits)
      omega
    exact iff_of_false hpos h0.ne'

theorem toBits_sqrt_eq_infinity_iff (hx : Unsigned x) :
    Floating.toBits (sqrt x) = (Floating.format K).infinity ↔
      Floating.toBits x = (Floating.format K).infinity := by
  rcases sqrt_cases hx with ⟨h0, hzero⟩ | ⟨hx, hinfinity⟩ | ⟨-, hlt, hlt', -⟩
  · rw [h0, hzero]
  · rw [hx, hinfinity]
  · exact iff_of_false hlt'.ne hlt.ne

theorem foldl_squares (hvalues : ∀ v ∈ values, IsFinite v) {start : K} (hstart : Unsigned start) :
    let sum := values.foldl (fun sum v => add sum (mul v v)) start
    Unsigned sum ∧ Floating.toBits start ≤ Floating.toBits sum ∧
      (∀ v ∈ values, Floating.toBits (mul v v) ≤ Floating.toBits sum) ∧
      (Floating.toBits start = 0 → (∀ v ∈ values, Floating.toBits (mul v v) = 0) →
        Floating.toBits sum = 0) := by
  induction values generalizing start with
  | nil => exact ⟨hstart, Nat.le_refl _, by simp, fun h _ => h⟩
  | cons v values ih =>
    have hv := unsigned_mul_self (hvalues v (by simp))
    obtain ⟨hleft, hright, hnext⟩ := le_toBits_add hstart hv
    obtain ⟨hsum, hle, hsquares, hzero⟩ := ih (fun w hw => hvalues w (by simp [hw])) hnext
    refine ⟨hsum, hleft.trans hle, ?_, fun h0 hall => hzero ?_ fun w hw => hall w (by simp [hw])⟩
    · intro w hw
      rcases List.mem_cons.1 hw with rfl | hw
      · exact hright.trans hle
      · exact hsquares w hw
    · rw [toBits_add_of_eq_zero h0 hv]
      exact hall v (by simp)

theorem unsigned_zero : Unsigned (zero : K) := toBits_zero.trans_le (Nat.zero_le _)

theorem unsigned_squareSum (hvalues : ∀ v ∈ values, IsFinite v) : Unsigned (squareSum values) :=
  (foldl_squares hvalues unsigned_zero).1

theorem toBits_squareSum_eq_zero_iff (hvalues : ∀ v ∈ values, IsFinite v) :
    Floating.toBits (squareSum values) = 0 ↔ ∀ v ∈ values, Floating.toBits (mul v v) = 0 := by
  obtain ⟨-, -, hsquares, hzero⟩ := foldl_squares hvalues unsigned_zero
  exact ⟨fun h v hv => Nat.le_zero.1 ((hsquares v hv).trans_eq h), hzero toBits_zero⟩

theorem farAboveUnit_normFrom (hvalues : ∀ v ∈ values, IsFinite v) :
    FarAboveUnit (normFrom 0 values) :=
  farAboveUnit_sqrt (unsigned_squareSum hvalues)

theorem toBits_normFrom_eq_zero_iff (hvalues : ∀ v ∈ values, IsFinite v) :
    Floating.toBits (normFrom 0 values) = 0 ↔ ∀ v ∈ values, Floating.toBits (mul v v) = 0 :=
  (toBits_sqrt_eq_zero_iff (unsigned_squareSum hvalues)).trans (toBits_squareSum_eq_zero_iff hvalues)

theorem toBits_normFrom_eq_infinity_iff (hvalues : ∀ v ∈ values, IsFinite v) :
    Floating.toBits (normFrom 0 values) = (Floating.format K).infinity ↔
      Floating.toBits (squareSum values) = (Floating.format K).infinity :=
  toBits_sqrt_eq_infinity_iff (unsigned_squareSum hvalues)

end Norms

section Tolerance

open RootField FloatField

variable {K : Type} [Floating K] [RootField K] [FloatField K] {norm : K} {scale : Nat}

theorem format_room : (Floating.format K).unitExponent + 2 < 2 ^ (Floating.format K).exponentBits ∧
    1 ≤ (Floating.format K).fractionBits ∧
      (Floating.format K).fractionBits ≤ (Floating.format K).unitExponent := by
  have hunit := (wide (K := K)).unitExponent_eq
  have hexponents := (wide (K := K)).two_pow_eq
  have hfraction := (wide (K := K)).fraction
  have hm := (spec K).hm
  rw [format_eq]
  simp only [ofFormat, Binary.fractionBits] at hunit ⊢
  omega

theorem toBits_epsilon_pos : 0 < Floating.toBits (epsilon : K) := by
  refine Nat.pos_of_ne_zero fun h => ?_
  have hunits := units_epsilon (K := K)
  rw [h, Binary.units_zero] at hunits
  exact (Nat.two_pow_pos _).ne hunits

theorem toBits_ofNat_pos (hscale : 0 < scale) (hword : scale < 2 ^ 64) :
    0 < Floating.toBits (ofNat scale : K) := by
  obtain ⟨hroom, hfraction, -⟩ := format_room (K := K)
  have hone : 1 < 2 ^ (Floating.format K).fractionBits :=
    Nat.one_lt_two_pow (Nat.pos_iff_ne_zero.1 hfraction)
  have hinf : 1 < (Floating.format K).infinity :=
    hone.trans_le (Nat.le_mul_of_pos_left _ (Nat.sub_pos_of_lt (by rw [Nat.pow_eq]; omega)))
  rw [(toBits_ofNat hword).2]
  refine Binary.le_nearest_of_units_le one_le_precision hinf Nat.one_pos ?_
  rw [Binary.units_of_lt hone]
  exact Nat.mul_pos hscale (Nat.two_pow_pos _)

/-- A norm is within the tolerance only where its square is lost, or where the extents make up for the
relative error. -/
theorem le_tolerance_iff (hnorm : FarAboveUnit norm)
    (hscale : 0 < scale) (hword : scale < 2 ^ 64) :
    le norm (mul (mul norm epsilon) (ofNat scale)) = true ↔
      Floating.toBits norm = 0 ∨ Floating.toBits norm = (Floating.format K).infinity ∨
        2 ^ (Floating.format K).fractionBits ≤ scale := by
  obtain ⟨hroom, hfraction, hunit⟩ := format_room (K := K)
  obtain ⟨hfinite, hbits⟩ := toBits_ofNat (K := K) hword
  have hprecision := one_le_precision (K := K)
  have hepsilon := epsilon_lt (K := K)
  by_cases h0 : Floating.toBits norm = 0
  · have hzero {x y : K} (hx : Floating.toBits x = 0)
        (hy : Floating.toBits y < (Floating.format K).infinity) : Floating.toBits (mul x y) = 0 := by
      rw [toBits_mul (hx.trans_lt format_infinity_pos) hy, hx, Binary.units_zero, Nat.zero_mul,
        nearest_zero _ hprecision]
    have htolerance := hzero (hzero h0 hepsilon) hfinite
    rw [le_iff hnorm.unsigned (htolerance.trans_le (Nat.zero_le _)), htolerance, h0]
    simp
  · by_cases hinf : Floating.toBits norm = (Floating.format K).infinity
    · have herror := toBits_infinity_mul hinf hepsilon.le toBits_epsilon_pos
      have htolerance := toBits_infinity_mul herror (y := ofNat scale) hfinite.le
        (toBits_ofNat_pos hscale hword)
      rw [le_iff hnorm.unsigned htolerance.le, htolerance]
      exact ⟨fun _ => .inr (.inl hinf), fun _ => hnorm.unsigned⟩
    · have hlt := Nat.lt_of_le_of_ne hnorm.unsigned hinf
      obtain ⟨c, hc, hnearest, hscaled, p, hp, hplace⟩ :=
        Binary.exists_error hprecision hfraction hunit hlt (hnorm.le_units h0 hinf)
      have herror : Floating.toBits (mul norm epsilon) = c := by
        rw [toBits_mul hlt hepsilon, units_epsilon, hnearest]
      have htolerance := toBits_mul (x := mul norm epsilon) (herror.trans_lt hc) hfinite
      have hunsigned : Unsigned (mul (mul norm epsilon) (ofNat scale)) :=
        htolerance.trans_le (Binary.nearest_le_infinity _ _)
      rw [le_iff hnorm.unsigned hunsigned, htolerance, herror, hbits,
        Binary.le_error_mul_iff hprecision hroom hlt hscaled hp hplace (hbits ▸ hfinite)]
      simp [h0, hinf]

end Tolerance

end UnitMatrix
