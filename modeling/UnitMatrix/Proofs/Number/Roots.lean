import UnitMatrix.Proofs.Number.Operations

/-! Square roots of floats. The mantissa is made long enough, under an even exponent, for its integral
root to fill the format, and what is left over counts as the residue. So the root of a positive number
lies far above the unit and far below infinity, wherever in the format the number lies. -/

namespace UnitMatrix

open Float.Model Float.Model.UnpackedFloat

theorem two_pow_le_sqrt {m s i : Nat} (hm : 0 < m) (h : 2 * i ≤ m.log2 + s) :
    2 ^ i ≤ (m * 2 ^ s).sqrt := by
  rw [Nat.le_sqrt', ← Nat.pow_mul, Nat.mul_comm i 2]
  calc 2 ^ (2 * i) ≤ 2 ^ m.log2 * 2 ^ s := by
        rw [← Nat.pow_add]
        exact Nat.pow_le_pow_right (by decide) h
    _ ≤ m * 2 ^ s := Nat.mul_le_mul_right _ (Nat.log2_self_le hm.ne')

theorem sqrt_lt_two_pow {m s j : Nat} (h : m.log2 + 1 + s ≤ 2 * j) : (m * 2 ^ s).sqrt < 2 ^ j := by
  rw [Nat.sqrt_lt', ← Nat.pow_mul, Nat.mul_comm j 2]
  calc m * 2 ^ s < 2 ^ (m.log2 + 1) * 2 ^ s :=
        Nat.mul_lt_mul_of_pos_right Nat.lt_log2_self (Nat.two_pow_pos _)
    _ ≤ 2 ^ (2 * j) := by
        rw [← Nat.pow_add]
        exact Nat.pow_le_pow_right (by decide) h

variable {spec : Format} {a : Nat} {x : UnpackedFloat}

/-- A root is the integral root of a mantissa with an even exponent, unless it is long
enough for the format. -/
theorem exists_sqrt_eq (hspec : 2 ≤ spec.exponentBits) {m t : Nat} {e : Int} (hpos : 0 < m)
    (he : e + (ofFormat spec).unitExponent = t) :
    ∃ (s k : Nat) (e' : Int) (accuracy : Accuracy),
      UnpackedFloat.sqrt spec (.finite .positive m e hpos) =
        roundWithAccuracy spec .positive (m * 2 ^ s).sqrt e' accuracy ∧
      e' + (ofFormat spec).unitExponent = k ∧ s + 2 * k = t + (ofFormat spec).unitExponent ∧
      (spec.mantissaBitsWithoutImplicit ≤ (m * 2 ^ s).sqrt.log2 ∨ k = 0) := by
  have hmin := minExponent_eq hspec
  obtain ⟨e', he'⟩ : ∃ e', e' = min (e / 2) (max ((m.log2 + 1 + e + 1) / 2 -
    ((spec.mantissaBitsWithoutImplicit + 1 : Nat) : Int)) (-(ofFormat spec).unitExponent)) := ⟨_, rfl⟩
  have htarget : min (e.ediv 2) (spec.targetExponent ((totalExponent m e + 1).ediv 2)) = e' := by
    rw [he', Format.targetExponent, totalExponent, Format.mantissaBits, hmin, Nat.add_comm 1]
    rfl
  obtain ⟨accuracy, hsqrt⟩ : ∃ accuracy, UnpackedFloat.sqrt spec (.finite .positive m e hpos) =
      roundWithAccuracy spec .positive (m * 2 ^ (e - 2 * e').toNat).sqrt e' accuracy := by
    rw [← htarget, ← Nat.shiftLeft_eq]
    exact ⟨_, rfl⟩
  refine ⟨_, (e' + (ofFormat spec).unitExponent).toNat, e', accuracy, hsqrt, by omega, by omega, ?_⟩
  · by_cases hk : e' + (ofFormat spec).unitExponent = 0
    · exact .inr (by omega)
    · have hroot : 2 ^ spec.mantissaBitsWithoutImplicit ≤ (m * 2 ^ (e - 2 * e').toNat).sqrt :=
        two_pow_le_sqrt hpos (by omega)
      have hpow : 0 < 2 ^ spec.mantissaBitsWithoutImplicit := Nat.two_pow_pos _
      exact .inl ((Nat.le_log2 (by omega)).2 hroot)

/-- The exponents reach far beyond the significand in both directions, and upwards beyond what fits
into a machine word. -/
structure Wide (spec : Format) : Prop where
  fraction : 3 * spec.mantissaBitsWithoutImplicit + 3 ≤ 2 ^ (spec.exponentBits - 1)
  words : spec.mantissaBitsWithoutImplicit + 64 < 2 ^ (spec.exponentBits - 1)

theorem Wide.unitExponent_eq (h : Wide spec) : (ofFormat spec).unitExponent + 2 =
    2 ^ (spec.exponentBits - 1) + spec.mantissaBitsWithoutImplicit := by
  have hfraction := h.fraction
  simp only [Binary.unitExponent, ofFormat, Nat.pow_eq]
  omega

theorem Wide.two_le (h : Wide spec) : 2 ≤ spec.exponentBits := by
  by_contra hlt
  have hwords := h.words
  rw [show spec.exponentBits - 1 = 0 by omega, Nat.pow_zero] at hwords
  omega

theorem Wide.two_pow_eq (h : Wide spec) :
    2 ^ spec.exponentBits = 2 * 2 ^ (spec.exponentBits - 1) := by
  have htwo := h.two_le
  rw [← Nat.pow_succ', Nat.succ_eq_add_one, Nat.sub_add_cancel (by omega)]

/-- A number between two powers of two, which are magnitudes, is rounded to a number between them. -/
theorem exists_toNat_pack_round (hspec : 2 ≤ spec.exponentBits) {m k i j : Nat} {e : Int}
    (accuracy : Accuracy) (hm : 0 < m) (he : e + (ofFormat spec).unitExponent = k)
    (hplaces : spec.mantissaBitsWithoutImplicit ≤ m.log2 ∨ k = 0)
    (hi : i + 2 < 2 ^ spec.exponentBits) (hj : j + 2 < 2 ^ spec.exponentBits)
    (hlower : 2 ^ i ≤ m * 2 ^ k) (hupper : (m + 1) * 2 ^ k ≤ 2 ^ j) :
    ∃ b < (ofFormat spec).infinity,
      (UnpackedFloat.pack spec (roundWithAccuracy spec .positive m e accuracy)).toNat = b ∧
        2 ^ i ≤ (ofFormat spec).units b := by
  have hprecision : 1 ≤ (ofFormat spec).precision := Nat.succ_pos _
  have hquarter := quarter_lt accuracy
  have hone : 1 < 2 ^ spec.mantissaBitsWithoutImplicit * 2 := by
    have := Nat.two_pow_pos spec.mantissaBitsWithoutImplicit
    omega
  obtain ⟨lo, hlo, hunits⟩ := Binary.exists_units (f := ofFormat spec) hone hi
  obtain ⟨hi, hhi, hunits'⟩ := Binary.exists_units (f := ofFormat spec) hone hj
  rw [Nat.one_mul] at hunits hunits'
  have hbelow : (4 * m + quarter accuracy) * 2 ^ k ≤ (ofFormat spec).units hi * (4 * 2 ^ 0) := by
    calc (4 * m + quarter accuracy) * 2 ^ k ≤ (m + 1) * 4 * 2 ^ k :=
          Nat.mul_le_mul_right _ (by omega)
      _ = (m + 1) * 2 ^ k * 4 := Nat.mul_right_comm ..
      _ ≤ _ := by rw [hunits']; exact Nat.mul_le_mul_right _ hupper
  have habove : (ofFormat spec).units lo * (4 * 2 ^ 0) ≤ (4 * m + quarter accuracy) * 2 ^ k := by
    calc (ofFormat spec).units lo * (4 * 2 ^ 0) ≤ m * 2 ^ k * 4 := by
          rw [hunits]; exact Nat.mul_le_mul_right _ hlower
      _ = m * 4 * 2 ^ k := Nat.mul_right_comm ..
      _ ≤ _ := Nat.mul_le_mul_right _ (by omega)
  have hfinite := (Binary.nearest_le_of_le_units hprecision hhi (by decide) hbelow).trans_lt hhi
  rw [toNat_pack_round hspec accuracy hm (k := k) (d := 0) (by omega) (by omega)]
  exact ⟨_, hfinite, rfl, hunits ▸ Binary.units_mono hprecision hlo hfinite
    (Binary.le_nearest_of_units_le hprecision hlo (by decide) habove)⟩

/-- The root of a positive number is far above the unit and far below infinity. -/
theorem toNat_pack_sqrt (hwide : Wide spec) (hx : Shows spec .positive a x) (h0 : 0 < a)
    (ha : a < (ofFormat spec).infinity) :
    ∃ b < (ofFormat spec).infinity, (UnpackedFloat.pack spec (UnpackedFloat.sqrt spec x)).toNat = b ∧
      2 ^ (2 * spec.mantissaBitsWithoutImplicit) ≤ (ofFormat spec).units b := by
  have hunit := hwide.unitExponent_eq
  have hm := spec.hm
  have hexponents := hwide.two_pow_eq
  have hfraction := hwide.fraction
  have hspec := hwide.two_le
  cases x with
  | notANumber => exact hx.elim
  | infinity sign => exact absurd hx.2 ha.ne
  | zero sign => exact absurd hx.2 h0.ne'
  | finite sign m e hpos =>
    obtain ⟨rfl, -, t, he, rfl, hmantissa, -⟩ := hx
    have hlog : m.log2 < spec.mantissaBitsWithoutImplicit + 1 :=
      (Nat.log2_lt hpos.ne').2 (by rwa [Nat.pow_succ])
    have ht : t < 2 ^ spec.exponentBits - 1 := by
      rw [infinity_ofFormat] at ha
      exact Nat.lt_of_mul_lt_mul_right (Nat.lt_of_le_of_lt (Nat.le_add_right _ m) ha)
    obtain ⟨s, k, e', accuracy, hsqrt, he', hs, hplaces⟩ := exists_sqrt_eq hspec hpos he
    have hlower : 2 ^ (2 * spec.mantissaBitsWithoutImplicit) ≤ (m * 2 ^ s).sqrt * 2 ^ k := by
      calc 2 ^ (2 * spec.mantissaBitsWithoutImplicit) ≤ 2 ^ ((m.log2 + s) / 2) * 2 ^ k := by
            rw [← Nat.pow_add]
            exact Nat.pow_le_pow_right (by decide) (by omega)
        _ ≤ (m * 2 ^ s).sqrt * 2 ^ k := Nat.mul_le_mul_right _ (two_pow_le_sqrt hpos (by omega))
    have hupper : ((m * 2 ^ s).sqrt + 1) * 2 ^ k ≤ 2 ^ (2 ^ spec.exponentBits - 3) := by
      calc ((m * 2 ^ s).sqrt + 1) * 2 ^ k ≤ 2 ^ ((m.log2 + 1 + s + 1) / 2) * 2 ^ k :=
            Nat.mul_le_mul_right _ (sqrt_lt_two_pow (by omega))
        _ ≤ 2 ^ (2 ^ spec.exponentBits - 3) := by
            rw [← Nat.pow_add]
            exact Nat.pow_le_pow_right (by decide) (by omega)
    rw [hsqrt]
    exact exists_toNat_pack_round hspec accuracy (two_pow_le_sqrt (i := 0) hpos (by omega)) he'
      hplaces (by omega) (by omega) hlower hupper

end UnitMatrix
