import UnitMatrix.Division.RootField
import UnitMatrix.Proofs.Number.Roundoff

/-! What floats compute, in whole numbers. Two numbers that are not negative have magnitudes, sums and
products of the numbers are the magnitudes nearest to the exact results, and numbers are compared as
their magnitudes are. Infinity takes part in all this, what is not a number in none of it. -/

namespace UnitMatrix

section Unpacked

open Float.Model Float.Model.UnpackedFloat

variable {spec : Format}

/-- The number has the sign `s` and the magnitude `a`. -/
def Shows (spec : Format) (s : Sign) (a : Nat) : UnpackedFloat → Prop
  | .zero s' => s' = s ∧ a = 0
  | .finite s' m e _ => s' = s ∧ a < (ofFormat spec).infinity ∧
      ∃ t : Nat, e + (ofFormat spec).unitExponent = t ∧
        a = t * 2 ^ spec.mantissaBitsWithoutImplicit + m ∧
          m < 2 ^ spec.mantissaBitsWithoutImplicit * 2 ∧
            (2 ^ spec.mantissaBitsWithoutImplicit ≤ m ∨ t = 0)
  | .infinity s' => s' = s ∧ a = (ofFormat spec).infinity
  | .notANumber => False

theorem infinity_pos (hspec : 2 ≤ spec.exponentBits) : 0 < (ofFormat spec).infinity := by
  have hpow : 2 ^ 2 ≤ 2 ^ spec.exponentBits := Nat.pow_le_pow_right (by decide) hspec
  rw [infinity_ofFormat]
  exact Nat.mul_pos (by omega) (Nat.two_pow_pos _)

/-- The exponent field and the fraction of a magnitude. -/
theorem magnitude_eq (b : BitVec spec.numBits) : (ofFormat spec).magnitude b.toNat =
    (unpackExponent b).toNat * 2 ^ spec.mantissaBitsWithoutImplicit + (unpackMantissa b).toNat := by
  rw [toNat_unpackExponent, toNat_unpackMantissa, Binary.magnitude, Binary.signBit, Nat.pow_eq,
    Nat.add_comm, Nat.pow_add, fractionBits_ofFormat]
  show b.toNat % (2 ^ spec.mantissaBitsWithoutImplicit * 2 ^ spec.exponentBits) = _
  rw [Nat.mod_mul, Nat.add_comm, Nat.mul_comm]

theorem toNat_leadingBit {n : Nat} (m : BitVec n) : (1#1 ++ m).toNat = 2 ^ n + m.toNat := by
  rw [BitVec.toNat_append, ← Nat.shiftLeft_add_eq_or_of_lt m.isLt]
  simp [Nat.shiftLeft_eq]

theorem shows_unpack (hspec : 2 ≤ spec.exponentBits) {b : BitVec spec.numBits}
    (h : (ofFormat spec).magnitude b.toNat ≤ (ofFormat spec).infinity) :
    Shows spec (Sign.ofBitVec (unpackSign b)) ((ofFormat spec).magnitude b.toNat)
      (UnpackedFloat.unpack spec b) := by
  have hbias := exponentBias_eq hspec
  have hm := (unpackMantissa b).isLt
  have he := (unpackExponent b).isLt
  have hpow : 2 ^ 2 ≤ 2 ^ spec.exponentBits := Nat.pow_le_pow_right (by decide) hspec
  rw [magnitude_eq, infinity_ofFormat] at h
  rw [magnitude_eq]
  unfold UnpackedFloat.unpack
  dsimp only
  split
  next hones =>
    have hones : (unpackExponent b).toNat = 2 ^ spec.exponentBits - 1 := by
      rw [hones, BitVec.neg_one_eq_allOnes, BitVec.toNat_allOnes]
    rw [hones] at h ⊢
    split
    next hzero => exact ⟨rfl, by rw [hzero, infinity_ofFormat]; rfl⟩
    next hne => exact hne (BitVec.eq_of_toNat_eq (by rw [BitVec.toNat_zero]; omega))
  next hones =>
    have hlt : (unpackExponent b).toNat < 2 ^ spec.exponentBits - 1 := by
      have hne : (unpackExponent b).toNat ≠ 2 ^ spec.exponentBits - 1 := fun h0 =>
        hones (BitVec.eq_of_toNat_eq (by simpa [BitVec.neg_one_eq_allOnes] using h0))
      omega
    have hfinite := Nat.mul_le_mul_right (2 ^ spec.mantissaBitsWithoutImplicit) hlt
    rw [Nat.succ_mul] at hfinite
    split
    next hnone =>
      have hnone : (unpackExponent b).toNat = 0 := by simp [hnone]
      rw [hnone] at hfinite ⊢
      split
      next hzero => exact ⟨rfl, by simp [hzero]⟩
      next hne =>
        exact ⟨rfl, by rw [infinity_ofFormat]; omega, 0, by omega, by simp, by omega, .inr rfl⟩
    next hnone =>
      have hpos : (unpackExponent b).toNat ≠ 0 := fun h0 => hnone (BitVec.eq_of_toNat_eq (by simpa))
      obtain ⟨t, ht⟩ := Nat.exists_eq_succ_of_ne_zero hpos
      have hlead := toNat_leadingBit (unpackMantissa b)
      rw [ht] at hfinite ⊢
      refine ⟨rfl, by rw [infinity_ofFormat]; omega, t, by omega, ?_, by omega, .inl (by omega)⟩
      rw [hlead, Nat.succ_mul]
      omega

theorem infinity_lt_signBit : (ofFormat spec).infinity < (ofFormat spec).signBit := by
  rw [infinity_ofFormat, Binary.signBit, Nat.pow_eq, Nat.pow_add, fractionBits_ofFormat]
  exact Nat.mul_lt_mul_of_pos_right (Nat.sub_lt (Nat.two_pow_pos _) (by decide))
    (Nat.two_pow_pos _)

theorem unpackSign_of_lt {b : BitVec spec.numBits} (h : b.toNat < (ofFormat spec).signBit) :
    Sign.ofBitVec (unpackSign b) = .positive := by
  have hzero : unpackSign b = 0 := by
    apply BitVec.eq_of_toNat_eq
    have hzero : b.toNat / 2 ^ (spec.mantissaBitsWithoutImplicit + spec.exponentBits) = 0 :=
      Nat.div_eq_of_lt (by rwa [Nat.add_comm])
    simp [unpackSign, Nat.shiftRight_eq_div_pow, hzero]
  rw [hzero]
  rfl

theorem shows_unpack_of_le (hspec : 2 ≤ spec.exponentBits) {b : BitVec spec.numBits}
    (h : b.toNat ≤ (ofFormat spec).infinity) :
    Shows spec .positive b.toNat (UnpackedFloat.unpack spec b) := by
  have hlt := h.trans_lt infinity_lt_signBit
  have hmagnitude : (ofFormat spec).magnitude b.toNat = b.toNat := Nat.mod_eq_of_lt hlt
  have hshows := shows_unpack hspec (b := b) (by rwa [hmagnitude])
  rwa [hmagnitude, unpackSign_of_lt hlt] at hshows

variable {s s' : Sign} {a b : Nat} {x y : UnpackedFloat}

theorem toNat_pack_infinity : (UnpackedFloat.pack spec (.infinity .positive)).toNat =
    (ofFormat spec).infinity := by
  rw [UnpackedFloat.pack, packedInfinity, toNat_packComponents, infinity_ofFormat]
  simp [BitVec.neg_one_eq_allOnes]

theorem Shows.toNat_pack (hspec : 2 ≤ spec.exponentBits) (hx : Shows spec .positive a x) :
    (UnpackedFloat.pack spec x).toNat = a := by
  cases x with
  | notANumber => exact hx.elim
  | zero sign =>
    obtain ⟨rfl, rfl⟩ := hx
    exact toNat_packedZero
  | infinity sign =>
    obtain ⟨rfl, rfl⟩ := hx
    exact toNat_pack_infinity
  | finite sign m e hpos =>
    obtain ⟨rfl, hlt, t, he, rfl, hm, hlead⟩ := hx
    rw [toNat_pack_finite hspec hpos (by rwa [Nat.pow_succ]) hlead he]
    exact min_eq_left hlt.le

theorem Shows.units_finite {m : Nat} {e : Int} {hpos : 0 < m}
    (hx : Shows spec s a (.finite s' m e hpos)) :
    ∃ t : Nat, e + (ofFormat spec).unitExponent = t ∧ (ofFormat spec).units a = m * 2 ^ t ∧
      (spec.mantissaBitsWithoutImplicit ≤ m.log2 ∨ t = 0) := by
  obtain ⟨-, -, t, he, rfl, hm, hlead⟩ := hx
  refine ⟨t, he, Binary.units_of_significand hm hlead, ?_⟩
  exact hlead.imp_left (Nat.le_log2 hpos.ne').2

theorem nearest_zero (f : Binary) (hf : 1 ≤ f.precision) (den : Nat) : f.nearest 0 den = 0 := by
  simp [Binary.nearest, roundHalfEven, show 1 - f.precision = 0 by omega]

theorem toNat_pack_mul (hspec : 2 ≤ spec.exponentBits) (hx : Shows spec s a x)
    (hy : Shows spec s' b y) (hs : s * s' = .positive) (ha : a < (ofFormat spec).infinity)
    (hb : b < (ofFormat spec).infinity) : (UnpackedFloat.pack spec (mul spec x y)).toNat =
      (ofFormat spec).nearest ((ofFormat spec).units a * (ofFormat spec).units b)
        (2 ^ (ofFormat spec).unitExponent) := by
  have hzero := nearest_zero (ofFormat spec) (Nat.succ_pos _) (2 ^ (ofFormat spec).unitExponent)
  cases x with
  | notANumber => exact hx.elim
  | infinity sign => exact absurd hx.2 ha.ne
  | zero sign =>
    obtain ⟨rfl, rfl⟩ := hx
    rw [Binary.units_zero, Nat.zero_mul, hzero]
    cases y with
    | notANumber => exact hy.elim
    | infinity sign' => exact absurd hy.2 hb.ne
    | zero sign' =>
      rw [UnpackedFloat.mul, hy.1, hs]
      exact toNat_packedZero
    | finite sign' m e hpos =>
      rw [UnpackedFloat.mul, hy.1, hs]
      exact toNat_packedZero
  | finite sign m e hpos =>
    cases y with
    | notANumber => exact hy.elim
    | infinity sign' => exact absurd hy.2 hb.ne
    | zero sign' =>
      rw [hy.2, Binary.units_zero, Nat.mul_zero, hzero, UnpackedFloat.mul, hx.1, hy.1, hs]
      exact toNat_packedZero
    | finite sign' m' e' hpos' =>
      obtain ⟨t, he, hua, hlead⟩ := hx.units_finite
      obtain ⟨t', he', hub, hlead'⟩ := hy.units_finite
      have hplaces : spec.mantissaBitsWithoutImplicit ≤ (m * m').log2 ∨
          t + t' ≤ (ofFormat spec).unitExponent := by
        rcases hlead with hlead | rfl
        · exact .inl (hlead.trans (Binary.log2_mono (Nat.le_mul_of_pos_right m hpos')))
        · rcases hlead' with hlead' | rfl
          · exact .inl (hlead'.trans (Binary.log2_mono (Nat.le_mul_of_pos_left m' hpos)))
          · exact .inr (Nat.zero_le _)
      rw [UnpackedFloat.mul, hx.1, hy.1, hs, toNat_pack_round hspec .exact (Nat.mul_pos hpos hpos')
        (k := t + t') (d := (ofFormat spec).unitExponent) (by omega) hplaces, hua, hub, quarter,
        Nat.add_zero, Nat.mul_assoc, Nat.mul_comm 4, Nat.mul_comm 4,
        Binary.nearest_mul_mul _ _ (by decide)]
      congr 1
      rw [Nat.pow_add]
      ring

/-- Zero has no other form, nor has infinity. -/
theorem Shows.eq_zero (hspec : 2 ≤ spec.exponentBits) (hx : Shows spec s 0 x) : x = .zero s := by
  have hinf := infinity_pos hspec
  cases x with
  | notANumber => exact hx.elim
  | infinity sign => exact absurd hx.2 hinf.ne
  | zero sign => rw [hx.1]
  | finite sign m e hpos =>
    obtain ⟨-, -, t, -, h, -, -⟩ := hx
    omega

theorem Shows.eq_infinity (hspec : 2 ≤ spec.exponentBits)
    (hx : Shows spec s (ofFormat spec).infinity x) : x = .infinity s := by
  have hinf := infinity_pos hspec
  cases x with
  | notANumber => exact hx.elim
  | infinity sign => rw [hx.1]
  | zero sign => exact absurd hx.2 hinf.ne'
  | finite sign m e hpos => exact absurd hx.2.1 (Nat.lt_irrefl _)

/-- A number that is not zero times infinity. -/
theorem toNat_pack_infinity_mul (hspec : 2 ≤ spec.exponentBits)
    (hx : Shows spec .positive (ofFormat spec).infinity x) (hy : Shows spec .positive b y)
    (hb : 0 < b) : (UnpackedFloat.pack spec (UnpackedFloat.mul spec x y)).toNat =
      (ofFormat spec).infinity := by
  rw [hx.eq_infinity hspec]
  cases y with
  | notANumber => exact hy.elim
  | zero sign => exact absurd hy.2 hb.ne'
  | infinity sign =>
    rw [UnpackedFloat.mul, hy.1]
    exact toNat_pack_infinity
  | finite sign m e hpos =>
    rw [UnpackedFloat.mul, hy.1]
    exact toNat_pack_infinity

theorem toNat_pack_normalize (hspec : 2 ≤ spec.exponentBits) {m t : Nat} {e : Int} (hm : 0 < m)
    (he : e + (ofFormat spec).unitExponent = t) (sign : Sign) :
    (UnpackedFloat.pack spec (UnpackedFloat.normalize spec m e sign)).toNat =
      (ofFormat spec).nearest (m * 2 ^ t) 1 := by
  have hmin := minExponent_eq hspec
  have hcompare : compare (m : Int) 0 = .gt := Int.compare_eq_gt.2 (by omega)
  rw [UnpackedFloat.normalize, hcompare]
  -- as many zeros are put behind the mantissa as there is room for in the format
  obtain ⟨j, hj⟩ : ∃ j, j = (e - spec.targetExponent (totalExponent m e)).toNat := ⟨_, rfl⟩
  have htarget : spec.targetExponent (totalExponent m e) =
      max (m.log2 - spec.mantissaBitsWithoutImplicit + e) (-(ofFormat spec).unitExponent) := by
    rw [Format.targetExponent, totalExponent, Format.mantissaBits, hmin]
    congr 1
    push_cast
    ring
  rw [htarget] at hj
  have hround : UnpackedFloat.round spec .positive m e =
      roundWithAccuracy spec .positive (m * 2 ^ j) (e - j) .exact := by
    rw [UnpackedFloat.round, decreaseExponent, htarget, ← hj, Nat.shiftLeft_eq]
  obtain ⟨i, hi⟩ : ∃ i, t = i + j := Nat.exists_eq_add_of_le' (by omega)
  have hlog : (m * 2 ^ j).log2 = m.log2 + j := log2_mul_two_pow hm.ne' j
  show (UnpackedFloat.pack spec (UnpackedFloat.round spec .positive m e)).toNat = _
  rw [hround, toNat_pack_round hspec .exact (Nat.mul_pos hm (Nat.two_pow_pos _))
    (k := i) (d := 0) (by omega) (by omega), quarter, Nat.add_zero, Nat.mul_assoc,
    Nat.mul_comm 4, Nat.mul_comm 4, Binary.nearest_mul_mul _ _ (by decide), hi, Nat.pow_add]
  congr 1
  ring

theorem toNat_pack_add (hspec : 2 ≤ spec.exponentBits) (hx : Shows spec .positive a x)
    (hy : Shows spec .positive b y) (ha : a < (ofFormat spec).infinity)
    (hb : b < (ofFormat spec).infinity) : (UnpackedFloat.pack spec (UnpackedFloat.add spec x y)).toNat =
      (ofFormat spec).nearest ((ofFormat spec).units a + (ofFormat spec).units b) 1 := by
  have hprecision : 1 ≤ (ofFormat spec).precision := Nat.succ_pos _
  cases x with
  | notANumber => exact hx.elim
  | infinity sign => exact absurd hx.2 ha.ne
  | zero sign =>
    obtain ⟨rfl, rfl⟩ := hx
    rw [Binary.units_zero, Nat.zero_add, Binary.nearest_units_one hprecision hb, ← hy.toNat_pack hspec]
    cases y with
    | notANumber => exact hy.elim
    | infinity sign' => exact absurd hy.2 hb.ne
    | zero sign' =>
      rw [UnpackedFloat.add, hy.1]
      rfl
    | finite sign' m e hpos => rfl
  | finite sign m e hpos =>
    cases y with
    | notANumber => exact hy.elim
    | infinity sign' => exact absurd hy.2 hb.ne
    | zero sign' =>
      rw [hy.2, Binary.units_zero, Nat.add_zero, Binary.nearest_units_one hprecision ha]
      exact hx.toNat_pack hspec
    | finite sign' m' e' hpos' =>
      obtain ⟨t, he, hua, -⟩ := hx.units_finite
      obtain ⟨t', he', hub, -⟩ := hy.units_finite
      obtain ⟨i, hi⟩ : ∃ i, t = min t t' + i := Nat.exists_eq_add_of_le (Nat.min_le_left ..)
      obtain ⟨j, hj⟩ : ∃ j, t' = min t t' + j := Nat.exists_eq_add_of_le (Nat.min_le_right ..)
      have hsum : UnpackedFloat.add spec (.finite sign m e hpos) (.finite sign' m' e' hpos') =
          UnpackedFloat.normalize spec ((m * 2 ^ i + m' * 2 ^ j : Nat)) (min e e') .positive := by
        simp only [UnpackedFloat.add, decreaseExponent, hx.1, hy.1, Sign.apply, Nat.shiftLeft_eq,
          show (e - min e e').toNat = i by omega, show (e' - min e e').toNat = j by omega,
          Nat.cast_add]
      have hm : 0 < m * 2 ^ i := Nat.mul_pos hpos (Nat.two_pow_pos _)
      rw [hsum, toNat_pack_normalize hspec (t := min t t') (by omega) (by omega), hua, hub,
        Nat.add_mul, Nat.mul_assoc, Nat.mul_assoc, ← Nat.pow_add, ← Nat.pow_add, Nat.add_comm i,
        Nat.add_comm j, ← hi, ← hj]

theorem toNat_pack_add_infinity (hspec : 2 ≤ spec.exponentBits) (hx : Shows spec .positive a x)
    (hy : Shows spec .positive b y)
    (h : a = (ofFormat spec).infinity ∨ b = (ofFormat spec).infinity) :
    (UnpackedFloat.pack spec (UnpackedFloat.add spec x y)).toNat = (ofFormat spec).infinity := by
  rw [← toNat_pack_infinity]
  congr 2
  rcases h with rfl | rfl
  · rw [hx.eq_infinity hspec]
    cases y with
    | notANumber => exact hy.elim
    | infinity sign =>
      rw [hy.1]
      rfl
    | zero sign => rfl
    | finite sign m e hpos => rfl
  · rw [hy.eq_infinity hspec]
    cases x with
    | notANumber => exact hx.elim
    | infinity sign =>
      rw [hx.1]
      rfl
    | zero sign => rfl
    | finite sign m e hpos => rfl

/-- A larger exponent counts for more than any significand. -/
theorem significand_lt {n m m' t t' : Nat} (hm : m < 2 ^ n * 2) (hlead' : 2 ^ n ≤ m' ∨ t' = 0)
    (h : t < t') : t * 2 ^ n + m < t' * 2 ^ n + m' := by
  have hstep : (t + 1) * 2 ^ n ≤ t' * 2 ^ n := Nat.mul_le_mul_right _ h
  have hlead' : 2 ^ n ≤ m' := hlead'.resolve_right (by omega)
  rw [Nat.add_mul, Nat.one_mul] at hstep
  omega

theorem compare_significands {n m m' t t' : Nat} {e e' u : Int} (he : e + u = t) (he' : e' + u = t')
    (hm : m < 2 ^ n * 2) (hm' : m' < 2 ^ n * 2) (hlead : 2 ^ n ≤ m ∨ t = 0)
    (hlead' : 2 ^ n ≤ m' ∨ t' = 0) :
    (compare e e').then (compare m m') = compare (t * 2 ^ n + m) (t' * 2 ^ n + m') := by
  rcases lt_trichotomy e e' with hlt | rfl | hgt
  · have hsum := significand_lt hm hlead' (show t < t' by omega)
    rw [compare_lt_iff_lt.2 hlt, compare_lt_iff_lt.2 hsum]
    rfl
  · obtain rfl : t = t' := by omega
    rw [compare_eq_iff_eq.2 rfl]
    show compare m m' = _
    rcases lt_trichotomy m m' with hlt | rfl | hgt
    · rw [compare_lt_iff_lt.2 hlt, compare_lt_iff_lt.2 (Nat.add_lt_add_left hlt _)]
    · rw [compare_eq_iff_eq.2 rfl, compare_eq_iff_eq.2 rfl]
    · rw [compare_gt_iff_gt.2 hgt, compare_gt_iff_gt.2 (Nat.add_lt_add_left hgt _)]
  · have hsum := significand_lt hm' hlead (show t' < t by omega)
    rw [compare_gt_iff_gt.2 hgt, compare_gt_iff_gt.2 hsum]
    rfl

/-- Numbers that are not negative are compared as their magnitudes are. -/
theorem compare_of_shows (hspec : 2 ≤ spec.exponentBits) (hx : Shows spec .positive a x)
    (hy : Shows spec .positive b y) : x.compare y = some (compare a b) := by
  have hinf := infinity_pos hspec
  cases x with
  | notANumber => exact hx.elim
  | zero sign =>
    obtain ⟨rfl, rfl⟩ := hx
    cases y with
    | notANumber => exact hy.elim
    | zero sign =>
      obtain ⟨rfl, rfl⟩ := hy
      rfl
    | infinity sign =>
      obtain ⟨rfl, rfl⟩ := hy
      rw [compare_lt_iff_lt.2 hinf]
      rfl
    | finite sign m e hpos =>
      obtain ⟨rfl, -, t, -, rfl, -, -⟩ := hy
      rw [compare_lt_iff_lt.2 (by omega)]
      rfl
  | infinity sign =>
    obtain ⟨rfl, rfl⟩ := hx
    cases y with
    | notANumber => exact hy.elim
    | zero sign =>
      obtain ⟨rfl, rfl⟩ := hy
      rw [compare_gt_iff_gt.2 hinf]
      rfl
    | infinity sign =>
      obtain ⟨rfl, rfl⟩ := hy
      rw [compare_eq_iff_eq.2 rfl]
      rfl
    | finite sign m e hpos =>
      rw [compare_gt_iff_gt.2 hy.2.1]
      rfl
  | finite sign m e hpos =>
    cases y with
    | notANumber => exact hy.elim
    | zero sign =>
      obtain ⟨rfl, rfl⟩ := hy
      obtain ⟨rfl, -, t, -, rfl, -, -⟩ := hx
      rw [compare_gt_iff_gt.2 (by omega)]
      rfl
    | infinity sign =>
      obtain ⟨rfl, rfl⟩ := hy
      rw [compare_lt_iff_lt.2 hx.2.1]
      obtain ⟨rfl, -⟩ := hx
      rfl
    | finite sign' m' e' hpos' =>
      obtain ⟨rfl, -, t, he, rfl, hm, hlead⟩ := hx
      obtain ⟨rfl, -, t', he', rfl, hm', hlead'⟩ := hy
      rw [← compare_significands he he' hm hm' hlead hlead']
      rfl

end Unpacked

end UnitMatrix
