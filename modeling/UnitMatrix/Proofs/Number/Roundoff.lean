import UnitMatrix.Proofs.Number.Bits
import UnitMatrix.Proofs.Number.Nearest

/-! How floats are rounded. A mantissa is shifted to the place where the format ends, and two bits keep
what the rest of the number is compared with a half. So a rounded float is the magnitude nearest to
the exact number, and its bits are what rounding to the nearest gives in whole numbers. -/

namespace UnitMatrix

open Float.Model Float.Model.UnpackedFloat

section Residue

variable {em : ExtendedMantissa} {num den : Nat}

/-- The mantissa and its residual bits say where `num / den` lies. -/
structure Tells (em : ExtendedMantissa) (num den : Nat) : Prop where
  den_pos : 0 < den
  mantissa : em.mantissa = num / den
  roundBit : em.roundBit = true ↔ den ≤ 2 * (num % den)
  stickyBit : em.stickyBit = true ↔ 2 * (num % den) % den ≠ 0

def quarter : Accuracy → Nat
  | .exact => 0
  | .inexact .lt => 1
  | .inexact .eq => 2
  | .inexact .gt => 3

theorem quarter_lt (a : Accuracy) : quarter a < 4 := by
  cases a with
  | exact => decide
  | inexact o => cases o <;> decide

theorem tells_ofMantissaAndAccuracy (m : Nat) (a : Accuracy) :
    Tells (.ofMantissaAndAccuracy m a) (4 * m + quarter a) 4 := by
  have hq := quarter_lt a
  have hmod : (4 * m + quarter a) % 4 = quarter a := by omega
  refine ⟨by decide, ?_, ?_, ?_⟩
  · have hm : (ExtendedMantissa.ofMantissaAndAccuracy m a).mantissa = m := by
      cases a with
      | exact => rfl
      | inexact o => cases o <;> rfl
    omega
  all_goals
    rw [hmod]
    cases a with
    | exact => simp [ExtendedMantissa.ofMantissaAndAccuracy, quarter]
    | inexact o => cases o <;> simp [ExtendedMantissa.ofMantissaAndAccuracy, quarter]

theorem Tells.shiftRightOne (h : Tells em num den) : Tells em.shiftRightOne num (den * 2) := by
  have hden := h.den_pos
  have hr := Nat.mod_lt num hden
  have hmod : num % (den * 2) = num % den + den * (num / den % 2) := Nat.mod_mul
  refine ⟨by omega, ?_, ?_, ?_⟩
  · show em.mantissa / 2 = _
    rw [h.mantissa, Nat.div_div_eq_div_mul]
  · show (em.mantissa % 2 != 0) = true ↔ _
    rw [h.mantissa, hmod]
    rcases Nat.mod_two_eq_zero_or_one (num / den) with hq | hq <;> simp [hq] <;> omega
  · -- a residue is not zero if it is a half or more, or less than a half and not zero
    show (em.roundBit || em.stickyBit) = true ↔ _
    rw [Bool.or_eq_true, h.roundBit, h.stickyBit, hmod, Nat.mul_comm den 2, Nat.mul_mod_mul_left]
    rw [Nat.add_mul_mod_self_left, Nat.mod_eq_of_lt hr]
    by_cases hhalf : den ≤ 2 * (num % den)
    · simp only [hhalf, true_or, true_iff]
      omega
    · rw [Nat.mod_eq_of_lt (Nat.lt_of_not_le hhalf)]
      omega

theorem Tells.shiftRight (h : Tells em num den) (k : Nat) : Tells (em >>> k) num (den * 2 ^ k) := by
  show Tells (k.repeat ExtendedMantissa.shiftRightOne em) num (den * 2 ^ k)
  induction k with
  | zero => simpa [Nat.repeat] using h
  | succ k ih =>
    rw [Nat.pow_succ, ← Nat.mul_assoc]
    exact ih.shiftRightOne

theorem Tells.roundedMantissa (h : Tells em num den) :
    em.roundedMantissa = roundHalfEven num den := by
  obtain ⟨m, r, s⟩ := em
  obtain ⟨hden, hm, hr, hs⟩ := h
  have hlt := Nat.mod_lt num hden
  simp only at hm hr hs
  subst hm
  unfold roundHalfEven
  dsimp only
  cases r with
  | false =>
    have hr : 2 * (num % den) < den := by simpa using hr
    rw [if_pos hr]
    cases s <;> rfl
  | true =>
    have hr : den ≤ 2 * (num % den) := hr.1 rfl
    rw [if_neg (Nat.not_lt.2 hr)]
    cases s with
    | false =>
      have hs : 2 * (num % den) % den = 0 := by simpa using hs
      rw [Nat.mod_eq_sub_mod hr, Nat.mod_eq_of_lt (by omega)] at hs
      rw [if_neg (by omega)]
      rfl
    | true =>
      have hs : 2 * (num % den) % den ≠ 0 := hs.1 rfl
      have hne : 2 * (num % den) ≠ den := fun heq => hs (by rw [heq, Nat.mod_self])
      rw [if_pos (by omega)]
      rfl

end Residue

section Pack

variable {spec : Format}

theorem toNat_packComponents (e : BitVec spec.exponentBits)
    (m : BitVec spec.mantissaBitsWithoutImplicit) :
    (packComponents spec .positive e m).toNat =
      e.toNat * 2 ^ spec.mantissaBitsWithoutImplicit + m.toNat := by
  rw [packComponents, BitVec.toNat_append, ← Nat.shiftLeft_add_eq_or_of_lt m.isLt,
    BitVec.toNat_append, Nat.shiftLeft_eq]
  simp [Sign.toBitVec]

theorem fractionBits_ofFormat : (ofFormat spec).fractionBits = spec.mantissaBitsWithoutImplicit :=
  rfl

theorem exponentBias_eq (hspec : 2 ≤ spec.exponentBits) :
    (spec.exponentBias : Int) + spec.mantissaBitsWithoutImplicit =
      (ofFormat spec).unitExponent + 1 := by
  have hm := spec.hm
  have hpow : 2 ^ 1 ≤ 2 ^ (spec.exponentBits - 1) := Nat.pow_le_pow_right (by decide) (by omega)
  simp only [Format.exponentBias, Binary.unitExponent, ofFormat, Nat.pow_eq]
  omega

theorem minExponent_eq (hspec : 2 ≤ spec.exponentBits) :
    spec.minExponent = -(ofFormat spec).unitExponent := by
  have hm := spec.hm
  have hpow : 2 ^ 1 ≤ 2 ^ (spec.exponentBits - 1) := Nat.pow_le_pow_right (by decide) (by omega)
  have hcast : (2 : Int) ^ (spec.exponentBits - 1) = (2 ^ (spec.exponentBits - 1) : Nat) := by simp
  simp only [Format.minExponent, Format.mantissaBits, Binary.unitExponent, ofFormat, Nat.pow_eq]
  rw [hcast]
  omega

theorem infinity_ofFormat : (ofFormat spec).infinity =
    (2 ^ spec.exponentBits - 1) * 2 ^ spec.mantissaBitsWithoutImplicit := rfl

theorem pack_subnormal (hspec : 2 ≤ spec.exponentBits) (s : Sign) {m : Nat} {e : Int} (hpos : 0 < m)
    (hm : m < 2 ^ spec.mantissaBitsWithoutImplicit)
    (he : e + spec.exponentBias + spec.mantissaBitsWithoutImplicit = 1) :
    UnpackedFloat.pack spec (.finite s m e hpos) = packComponents spec s 0#_ (BitVec.ofNat _ m) := by
  have hpow : 2 ^ 2 ≤ 2 ^ spec.exponentBits := Nat.pow_le_pow_right (by decide) hspec
  have hlog := (Nat.log2_lt (by omega)).2 hm
  rw [UnpackedFloat.pack]
  rw [he, if_neg, if_neg]
  · rw [Format.mantissaBits]
    omega
  · simp only [Int.toNat_one]
    omega

theorem pack_normal (s : Sign) {m n : Nat} {e : Int} (hpos : 0 < m)
    (hlo : 2 ^ spec.mantissaBitsWithoutImplicit ≤ m)
    (hhi : m < 2 ^ (spec.mantissaBitsWithoutImplicit + 1)) (hn : n + 1 < 2 ^ spec.exponentBits)
    (he : e + spec.exponentBias + spec.mantissaBitsWithoutImplicit = n) :
    UnpackedFloat.pack spec (.finite s m e hpos) =
      packComponents spec s (BitVec.ofNat _ n) (BitVec.ofNat _ m) := by
  have hlog := (Nat.le_log2 (by omega)).2 hlo
  have hlog' := (Nat.log2_lt (by omega)).2 hhi
  rw [UnpackedFloat.pack]
  rw [he, if_neg, if_pos]
  · rfl
  · rw [Format.mantissaBits]
    omega
  · simp only [Int.toNat_natCast]
    omega

theorem toNat_pack_finite (hspec : 2 ≤ spec.exponentBits) {m t : Nat} {e : Int} (hpos : 0 < m)
    (hm : m < 2 ^ (spec.mantissaBitsWithoutImplicit + 1))
    (ht : 2 ^ spec.mantissaBitsWithoutImplicit ≤ m ∨ t = 0)
    (he : e + (ofFormat spec).unitExponent = t) :
    (UnpackedFloat.pack spec (.finite .positive m e hpos)).toNat =
      min (t * 2 ^ spec.mantissaBitsWithoutImplicit + m) (ofFormat spec).infinity := by
  have hbias := exponentBias_eq hspec
  rw [infinity_ofFormat]
  have hn : 0 < 2 ^ spec.mantissaBitsWithoutImplicit := Nat.two_pow_pos _
  have hpow : 2 ^ 2 ≤ 2 ^ spec.exponentBits := Nat.pow_le_pow_right (by decide) hspec
  rw [Nat.pow_succ] at hm
  by_cases hlead : 2 ^ spec.mantissaBitsWithoutImplicit ≤ m
  · by_cases hlarge : 2 ^ spec.exponentBits ≤ t + 2
    · have hle : (2 ^ spec.exponentBits - 1) * 2 ^ spec.mantissaBitsWithoutImplicit ≤
          (t + 1) * 2 ^ spec.mantissaBitsWithoutImplicit := Nat.mul_le_mul_right _ (by omega)
      rw [Nat.add_mul, Nat.one_mul] at hle
      rw [min_eq_right (by omega), UnpackedFloat.pack, if_pos (by omega), packedInfinity,
        toNat_packComponents]
      simp [BitVec.neg_one_eq_allOnes]
    · have hle : (t + 2) * 2 ^ spec.mantissaBitsWithoutImplicit ≤
          (2 ^ spec.exponentBits - 1) * 2 ^ spec.mantissaBitsWithoutImplicit :=
        Nat.mul_le_mul_right _ (by omega)
      rw [Nat.add_mul] at hle
      have hfraction : m % 2 ^ spec.mantissaBitsWithoutImplicit =
          m - 2 ^ spec.mantissaBitsWithoutImplicit := by
        rw [Nat.mod_eq_sub_mod hlead, Nat.mod_eq_of_lt (by omega)]
      rw [min_eq_left (by omega), pack_normal (n := t + 1) .positive hpos hlead
        (by rw [Nat.pow_succ]; omega) (by omega) (by omega), toNat_packComponents, BitVec.toNat_ofNat,
        BitVec.toNat_ofNat, Nat.mod_eq_of_lt (by omega), hfraction, Nat.add_mul]
      omega
  · have ht : t = 0 := ht.resolve_left hlead
    have hle : 1 * 2 ^ spec.mantissaBitsWithoutImplicit ≤
        (2 ^ spec.exponentBits - 1) * 2 ^ spec.mantissaBitsWithoutImplicit :=
      Nat.mul_le_mul_right _ (by omega)
    subst ht
    rw [min_eq_left (by omega), pack_subnormal hspec .positive hpos (by omega) (by omega),
      toNat_packComponents]
    simp [Nat.mod_eq_of_lt (Nat.lt_of_not_le hlead)]

/-- The place where the format ends, of a number whose mantissa goes a little beyond `m`. -/
theorem log2_quotient {m k d n q : Nat} (hm : 0 < m) (hq : q < 4) :
    ((4 * m + q) * 2 ^ k / (4 * 2 ^ d)).log2 + 1 - (n + 1) = m.log2 + k - (d + n) := by
  have hlog := (Nat.log2_eq_iff hm.ne').1 rfl
  have hden : 0 < 4 * 2 ^ d := Nat.mul_pos (by decide) (Nat.two_pow_pos _)
  have hupper : (4 * m + q) * 2 ^ k < 4 * 2 ^ (m.log2 + k + 1) := by
    calc (4 * m + q) * 2 ^ k < 4 * 2 ^ (m.log2 + 1) * 2 ^ k :=
          Nat.mul_lt_mul_of_pos_right (by omega) (Nat.two_pow_pos _)
      _ = 4 * 2 ^ (m.log2 + k + 1) := by ring
  by_cases hd : d ≤ m.log2 + k
  · obtain ⟨i, hi⟩ := Nat.exists_eq_add_of_le hd
    have hx : ((4 * m + q) * 2 ^ k / (4 * 2 ^ d)).log2 = i := by
      have hlower : 2 ^ i ≤ (4 * m + q) * 2 ^ k / (4 * 2 ^ d) := by
        rw [Nat.le_div_iff_mul_le hden]
        calc 2 ^ i * (4 * 2 ^ d) = 4 * 2 ^ m.log2 * 2 ^ k := by
              rw [Nat.mul_assoc, ← Nat.pow_add, hi, Nat.pow_add]
              ring
          _ ≤ (4 * m + q) * 2 ^ k := Nat.mul_le_mul_right _ (by omega)
      have hpos := Nat.two_pow_pos i
      rw [Nat.log2_eq_iff (by omega)]
      refine ⟨hlower, ?_⟩
      rw [Nat.div_lt_iff_lt_mul hden]
      calc (4 * m + q) * 2 ^ k < 4 * 2 ^ (m.log2 + k + 1) := hupper
        _ = 2 ^ (i + 1) * (4 * 2 ^ d) := by rw [hi]; ring
    omega
  · have hzero : (4 * m + q) * 2 ^ k / (4 * 2 ^ d) = 0 := by
      rw [Nat.div_eq_zero_iff_lt hden]
      refine hupper.trans_le (Nat.mul_le_mul_left 4 (Nat.pow_le_pow_right (by decide) ?_))
      omega
    rw [hzero, Nat.log2_zero]
    omega

theorem toNat_packedZero : (packedZero spec .positive).toNat = 0 := by
  rw [packedZero, toNat_packComponents]
  simp

/-- A rounded mantissa is one bit longer than the format if it carries, and then this bit is all. -/
theorem toNat_pack_carry (hspec : 2 ≤ spec.exponentBits) {r t : Nat} {e : Int}
    (hr : r ≤ 2 ^ (spec.mantissaBitsWithoutImplicit + 1))
    (ht : 2 ^ spec.mantissaBitsWithoutImplicit ≤ r ∨ t = 0)
    (he : e + (ofFormat spec).unitExponent = t) :
    (UnpackedFloat.pack spec
      (if h : (shiftToTargetExponent spec r e .exact).1.mantissa = 0 then .zero .positive
        else .finite .positive (shiftToTargetExponent spec r e .exact).1.mantissa
          (shiftToTargetExponent spec r e .exact).2 (Nat.pos_of_ne_zero h))).toNat =
      min (t * 2 ^ spec.mantissaBitsWithoutImplicit + r) (ofFormat spec).infinity := by
  have hmin := minExponent_eq hspec
  have hmantissa (k : Nat) : (ExtendedMantissa.ofMantissaAndAccuracy r .exact >>> k).mantissa =
      r / 2 ^ k := by
    rw [((tells_ofMantissaAndAccuracy r .exact).shiftRight k).mantissa, quarter, Nat.add_zero,
      Nat.mul_div_mul_left _ _ (by decide)]
  have hpow : 0 < 2 ^ spec.mantissaBitsWithoutImplicit := Nat.two_pow_pos _
  by_cases hcarry : r = 2 ^ (spec.mantissaBitsWithoutImplicit + 1)
  · have hlog : r.log2 = spec.mantissaBitsWithoutImplicit + 1 := by rw [hcarry, Nat.log2_two_pow]
    have hshift : (spec.targetExponent (totalExponent r e) - e).toNat = 1 := by
      rw [Format.targetExponent, totalExponent, Format.mantissaBits, hmin, hlog]
      omega
    have hhalf : r / 2 ^ 1 = 2 ^ spec.mantissaBitsWithoutImplicit := by
      rw [hcarry, Nat.pow_succ, Nat.pow_one, Nat.mul_div_cancel _ (by decide)]
    simp only [shiftToTargetExponent, shiftToExponent, hshift, hmantissa, hhalf]
    rw [dif_neg hpow.ne', toNat_pack_finite (t := t + 1) hspec hpow (by rw [Nat.pow_succ]; omega)
      (.inl (Nat.le_refl _)) (by omega), hcarry]
    congr 1
    ring
  · have hlt : r < 2 ^ (spec.mantissaBitsWithoutImplicit + 1) := by omega
    have hshift : (spec.targetExponent (totalExponent r e) - e).toNat = 0 := by
      have hlog : r.log2 ≤ spec.mantissaBitsWithoutImplicit := by
        by_cases h0 : r = 0
        · simp [h0]
        · exact Nat.le_of_lt_succ ((Nat.log2_lt h0).2 hlt)
      rw [Format.targetExponent, totalExponent, Format.mantissaBits, hmin]
      omega
    simp only [shiftToTargetExponent, shiftToExponent, hshift, hmantissa, Nat.pow_zero, Nat.div_one]
    split
    next h0 =>
      have ht : t = 0 := ht.resolve_left (by omega)
      rw [UnpackedFloat.pack, toNat_packedZero, h0, ht]
      simp
    next h0 =>
      exact toNat_pack_finite hspec (Nat.pos_of_ne_zero h0) hlt ht (by omega)

/-- A number that is given to a quarter of its last place is rounded to the nearest magnitude, if no
place of the format is missing. -/
theorem toNat_pack_round (hspec : 2 ≤ spec.exponentBits) {m k d : Nat} {e : Int} (a : Accuracy)
    (hm : 0 < m) (he : e + (ofFormat spec).unitExponent + d = k)
    (hplaces : spec.mantissaBitsWithoutImplicit ≤ m.log2 ∨ k ≤ d) :
    (UnpackedFloat.pack spec (roundWithAccuracy spec .positive m e a)).toNat =
      (ofFormat spec).nearest ((4 * m + quarter a) * 2 ^ k) (4 * 2 ^ d) := by
  have hmin := minExponent_eq hspec
  -- the format ends `t` places above the unit, and `j` places of the mantissa are cut off
  obtain ⟨t, ht⟩ : ∃ t, t = ((4 * m + quarter a) * 2 ^ k / (4 * 2 ^ d)).log2 + 1 -
    (spec.mantissaBitsWithoutImplicit + 1) := ⟨_, rfl⟩
  have hlog := ht.trans (log2_quotient hm (quarter_lt a))
  obtain ⟨j, hj⟩ : ∃ j, t + d = k + j := Nat.exists_eq_add_of_le (by omega)
  have hshift : (spec.targetExponent (totalExponent m e) - e).toNat = j := by
    rw [Format.targetExponent, totalExponent, Format.mantissaBits, hmin]
    omega
  have hround : (ExtendedMantissa.ofMantissaAndAccuracy m a >>> j).roundedMantissa =
      roundHalfEven ((4 * m + quarter a) * 2 ^ k) (4 * 2 ^ d * 2 ^ t) := by
    rw [((tells_ofMantissaAndAccuracy m a).shiftRight j).roundedMantissa, Nat.mul_assoc,
      ← Nat.pow_add, Nat.add_comm d t, hj, Nat.pow_add, Nat.mul_comm (2 ^ k), ← Nat.mul_assoc,
      roundHalfEven_mul_mul _ _ (Nat.two_pow_pos _)]
  obtain ⟨hcarry, hlead⟩ := Binary.significand_bounds (f := ofFormat spec) (Nat.succ_pos _) ht
  rw [← hround] at hcarry hlead
  rw [← Nat.pow_succ] at hcarry
  have hpack : UnpackedFloat.pack spec (roundWithAccuracy spec .positive m e a) =
      UnpackedFloat.pack spec
        (if h : (shiftToTargetExponent spec
            (ExtendedMantissa.ofMantissaAndAccuracy m a >>> j).roundedMantissa (e + j)
              .exact).1.mantissa = 0 then .zero .positive
          else .finite .positive _ (shiftToTargetExponent spec
            (ExtendedMantissa.ofMantissaAndAccuracy m a >>> j).roundedMantissa (e + j) .exact).2
              (Nat.pos_of_ne_zero h)) := by
    rw [← hshift]
    rfl
  rw [hpack, toNat_pack_carry hspec hcarry (by
    rcases Nat.eq_zero_or_pos t with h | h
    exacts [.inr h, .inl (hlead h)]) (by omega), hround, ht]
  rfl

end Pack

end UnitMatrix
