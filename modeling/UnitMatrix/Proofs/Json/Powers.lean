import UnitMatrix.Proofs.Number.Separation
import UnitMatrix.Proofs.Json.Stepwise

/-! Digits times a power of ten, rounded after every step. Few roundings lie between the result and the
decimal, so the nearest double is missed by a few neighbours at most. The nearest single is not missed
where the decimal is one that is written for a single, as that is further from any midpoint. -/

namespace UnitMatrix

namespace Json

namespace Numeral

open Binary (binary64 binary32)

theorem ofDecimal_digits_lt {d : Nat} (hd : d < 2 ^ 64) :
    binary64.ofDecimal d (0 : Nat) < binary64.infinity := by
  have hs : 1 < 2 ^ binary64.fractionBits * 2 := by decide
  have ht : 64 + binary64.unitExponent + 2 < 2 ^ binary64.exponentBits := by decide
  exact Binary.ofDecimal_lt_infinity (by decide) (by decide) hs ht (by omega)

/-- Powers of ten beside the powers of two that doubles and singles have. -/
theorem ten_pow_bounds : 1 * 10 ^ 308 ≤ (2 ^ 53 - 1) * 2 ^ 971 ∧
    2 * 10 ^ 15 * 100 * 10 ^ 308 ≤ 99 * 2 ^ binary64.unitExponent ∧
    2 ^ binary64.reach < 1 * 10 ^ (308 + 1) * 2 ^ binary64.unitExponent ∧
    2 * (2 ^ 64 * 2 ^ binary64.unitExponent) < 10 ^ (616 + 1) ∧
    2 ^ binary32.reach < 1 * 10 ^ (38 + 1) * 2 ^ binary32.unitExponent := by
  -- exponents that only the kernel evaluates
  decide +kernel

theorem ofDecimal_power_lt {n : Nat} (hn : n ≤ 308) : binary64.ofDecimal 1 n < binary64.infinity := by
  have hs : 2 ^ 53 - 1 < 2 ^ binary64.fractionBits * 2 := by decide
  have ht : 971 + binary64.unitExponent + 2 < 2 ^ binary64.exponentBits := by decide
  have hpow : 1 * 10 ^ n ≤ 1 * 10 ^ 308 := by
    gcongr
    decide
  exact Binary.ofDecimal_lt_infinity (by decide) (by decide) hs ht (hpow.trans ten_pow_bounds.1)

theorem units_two_pow (t : Nat) :
    binary64.units ((1023 + t) * 2 ^ 52) = 2 ^ t * 2 ^ binary64.unitExponent := by
  have hlead := Binary.units_of_significand (f := binary64) (s := 2 ^ 52) (t := 1022 + t) (by decide)
    (.inl le_rfl)
  have hfields : (1023 + t) * 2 ^ 52 = (1022 + t) * 2 ^ binary64.fractionBits + 2 ^ 52 := by
    rw [show binary64.fractionBits = 52 from rfl]
    omega
  rw [hfields, hlead, ← pow_add, ← pow_add, show binary64.unitExponent = 1074 from rfl]
  congr 1
  omega

theorem two_pow_le_decimal {d : Nat} (hd : 0 < d) (n : Nat) :
    2 ^ binary64.unitExponent ≤ binary64.decimal d n := by
  have hd' : (1 : ℚ) ≤ d := by exact_mod_cast hd
  have hn : (1 : ℚ) ≤ 10 ^ n := one_le_pow₀ (by norm_num)
  rw [Binary.decimal, zpow_natCast]
  exact le_mul_of_one_le_left (by positivity) (one_le_mul_of_one_le_of_one_le hd' hn)

theorem near_whole {d n : Nat} (hd : 0 < d) (h : binary64.ofDecimal d n < binary64.infinity) :
    binary64.Near 1 (binary64.units (binary64.ofDecimal d n)) (binary64.decimal d n) := by
  have hunit : (2 : ℚ) ^ 52 ≤ 2 ^ binary64.unitExponent := pow_le_pow_right₀ one_le_two (by decide)
  exact Binary.near_ofDecimal (hunit.trans (two_pow_le_decimal hd n)) h

/-- A whole number is one at least, and so is what it is rounded to. -/
theorem two_pow_le_units {d n : Nat} (hd : 0 < d) (h : binary64.ofDecimal d n < binary64.infinity) :
    2 ^ binary64.unitExponent ≤ binary64.units (binary64.ofDecimal d n) := by
  have hone : binary64.units (1023 * 2 ^ 52) = 2 ^ binary64.unitExponent := by
    rw [units_two_pow 0, pow_zero, one_mul]
  have hle : (binary64.units (1023 * 2 ^ 52) : ℚ) ≤ binary64.decimal d n := by
    rw [hone]
    exact_mod_cast two_pow_le_decimal hd n
  have hmono : 1023 * 2 ^ 52 ≤ binary64.ofDecimal d n := by
    rw [Binary.ofDecimal_eq_rounded (by decide) (by decide)]
    exact (Binary.rounded_units (f := binary64) (by decide) (by decide)).symm.trans_le
      (Binary.rounded_mono (by decide) (Nat.cast_nonneg _) hle)
  exact hone.symm.trans_le (Binary.units_mono (by decide) (by decide) h hmono)

theorem units_power_pos {n : Nat} (hn : n ≤ 308) :
    0 < binary64.units (binary64.ofDecimal 1 n) :=
  (Nat.two_pow_pos _).trans_le (two_pow_le_units Nat.one_pos (ofDecimal_power_lt hn))

/-- Digits and power are rounded, then their product or quotient. -/
theorem exists_near_timesPower {d : Nat} {e : Int} (hd : 0 < d) (hd' : d < 2 ^ 64)
    (he : e.natAbs ≤ 308) : ∃ w, timesPower (binary64.ofDecimal d 0) e = binary64.rounded w ∧
      binary64.Near 2 w (binary64.decimal d e) := by
  have hdigits := near_whole (n := 0) hd (ofDecimal_digits_lt hd')
  have hpower := near_whole Nat.one_pos (ofDecimal_power_lt he)
  unfold timesPower
  dsimp only
  rw [if_neg (by omega)]
  by_cases hsign : 0 ≤ e
  · have hnat : ((0 : Nat) : Int) + e.natAbs = e := by omega
    have h := hdigits.product hpower
    rw [hnat, Int.natAbs_of_nonneg hsign] at h
    rw [if_pos hsign, Binary.product_eq_rounded]
    exact ⟨_, rfl, h⟩
  · have hfull : ((-e).toNat - 1) / 308 = 0 := by omega
    have hrest : ((-e).toNat - 1) % 308 + 1 = e.natAbs := by omega
    have hnat : ((0 : Nat) : Int) - e.natAbs = e := by omega
    have h := hdigits.quotient hpower (units_power_pos he)
    rw [hnat] at h
    rw [if_neg hsign, hfull, hrest, divideDown, Binary.quotient_eq_rounded _ (units_power_pos he)]
    exact ⟨_, rfl, h⟩

theorem tiny_le_decimal {d : Nat} (hd : 0 < d) :
    2 * 10 ^ 15 ≤ binary64.kept ^ 2 * binary64.decimal d (-308) := by
  have hkept : (99 / 100 : ℚ) ≤ binary64.kept ^ 2 := by norm_num [Binary.kept, binary64]
  have hratio : (2 * 10 ^ 15 * 100 * 10 ^ 308 : ℚ) ≤ 99 * 2 ^ binary64.unitExponent := by
    exact_mod_cast ten_pow_bounds.2.1
  have hdecimal : (2 * 10 ^ 15 * 100 / 99 : ℚ) ≤ binary64.decimal d (-308) := by
    have hten : (0 : ℚ) < 10 ^ 308 := pow_pos (by norm_num) _
    have hd1 : (1 : ℚ) ≤ d := by exact_mod_cast hd
    rw [Binary.decimal, zpow_neg, show (10 : ℚ) ^ (308 : Int) = 10 ^ 308 from rfl, mul_assoc (d : ℚ)]
    generalize (10 : ℚ) ^ 308 = ten at *
    generalize (2 : ℚ) ^ binary64.unitExponent = unit at *
    have hle : (2 * 10 ^ 15 * 100 / 99 : ℚ) ≤ ten⁻¹ * unit := by
      rw [le_inv_mul_iff₀ hten]
      linarith
    exact hle.trans (le_mul_of_one_le_left (le_trans (by norm_num) hle) hd1)
  calc (2 * 10 ^ 15 : ℚ) = 99 / 100 * (2 * 10 ^ 15 * 100 / 99) := by norm_num
    _ ≤ binary64.kept ^ 2 * binary64.decimal d (-308) :=
      mul_le_mul hkept hdecimal (by norm_num) (pow_nonneg Binary.kept_nonneg 2)

/-- A power below the least one is taken in two steps. -/
theorem exists_near_timesPower_of_lt {d : Nat} {e : Int} (hd : 0 < d) (hd' : d < 2 ^ 64)
    (hlow : -616 ≤ e) (hhigh : e < -308) :
    ∃ w, timesPower (binary64.ofDecimal d 0) e = binary64.rounded w ∧
      binary64.Near 6 w (binary64.decimal d e) := by
  obtain ⟨n, hn⟩ : ∃ n : Nat, n = (-e).toNat - 308 := ⟨_, rfl⟩
  have hn' : n ≤ 308 := by omega
  have hdigits : binary64.ofDecimal d 0 < binary64.infinity := ofDecimal_digits_lt hd'
  have hlargest : binary64.ofDecimal 1 308 < binary64.infinity := ofDecimal_power_lt (n := 308) le_rfl
  have hpos : 0 < binary64.units (binary64.ofDecimal 1 308) := units_power_pos (n := 308) le_rfl
  have hfirst := (near_whole (n := 0) hd hdigits).quotient (near_whole (n := 308) Nat.one_pos hlargest) hpos
  rw [show ((0 : Nat) : Int) - (308 : Nat) = -308 from rfl] at hfirst
  have hne : binary64.ofDecimal d 0 ≠ 0 := fun h0 => by
    have hle := two_pow_le_units (n := 0) hd hdigits
    rw [Nat.cast_zero, h0, Binary.units_zero] at hle
    exact (Nat.two_pow_pos binary64.unitExponent).not_ge hle
  have hdown : binary64.quotient (binary64.ofDecimal d 0) (binary64.ofDecimal 1 308) <
      binary64.infinity :=
    (Binary.quotient_le (by decide) hdigits (two_pow_le_units (n := 308) Nat.one_pos hlargest)).trans_lt
      hdigits
  rw [Binary.quotient_eq_rounded _ hpos] at hdown
  have hsecond := ((Binary.near_rounded_of_tiny ((tiny_le_decimal hd).trans hfirst.right) hdown).trans
    hfirst).quotient (near_whole Nat.one_pos (ofDecimal_power_lt hn')) (units_power_pos hn')
  rw [show (-308 : Int) - n = e by omega] at hsecond
  have hfull : ((-e).toNat - 1) / 308 = 1 := by omega
  have hrest : ((-e).toNat - 1) % 308 + 1 = n := by omega
  unfold timesPower
  dsimp only
  rw [if_neg (by omega), if_neg (by omega), hfull, hrest, divideDown, if_neg hne, divideDown,
    Binary.quotient_eq_rounded _ (units_power_pos hn'),
    Binary.quotient_eq_rounded (binary64.ofDecimal d 0) hpos]
  exact ⟨_, rfl, hsecond⟩

/-- Digits without a positive power of ten are far from infinity. -/
theorem ofDecimal_le_of_nonpos {d : Nat} {e : Int} (hd : d < 2 ^ 64) (he : e ≤ 0) :
    binary64.ofDecimal d e ≤ 1087 * 2 ^ 52 := by
  rw [Binary.ofDecimal_eq_rounded (by decide) (by decide)]
  have hmono := Binary.decimal_mono (f := binary64) hd.le he
  have hunits : binary64.units (1087 * 2 ^ 52) = 2 ^ 64 * 2 ^ binary64.unitExponent := units_two_pow 64
  refine (Binary.rounded_mono (by decide) (Binary.decimal_nonneg _ _) (hmono.trans_eq ?_)).trans_eq
    (Binary.rounded_units (f := binary64) (by decide) (by decide))
  rw [hunits, Binary.decimal, zpow_zero, mul_one]
  push_cast
  rfl

/-- Rounding after every step misses the nearest magnitude by seven steps at most. -/
theorem timesPower_close {d m : Nat} {e : Int} (hd : 0 < d) (hd' : d < 2 ^ 64)
    (hm : binary64.ofDecimal d e = m) (hm0 : 0 < m) (hroom : m + 3 < binary64.infinity) :
    timesPower (binary64.ofDecimal d 0) e ≤ m + 7 ∧ m ≤ timesPower (binary64.ofDecimal d 0) e + 7 ∧
      timesPower (binary64.ofDecimal d 0) e < binary64.infinity := by
  have hrounded := Binary.ofDecimal_eq_rounded (f := binary64) (by decide) (by decide) d e
  obtain ⟨-, -, htop, hbottom, -⟩ := ten_pow_bounds
  have hhigh := Binary.exponent_le (e := e) (by decide) (by decide) hd (by omega) htop
  have hlow := Binary.le_exponent (e := e) (by decide) (by decide) hd' (by omega) hbottom
  by_cases he : e.natAbs ≤ 308
  · obtain ⟨w, heq, hnear⟩ := exists_near_timesPower hd hd' he
    have := hnear.symm.rounded_close (by decide) (Binary.decimal_nonneg _ _) (by omega)
    omega
  · obtain ⟨w, heq, hnear⟩ := exists_near_timesPower_of_lt hd hd' hlow (by omega)
    have hsmall := ofDecimal_le_of_nonpos (e := e) hd' (by omega)
    have hinf : 1087 * 2 ^ 52 + 7 < binary64.infinity := by decide
    have := hnear.symm.rounded_close (by decide) (Binary.decimal_nonneg _ _) (by omega)
    omega

theorem le_single {w : ℚ} (hw : 0 ≤ w) (h : 0 < binary32.rounded w) : 1 ≤ 2 * w := by
  have hmid := Binary.midpoint_le_of_lt_rounded (by decide) hw h
  have hunits : binary32.units 0 = 0 ∧ binary32.units 1 = 1 := by decide
  rw [Nat.zero_add, hunits.1, hunits.2, Nat.cast_zero, Nat.cast_one, zero_add] at hmid
  exact hmid

/-- Far from both ends of the doubles, rounding after every step is three roundings. -/
theorem near_timesPower {d : Nat} {e : Int} (hd : 0 < d) (hd' : d < 2 ^ 64) (he : e.natAbs ≤ 308)
    (hlow : 1 ≤ 2 * binary32.decimal d e) (hhigh : binary32.decimal d e ≤ 2 ^ binary32.reach) :
    timesPower (binary64.ofDecimal d 0) e < binary64.infinity ∧
      binary64.Near 3 (binary64.units (timesPower (binary64.ofDecimal d 0) e) * (1 / 2 ^ Binary.widening))
        (binary32.decimal d e) := by
  obtain ⟨w, heq, hnear⟩ := exists_near_timesPower hd hd' he
  have hw := hnear.nonneg (Binary.decimal_nonneg _ _)
  rw [Binary.decimal_double] at hnear
  generalize binary32.decimal d e = v at *
  have hkept : (1 / 2 : ℚ) ≤ binary64.kept ^ 2 := by norm_num [Binary.kept, binary64]
  have hscale : (2 : ℚ) ^ 60 ≤ 2 ^ Binary.widening := pow_le_pow_right₀ (by norm_num) (by decide)
  have hv : (1 / 2 : ℚ) * 2 ^ Binary.widening ≤ v * 2 ^ Binary.widening := by
    gcongr
    linarith
  have hw' : (2 : ℚ) ^ 52 ≤ w := by
    have hleft := mul_le_mul_of_nonneg_right hkept ((by positivity : (0 : ℚ) ≤ _).trans hv)
    linarith [hnear.right]
  have hfinite : binary64.rounded w < binary64.infinity := by
    have ht : 1 + (binary32.reach + Binary.widening) + 2 < 2 ^ binary64.exponentBits := by decide
    refine Binary.rounded_lt_infinity (by decide) (s := 1) (by decide) ht hw ?_
    have hleft := mul_le_mul_of_nonneg_right hkept hw
    have hright : v * 2 ^ Binary.widening ≤ 2 ^ binary32.reach * 2 ^ Binary.widening := by gcongr
    rw [pow_add, pow_add]
    push_cast
    linarith [hnear.left]
  rw [heq]
  refine ⟨hfinite, ?_⟩
  have hrounded := ((Binary.near_rounded (by decide) hw' hfinite).trans hnear).mul_right
    (show (0 : ℚ) ≤ 1 / 2 ^ Binary.widening by positivity)
  rwa [mul_assoc v, mul_one_div_cancel (by positivity), mul_one] at hrounded

/-- Nothing is lost of a midpoint. -/
theorem units_timesPower_of_isHalf {d : Nat} {e : Int} (hd : 0 < d) (hd' : d < 10 ^ 14)
    (h : Binary.IsHalf (binary32.decimal d e)) (hle : binary32.decimal d e ≤ 2 ^ binary32.reach) :
    binary64.units (timesPower (binary64.ofDecimal d 0) e) * (1 / 2 ^ Binary.widening) =
      binary32.decimal d e := by
  obtain ⟨x, hx, hunits⟩ := Binary.exists_units_of_isHalf h hle
  rw [timesPower_eq (hd'.trans (by decide)) (Binary.natAbs_le_of_isHalf hd hd' h),
    Binary.ofDecimal_eq_rounded (by decide) (by decide), ← hunits,
    Binary.rounded_units (by decide) hx, hunits, Binary.decimal_double, mul_assoc,
    mul_one_div_cancel (by positivity), mul_one]

/-- The double that comes of rounding after every step is rounded to the single that the decimal was
written for. -/
theorem convert_timesPower {m n d : Nat} {e i : Int} (hm : m + 1 < binary32.infinity)
    (hchosen : binary32.Chosen (m + 1) n e) (hd : d < 10 ^ 14)
    (hvalue : binary32.decimal d i = binary32.decimal n e) :
    timesPower (binary64.ofDecimal d 0) i < binary64.infinity ∧
      (binary64.convert binary32 (timesPower (binary64.ofDecimal d 0) i) = m + 1 ∨
        e = -32 ∧ n = 7038531) := by
  have hreads := hchosen.reads
  have hrounded : binary32.rounded (binary32.decimal n e) = m + 1 := by
    rw [← Binary.ofDecimal_eq_rounded (by decide) (by decide), hreads]
  have hreads' : binary32.ofDecimal d i = m + 1 := by
    rw [Binary.ofDecimal_eq_rounded (by decide) (by decide), hvalue, hrounded]
  have hn0 : 0 < n := Binary.pos_of_ofDecimal ((Nat.succ_pos m).trans_eq hreads.symm)
  have hd0 : 0 < d := Binary.pos_of_ofDecimal ((Nat.succ_pos m).trans_eq hreads'.symm)
  obtain ⟨-, -, -, -, htop⟩ := ten_pow_bounds
  have he : e ≤ 38 := Binary.exponent_le (by decide) (by decide) hn0 (by omega) htop
  have hi : i ≤ 38 := Binary.exponent_le (by decide) (by decide) hd0 (by omega) htop
  have hi' : -59 ≤ i := Binary.le_exponent (f := binary32) (n := 59) (by decide) (by decide) hd
    (by omega) (by decide)
  have hlow := le_single (w := binary32.decimal n e) (Binary.decimal_nonneg n e) (by omega)
  have hhigh := Binary.le_of_rounded_lt_infinity (f := binary32) (q := binary32.decimal n e) (by decide)
    (by omega)
  rw [← hvalue] at hlow hhigh
  obtain ⟨hfinite, hnear⟩ :=
    near_timesPower (e := i) hd0 (hd.trans (by decide)) (by omega) hlow hhigh
  refine ⟨hfinite, ?_⟩
  have hexact := units_timesPower_of_isHalf (e := i) hd0 hd
  rw [hvalue] at hnear hexact hhigh
  rw [Binary.convert_double hfinite]
  exact hchosen.rounded_eq he hm (by positivity) hnear fun h => hexact h hhigh

end Numeral

end Json

end UnitMatrix
