import UnitMatrix.Proofs.Number.Digits
import Mathlib.Tactic.Ring

/-! Rounding gives a magnitude back. Only the ratio of two numbers counts when they are rounded, so a
decimal may be written with more zeros and a smaller exponent; and the exact value of a magnitude,
written as a decimal, rounds to that magnitude. -/

namespace UnitMatrix

theorem roundHalfEven_mul (q : Nat) {den : Nat} (hden : 0 < den) :
    roundHalfEven (q * den) den = q := by
  simp [roundHalfEven, hden]

theorem roundHalfEven_mul_mul (num den : Nat) {c : Nat} (hc : 0 < c) :
    roundHalfEven (num * c) (den * c) = roundHalfEven num den := by
  have hl : 2 * (num % den * c) < den * c ↔ 2 * (num % den) < den := by
    rw [← Nat.mul_assoc, Nat.mul_lt_mul_right hc]
  have hr : den * c < 2 * (num % den * c) ↔ den < 2 * (num % den) := by
    rw [← Nat.mul_assoc, Nat.mul_lt_mul_right hc]
  simp only [roundHalfEven, Nat.mul_div_mul_right _ _ hc, Nat.mul_mod_mul_right, hl, hr]

theorem log2_mul_two_pow {n : Nat} (hn : n ≠ 0) (k : Nat) : (n * 2 ^ k).log2 = n.log2 + k := by
  have hk : 0 < 2 ^ k := Nat.two_pow_pos k
  rw [Nat.log2_eq_iff (Nat.mul_ne_zero hn hk.ne')]
  have h := (Nat.log2_eq_iff hn).1 rfl
  constructor
  · rw [Nat.pow_add]
    exact Nat.mul_le_mul_right _ h.1
  · rw [Nat.add_right_comm, Nat.pow_add]
    exact Nat.mul_lt_mul_of_pos_right h.2 hk

namespace Binary

variable {f : Binary} {m : Nat}

theorem nearest_mul_mul (num den : Nat) {c : Nat} (hc : 0 < c) :
    f.nearest (num * c) (den * c) = f.nearest num den := by
  unfold nearest
  rw [Nat.mul_div_mul_right _ _ hc]
  dsimp only
  rw [Nat.mul_right_comm, roundHalfEven_mul_mul _ _ hc]

theorem nearest_congr {num den num' den' : Nat} (hden : 0 < den) (hden' : 0 < den')
    (h : num * den' = num' * den) : f.nearest num den = f.nearest num' den' := by
  rw [← nearest_mul_mul num den hden', ← nearest_mul_mul num' den' hden, h, Nat.mul_comm den den']

theorem exponent_lt (hm : m < f.infinity) :
    m / 2 ^ f.fractionBits + 1 < 2 ^ f.exponentBits := by
  have hlt : m / 2 ^ f.fractionBits < 2 ^ f.exponentBits - 1 := by
    rw [Nat.div_lt_iff_lt_mul (Nat.two_pow_pos _)]
    exact hm
  exact Nat.lt_sub_iff_add_lt.1 hlt

/-- The significand of a magnitude, with its leading bit in place where there is room. -/
theorem units_eq (m : Nat) : ∃ s t, f.units m = s * 2 ^ t ∧ m = t * 2 ^ f.fractionBits + s ∧
    s < 2 ^ f.fractionBits * 2 ∧ (2 ^ f.fractionBits ≤ s ∨ t = 0) := by
  have hfraction : m % 2 ^ f.fractionBits < 2 ^ f.fractionBits :=
    Nat.mod_lt _ (Nat.two_pow_pos _)
  have hsplit := Nat.div_add_mod' m (2 ^ f.fractionBits)
  unfold units
  simp only [Nat.pow_eq]
  generalize m / 2 ^ f.fractionBits = exponent at hsplit ⊢
  cases exponent with
  | zero => exact ⟨m % 2 ^ f.fractionBits, 0, by simp, by omega, by omega, .inr rfl⟩
  | succ e =>
    rw [Nat.add_mul] at hsplit
    exact ⟨_, e, if_neg (Nat.succ_ne_zero e), by omega, by omega, .inl (by omega)⟩

theorem nearest_units (hf : 1 ≤ f.precision) (hm : m < f.infinity) {den : Nat} (hden : 0 < den) :
    f.nearest (f.units m * den) den = m := by
  have hbits : f.fractionBits + 1 = f.precision := Nat.sub_add_cancel hf
  obtain ⟨s, t, hunits, hsplit, hs, hlead⟩ := units_eq (f := f) m
  have hshift : (s * 2 ^ t).log2 + 1 - f.precision = t := by
    by_cases hlong : 2 ^ f.fractionBits ≤ s
    · -- with the leading bit there are as many bits as the precision, in front of `t` zeros
      have hne : s ≠ 0 := (Nat.two_pow_pos _ |>.trans_le hlong).ne'
      have hlog : s.log2 = f.fractionBits := (Nat.log2_eq_iff hne).2 ⟨hlong, by rwa [Nat.pow_succ]⟩
      rw [log2_mul_two_pow hne, hlog]
      omega
    · -- without it there are fewer, and no bit is rounded
      obtain rfl : t = 0 := hlead.resolve_left hlong
      by_cases h0 : s = 0
      · simp [h0, hf]
      · have := (Nat.log2_lt h0).2 (Nat.lt_of_not_le hlong)
        rw [Nat.pow_zero, Nat.mul_one]
        omega
  unfold nearest
  rw [Nat.mul_div_cancel _ hden, hunits]
  simp only [Nat.pow_eq]
  rw [hshift, Nat.mul_assoc, Nat.mul_comm (2 ^ t) den,
    roundHalfEven_mul _ (Nat.mul_pos hden (Nat.two_pow_pos t)), ← hsplit]
  exact min_eq_left hm.le

theorem ofDecimal_mul_pow (d z : Nat) (e : Int) :
    f.ofDecimal (d * 10 ^ z) e = f.ofDecimal d (e + z) := by
  by_cases hd : d = 0
  · simp [ofDecimal, hd]
  · have hpow : ∀ n, 0 < 10 ^ n := fun n => Nat.pow_pos (by decide)
    have hne : d * 10 ^ z ≠ 0 := Nat.mul_ne_zero hd (hpow z).ne'
    have hscale : ((Nat.toDigits 10 (d * 10 ^ z)).length : Int) + e =
        (Nat.toDigits 10 d).length + (e + z) := by
      rw [toDigits_mul_pow (Nat.pos_of_ne_zero hd), List.length_append, NumberStyle.zeros,
        List.length_replicate]
      omega
    have hexponent : z + e.toNat + (-(e + z)).toNat = (e + z).toNat + (-e).toNat := by omega
    unfold ofDecimal
    simp only [Nat.pow_eq, hscale, if_neg hd, if_neg hne]
    rw [nearest_congr (hpow _) (hpow _)]
    calc d * 10 ^ z * 10 ^ e.toNat * 2 ^ f.unitExponent * 10 ^ (-(e + z)).toNat
        = d * 2 ^ f.unitExponent * 10 ^ (z + e.toNat + (-(e + z)).toNat) := by ring
      _ = d * 10 ^ (e + z).toNat * 2 ^ f.unitExponent * 10 ^ (-e).toNat := by rw [hexponent]; ring

/-- A finite magnitude is a significand in units of a power of two. -/
theorem exists_significand (hf : 1 ≤ f.precision) (hm : m < f.infinity) :
    ∃ s t, f.units m = s * 2 ^ t ∧ s < 2 ^ f.precision ∧ t + 1 < 2 ^ f.exponentBits := by
  obtain ⟨s, t, hunits, hsplit, hs, -⟩ := units_eq (f := f) m
  have hpow : 2 ^ f.precision = 2 ^ f.fractionBits * 2 := by
    rw [← Nat.pow_succ, fractionBits, Nat.succ_eq_add_one, Nat.sub_add_cancel hf]
  have ht : t ≤ m / 2 ^ f.fractionBits := by
    rw [Nat.le_div_iff_mul_le (Nat.two_pow_pos _)]
    omega
  exact ⟨s, t, hunits, hpow ▸ hs, (Nat.succ_le_succ ht).trans_lt (exponent_lt hm)⟩

theorem two_mul_unitExponent (hf : 3 ≤ f.precision) (hbits : 1 ≤ f.exponentBits) :
    2 * f.unitExponent = 2 ^ f.exponentBits + 2 * f.precision - 6 := by
  obtain ⟨e, he⟩ := Nat.exists_eq_add_of_le' hbits
  simp only [unitExponent, Nat.pow_eq, he, Nat.add_sub_cancel, Nat.pow_succ]
  omega

theorem exponentBits_pos (hm : m < f.infinity) : 1 ≤ f.exponentBits := by
  have hexponent := exponent_lt hm
  by_contra h
  simp [show f.exponentBits = 0 by omega] at hexponent

theorem units_lt (hf : 4 ≤ f.precision) (hm : m < f.infinity) :
    f.units m < 2 ^ (2 * f.unitExponent) := by
  obtain ⟨s, t, hunits, hs, ht⟩ := exists_significand (by omega) hm
  have hunit := two_mul_unitExponent (by omega) (exponentBits_pos hm)
  rw [hunits]
  calc s * 2 ^ t < 2 ^ f.precision * 2 ^ t := Nat.mul_lt_mul_of_pos_right hs (Nat.two_pow_pos t)
    _ = 2 ^ (f.precision + t) := (Nat.pow_add ..).symm
    _ ≤ 2 ^ (2 * f.unitExponent) := Nat.pow_le_pow_right (by decide) (by omega)

/-- The decimal expansion of a magnitude reads back as it. -/
theorem ofDecimal_expansion (hf : 4 ≤ f.precision) (hm : m < f.infinity) :
    f.ofDecimal (f.expansion m) (-f.unitExponent) = m := by
  have hnearest : f.nearest (f.expansion m * 2 ^ f.unitExponent) (10 ^ f.unitExponent) = m := by
    rw [expansion, Nat.pow_eq, Nat.mul_assoc, ← Nat.mul_pow]
    exact nearest_units (by omega) hm (Nat.pow_pos (by decide))
  have hpos : 0 < f.unitExponent := by
    have := Nat.two_pow_pos (f.exponentBits - 1)
    simp only [unitExponent, Nat.pow_eq]
    omega
  have hlength : (Nat.toDigits 10 (f.expansion m)).length ≤ 2 * f.unitExponent := by
    rw [Nat.length_toDigits_le_iff (by decide) (by omega)]
    calc f.units m * 5 ^ f.unitExponent
        < 2 ^ (2 * f.unitExponent) * 5 ^ f.unitExponent :=
          Nat.mul_lt_mul_of_pos_right (units_lt hf hm) (Nat.pow_pos (by decide))
      _ ≤ 2 ^ (2 * f.unitExponent) * 5 ^ (2 * f.unitExponent) :=
          Nat.mul_le_mul_left _ (Nat.pow_le_pow_right (by decide) (by omega))
      _ = 10 ^ (2 * f.unitExponent) := (Nat.mul_pow 2 5 _).symm
  -- the expansion is neither so long nor so short that it is taken for infinity or for zero
  unfold ofDecimal
  simp only [Nat.pow_eq]
  split
  next h0 =>
    rw [h0, Nat.zero_mul] at hnearest
    rw [← hnearest]
    simp [nearest, roundHalfEven, show 1 - f.precision = 0 by omega]
  next =>
    rw [if_neg (by omega), if_neg (by omega)]
    simpa using hnearest

end Binary

end UnitMatrix
