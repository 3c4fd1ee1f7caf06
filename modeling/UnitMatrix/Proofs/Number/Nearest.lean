import Mathlib.Data.Nat.Log
import UnitMatrix.Proofs.Number.Rounding

/-! The order of magnitudes. Rounding to the nearest magnitude keeps the order of numbers, and it
leaves alone what a magnitude stands for; so a number that lies below a magnitude is rounded to no
more than it, and magnitudes are in the order of their units. -/

namespace UnitMatrix

theorem roundHalfEven_bounds (num den : Nat) :
    num / den ≤ roundHalfEven num den ∧ roundHalfEven num den ≤ num / den + 1 := by
  unfold roundHalfEven
  dsimp only
  split
  · omega
  · split <;> omega

theorem roundHalfEven_mono {num num' den : Nat} (h : num ≤ num') :
    roundHalfEven num den ≤ roundHalfEven num' den := by
  have hquotient : num / den ≤ num' / den := Nat.div_le_div_right h
  by_cases hlt : num / den < num' / den
  · exact (roundHalfEven_bounds num den).2.trans (hlt.trans_le (roundHalfEven_bounds num' den).1)
  · -- between the same two whole numbers, what is rounded up stays so when it grows
    have heq : num / den = num' / den := by omega
    have hrest : num % den ≤ num' % den := by
      have hsplit := Nat.div_add_mod num den
      have hsplit' := Nat.div_add_mod num' den
      rw [heq] at hsplit
      omega
    unfold roundHalfEven
    dsimp only
    rw [heq]
    split <;> split <;> (try split) <;> (try split) <;> omega

theorem roundHalfEven_le {num den num' den' : Nat} (hden : 0 < den) (hden' : 0 < den')
    (h : num * den' ≤ num' * den) : roundHalfEven num den ≤ roundHalfEven num' den' := by
  rw [← roundHalfEven_mul_mul num den hden', ← roundHalfEven_mul_mul num' den' hden,
    Nat.mul_comm den' den]
  exact roundHalfEven_mono h

theorem div_le_div_of_mul_le {num den num' den' : Nat} (hden : 0 < den) (hden' : 0 < den')
    (h : num * den' ≤ num' * den) : num / den ≤ num' / den' := by
  rw [Nat.le_div_iff_mul_le hden']
  refine Nat.le_of_mul_le_mul_right (c := den) ?_ hden
  calc num / den * den' * den = num / den * den * den' := Nat.mul_right_comm ..
    _ ≤ num * den' := Nat.mul_le_mul_right _ (Nat.div_mul_le_self ..)
    _ ≤ num' * den := h

namespace Binary

variable {f : Binary} {m n : Nat}

theorem log2_mono {a b : Nat} (h : a ≤ b) : a.log2 ≤ b.log2 := by
  rw [Nat.log2_eq_log_two, Nat.log2_eq_log_two]
  exact Nat.log_mono_right h

/-- The significand of a rounded number has at most one bit more than the format, and below it at
most one bit less, unless the number has no bits to lose. -/
theorem significand_bounds (hf : 1 ≤ f.precision) {num den t : Nat}
    (ht : t = (num / den).log2 + 1 - f.precision) :
    roundHalfEven num (den * 2 ^ t) ≤ 2 ^ f.fractionBits * 2 ∧
      (0 < t → 2 ^ f.fractionBits ≤ roundHalfEven num (den * 2 ^ t)) := by
  have hbits : f.fractionBits + 1 = f.precision := Nat.sub_add_cancel hf
  have hbounds := roundHalfEven_bounds num (den * 2 ^ t)
  rw [← Nat.div_div_eq_div_mul] at hbounds
  have hpow : 0 < 2 ^ t := Nat.two_pow_pos _
  constructor
  · have hlt : num / den / 2 ^ t < 2 ^ f.fractionBits * 2 := by
      rw [Nat.div_lt_iff_lt_mul hpow, ← Nat.pow_succ, ← Nat.pow_add]
      exact Nat.lt_log2_self.trans_le (Nat.pow_le_pow_right (by decide) (by omega))
    omega
  · intro h
    have hne : num / den ≠ 0 := by
      intro h0
      rw [h0, Nat.log2_zero] at ht
      omega
    refine Nat.le_trans ?_ hbounds.1
    rw [Nat.le_div_iff_mul_le hpow, ← Nat.pow_add]
    exact Nat.le_trans (Nat.pow_le_pow_right (by decide) (by omega)) (Nat.log2_self_le hne)

/-- Rounding keeps the order of numbers. -/
theorem nearest_mono (hf : 1 ≤ f.precision) {num den num' den' : Nat} (hden : 0 < den)
    (hden' : 0 < den') (h : num * den' ≤ num' * den) : f.nearest num den ≤ f.nearest num' den' := by
  have hlog := log2_mono (div_le_div_of_mul_le hden hden' h)
  unfold nearest
  simp only [Nat.pow_eq]
  obtain ⟨t, ht⟩ : ∃ t, t = (num / den).log2 + 1 - f.precision := ⟨_, rfl⟩
  obtain ⟨t', ht'⟩ : ∃ t', t' = (num' / den').log2 + 1 - f.precision := ⟨_, rfl⟩
  rw [← ht, ← ht']
  refine min_le_min_right _ ?_
  rcases Nat.lt_or_ge t t' with hlt | hge
  · have hr := (significand_bounds hf ht).1
    have hr' := (significand_bounds hf ht').2 (by omega)
    calc t * 2 ^ f.fractionBits + roundHalfEven num (den * 2 ^ t)
        ≤ (t + 1) * 2 ^ f.fractionBits + 2 ^ f.fractionBits := by rw [Nat.add_mul]; omega
      _ ≤ t' * 2 ^ f.fractionBits + roundHalfEven num' (den' * 2 ^ t') :=
          Nat.add_le_add (Nat.mul_le_mul_right _ hlt) hr'
  · obtain rfl : t = t' := by omega
    refine Nat.add_le_add_left (roundHalfEven_le ?_ ?_ ?_) _
    · exact Nat.mul_pos hden (Nat.two_pow_pos _)
    · exact Nat.mul_pos hden' (Nat.two_pow_pos _)
    · rw [← Nat.mul_assoc, ← Nat.mul_assoc]
      exact Nat.mul_le_mul_right _ h

theorem nearest_le_infinity (num den : Nat) : f.nearest num den ≤ f.infinity := min_le_right ..

/-- Half of a unit is the most that is rounded to zero. -/
theorem nearest_eq_zero_iff (hf : 1 ≤ f.precision) (hinf : 0 < f.infinity) {num den : Nat}
    (hden : 0 < den) : f.nearest num den = 0 ↔ 2 * num ≤ den := by
  unfold nearest
  simp only [Nat.pow_eq, Nat.min_eq_zero_iff, hinf.ne', or_false, Nat.add_eq_zero_iff,
    Nat.mul_eq_zero]
  constructor
  · intro h
    have hshift : (num / den).log2 + 1 - f.precision = 0 :=
      h.1.resolve_right (Nat.two_pow_pos _).ne'
    have hround := h.2
    rw [hshift, Nat.pow_zero, Nat.mul_one] at hround
    have hquotient := (roundHalfEven_bounds num den).1
    have hlt : num < den :=
      (Nat.div_eq_zero_iff_lt hden).1 (Nat.le_zero.1 (hquotient.trans_eq hround))
    rw [roundHalfEven, Nat.div_eq_of_lt hlt, Nat.mod_eq_of_lt hlt] at hround
    by_contra hlarge
    rw [if_neg (by omega), if_pos (by omega)] at hround
    omega
  · intro h
    have hlt : num < den := by omega
    have hshift : (num / den).log2 + 1 - f.precision = 0 := by
      rw [Nat.div_eq_of_lt hlt, Nat.log2_zero]
      omega
    rw [hshift, Nat.pow_zero, Nat.mul_one, roundHalfEven, Nat.div_eq_of_lt hlt,
      Nat.mod_eq_of_lt hlt]
    refine ⟨.inl rfl, ?_⟩
    split
    · rfl
    · rw [if_neg (by omega)]

theorem nearest_le_of_le_units (hf : 1 ≤ f.precision) (hm : m < f.infinity) {num den : Nat}
    (hden : 0 < den) (h : num ≤ f.units m * den) : f.nearest num den ≤ m :=
  (nearest_mono hf hden hden (Nat.mul_le_mul_right _ h)).trans_eq (nearest_units hf hm hden)

theorem le_nearest_of_units_le (hf : 1 ≤ f.precision) (hm : m < f.infinity) {num den : Nat}
    (hden : 0 < den) (h : f.units m * den ≤ num) : m ≤ f.nearest num den :=
  (nearest_units hf hm hden).symm.trans_le (nearest_mono hf hden hden (Nat.mul_le_mul_right _ h))

theorem nearest_units_one (hf : 1 ≤ f.precision) (hm : m < f.infinity) :
    f.nearest (f.units m) 1 = m := by
  simpa using nearest_units hf hm Nat.one_pos

theorem lt_of_units_lt (hf : 1 ≤ f.precision) (hm : m < f.infinity) (hn : n < f.infinity)
    (h : f.units m < f.units n) : m < n := by
  have hle : f.nearest (f.units m) 1 ≤ n := nearest_le_of_le_units hf hn Nat.one_pos (by omega)
  rw [nearest_units_one hf hm] at hle
  refine Nat.lt_of_le_of_ne hle ?_
  rintro rfl
  omega

theorem units_mono (hf : 1 ≤ f.precision) (hm : m < f.infinity) (hn : n < f.infinity)
    (h : m ≤ n) : f.units m ≤ f.units n := by
  by_contra hlt
  have := lt_of_units_lt hf hn hm (by omega)
  omega

theorem units_zero : f.units 0 = 0 := by simp [units]

theorem units_of_lead {s t : Nat} (hlead : 2 ^ f.fractionBits ≤ s)
    (hs : s < 2 ^ f.fractionBits * 2) : f.units (t * 2 ^ f.fractionBits + s) = s * 2 ^ t := by
  have hpow : 0 < 2 ^ f.fractionBits := Nat.two_pow_pos _
  have hsum : t * 2 ^ f.fractionBits + s =
      (s - 2 ^ f.fractionBits) + 2 ^ f.fractionBits * (t + 1) := by
    rw [Nat.mul_add, Nat.mul_comm]
    omega
  unfold units
  simp only [Nat.pow_eq]
  rw [hsum, Nat.add_mul_div_left _ _ hpow, Nat.add_mul_mod_self_left,
    Nat.div_eq_of_lt (by omega), Nat.mod_eq_of_lt (by omega), Nat.zero_add,
    if_neg (Nat.succ_ne_zero t), Nat.sub_add_cancel hlead, Nat.add_sub_cancel]

theorem units_of_lt {s : Nat} (hs : s < 2 ^ f.fractionBits) : f.units s = s := by
  unfold units
  simp only [Nat.pow_eq]
  rw [Nat.div_eq_of_lt hs, if_pos rfl, Nat.mod_eq_of_lt hs]

theorem units_of_significand {s t : Nat} (hs : s < 2 ^ f.fractionBits * 2)
    (hlead : 2 ^ f.fractionBits ≤ s ∨ t = 0) :
    f.units (t * 2 ^ f.fractionBits + s) = s * 2 ^ t := by
  by_cases h : 2 ^ f.fractionBits ≤ s
  · exact units_of_lead h hs
  · rw [hlead.resolve_left h, Nat.zero_mul, Nat.zero_add, units_of_lt (Nat.lt_of_not_le h)]
    simp

/-- Whole numbers of few bits, in units of a power of two, are magnitudes. -/
theorem exists_units {s t : Nat} (hs : s < 2 ^ f.fractionBits * 2)
    (ht : t + 2 < 2 ^ f.exponentBits) : ∃ m < f.infinity, f.units m = s * 2 ^ t := by
  have hroom (n : Nat) (hn : n < 2 ^ f.exponentBits) :
      n * 2 ^ f.fractionBits ≤ f.infinity := Nat.mul_le_mul_right _ (by rw [Nat.pow_eq]; omega)
  induction t generalizing s with
  | zero =>
    have hinf := hroom 2 (by omega)
    exact ⟨_, by omega, units_of_significand hs (.inr rfl)⟩
  | succ t ih =>
    have hinf := hroom (t + 3) (by omega)
    rw [Nat.add_mul] at hinf
    by_cases hlead : 2 ^ f.fractionBits ≤ s
    · refine ⟨_, ?_, units_of_lead hlead hs⟩
      rw [Nat.add_mul]
      omega
    · -- without the leading bit the significand has room for one more
      obtain ⟨m, hm, hunits⟩ := ih (s := 2 * s) (by omega) (by omega)
      exact ⟨m, hm, by rw [hunits, Nat.pow_succ]; ring⟩

end Binary

end UnitMatrix
