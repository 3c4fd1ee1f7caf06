import UnitMatrix.Proofs.Number.Midpoints
import Mathlib.Algebra.Order.Field.Rat
import Mathlib.Tactic.FieldSimp
import Mathlib.Tactic.GCongr
import Mathlib.Tactic.Positivity

/-! Numbers that are a few roundings apart. Each rounding far from the unit takes or adds a share of a
number that is no larger than half of its last place. Such shares add up over products and quotients,
and numbers that are a few of them apart are rounded to magnitudes that are a few steps apart. -/

namespace UnitMatrix

namespace Binary

variable {f : Binary} {m : Nat} {q r v w a b c d : ℚ} {j k : Nat}

/-- What a rounding leaves of a number at least. -/
def kept (f : Binary) : ℚ := 1 - 1 / 2 ^ f.precision

theorem kept_nonneg : 0 ≤ f.kept := by
  have h : (1 : ℚ) / 2 ^ f.precision ≤ 1 := div_le_one_of_le₀ (one_le_pow₀ (by norm_num)) (by positivity)
  exact sub_nonneg.2 h

theorem kept_le_one : f.kept ≤ 1 := by
  have h : (0 : ℚ) ≤ 1 / 2 ^ f.precision := by positivity
  exact sub_le_self _ h

/-- At most `k` roundings lie between the numbers. -/
structure Near (f : Binary) (k : Nat) (a b : ℚ) : Prop where
  left : f.kept ^ k * a ≤ b
  right : f.kept ^ k * b ≤ a

namespace Near

theorem refl (f : Binary) (a : ℚ) : f.Near 0 a a := ⟨by simp, by simp⟩

theorem nonneg (h : f.Near k a b) (hb : 0 ≤ b) : 0 ≤ a :=
  (mul_nonneg (pow_nonneg kept_nonneg k) hb).trans h.right

theorem symm (h : f.Near k a b) : f.Near k b a := ⟨h.right, h.left⟩

theorem trans (h : f.Near j a b) (h' : f.Near k b c) : f.Near (j + k) a c := by
  have hj : 0 ≤ f.kept ^ j := pow_nonneg kept_nonneg j
  have hk : 0 ≤ f.kept ^ k := pow_nonneg kept_nonneg k
  constructor
  · calc f.kept ^ (j + k) * a = f.kept ^ k * (f.kept ^ j * a) := by ring
      _ ≤ f.kept ^ k * b := by gcongr; exact h.left
      _ ≤ c := h'.left
  · calc f.kept ^ (j + k) * c = f.kept ^ j * (f.kept ^ k * c) := by ring
      _ ≤ f.kept ^ j * b := by gcongr; exact h'.right
      _ ≤ a := h.right

theorem mono (h : f.Near j a b) (ha : 0 ≤ a) (hb : 0 ≤ b) (hjk : j ≤ k) : f.Near k a b := by
  have hpow : f.kept ^ k ≤ f.kept ^ j := pow_le_pow_of_le_one kept_nonneg kept_le_one hjk
  exact ⟨(mul_le_mul_of_nonneg_right hpow ha).trans h.left,
    (mul_le_mul_of_nonneg_right hpow hb).trans h.right⟩

theorem mul (h : f.Near j a b) (h' : f.Near k c d) (ha : 0 ≤ a) (hb : 0 ≤ b) (hc : 0 ≤ c)
    (hd : 0 ≤ d) : f.Near (j + k) (a * c) (b * d) := by
  have hk : 0 ≤ f.kept ^ k := pow_nonneg kept_nonneg k
  constructor
  · calc f.kept ^ (j + k) * (a * c) = f.kept ^ j * a * (f.kept ^ k * c) := by ring
      _ ≤ b * d := mul_le_mul h.left h'.left (mul_nonneg hk hc) hb
  · calc f.kept ^ (j + k) * (b * d) = f.kept ^ j * b * (f.kept ^ k * d) := by ring
      _ ≤ a * c := mul_le_mul h.right h'.right (mul_nonneg hk hd) ha

theorem inv (h : f.Near k a b) (ha : 0 < a) (hb : 0 < b) : f.Near k a⁻¹ b⁻¹ := by
  constructor
  · rw [← div_eq_mul_inv, div_le_iff₀ ha, inv_mul_eq_div, le_div_iff₀ hb]
    exact h.right
  · rw [← div_eq_mul_inv, div_le_iff₀ hb, inv_mul_eq_div, le_div_iff₀ ha]
    exact h.left

theorem div (h : f.Near j a b) (h' : f.Near k c d) (ha : 0 ≤ a) (hb : 0 ≤ b) (hc : 0 < c)
    (hd : 0 < d) : f.Near (j + k) (a / c) (b / d) := by
  rw [div_eq_mul_inv, div_eq_mul_inv]
  exact h.mul (h'.inv hc hd) ha hb (inv_nonneg.2 hc.le) (inv_nonneg.2 hd.le)

theorem mul_right (h : f.Near k a b) (hc : 0 ≤ c) : f.Near k (a * c) (b * c) := by
  constructor
  · rw [← mul_assoc]
    exact mul_le_mul_of_nonneg_right h.left hc
  · rw [← mul_assoc]
    exact mul_le_mul_of_nonneg_right h.right hc

end Near

theorem two_mul_two_pow_fractionBits (hf : 1 ≤ f.precision) :
    2 * 2 ^ f.fractionBits = 2 ^ f.precision := by
  rw [← Nat.pow_succ', fractionBits, Nat.succ_eq_add_one, Nat.sub_add_cancel hf]

/-- One step is no smaller than a rounding. -/
theorem units_le_kept_mul_units_succ (hf : 1 ≤ f.precision) (m : Nat) :
    (f.units m : ℚ) ≤ f.kept * f.units (m + 1) := by
  obtain ⟨s, t, -, hs, -, hunits, hnext⟩ := exists_significands (f := f) m
  have hroom : (s + 1 : ℚ) ≤ 2 ^ f.precision := by
    have h : s + 1 ≤ 2 ^ f.precision := by
      rw [← two_mul_two_pow_fractionBits hf, Nat.mul_comm]
      exact hs
    exact_mod_cast h
  have hshare : (s + 1 : ℚ) / 2 ^ f.precision ≤ 1 := div_le_one_of_le₀ hroom (by positivity)
  have hkept : f.kept * (s + 1 : ℚ) = s + 1 - (s + 1) / 2 ^ f.precision := by
    rw [kept]
    ring
  rw [hunits, hnext]
  push_cast
  rw [← mul_assoc, hkept]
  gcongr
  linarith

theorem units_le_kept_pow_mul_units (hf : 1 ≤ f.precision) (m k : Nat) :
    (f.units m : ℚ) ≤ f.kept ^ k * f.units (m + k) := by
  induction k with
  | zero => simp
  | succ k ih =>
    have hk : 0 ≤ f.kept ^ k := pow_nonneg kept_nonneg k
    calc (f.units m : ℚ) ≤ f.kept ^ k * f.units (m + k) := ih
      _ ≤ f.kept ^ k * (f.kept * f.units (m + k + 1)) := by
        gcongr
        exact units_le_kept_mul_units_succ hf _
      _ = f.kept ^ (k + 1) * f.units (m + (k + 1)) := by
        rw [← Nat.add_assoc]
        ring

theorem le_units_rounded_succ (hf : 1 ≤ f.precision) (h : f.rounded q < f.infinity) :
    q ≤ f.units (f.rounded q + 1) := by
  have hmid := le_midpoint_of_rounded_le hf h le_rfl
  have hstep := units_le_kept_mul_units_succ hf (f.rounded q)
  have hkept : f.kept * f.units (f.rounded q + 1) ≤ f.units (f.rounded q + 1) :=
    mul_le_of_le_one_left (Nat.cast_nonneg _) kept_le_one
  linarith

/-- Numbers that are near are rounded to magnitudes that are not many steps apart. -/
theorem Near.rounded_le (h : f.Near k v w) (hf : 1 ≤ f.precision) (hw : 0 ≤ w)
    (hroom : f.rounded v + 1 + k < f.infinity) : f.rounded w ≤ f.rounded v + 1 + k := by
  have hle : w ≤ f.units (f.rounded v + 1 + k) := by
    by_contra hlt
    have hpos : 0 < f.kept ^ k := by
      refine pow_pos (sub_pos.2 ?_) k
      exact (div_lt_one (by positivity)).2 (one_lt_pow₀ (by norm_num) (by omega))
    have hv := le_units_rounded_succ hf (q := v) (by omega)
    have hsteps := units_le_kept_pow_mul_units hf (f.rounded v + 1) k
    have := mul_lt_mul_of_pos_left (lt_of_not_ge hlt) hpos
    have := h.right
    linarith
  exact (rounded_mono hf hw hle).trans_eq (rounded_units hf hroom)

theorem Near.rounded_close (h : f.Near k v w) (hf : 1 ≤ f.precision) (hv : 0 ≤ v)
    (hroom : f.rounded v + 1 + k < f.infinity) :
    f.rounded w ≤ f.rounded v + 1 + k ∧ f.rounded v ≤ f.rounded w + 1 + k := by
  refine ⟨h.rounded_le hf (h.symm.nonneg hv) hroom, ?_⟩
  by_cases hroom' : f.rounded w + 1 + k < f.infinity
  · exact h.symm.rounded_le hf hv hroom'
  · omega

theorem kept_mul_le (h : c * 2 ^ f.precision ≤ a) : f.kept * a ≤ a - c := by
  have hshare : c ≤ a / 2 ^ f.precision := (le_div_iff₀ (by positivity)).2 h
  have hkept : f.kept * a = a - a / 2 ^ f.precision := by
    rw [kept]
    ring
  linarith

theorem two_pow_le_rounded (hf : 1 ≤ f.precision) (hq : (2 ^ f.fractionBits : ℚ) ≤ q)
    (h : f.rounded q < f.infinity) : 2 ^ f.fractionBits ≤ f.rounded q := by
  by_contra hlt
  have hmid := le_midpoint_of_rounded_le hf h le_rfl
  obtain ⟨s, t, hsplit, -, hlead, hunits, hnext⟩ := exists_significands (f := f) (f.rounded q)
  have hs : s + 1 ≤ 2 ^ f.fractionBits := by omega
  obtain rfl : t = 0 := hlead.resolve_left (by omega)
  have hs' : (s + 1 : ℚ) ≤ 2 ^ f.fractionBits := by exact_mod_cast hs
  rw [hunits, hnext] at hmid
  push_cast at hmid
  linarith

/-- Far from the unit a rounding is one share at most. -/
theorem near_rounded (hf : 1 ≤ f.precision) (hq : (2 ^ f.fractionBits : ℚ) ≤ q)
    (h : f.rounded q < f.infinity) : f.Near 1 (f.units (f.rounded q)) q := by
  have hlow := two_pow_le_rounded hf hq h
  have hq0 : (0 : ℚ) ≤ q := le_trans (by positivity) hq
  have hpow : (2 ^ f.precision : ℚ) = 2 * 2 ^ f.fractionBits := by
    exact_mod_cast (two_mul_two_pow_fractionBits hf).symm
  constructor
  · -- the number is above the midpoint in front of the magnitude
    obtain ⟨m, hm⟩ := Nat.exists_eq_add_of_lt (Nat.two_pow_pos f.fractionBits |>.trans_le hlow)
    rw [Nat.zero_add] at hm
    have hmid := midpoint_le_of_lt_rounded hf hq0 (show m < f.rounded q by omega)
    obtain ⟨s, t, hsplit, -, hlead, hunits, hnext⟩ := exists_significands (f := f) m
    have hs : (2 ^ f.fractionBits : ℚ) ≤ s + 1 := by
      have : 2 ^ f.fractionBits ≤ s + 1 := hlead.elim (by omega) (by rintro rfl; omega)
      exact_mod_cast this
    have hkept : f.kept * (s + 1 : ℚ) ≤ s + 1 - 1 / 2 := kept_mul_le (by rw [hpow]; linarith)
    rw [hm, pow_one, hnext]
    rw [hunits, hnext] at hmid
    push_cast at hmid ⊢
    have hscaled := mul_le_mul_of_nonneg_right hkept (show (0 : ℚ) ≤ 2 ^ t by positivity)
    linarith
  · have hmid := le_midpoint_of_rounded_le hf h le_rfl
    obtain ⟨s, t, hsplit, -, hlead, hunits, hnext⟩ := exists_significands (f := f) (f.rounded q)
    have hs : (2 ^ f.fractionBits : ℚ) ≤ s := by
      have : 2 ^ f.fractionBits ≤ s := hlead.elim id (by rintro rfl; omega)
      exact_mod_cast this
    have hkept : f.kept * (s + 1 / 2 : ℚ) ≤ s + 1 / 2 - 1 / 2 := kept_mul_le (by rw [hpow]; linarith)
    rw [hunits, hnext] at hmid
    push_cast at hmid
    have hscaled := mul_le_mul_of_nonneg_right hkept (show (0 : ℚ) ≤ 2 ^ t by positivity)
    have hdown := mul_le_mul_of_nonneg_left hmid (kept_nonneg (f := f))
    rw [pow_one, hunits]
    push_cast
    linarith

theorem near_ofDecimal {d : Nat} {e : Int} (hlow : 2 ^ 52 ≤ binary64.decimal d e)
    (h : binary64.ofDecimal d e < binary64.infinity) :
    binary64.Near 1 (binary64.units (binary64.ofDecimal d e)) (binary64.decimal d e) := by
  rw [ofDecimal_eq_rounded (by decide) (by decide)] at h ⊢
  exact near_rounded (by decide) hlow h

theorem kept_pow_three_le : binary64.kept ^ 3 ≤ 1 - 5 / 2 ^ 54 := by
  norm_num [kept, binary64]

/-- A little below the least exponent a rounding is three shares at most. -/
theorem near_rounded_of_tiny {q : ℚ} (hq : 2 * 10 ^ 15 ≤ q)
    (h : binary64.rounded q < binary64.infinity) :
    binary64.Near 3 (binary64.units (binary64.rounded q)) q := by
  have hf : 1 ≤ binary64.precision := by decide
  have hq0 : (0 : ℚ) ≤ q := le_trans (by norm_num) hq
  by_cases hlow : (2 ^ 52 : ℚ) ≤ q
  · exact (near_rounded hf hlow h).mono (Nat.cast_nonneg _) hq0 (by decide)
  · -- here magnitudes are whole numbers of units, so a rounding is half a unit
    have hunits {m : Nat} (hm : m < 2 ^ 53) : binary64.units m = m := by
      have := units_of_significand (f := binary64) (s := m) (t := 0) hm (.inr rfl)
      simpa using this
    have hm : binary64.rounded q ≤ 2 ^ 52 := by
      refine (rounded_mono hf hq0 ?_).trans_eq (rounded_units (f := binary64) hf (by decide))
      rw [hunits (by decide)]
      exact_mod_cast (lt_of_not_ge hlow).le
    obtain ⟨m, hrounded⟩ : ∃ m, m = binary64.rounded q := ⟨_, rfl⟩
    rw [← hrounded] at hm h ⊢
    have hhigh := le_midpoint_of_rounded_le hf h hrounded.ge
    rw [hunits (by omega), hunits (by omega)] at hhigh
    push_cast at hhigh
    have hm0 : 0 < m := by
      by_contra h0
      rw [Nat.eq_zero_of_not_pos h0] at hhigh
      norm_num at hhigh
      linarith
    obtain ⟨n, rfl⟩ := Nat.exists_eq_succ_of_ne_zero hm0.ne'
    have hbelow := midpoint_le_of_lt_rounded hf hq0 (show n < binary64.rounded q by omega)
    rw [hunits (by omega), hunits (by omega)] at hbelow
    have hkept := kept_pow_three_le
    have hpow : (0 : ℚ) ≤ binary64.kept ^ 3 := pow_nonneg kept_nonneg 3
    rw [hunits (by omega)]
    push_cast at hhigh hbelow ⊢
    constructor
    · nlinarith
    · nlinarith

theorem Near.product {x y e n : Nat} {i : Int} (hx : f.Near j (f.units x) (f.decimal e i))
    (hy : f.Near k (f.units y) (f.decimal 1 n)) :
    f.Near (j + k) (f.units x * f.units y / 2 ^ f.unitExponent) (f.decimal e (i + n)) := by
  have h := (hx.mul hy (Nat.cast_nonneg _) (decimal_nonneg _ _) (Nat.cast_nonneg _)
    (decimal_nonneg _ _)).mul_right (c := (2 ^ f.unitExponent)⁻¹) (by positivity)
  have hvalue : f.decimal e i * f.decimal 1 n * (2 ^ f.unitExponent)⁻¹ = f.decimal e (i + n) := by
    rw [decimal, decimal, decimal, zpow_add₀ (by norm_num)]
    field_simp
    push_cast
    ring
  rwa [hvalue, ← div_eq_mul_inv] at h

theorem Near.quotient {x y e n : Nat} {i : Int} (hx : f.Near j (f.units x) (f.decimal e i))
    (hy : f.Near k (f.units y) (f.decimal 1 n)) (hpos : 0 < f.units y) :
    f.Near (j + k) (f.units x * 2 ^ f.unitExponent / f.units y) (f.decimal e (i - n)) := by
  have hscale : (0 : ℚ) ≤ 2 ^ f.unitExponent := by positivity
  have h := (hx.mul_right hscale).div hy (mul_nonneg (Nat.cast_nonneg _) hscale)
    (mul_nonneg (decimal_nonneg _ _) hscale) (by exact_mod_cast hpos) (decimal_one_pos _)
  have hvalue : f.decimal e i * 2 ^ f.unitExponent / f.decimal 1 n = f.decimal e (i - n) := by
    rw [decimal, decimal, decimal, zpow_sub₀ (by norm_num)]
    field_simp
    push_cast
    ring
  rwa [hvalue] at h

end Binary

end UnitMatrix
