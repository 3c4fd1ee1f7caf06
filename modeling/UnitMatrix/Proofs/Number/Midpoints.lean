import UnitMatrix.Proofs.Number.Nearest
import Mathlib.Data.Rat.Lemmas
import Mathlib.Data.Rat.Cast.Order
import Mathlib.Algebra.Order.Field.Power
import Mathlib.Algebra.Order.Field.Rat
import Mathlib.Tactic.FieldSimp
import Mathlib.Tactic.GCongr
import Mathlib.Tactic.Linarith
import Mathlib.Tactic.Positivity

/-! Rounding of rational numbers. Where a number is rounded to is settled by the midpoints on both
sides of a magnitude: what lies between them is rounded to it. -/

namespace UnitMatrix

theorem roundHalfEven_le_of_lt {num den s : Nat} (hden : 0 < den) (h : 2 * num < (2 * s + 1) * den) :
    roundHalfEven num den ≤ s := by
  have hsplit := Nat.div_add_mod num den
  have htwice : (2 * s + 1) * den = 2 * (s * den) + den := by ring
  have hle : num / den ≤ s := by
    by_contra hlt
    have hlarge := (Nat.le_div_iff_mul_le hden).1 (Nat.lt_of_not_le hlt)
    rw [Nat.succ_mul] at hlarge
    omega
  unfold roundHalfEven
  dsimp only
  rcases hle.lt_or_eq with hlt | heq
  · split
    · omega
    · split <;> omega
  · have hlow : 2 * (num % den) < den := by
      rw [heq, Nat.mul_comm] at hsplit
      omega
    rw [if_pos hlow]
    exact hle

theorem lt_roundHalfEven_of_lt {num den s : Nat} (hden : 0 < den) (h : (2 * s + 1) * den < 2 * num) :
    s < roundHalfEven num den := by
  have hsplit := Nat.div_add_mod num den
  have htwice : (2 * s + 1) * den = 2 * (s * den) + den := by ring
  have hle : s ≤ num / den := by
    rw [Nat.le_div_iff_mul_le hden]
    omega
  unfold roundHalfEven
  dsimp only
  rcases hle.lt_or_eq with hlt | heq
  · split
    · omega
    · split <;> omega
  · have hhigh : den < 2 * (num % den) := by
      rw [← heq, Nat.mul_comm] at hsplit
      omega
    rw [if_neg (by omega), if_pos hhigh]
    omega

namespace Binary

variable {f : Binary} {m : Nat}

/-- A magnitude and the next one, by the significand of the first. -/
theorem exists_significands (m : Nat) : ∃ s t, m = t * 2 ^ f.fractionBits + s ∧
    s < 2 ^ f.fractionBits * 2 ∧ (2 ^ f.fractionBits ≤ s ∨ t = 0) ∧
      f.units m = s * 2 ^ t ∧ f.units (m + 1) = (s + 1) * 2 ^ t := by
  obtain ⟨s, t, hunits, hsplit, hs, hlead⟩ := units_eq (f := f) m
  refine ⟨s, t, hsplit, hs, hlead, hunits, ?_⟩
  rw [hsplit, Nat.add_assoc]
  rcases Nat.lt_or_ge (s + 1) (2 ^ f.fractionBits * 2) with hlt | hge
  · exact units_of_significand hlt (hlead.imp (·.trans (Nat.le_succ s)) id)
  · -- the significand carries, and the next one is a power of two
    obtain rfl : s = 2 ^ f.fractionBits + 2 ^ f.fractionBits - 1 := by omega
    have hpow : 0 < 2 ^ f.fractionBits := Nat.two_pow_pos _
    have hcarry : t * 2 ^ f.fractionBits + (2 ^ f.fractionBits + 2 ^ f.fractionBits - 1 + 1) =
        (t + 1) * 2 ^ f.fractionBits + 2 ^ f.fractionBits := by
      rw [Nat.add_mul]
      omega
    rw [hcarry, units_of_lead le_rfl (by omega), Nat.pow_succ, Nat.sub_add_cancel (by omega)]
    ring

theorem nearest_le_of_lt_midpoint (hf : 1 ≤ f.precision) {num den : Nat} (hden : 0 < den)
    (h : 2 * num < (f.units m + f.units (m + 1)) * den) : f.nearest num den ≤ m := by
  have hbits : f.fractionBits + 1 = f.precision := Nat.sub_add_cancel hf
  obtain ⟨s, t, hsplit, hs, hlead, hunits, hnext⟩ := exists_significands (f := f) m
  have hmid : 2 * num < (2 * s + 1) * (den * 2 ^ t) := by
    rw [hunits, hnext] at h
    exact h.trans_eq (by ring)
  unfold nearest
  simp only [Nat.pow_eq]
  obtain ⟨k, hk⟩ : ∃ k, k = (num / den).log2 + 1 - f.precision := ⟨_, rfl⟩
  rw [← hk]
  refine (min_le_left _ _).trans ?_
  rcases Nat.lt_trichotomy k t with hlt | rfl | hgt
  · have hround := (significand_bounds hf hk).1
    have hsteps : (k + 1) * 2 ^ f.fractionBits ≤ t * 2 ^ f.fractionBits := Nat.mul_le_mul_right _ hlt
    rw [Nat.add_mul] at hsteps
    have := hlead.resolve_right (by omega)
    omega
  · rw [hsplit]
    exact Nat.add_le_add_left
      (roundHalfEven_le_of_lt (Nat.mul_pos hden (Nat.two_pow_pos _)) hmid) _
  · -- so many bits are more than the midpoint has
    exfalso
    have hlog : f.precision + t ≤ (num / den).log2 := by omega
    have hne : num / den ≠ 0 := by
      rintro h0
      rw [h0, Nat.log2_zero] at hlog
      omega
    have hlarge : 2 ^ (f.precision + t) * den ≤ num :=
      (Nat.mul_le_mul_right _ ((Nat.pow_le_pow_right (by decide) hlog).trans
        (Nat.log2_self_le hne))).trans (Nat.div_mul_le_self _ _)
    rw [← hbits, Nat.pow_add, Nat.pow_succ] at hlarge
    have hbound : (2 * s + 1) * (den * 2 ^ t) ≤
        2 * (2 ^ f.fractionBits * 2 * 2 ^ t * den) := by
      calc (2 * s + 1) * (den * 2 ^ t) ≤ (2 * (2 ^ f.fractionBits * 2)) * (den * 2 ^ t) :=
            Nat.mul_le_mul_right _ (by omega)
        _ = 2 * (2 ^ f.fractionBits * 2 * 2 ^ t * den) := by ring
    omega

theorem lt_nearest_of_midpoint_lt (hf : 1 ≤ f.precision) (hm : m < f.infinity) {num den : Nat}
    (hden : 0 < den) (h : (f.units m + f.units (m + 1)) * den < 2 * num) :
    m < f.nearest num den := by
  have hbits : f.fractionBits + 1 = f.precision := Nat.sub_add_cancel hf
  obtain ⟨s, t, hsplit, hs, hlead, hunits, hnext⟩ := exists_significands (f := f) m
  have hmid : (2 * s + 1) * (den * 2 ^ t) < 2 * num := by
    rw [hunits, hnext] at h
    exact lt_of_eq_of_lt (by ring) h
  unfold nearest
  simp only [Nat.pow_eq]
  obtain ⟨k, hk⟩ : ∃ k, k = (num / den).log2 + 1 - f.precision := ⟨_, rfl⟩
  rw [← hk]
  refine lt_min ?_ hm
  rcases Nat.lt_trichotomy k t with hlt | rfl | hgt
  · -- so few bits are less than the leading one of the magnitude says
    exfalso
    have hlong := hlead.resolve_right (by omega)
    have hquotient : 2 ^ (f.fractionBits + t) ≤ num / den := by
      rw [Nat.le_div_iff_mul_le hden, Nat.pow_add]
      have : 2 ^ f.fractionBits * 2 ^ t * den ≤ s * (den * 2 ^ t) := by
        rw [Nat.mul_assoc, Nat.mul_comm (2 ^ t)]
        exact Nat.mul_le_mul_right _ hlong
      nlinarith
    have hlog : f.fractionBits + t ≤ (num / den).log2 := by
      rw [← Nat.log2_two_pow (n := f.fractionBits + t)]
      exact log2_mono hquotient
    omega
  · rw [hsplit]
    exact Nat.add_lt_add_left
      (lt_roundHalfEven_of_lt (Nat.mul_pos hden (Nat.two_pow_pos _)) hmid) _
  · have hround := (significand_bounds hf hk).2 (by omega)
    have hsteps : (t + 1) * 2 ^ f.fractionBits ≤ k * 2 ^ f.fractionBits := Nat.mul_le_mul_right _ hgt
    rw [Nat.add_mul] at hsteps
    omega

/-- The magnitude nearest to a number of units. -/
def rounded (f : Binary) (q : ℚ) : Nat := f.nearest q.num.toNat q.den

variable {q r : ℚ}

theorem num_toNat_div_den (hq : 0 ≤ q) : (q.num.toNat : ℚ) / q.den = q := by
  have hnum : ((q.num.toNat : Int) : ℚ) = q.num := by rw [Int.toNat_of_nonneg (Rat.num_nonneg.2 hq)]
  rw [← Int.cast_natCast, hnum, Rat.num_div_den]

theorem rounded_div (num : Nat) {den : Nat} (hden : 0 < den) :
    f.rounded (num / den) = f.nearest num den := by
  have hq : (0 : ℚ) ≤ num / den := div_nonneg (Nat.cast_nonneg _) (Nat.cast_nonneg _)
  refine nearest_congr (Rat.den_pos _) hden ?_
  have hden' : (den : ℚ) ≠ 0 := Nat.cast_ne_zero.2 hden.ne'
  have hratio := num_toNat_div_den hq
  rw [div_eq_div_iff (Nat.cast_ne_zero.2 (Rat.den_pos _).ne') hden'] at hratio
  exact_mod_cast hratio

theorem rounded_units (hf : 1 ≤ f.precision) (hm : m < f.infinity) : f.rounded (f.units m) = m := by
  have h := rounded_div (f := f) (f.units m) Nat.one_pos
  rw [Nat.cast_one, div_one, nearest_units_one hf hm] at h
  exact h

theorem rounded_mono (hf : 1 ≤ f.precision) (hq : 0 ≤ q) (h : q ≤ r) :
    f.rounded q ≤ f.rounded r := by
  refine nearest_mono hf q.den_pos r.den_pos ?_
  have hnum := Rat.num_nonneg.2 hq
  have hnum' := Rat.num_nonneg.2 (hq.trans h)
  have hcross := (Rat.le_iff _ _).1 h
  zify
  rwa [Int.toNat_of_nonneg hnum, Int.toNat_of_nonneg hnum']

theorem rounded_le_of_lt_midpoint (hf : 1 ≤ f.precision) (hq : 0 ≤ q)
    (h : 2 * q < f.units m + f.units (m + 1)) : f.rounded q ≤ m := by
  refine nearest_le_of_lt_midpoint hf q.den_pos ?_
  have hden : (0 : ℚ) < q.den := by exact_mod_cast q.den_pos
  rw [← num_toNat_div_den hq, ← mul_div_assoc, div_lt_iff₀ hden] at h
  exact_mod_cast h

theorem lt_rounded_of_midpoint_lt (hf : 1 ≤ f.precision) (hm : m < f.infinity)
    (h : (f.units m + f.units (m + 1) : ℚ) < 2 * q) : m < f.rounded q := by
  have hq : 0 ≤ q := by
    have : (0 : ℚ) ≤ f.units m + f.units (m + 1) := by positivity
    linarith
  refine lt_nearest_of_midpoint_lt hf hm q.den_pos ?_
  have hden : (0 : ℚ) < q.den := by exact_mod_cast q.den_pos
  rw [← num_toNat_div_den hq, ← mul_div_assoc, lt_div_iff₀ hden] at h
  exact_mod_cast h

theorem rounded_le_infinity (q : ℚ) : f.rounded q ≤ f.infinity := nearest_le_infinity _ _

theorem le_midpoint_of_rounded_le (hf : 1 ≤ f.precision) (hm : m < f.infinity)
    (h : f.rounded q ≤ m) : 2 * q ≤ f.units m + f.units (m + 1) :=
  le_of_not_gt fun hlt => (lt_rounded_of_midpoint_lt hf hm hlt).not_ge h

theorem midpoint_le_of_lt_rounded (hf : 1 ≤ f.precision) (hq : 0 ≤ q) (h : m < f.rounded q) :
    (f.units m + f.units (m + 1) : ℚ) ≤ 2 * q :=
  le_of_not_gt fun hlt => (rounded_le_of_lt_midpoint hf hq hlt).not_gt h

theorem rounded_zero (hf : 1 ≤ f.precision) (hinf : 0 < f.infinity) : f.rounded 0 = 0 :=
  (nearest_eq_zero_iff hf hinf Nat.one_pos).2 (Nat.zero_le _)

theorem units_le_units_succ (m : Nat) : f.units m ≤ f.units (m + 1) := by
  obtain ⟨s, t, -, -, -, hunits, hnext⟩ := exists_significands (f := f) m
  rw [hunits, hnext]
  exact Nat.mul_le_mul_right _ (Nat.le_succ s)

/-- Two to this power, in units, is beyond every finite number. -/
def reach (f : Binary) : Nat := f.precision + (2 ^ f.exponentBits - 3)

theorem units_succ_le (hf : 1 ≤ f.precision) (hm : m < f.infinity) :
    f.units (m + 1) ≤ 2 ^ f.reach := by
  obtain ⟨s, t, hsplit, hs, hlead, -, hnext⟩ := exists_significands (f := f) m
  have hpow : 2 ^ f.precision = 2 ^ f.fractionBits * 2 := by
    rw [← Nat.pow_succ, fractionBits, Nat.succ_eq_add_one, Nat.sub_add_cancel hf]
  rw [hnext, reach, Nat.pow_add, hpow]
  refine Nat.mul_le_mul hs (Nat.pow_le_pow_right (by decide) ?_)
  rcases hlead with hlead | rfl
  · have hlt : (t + 1) * 2 ^ f.fractionBits < (2 ^ f.exponentBits - 1) * 2 ^ f.fractionBits := by
      refine Nat.lt_of_le_of_lt ?_ hm
      rw [Nat.add_mul]
      omega
    have := Nat.lt_of_mul_lt_mul_right hlt
    omega
  · exact Nat.zero_le _

theorem le_of_rounded_lt_infinity (hf : 1 ≤ f.precision) (h : f.rounded q < f.infinity) :
    q ≤ 2 ^ f.reach := by
  have hmid := le_midpoint_of_rounded_le hf h le_rfl
  have hbound : (f.units (f.rounded q + 1) : ℚ) ≤ 2 ^ f.reach := by
    exact_mod_cast units_succ_le hf h
  have hstep : (f.units (f.rounded q) : ℚ) ≤ f.units (f.rounded q + 1) := by
    exact_mod_cast units_le_units_succ (f.rounded q)
  linarith

theorem rounded_lt_infinity (hf : 1 ≤ f.precision) {s t : Nat} (hs : s < 2 ^ f.fractionBits * 2)
    (ht : t + 2 < 2 ^ f.exponentBits) (hq : 0 ≤ q) (h : q ≤ s * 2 ^ t) : f.rounded q < f.infinity := by
  obtain ⟨m, hm, hunits⟩ := exists_units hs ht
  have hle : q ≤ f.units m := by
    rw [hunits]
    exact_mod_cast h
  exact ((rounded_mono hf hq hle).trans_eq (rounded_units hf hm)).trans_lt hm

/-- The decimal `d * 10 ^ e`, in units. -/
def decimal (f : Binary) (d : Nat) (e : Int) : ℚ := d * 10 ^ e * 2 ^ f.unitExponent

theorem decimal_nonneg (d : Nat) (e : Int) : 0 ≤ f.decimal d e := by
  rw [decimal]
  positivity

theorem decimal_one_pos (e : Int) : 0 < f.decimal 1 e := by
  rw [decimal]
  positivity

theorem decimal_eq_mul (d : Nat) (e : Int) : f.decimal d e = d * f.decimal 1 e := by
  rw [decimal, decimal, Nat.cast_one]
  ring

theorem decimal_mul_pow (d k : Nat) (e : Int) : f.decimal (d * 10 ^ k) e = f.decimal d (e + k) := by
  rw [decimal, decimal, zpow_add₀ (by norm_num), zpow_natCast]
  push_cast
  ring

theorem decimal_mono {d d' : Nat} {e e' : Int} (hd : d ≤ d') (he : e ≤ e') :
    f.decimal d e ≤ f.decimal d' e' := by
  have hd' : (d : ℚ) ≤ d' := by exact_mod_cast hd
  have he' : (10 : ℚ) ^ e ≤ 10 ^ e' := zpow_le_zpow_right₀ (by norm_num) he
  rw [decimal, decimal]
  gcongr

theorem decimal_eq_div (d : Nat) (e : Int) : f.decimal d e =
    (d * 10 ^ e.toNat * 2 ^ f.unitExponent : Nat) / (10 ^ (-e).toNat : Nat) := by
  have hpow : (10 : ℚ) ^ e * 10 ^ (-e).toNat = 10 ^ e.toNat := by
    rw [← zpow_natCast, ← zpow_natCast, ← zpow_add₀ (by norm_num)]
    congr 1
    omega
  rw [decimal, eq_div_iff (by positivity)]
  push_cast
  rw [← hpow]
  ring

theorem decimal_natCast (d n : Nat) : f.decimal d n = (d * 10 ^ n * 2 ^ f.unitExponent : Nat) := by
  rw [decimal, zpow_natCast]
  push_cast
  rfl

theorem decimal_neg_natCast (d n : Nat) :
    f.decimal d (-n) = (d * 2 ^ f.unitExponent : Nat) / (10 ^ n : Nat) := by
  rw [decimal, zpow_neg, zpow_natCast, mul_right_comm, div_eq_mul_inv]
  push_cast
  rfl

/-- The whole expansion is the magnitude itself. -/
theorem decimal_expansion (m : Nat) : f.decimal (f.expansion m) (-f.unitExponent) = f.units m := by
  have hten : (10 : ℚ) ^ f.unitExponent = 5 ^ f.unitExponent * 2 ^ f.unitExponent := by
    rw [← mul_pow]
    norm_num
  rw [decimal, expansion, Nat.pow_eq, zpow_neg, zpow_natCast, hten]
  push_cast
  field_simp

theorem pow_length_le {d : Nat} (hd : 0 < d) : 10 ^ ((Nat.toDigits 10 d).length - 1) ≤ d := by
  by_contra hlt
  rcases Nat.eq_zero_or_pos ((Nat.toDigits 10 d).length - 1) with h0 | hpos
  · rw [h0] at hlt
    omega
  · have := (Nat.length_toDigits_le_iff (b := 10) (by decide) hpos).2 (Nat.lt_of_not_le hlt)
    omega

/-- The bounds outside of which a decimal is taken for zero or for infinity are no more than
shortcuts. -/
theorem ofDecimal_eq_rounded (hf : 4 ≤ f.precision) (hbits : 2 ≤ f.exponentBits) (d : Nat) (e : Int) :
    f.ofDecimal d e = f.rounded (f.decimal d e) := by
  have hexponents : 4 ≤ 2 ^ f.exponentBits := Nat.pow_le_pow_right (n := 2) (by decide) hbits
  have hinf : 0 < f.infinity :=
    Nat.mul_pos (by rw [Nat.pow_eq]; omega) (Nat.two_pow_pos _)
  have hunit := two_mul_unitExponent (f := f) (by omega) (by omega)
  rw [decimal]
  by_cases h0 : d = 0
  · rw [h0, Nat.cast_zero, zero_mul, zero_mul, rounded_zero (by omega) hinf]
    simp [ofDecimal]
  · have hd : (1 : ℚ) ≤ d := by exact_mod_cast Nat.one_le_iff_ne_zero.2 h0
    have hlength := Nat.length_toDigits_pos (b := 10) (n := d)
    unfold ofDecimal
    simp only [if_neg h0]
    split
    next hhigh =>
      -- a number so large lies beyond the largest magnitude
      refine le_antisymm (le_of_not_gt fun hlt => ?_) (rounded_le_infinity _)
      have hq := le_of_rounded_lt_infinity (by omega) hlt
      have hdigits : (10 : ℚ) ^ ((Nat.toDigits 10 d).length - 1) ≤ d := by
        exact_mod_cast pow_length_le (Nat.pos_of_ne_zero h0)
      have hlarge : (10 : ℚ) ^ f.unitExponent ≤ d * 10 ^ e := by
        calc (10 : ℚ) ^ f.unitExponent = 10 ^ (f.unitExponent : Int) := (zpow_natCast _ _).symm
          _ ≤ 10 ^ (((Nat.toDigits 10 d).length - 1 : Nat) + e) :=
            zpow_le_zpow_right₀ (by norm_num) (by omega)
          _ = 10 ^ ((Nat.toDigits 10 d).length - 1) * 10 ^ e := by
            rw [zpow_add₀ (by norm_num), zpow_natCast]
          _ ≤ d * 10 ^ e := by gcongr
      have hsmall : (2 : ℚ) ^ f.reach < 10 ^ f.unitExponent * 2 ^ f.unitExponent := by
        calc (2 : ℚ) ^ f.reach ≤ 2 ^ f.unitExponent * 2 ^ f.unitExponent := by
              rw [← pow_add, reach]
              exact pow_le_pow_right₀ (by norm_num) (by omega)
          _ < 10 ^ f.unitExponent * 2 ^ f.unitExponent := by
            gcongr
            · omega
            · norm_num
      have := mul_le_mul_of_nonneg_right hlarge (show (0 : ℚ) ≤ 2 ^ f.unitExponent by positivity)
      linarith
    next =>
      split
      next hlow =>
        have hq : (0 : ℚ) ≤ d * 10 ^ e * 2 ^ f.unitExponent := by positivity
        refine (Nat.le_zero.1 (rounded_le_of_lt_midpoint (by omega) hq ?_)).symm
        have hdigits : (d : ℚ) ≤ 10 ^ (Nat.toDigits 10 d).length := by
          exact_mod_cast ((Nat.length_toDigits_le_iff (by decide) hlength).1 le_rfl).le
        have hsmall : (d * 10 ^ e : ℚ) ≤ (10 ^ (f.unitExponent + 1))⁻¹ := by
          calc (d * 10 ^ e : ℚ) ≤ 10 ^ (Nat.toDigits 10 d).length * 10 ^ e := by gcongr
            _ = 10 ^ (((Nat.toDigits 10 d).length : Int) + e) := by
              rw [zpow_add₀ (by norm_num), zpow_natCast]
            _ ≤ 10 ^ (-((f.unitExponent + 1 : Nat) : Int)) :=
              zpow_le_zpow_right₀ (by norm_num) (by omega)
            _ = (10 ^ (f.unitExponent + 1))⁻¹ := by rw [zpow_neg, zpow_natCast]
        have hunits : f.units 0 = 0 ∧ f.units 1 = 1 :=
          ⟨units_zero, units_of_lt (Nat.one_lt_two_pow (by rw [fractionBits]; omega))⟩
        have hshare : (10 ^ (f.unitExponent + 1) : ℚ)⁻¹ * 2 ^ f.unitExponent < 1 / 2 := by
          rw [inv_mul_lt_iff₀ (by positivity), pow_succ]
          have : (2 : ℚ) ^ f.unitExponent ≤ 10 ^ f.unitExponent := by gcongr; norm_num
          have : (0 : ℚ) < 10 ^ f.unitExponent := by positivity
          linarith
        have := mul_le_mul_of_nonneg_right hsmall (show (0 : ℚ) ≤ 2 ^ f.unitExponent by positivity)
        rw [Nat.zero_add, hunits.1, hunits.2]
        push_cast
        linarith
      next =>
        rw [← decimal, decimal_eq_div, rounded_div _ (Nat.pow_pos (by decide))]
        rfl

theorem ofDecimal_lt_infinity (hf : 4 ≤ f.precision) (hbits : 2 ≤ f.exponentBits) {d n s t : Nat}
    (hs : s < 2 ^ f.fractionBits * 2) (ht : t + f.unitExponent + 2 < 2 ^ f.exponentBits)
    (h : d * 10 ^ n ≤ s * 2 ^ t) : f.ofDecimal d n < f.infinity := by
  rw [ofDecimal_eq_rounded hf hbits]
  refine rounded_lt_infinity (by omega) hs ht (decimal_nonneg _ _) ?_
  rw [decimal_natCast, pow_add, ← mul_assoc]
  exact_mod_cast Nat.mul_le_mul_right _ h

theorem product_eq_rounded (x y : Nat) :
    f.product x y = f.rounded (f.units x * f.units y / 2 ^ f.unitExponent) := by
  have h := rounded_div (f := f) (f.units x * f.units y) (Nat.two_pow_pos f.unitExponent)
  push_cast at h
  exact h.symm

/-- Nothing grows when it is divided by one or more. -/
theorem quotient_le (hf : 1 ≤ f.precision) {x y : Nat} (hx : x < f.infinity)
    (hy : 2 ^ f.unitExponent ≤ f.units y) : f.quotient x y ≤ x :=
  nearest_le_of_le_units hf hx ((Nat.two_pow_pos _).trans_le hy) (Nat.mul_le_mul_left _ hy)

theorem quotient_eq_rounded (x : Nat) {y : Nat} (hy : 0 < f.units y) :
    f.quotient x y = f.rounded (f.units x * 2 ^ f.unitExponent / f.units y) := by
  have h := rounded_div (f := f) (f.units x * 2 ^ f.unitExponent) hy
  push_cast at h
  exact h.symm

theorem convert_eq_rounded {g : Binary} (hm : m < f.infinity) : f.convert g m =
    g.rounded (f.units m * 2 ^ g.unitExponent / 2 ^ f.unitExponent) := by
  have h := rounded_div (f := g) (f.units m * 2 ^ g.unitExponent) (Nat.two_pow_pos f.unitExponent)
  push_cast at h
  rw [h, convert, if_neg (by omega), if_neg (by omega)]
  rfl

theorem rounded_eq_of_abs_lt (hf : 1 ≤ f.precision) (hm : m < f.infinity) (hq : 0 ≤ q)
    (h : |q - f.units m| * 2 ^ (f.precision + 1) < f.units m) : f.rounded q = m := by
  have hpow : (2 : ℚ) ^ f.precision = 2 ^ f.fractionBits * 2 := by
    rw [← pow_succ, fractionBits, Nat.sub_add_cancel hf]
  have hpos : (0 : ℚ) < 2 ^ (f.precision + 1) := by positivity
  -- half of a gap is a larger share of the magnitude at either of its ends
  have hgap {s t : Nat} {x : ℚ} (hs : s ≤ 2 ^ f.fractionBits * 2) (hx : f.units m = s * 2 ^ t)
      (hxq : x * 2 ^ (f.precision + 1) < f.units m) : 2 * x < 2 ^ t := by
    have hs' : (s : ℚ) ≤ 2 ^ f.fractionBits * 2 := by exact_mod_cast hs
    have hscaled := mul_le_mul_of_nonneg_right hs' (show (0 : ℚ) ≤ 2 ^ t by positivity)
    have hunits : (f.units m : ℚ) = s * 2 ^ t := by exact_mod_cast hx
    rw [hunits, pow_succ, hpow] at hxq
    have hfraction : (0 : ℚ) < 2 ^ f.fractionBits * 2 := by positivity
    have : (2 ^ f.fractionBits * 2 : ℚ) * (2 * x) < 2 ^ f.fractionBits * 2 * 2 ^ t := by linarith
    exact lt_of_mul_lt_mul_left this hfraction.le
  refine le_antisymm (rounded_le_of_lt_midpoint hf hq ?_) ?_
  · obtain ⟨s, t, -, hs, -, hunits, hnext⟩ := exists_significands (f := f) m
    have hx := hgap hs.le hunits
      ((mul_le_mul_of_nonneg_right (le_abs_self (q - f.units m)) hpos.le).trans_lt h)
    rw [hunits, hnext] at *
    push_cast at *
    linarith
  · rcases Nat.eq_zero_or_pos m with rfl | hm0
    · exact Nat.zero_le _
    · obtain ⟨n, rfl⟩ := Nat.exists_eq_succ_of_ne_zero hm0.ne'
      obtain ⟨s, t, -, hs, -, hunits, hnext⟩ := exists_significands (f := f) n
      have hx := hgap (x := f.units (n + 1) - q) hs (by exact_mod_cast hnext)
        ((mul_le_mul_of_nonneg_right ((le_abs_self _).trans_eq (abs_sub_comm _ _)) hpos.le).trans_lt h)
      refine lt_rounded_of_midpoint_lt hf (by omega) ?_
      rw [Nat.succ_eq_add_one] at *
      rw [hunits, hnext]
      rw [hnext] at hx
      push_cast at *
      linarith

/-- The power of ten of a finite number is not too large. -/
theorem exponent_le (hf : 4 ≤ f.precision) (hbits : 2 ≤ f.exponentBits) {d n : Nat} {e : Int}
    (hd : 0 < d) (h : f.ofDecimal d e < f.infinity) 
    (hn : 2 ^ f.reach < 1 * 10 ^ (n + 1) * 2 ^ f.unitExponent) : e ≤ n := by
  by_contra hlt
  rw [ofDecimal_eq_rounded hf hbits] at h
  have hmono := decimal_mono (f := f) (show 1 ≤ d from hd)
    (show ((n + 1 : Nat) : Int) ≤ e by omega)
  have hle := hmono.trans (le_of_rounded_lt_infinity (by omega) h)
  rw [decimal_natCast] at hle
  exact hn.not_ge (by exact_mod_cast hle)

/-- The power of ten of a number that is not zero is not too small. -/
theorem le_exponent (hf : 4 ≤ f.precision) (hbits : 2 ≤ f.exponentBits) {d bound n : Nat}
    {e : Int} (hd : d < bound) (h : 0 < f.ofDecimal d e)
    (hn : 2 * (bound * 2 ^ f.unitExponent) < 10 ^ (n + 1)) : -n ≤ e := by
  by_contra hlt
  rw [ofDecimal_eq_rounded hf hbits] at h
  have hmono := decimal_mono (f := f) hd.le (show e ≤ -((n + 1 : Nat) : Int) by omega)
  have hle := midpoint_le_of_lt_rounded (by omega) (decimal_nonneg _ _) h
  have hone : f.units 1 = 1 :=
    units_of_lt (Nat.one_lt_two_pow (by rw [fractionBits]; omega))
  have hpos : (0 : ℚ) < (10 ^ (n + 1) : Nat) := Nat.cast_pos.2 (Nat.pow_pos (by decide))
  rw [Nat.zero_add, units_zero, hone, Nat.cast_zero, Nat.cast_one, zero_add] at hle
  rw [decimal_neg_natCast, le_div_iff₀ hpos] at hmono
  have hten : ((10 ^ (n + 1) : Nat) : ℚ) ≤ (2 * (bound * 2 ^ f.unitExponent) : Nat) := by
    have := mul_le_mul_of_nonneg_right hle hpos.le
    rw [Nat.cast_mul 2]
    push_cast at *
    linarith
  exact hn.not_ge (by exact_mod_cast hten)

end Binary

end UnitMatrix
