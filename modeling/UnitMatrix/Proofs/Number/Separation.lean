import UnitMatrix.Proofs.Number.Fractions
import UnitMatrix.Proofs.Number.Candidates

/-! Decimals that are written for singles, and the midpoints of singles. Such a decimal is a midpoint,
or it is three roundings of doubles away from both midpoints next to its single. Where its last place
is finer than the gap to the midpoint, the decimal being a nearest one says so; where it is coarser, the
fractions of few bits do. -/

namespace UnitMatrix

namespace Binary

theorem le_kept_pow_three : 1 - 3 / 2 ^ 53 ≤ binary64.kept ^ 3 := by
  norm_num [kept, binary64]

section Midpoint

variable {m n : Nat} {e : Int}

/-- A nearest decimal with a fine last place is not close to the midpoint above. -/
theorem apart_above_of_lt {s t : Nat} {w : ℚ} (hs : s < 2 ^ 24)
    (hnear : 2 * |w - s * 2 ^ t| ≤ (1 - 1 / 2 ^ 20) * 2 ^ t) :
    2 * w < binary64.kept ^ 3 * ((2 * s + 1) * 2 ^ t) := by
  have hpow : (0 : ℚ) < 2 ^ t := by positivity
  have hs' : (s : ℚ) ≤ 2 ^ 24 := by exact_mod_cast hs.le
  have hle := le_abs_self (w - s * 2 ^ t)
  have hkept := mul_le_mul_of_nonneg_right le_kept_pow_three
    (show (0 : ℚ) ≤ (2 * s + 1) * 2 ^ t by positivity)
  have hscaled := mul_le_mul_of_nonneg_right hs' hpow.le
  linarith

/-- And not close to the midpoint below. -/
theorem apart_below_of_lt {s t : Nat} {w : ℚ} (hs : s < 2 ^ 24)
    (hnear : 2 * |w - (s + 1) * 2 ^ t| ≤ (1 - 1 / 2 ^ 20) * 2 ^ t) :
    (2 * s + 1) * 2 ^ t < binary64.kept ^ 3 * (2 * w) := by
  have hpow : (0 : ℚ) < 2 ^ t := by positivity
  have hs' : (s : ℚ) ≤ 2 ^ 24 := by exact_mod_cast hs.le
  have hle := neg_abs_le (w - (s + 1) * 2 ^ t)
  have hscaled := mul_le_mul_of_nonneg_right hs' hpow.le
  have hw : (2 * s + 1 + 1 / 2 ^ 20) * 2 ^ t ≤ 2 * w := by linarith
  have hw0 : 0 ≤ 2 * w := le_trans (by positivity) hw
  have hkept := mul_le_mul_of_nonneg_right le_kept_pow_three hw0
  linarith

theorem apart_above_of_near {s t : Nat} (he : e ≤ 38) (hs : s < 2 ^ 24)
    (hnear : 2 * |binary32.decimal n e - s * 2 ^ t| ≤ binary32.decimal 1 e) :
    binary64.Apart 3 (2 * binary32.decimal n e) ((2 * s + 1 : Nat) * 2 ^ t) ∨
      e = -32 ∧ n = 7038531 := by
  rcases le_or_gt (2 ^ t) (binary32.decimal 1 e) with hcoarse | hfine
  · refine apart_of_two_pow_le he hcoarse (Nat.succ_pos _) ?_
    rw [limit]
    omega
  · have h := apart_above_of_lt hs (hnear.trans (decimal_one_le_of_lt he hfine))
    exact .inl (.inr (.inl (by exact_mod_cast h)))

theorem apart_below_of_near {s t : Nat} (he : e ≤ 38) (hs : s < 2 ^ 24)
    (hnear : 2 * |binary32.decimal n e - (s + 1) * 2 ^ t| ≤ binary32.decimal 1 e) :
    binary64.Apart 3 (2 * binary32.decimal n e) ((2 * s + 1 : Nat) * 2 ^ t) ∨
      e = -32 ∧ n = 7038531 := by
  rcases le_or_gt (2 ^ t) (binary32.decimal 1 e) with hcoarse | hfine
  · refine apart_of_two_pow_le he hcoarse (Nat.succ_pos _) ?_
    rw [limit]
    omega
  · have h := apart_below_of_lt hs (hnear.trans (decimal_one_le_of_lt he hfine))
    exact .inl (.inr (.inr (by exact_mod_cast h)))

/-- Where the nearer neighbour does not read back, the last place is as large as one of the gaps. -/
theorem gap_le_of_not_reads {n' : Nat} (hm : m + 1 < binary32.infinity)
    (h : binary32.Neighbours (m + 1) e n' n) (hne : binary32.ofDecimal n' e ≠ m + 1) :
    (binary32.units (m + 1) - binary32.units m : ℚ) ≤ binary32.decimal 1 e ∨
      (binary32.units (m + 1 + 1) - binary32.units (m + 1) : ℚ) ≤ binary32.decimal 1 e := by
  rw [ofDecimal_eq_rounded (by decide) (by decide)] at hne
  have hnear := h.near
  rcases Nat.lt_or_gt_of_ne hne with hlt | hgt
  · left
    have hmid := le_midpoint_of_rounded_le (f := binary32) (by decide) (by omega) (Nat.le_of_lt_succ hlt)
    have habs := neg_abs_le (binary32.decimal n' e - binary32.units (m + 1))
    linarith
  · right
    have hmid := midpoint_le_of_lt_rounded (by decide) (decimal_nonneg _ _) hgt
    have habs := le_abs_self (binary32.decimal n' e - binary32.units (m + 1))
    linarith

/-- What is written is apart from the midpoints on both sides. -/
theorem Chosen.apart (h : binary32.Chosen (m + 1) n e) (he : e ≤ 38) (hm : m + 1 < binary32.infinity) :
    (binary64.Apart 3 (2 * binary32.decimal n e) (binary32.units m + binary32.units (m + 1)) ∧
      binary64.Apart 3 (2 * binary32.decimal n e)
        (binary32.units (m + 1) + binary32.units (m + 1 + 1))) ∨ e = -32 ∧ n = 7038531 := by
  obtain ⟨s', t', hsplit', hs', hlead', hunits', hnext'⟩ := exists_significands (f := binary32) m
  obtain ⟨s, t, hsplit, hs, hlead, hunits, hnext⟩ := exists_significands (f := binary32) (m + 1)
  have hbits : 2 ^ binary32.fractionBits = 8388608 := by decide
  rw [hbits] at hsplit hs hlead hsplit' hs' hlead'
  have hbelow : (binary32.units m + binary32.units (m + 1) : ℚ) = (2 * s' + 1 : Nat) * 2 ^ t' := by
    rw [hunits', hnext']
    push_cast
    ring
  have habove : (binary32.units (m + 1) + binary32.units (m + 1 + 1) : ℚ) =
      (2 * s + 1 : Nat) * 2 ^ t := by
    rw [hunits, hnext]
    push_cast
    ring
  rw [hbelow, habove]
  obtain ⟨n', hnearest | ⟨hother, hne⟩⟩ := h.nearest
  · have hnear := hnearest.near
    have hnear' := hnearest.near
    rw [hunits] at hnear
    rw [hnext'] at hnear'
    push_cast at hnear hnear'
    rcases apart_below_of_near he (by omega) hnear' with hlow | hexception
    · exact (apart_above_of_near he (by omega) hnear).imp_left fun hhigh => ⟨hlow, hhigh⟩
    · exact .inr hexception
  · have hplace : 2 ^ t' ≤ binary32.decimal 1 e := by
      rcases gap_le_of_not_reads hm hother hne with hgap | hgap
      · rw [hunits', hnext'] at hgap
        push_cast at hgap
        linarith
      · have hpow : (2 : ℚ) ^ t' ≤ 2 ^ t := pow_le_pow_right₀ (by norm_num) (by omega)
        rw [hunits, hnext] at hgap
        push_cast at hgap
        linarith
    have hlow := apart_of_two_pow_le (n := n) he hplace (Nat.succ_pos (2 * s')) (by rw [limit]; omega)
    have hhigh : binary64.Apart 3 (2 * binary32.decimal n e) ((2 * s + 1 : Nat) * 2 ^ t) ∨
        e = -32 ∧ n = 7038531 := by
      rcases (show t = t' ∨ t = t' + 1 by omega) with rfl | rfl
      · exact apart_of_two_pow_le he hplace (Nat.succ_pos _) (by rw [limit]; omega)
      · -- the gap above is twice the gap below, so the significand is a power of two
        have h := apart_of_two_pow_le (n := n) (d := (2 * s + 1) * 2) he hplace (by omega)
          (by rw [limit]; omega)
        rwa [Nat.cast_mul, mul_assoc, Nat.cast_ofNat, ← pow_succ'] at h
    rcases hlow with hlow | hexception
    · exact hhigh.imp_left fun hhigh => ⟨hlow, hhigh⟩
    · exact .inr hexception

/-- A midpoint, or what is like one: half of few bits times a power of two. -/
def IsHalf (w : ℚ) : Prop := ∃ d t : Nat, 0 < d ∧ d ≤ limit ∧ 2 * w = d * 2 ^ t

theorem isHalf_of_midpoint {w : ℚ}
    (h : 2 * w = binary32.units m + binary32.units (m + 1)) : IsHalf w := by
  obtain ⟨s, t, -, hs, -, hunits, hnext⟩ := exists_significands (f := binary32) m
  have hs' : s < 16777216 := hs
  refine ⟨2 * s + 1, t, Nat.succ_pos _, by rw [limit]; omega, ?_⟩
  rw [h, hunits, hnext]
  push_cast
  ring

/-- What is three roundings of doubles from a decimal that is written for a single is rounded to that
single, if nothing is lost of halves. -/
theorem Chosen.rounded_eq (h : binary32.Chosen (m + 1) n e) (he : e ≤ 38)
    (hm : m + 1 < binary32.infinity) {q : ℚ} (hq : 0 ≤ q)
    (hnear : binary64.Near 3 q (binary32.decimal n e))
    (hexact : IsHalf (binary32.decimal n e) → q = binary32.decimal n e) :
    binary32.rounded q = m + 1 ∨ e = -32 ∧ n = 7038531 := by
  refine (h.apart he hm).imp_left fun ⟨hlow, hhigh⟩ => ?_
  have hreads := h.reads
  rw [ofDecimal_eq_rounded (by decide) (by decide)] at hreads
  have hw := decimal_nonneg (f := binary32) n e
  generalize binary32.decimal n e = w at *
  by_cases hhalf : IsHalf w
  · rw [hexact hhalf, hreads]
  · have hkept : 0 < binary64.kept ^ 3 := by norm_num [kept, binary64]
    refine le_antisymm (rounded_le_of_lt_midpoint (by decide) hq ?_)
      (lt_rounded_of_midpoint_lt (by decide) (by omega) ?_)
    · have hlt := hhigh.lt_kept_mul (by positivity)
        (le_midpoint_of_rounded_le (by decide) hm hreads.le) fun heq => hhalf (isHalf_of_midpoint heq)
      refine lt_of_mul_lt_mul_left (lt_of_le_of_lt ?_ hlt) hkept.le
      linarith [hnear.left]
    · have hlt := hlow.symm.lt_kept_mul (by positivity)
        (midpoint_le_of_lt_rounded (by decide) hw (hreads ▸ Nat.lt_succ_self m))
        fun heq => hhalf (isHalf_of_midpoint heq.symm)
      refine hlt.trans_le ?_
      linarith [hnear.right]

theorem le_of_five_pow_dvd {d i k x : Nat} (h : 5 ^ i ∣ d * 2 ^ x) (hd : 0 < d) (hd' : d < 5 ^ (k + 1)) :
    i ≤ k := by
  have hcoprime : Nat.Coprime (5 ^ i) (2 ^ x) := Nat.Coprime.pow i x (by decide)
  have hle := (Nat.le_of_dvd hd (hcoprime.dvd_of_dvd_mul_right h)).trans_lt hd'
  exact Nat.le_of_lt_succ ((Nat.pow_lt_pow_iff_right (by decide)).1 hle)

/-- A half with few digits has a small power of ten. -/
theorem natAbs_le_of_isHalf (hn : 0 < n) (hn' : n < 10 ^ 14) (h : IsHalf (binary32.decimal n e)) :
    e.natAbs ≤ 22 := by
  obtain ⟨d, t, hd, hd', heq⟩ := h
  have hnat : n * 10 ^ e.toNat * 2 ^ (binary32.unitExponent + 1) = d * 2 ^ t * 10 ^ (-e).toNat := by
    have hden : ((10 ^ (-e).toNat : Nat) : ℚ) ≠ 0 := by positivity
    rw [decimal_eq_div, ← mul_div_assoc, div_eq_iff hden] at heq
    rw [Nat.pow_succ, Nat.mul_comm _ 2, ← Nat.mul_assoc _ 2, Nat.mul_comm _ 2, Nat.mul_assoc 2]
    exact_mod_cast heq
  rcases le_total 0 e with hsign | hsign
  · have hzero : (-e).toNat = 0 := by omega
    rw [hzero, Nat.pow_zero, Nat.mul_one] at hnat
    have hdvd : 5 ^ e.toNat ∣ d * 2 ^ t := by
      rw [← hnat, show (10 : Nat) = 5 * 2 from rfl, Nat.mul_pow]
      exact ⟨n * 2 ^ e.toNat * 2 ^ (binary32.unitExponent + 1), by ring⟩
    have := le_of_five_pow_dvd (k := 22) hdvd hd (hd'.trans_lt (by decide))
    omega
  · have hzero : e.toNat = 0 := by omega
    rw [hzero, Nat.pow_zero, Nat.mul_one] at hnat
    have hdvd : 5 ^ (-e).toNat ∣ n * 2 ^ (binary32.unitExponent + 1) := by
      rw [hnat, show (10 : Nat) = 5 * 2 from rfl, Nat.mul_pow]
      exact ⟨d * 2 ^ t * 2 ^ (-e).toNat, by ring⟩
    have := le_of_five_pow_dvd (k := 22) hdvd hn (hn'.trans (by decide))
    omega

/-- The unit of singles in units of doubles is a power of two. -/
def widening : Nat := binary64.unitExponent - binary32.unitExponent

theorem decimal_double (n : Nat) (e : Int) :
    binary64.decimal n e = binary32.decimal n e * 2 ^ widening := by
  rw [decimal, decimal, show binary64.unitExponent = binary32.unitExponent + widening from rfl,
    pow_add, ← mul_assoc]

/-- What becomes of a finite double as a single. -/
theorem convert_double {m : Nat} (hm : m < binary64.infinity) :
    binary64.convert binary32 m = binary32.rounded (binary64.units m * (1 / 2 ^ widening)) := by
  rw [convert_eq_rounded hm, show binary64.unitExponent = binary32.unitExponent + widening from rfl,
    pow_add, mul_comm (2 ^ binary32.unitExponent), mul_div_mul_right _ _ (by positivity),
    div_eq_mul_one_div]

/-- Halves are doubles. -/
theorem exists_units_of_isHalf (h : IsHalf (binary32.decimal n e))
    (hle : binary32.decimal n e ≤ 2 ^ binary32.reach) :
    ∃ x < binary64.infinity, (binary64.units x : ℚ) = binary64.decimal n e := by
  obtain ⟨d, t, hd, hd', heq⟩ := h
  have ht : t ≤ binary32.reach + 1 := by
    have hone : (1 : ℚ) ≤ d := by exact_mod_cast hd
    have hpow := le_mul_of_one_le_left (show (0 : ℚ) ≤ 2 ^ t by positivity) hone
    have hpow' : (2 : ℚ) ^ t ≤ 2 ^ (binary32.reach + 1) := by
      rw [pow_succ']
      linarith
    exact (pow_le_pow_iff_right₀ (by norm_num)).1 hpow'
  have hbits : binary32.reach = 277 ∧ widening = 925 ∧ 2 ^ binary64.exponentBits = 2048 := by decide
  obtain ⟨x, hx, hunits⟩ := exists_units (f := binary64) (s := d) (t := t + (widening - 1))
    (hd'.trans_lt (by decide)) (by omega)
  have htwice : (2 ^ widening : ℚ) = 2 * 2 ^ (widening - 1) := by
    rw [← pow_succ']
    rfl
  refine ⟨x, hx, ?_⟩
  rw [hunits, decimal_double, htwice]
  push_cast
  rw [pow_add, ← mul_assoc, ← heq]
  ring

end Midpoint

end Binary

end UnitMatrix
