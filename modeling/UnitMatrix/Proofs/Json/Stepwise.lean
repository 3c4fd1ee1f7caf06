import UnitMatrix.Proofs.Json.Numbers
import UnitMatrix.Proofs.Number.Nearest

/-! Rounding after every step. Where the digits of a number and its power of ten are floats as they
stand, nothing is lost before their product or quotient is rounded, and this gives the nearest double,
as rounding once does. With more digits, or a larger power, what was lost before can show. -/

namespace UnitMatrix

namespace Binary

variable {f : Binary} {x y a b : Nat}

structure IsWhole (f : Binary) (x a : Nat) : Prop where
  lt_infinity : x < f.infinity
  units_eq : f.units x = a * 2 ^ f.unitExponent

theorem IsWhole.product (hx : f.IsWhole x a) (hy : f.IsWhole y b) :
    f.product x y = f.nearest (a * b * 2 ^ f.unitExponent) 1 := by
  have hpow : 0 < 2 ^ f.unitExponent := Nat.two_pow_pos _
  rw [Binary.product, hx.units_eq, hy.units_eq, Nat.pow_eq, ← nearest_mul_mul _ 1 hpow, Nat.one_mul]
  congr 1
  ring

theorem IsWhole.quotient (hx : f.IsWhole x a) (hy : f.IsWhole y b) :
    f.quotient x y = f.nearest (a * 2 ^ f.unitExponent) b := by
  rw [Binary.quotient, hx.units_eq, hy.units_eq, Nat.pow_eq]
  exact nearest_mul_mul _ _ (Nat.two_pow_pos _)

theorem ofDecimal_eq_nearest (hf : 1 ≤ f.precision) (hinf : 0 < f.infinity) {d : Nat} {e : Int}
    (h : (Nat.toDigits 10 d).length + e.natAbs ≤ f.unitExponent) : f.ofDecimal d e =
      f.nearest (d * 10 ^ e.toNat * 2 ^ f.unitExponent) (10 ^ (-e).toNat) := by
  by_cases h0 : d = 0
  · have hden : 0 < 10 ^ (-e).toNat := Nat.pow_pos (by decide)
    rw [h0, Nat.zero_mul, Nat.zero_mul, (nearest_eq_zero_iff hf hinf hden).2 (Nat.zero_le _)]
    exact ofDecimal_zero e
  · have hhigh : ¬ (f.unitExponent : Int) < (Nat.toDigits 10 d).length + e := by omega
    have hlow : ¬ ((Nat.toDigits 10 d).length + e : Int) < -f.unitExponent := by omega
    simp only [ofDecimal, if_neg h0, if_neg hhigh, if_neg hlow, Nat.pow_eq]

/-- A whole number of few bits, and zeros behind them. -/
theorem isWhole_ofDecimal (hf : 1 ≤ f.precision) {s t : Nat} (hs : s < 2 ^ f.fractionBits * 2)
    (ht : t + f.unitExponent + 2 < 2 ^ f.exponentBits)
    (hlength : (Nat.toDigits 10 (s * 2 ^ t)).length ≤ f.unitExponent) :
    f.IsWhole (f.ofDecimal (s * 2 ^ t) 0) (s * 2 ^ t) := by
  obtain ⟨m, hm, hunits⟩ := exists_units hs ht
  have heq : f.ofDecimal (s * 2 ^ t) 0 = m := by
    rw [ofDecimal_eq_nearest hf (Nat.zero_lt_of_lt hm) (by simpa using hlength)]
    simp only [Int.toNat_zero, Int.neg_zero, Nat.pow_zero, Nat.mul_one]
    rw [Nat.mul_assoc, ← Nat.pow_add, ← hunits]
    exact nearest_units_one hf hm
  rw [heq]
  exact ⟨hm, by rw [hunits, Nat.pow_add, Nat.mul_assoc]⟩

end Binary

namespace Json

namespace Numeral

/-- The digits and the power of ten are doubles as they stand. -/
def IsShort (n : Numeral) : Prop :=
  digitsValue (n.whole ++ n.fraction) < 2 ^ 53 ∧
    (n.exponent?.getD 0 - n.fraction.length).natAbs ≤ 22

instance (n : Numeral) : Decidable n.IsShort := inferInstanceAs (Decidable (_ ∧ _))

theorem isWhole_digits {d : Nat} (hd : d < 2 ^ 53) :
    Binary.binary64.IsWhole (Binary.binary64.ofDecimal d 0) d := by
  have hlength : (Nat.toDigits 10 d).length ≤ 16 :=
    (Nat.length_toDigits_le_iff (by decide) (by decide)).2 (hd.trans (by decide))
  have h := Binary.isWhole_ofDecimal (f := .binary64) (s := d) (t := 0) (by decide) hd (by decide)
  rw [Nat.pow_zero, Nat.mul_one] at h
  exact h (hlength.trans (by decide))

theorem isWhole_power {n : Nat} (hn : n ≤ 22) :
    Binary.binary64.IsWhole (Binary.binary64.ofDecimal 1 n) (10 ^ n) := by
  have hten : 10 ^ n = 5 ^ n * 2 ^ n := Nat.mul_pow 5 2 n
  have hlength : (Nat.toDigits 10 (10 ^ n)).length ≤ 23 :=
    (Nat.length_toDigits_le_iff (by decide) (by decide)).2 (Nat.pow_lt_pow_right (by decide) (by omega))
  have hfive : 5 ^ n < 2 ^ Binary.binary64.fractionBits * 2 :=
    (Nat.pow_le_pow_right (by decide) hn).trans_lt (by decide)
  have hroom : n + Binary.binary64.unitExponent + 2 < 2 ^ Binary.binary64.exponentBits := by
    have : n + 1074 + 2 < 2048 := by omega
    exact this
  have h := Binary.isWhole_ofDecimal (by decide) hfive hroom
  rw [← hten] at h
  have hshift := Binary.ofDecimal_mul_pow (f := .binary64) 1 n 0
  rw [Nat.one_mul, Int.zero_add] at hshift
  rw [← hshift]
  exact h (hlength.trans (by decide))

/-- Few digits are multiplied or divided by a small power of ten with a single rounding. -/
theorem timesPower_eq {d : Nat} {e : Int} (hd : d < 2 ^ 53) (he : e.natAbs ≤ 22) :
    timesPower (Binary.binary64.ofDecimal d 0) e = Binary.binary64.ofDecimal d e := by
  have hdigits := isWhole_digits hd
  have hpower := isWhole_power he
  have hlength : (Nat.toDigits 10 d).length ≤ 16 :=
    (Nat.length_toDigits_le_iff (by decide) (by decide)).2 (hd.trans (by decide))
  have hbounds : (Nat.toDigits 10 d).length + e.natAbs ≤ Binary.binary64.unitExponent := by
    have : (Nat.toDigits 10 d).length + e.natAbs ≤ 1074 := by omega
    exact this
  rw [Binary.ofDecimal_eq_nearest (by decide) (by decide) hbounds]
  unfold timesPower
  dsimp only
  rw [if_neg (by omega)]
  by_cases hsign : 0 ≤ e
  · obtain ⟨n, rfl⟩ := Int.eq_ofNat_of_zero_le hsign
    rw [Int.natAbs_natCast] at hpower
    rw [if_pos hsign, hdigits.product hpower]
    simp
  · have hfull : ((-e).toNat - 1) / 308 = 0 := by omega
    have hrest : ((-e).toNat - 1) % 308 + 1 = e.natAbs := by omega
    have hup : e.toNat = 0 := by omega
    have hdown : (-e).toNat = e.natAbs := by omega
    rw [if_neg hsign, hfull, hrest, divideDown, hdigits.quotient hpower, hup, hdown, Nat.pow_zero,
      Nat.mul_one]

theorem le_foldl_digits (value : Nat) (ds : List Char) :
    value ≤ ds.foldl (fun n c => 10 * n + digitValue c) value := by
  induction ds generalizing value with
  | nil => exact le_rfl
  | cons c ds ih => exact (by omega : value ≤ 10 * value + digitValue c).trans (ih _)

theorem gather_eq {value : Nat} {ds : List Char}
    (h : ds.foldl (fun n c => 10 * n + digitValue c) value < 2 ^ 64) :
    gather value ds = (ds.foldl (fun n c => 10 * n + digitValue c) value, []) := by
  induction ds generalizing value with
  | nil => rfl
  | cons c ds ih =>
    have hfits : 10 * value + digitValue c < Nat.pow 2 64 := (le_foldl_digits _ ds).trans_lt h
    rw [gather, if_pos hfits]
    exact ih h

theorem gathered_eq {n : Numeral} (h : digitsValue (n.whole ++ n.fraction) < 2 ^ 64) :
    n.gathered =
      (digitsValue (n.whole ++ n.fraction), n.exponent?.getD 0 - n.fraction.length) := by
  have hsplit : digitsValue (n.whole ++ n.fraction) =
      n.fraction.foldl (fun n c => 10 * n + digitValue c) (digitsValue n.whole) := List.foldl_append
  have hfraction : gather (digitsValue n.whole) n.fraction =
      (digitsValue (n.whole ++ n.fraction), []) := by
    rw [hsplit] at h ⊢
    exact gather_eq h
  have hwhole : gather 0 n.whole = (digitsValue n.whole, []) := by
    refine gather_eq (Nat.lt_of_le_of_lt ?_ h)
    rw [digitsValue_append]
    exact (Nat.le_mul_of_pos_right _ (Nat.pow_pos (by decide))).trans (Nat.le_add_right ..)
  unfold gathered
  simp [hwhole, hfraction]

/-- Rounding after every step and rounding once are the same for short numbers. -/
theorem stepwiseBits_eq (negative : Bool) {l : Layout}
    (hfew : Binary.binary64.FewDigits (significant l).length)
    (hshort : IsShort ⟨negative, l.whole, l.fraction, l.exponent?⟩) :
    stepwiseBits ⟨negative, l.whole, l.fraction, l.exponent?⟩ =
      nearestBits .binary64 ⟨negative, l.whole, l.fraction, l.exponent?⟩ := by
  obtain ⟨hdigits, hpower⟩ := hshort
  have hscaled := ofDecimal_scaled negative hfew
  unfold stepwiseBits nearestBits
  simp only [gathered_eq (hdigits.trans (by decide)), timesPower_eq hdigits hpower, hscaled]
  rfl

end Numeral

end Json

end UnitMatrix
