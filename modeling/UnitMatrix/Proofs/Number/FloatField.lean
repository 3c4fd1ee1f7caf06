import UnitMatrix.Proofs.Number.Roots

/-! The numbers that solving computes with, where they are floats. Both kinds of floats are bits of a
format, and every operation takes the bits apart, computes in whole numbers and puts the result
together. So what holds of the format holds of both: numbers without a sign are added, multiplied and
compared as their bits say, and no square has a sign. -/

namespace UnitMatrix

open Float.Model Float.Model.UnpackedFloat

/-- Numbers that are the bits of a format. What is computed is computed from the unpacked bits. -/
class FloatField (K : Type) [Floating K] [RootField K] where
  spec : Format
  bits : K → BitVec spec.numBits
  wide : Wide spec
  format_eq : Floating.format K = ofFormat spec
  toBits_eq (x : K) : Floating.toBits x = (bits x).toNat
  bits_zero : bits RootField.zero = 0
  epsilon_lt : Floating.toBits (RootField.epsilon : K) < (Floating.format K).infinity
  units_epsilon : (Floating.format K).units (Floating.toBits (RootField.epsilon : K)) =
    2 ^ ((Floating.format K).unitExponent - (Floating.format K).fractionBits)
  bits_ofNat (n : Nat) : bits (RootField.ofNat n : K) =
    UnpackedFloat.pack spec (UnpackedFloat.unpack spec (BitVec.ofNat _ ((ofFormat spec).ofDecimal n 0)))
  bits_add (x y : K) : bits (RootField.add x y) = UnpackedFloat.pack spec
    (UnpackedFloat.add spec (UnpackedFloat.unpack spec (bits x)) (UnpackedFloat.unpack spec (bits y)))
  bits_mul (x y : K) : bits (RootField.mul x y) = UnpackedFloat.pack spec
    (UnpackedFloat.mul spec (UnpackedFloat.unpack spec (bits x)) (UnpackedFloat.unpack spec (bits y)))
  bits_sqrt (x : K) : bits (RootField.sqrt x) =
    UnpackedFloat.pack spec (UnpackedFloat.sqrt spec (UnpackedFloat.unpack spec (bits x)))
  lt_eq (x y : K) : RootField.lt x y =
    (UnpackedFloat.unpack spec (bits x)).lt (UnpackedFloat.unpack spec (bits y))
  le_eq (x y : K) : RootField.le x y =
    (UnpackedFloat.unpack spec (bits x)).le (UnpackedFloat.unpack spec (bits y))

instance : FloatField Float where
  spec := Format.binary64
  bits x := x.toModel.toBits.toBitVec
  wide := ⟨by decide, by decide⟩
  format_eq := rfl
  toBits_eq _ := rfl
  bits_zero := rfl
  epsilon_lt := by decide
  units_epsilon := by decide +kernel
  bits_ofNat _ := rfl
  bits_add _ _ := rfl
  bits_mul _ _ := rfl
  bits_sqrt _ := rfl
  lt_eq x y := by
    show decide (decide (x.toModel.lt y.toModel = true) = true) = _
    rw [Bool.decide_coe, Bool.decide_coe]
    rfl
  le_eq x y := by
    show decide (decide (x.toModel.le y.toModel = true) = true) = _
    rw [Bool.decide_coe, Bool.decide_coe]
    rfl

instance : FloatField Float32 where
  spec := Format.binary32
  bits x := x.toModel.toBits.toBitVec
  wide := ⟨by decide, by decide⟩
  format_eq := rfl
  toBits_eq _ := rfl
  bits_zero := rfl
  epsilon_lt := by decide
  units_epsilon := by decide +kernel
  bits_ofNat _ := rfl
  bits_add _ _ := rfl
  bits_mul _ _ := rfl
  bits_sqrt _ := rfl
  lt_eq x y := by
    show decide (decide (x.toModel.lt y.toModel = true) = true) = _
    rw [Bool.decide_coe, Bool.decide_coe]
    rfl
  le_eq x y := by
    show decide (decide (x.toModel.le y.toModel = true) = true) = _
    rw [Bool.decide_coe, Bool.decide_coe]
    rfl

section Extents

variable {spec : Format} {n : Nat}

/-- Extents fit into a machine word, and there is room in the format for all of them. -/
theorem nearest_natural_lt (hwide : Wide spec) (hn : n < 2 ^ 64) :
    (ofFormat spec).nearest (n * 2 ^ (ofFormat spec).unitExponent) 1 < (ofFormat spec).infinity := by
  have hunit := hwide.unitExponent_eq
  have hexponents := hwide.two_pow_eq
  have hwords := hwide.words
  have hprecision : 1 ≤ (ofFormat spec).precision := Nat.succ_pos _
  have hone : 1 < 2 ^ (ofFormat spec).fractionBits * 2 := by
    have := Nat.two_pow_pos (ofFormat spec).fractionBits
    omega
  obtain ⟨m, hm, hunits⟩ := Binary.exists_units (f := ofFormat spec) hone
    (t := 64 + (ofFormat spec).unitExponent) (by simp only [ofFormat] at hunit ⊢; omega)
  refine (Binary.nearest_le_of_le_units hprecision hm Nat.one_pos ?_).trans_lt hm
  rw [hunits, Nat.one_mul, Nat.mul_one, Nat.pow_add]
  exact Nat.mul_le_mul_right _ hn.le

theorem ofDecimal_natural (hwide : Wide spec) (hn : n < 2 ^ 64) :
    (ofFormat spec).ofDecimal n 0 =
      (ofFormat spec).nearest (n * 2 ^ (ofFormat spec).unitExponent) 1 := by
  have hunit := hwide.unitExponent_eq
  have hwords := hwide.words
  have hprecision : 1 ≤ (ofFormat spec).precision := Nat.succ_pos _
  by_cases h0 : n = 0
  · rw [h0, Nat.zero_mul, nearest_zero _ hprecision]
    rfl
  · have hlength : (Nat.toDigits 10 n).length ≤ 20 :=
      (Nat.length_toDigits_le_iff (by decide) (by decide)).2 (hn.trans (by decide))
    have hscale : ¬ ((ofFormat spec).unitExponent : Int) <
        ((Nat.toDigits 10 n).length : Int) + 0 := by omega
    have hscale' : ¬ ((Nat.toDigits 10 n).length : Int) + 0 <
        -((ofFormat spec).unitExponent : Int) := by omega
    simp only [Binary.ofDecimal, if_neg h0, if_neg hscale, if_neg hscale', Nat.pow_eq,
      Int.toNat_zero, Int.neg_zero, Nat.pow_zero, Nat.mul_one]

theorem toNat_ofNat_of_le (hn : n ≤ (ofFormat spec).infinity) :
    (BitVec.ofNat spec.numBits n).toNat = n := by
  rw [BitVec.toNat_ofNat]
  refine Nat.mod_eq_of_lt (hn.trans_lt (infinity_lt_signBit.trans_le ?_))
  exact Nat.pow_le_pow_right (by decide) (Nat.add_le_add_right (Nat.le_add_left ..) _)

end Extents

section Field

open RootField FloatField

variable {K : Type} [Floating K] [RootField K] [FloatField K] {x y v : K}

def Unsigned (x : K) : Prop := Floating.toBits x ≤ (Floating.format K).infinity

def IsFinite (x : K) : Prop := (Floating.format K).isFinite (Floating.toBits x) = true

theorem shows_of_toBits {n : Nat} (hx : Floating.toBits x = n)
    (hn : n ≤ (ofFormat (spec K)).infinity) :
    Shows (spec K) .positive n (UnpackedFloat.unpack (spec K) (bits x)) := by
  rw [toBits_eq] at hx
  subst hx
  exact shows_unpack_of_le wide.two_le hn

theorem shows_of_unsigned (hx : Unsigned x) : Shows (spec K) .positive (Floating.toBits x)
    (UnpackedFloat.unpack (spec K) (bits x)) :=
  shows_of_toBits rfl (format_eq (K := K) ▸ hx)

theorem one_le_precision : 1 ≤ (Floating.format K).precision := by
  rw [format_eq]
  exact Nat.succ_pos _

theorem format_infinity_pos : 0 < (Floating.format K).infinity := by
  rw [format_eq]
  exact infinity_pos wide.two_le

theorem toBits_zero : Floating.toBits (zero : K) = 0 := by
  rw [toBits_eq, bits_zero]
  rfl

theorem toBits_add (hx : Floating.toBits x < (Floating.format K).infinity)
    (hy : Floating.toBits y < (Floating.format K).infinity) :
    Floating.toBits (add x y) = (Floating.format K).nearest
      ((Floating.format K).units (Floating.toBits x) +
        (Floating.format K).units (Floating.toBits y)) 1 := by
  rw [toBits_eq (add x y), bits_add, format_eq]
  exact toNat_pack_add wide.two_le (shows_of_unsigned hx.le) (shows_of_unsigned hy.le)
    (format_eq (K := K) ▸ hx) (format_eq (K := K) ▸ hy)

theorem toBits_add_infinity (hx : Unsigned x) (hy : Unsigned y)
    (h : Floating.toBits x = (Floating.format K).infinity ∨
      Floating.toBits y = (Floating.format K).infinity) :
    Floating.toBits (add x y) = (Floating.format K).infinity := by
  rw [format_eq] at h ⊢
  rw [toBits_eq (add x y), bits_add]
  exact toNat_pack_add_infinity wide.two_le (shows_of_unsigned hx) (shows_of_unsigned hy) h

/-- A sum is no smaller than its terms. -/
theorem le_toBits_add (hx : Unsigned x) (hy : Unsigned y) :
    Floating.toBits x ≤ Floating.toBits (add x y) ∧ Floating.toBits y ≤ Floating.toBits (add x y) ∧
      Unsigned (add x y) := by
  by_cases h : Floating.toBits x = (Floating.format K).infinity ∨
      Floating.toBits y = (Floating.format K).infinity
  · rw [Unsigned, toBits_add_infinity hx hy h]
    exact ⟨hx, hy, Nat.le_refl _⟩
  · rw [not_or] at h
    have hx := Nat.lt_of_le_of_ne hx h.1
    have hy := Nat.lt_of_le_of_ne hy h.2
    rw [Unsigned, toBits_add hx hy]
    exact ⟨Binary.le_nearest_of_units_le one_le_precision hx Nat.one_pos (by omega),
      Binary.le_nearest_of_units_le one_le_precision hy Nat.one_pos (by omega),
      Binary.nearest_le_infinity _ _⟩

theorem toBits_add_of_eq_zero (hx : Floating.toBits x = 0) (hy : Unsigned y) :
    Floating.toBits (add x y) = Floating.toBits y := by
  by_cases h : Floating.toBits y = (Floating.format K).infinity
  · rw [toBits_add_infinity (hx.trans_le (Nat.zero_le _)) hy (.inr h), h]
  · have hy := Nat.lt_of_le_of_ne hy h
    rw [toBits_add (hx.trans_lt format_infinity_pos) hy, hx, Binary.units_zero, Nat.zero_add,
      Binary.nearest_units_one one_le_precision hy]

theorem toBits_mul (hx : Floating.toBits x < (Floating.format K).infinity)
    (hy : Floating.toBits y < (Floating.format K).infinity) :
    Floating.toBits (mul x y) = (Floating.format K).nearest
      ((Floating.format K).units (Floating.toBits x) *
        (Floating.format K).units (Floating.toBits y)) (2 ^ (Floating.format K).unitExponent) := by
  rw [toBits_eq (mul x y), bits_mul, format_eq]
  exact toNat_pack_mul wide.two_le (shows_of_unsigned hx.le) (shows_of_unsigned hy.le) rfl
    (format_eq (K := K) ▸ hx) (format_eq (K := K) ▸ hy)

theorem toBits_infinity_mul (hx : Floating.toBits x = (Floating.format K).infinity)
    (hy : Unsigned y) (h : 0 < Floating.toBits y) :
    Floating.toBits (mul x y) = (Floating.format K).infinity := by
  rw [format_eq] at hx ⊢
  rw [toBits_eq (mul x y), bits_mul]
  exact toNat_pack_infinity_mul wide.two_le (shows_of_toBits hx le_rfl) (shows_of_unsigned hy) h

/-- A square has no sign, whatever the sign of the number is. -/
theorem toBits_mul_self (hv : IsFinite v) :
    Floating.toBits (mul v v) = (Floating.format K).nearest
      ((Floating.format K).units ((Floating.format K).magnitude (Floating.toBits v)) ^ 2)
      (2 ^ (Floating.format K).unitExponent) := by
  have hv : (Floating.format K).magnitude (Floating.toBits v) < (Floating.format K).infinity :=
    of_decide_eq_true hv
  rw [format_eq, toBits_eq] at hv
  have hshows := shows_unpack wide.two_le hv.le
  rw [toBits_eq (mul v v), bits_mul, format_eq, Nat.pow_two, toBits_eq]
  refine toNat_pack_mul wide.two_le hshows hshows ?_ hv hv
  cases Sign.ofBitVec (unpackSign (bits v)) <;> rfl

theorem unsigned_mul_self (hv : IsFinite v) : Unsigned (mul v v) :=
  (toBits_mul_self hv).trans_le (Binary.nearest_le_infinity _ _)

theorem toBits_mul_self_eq_zero_iff (hv : IsFinite v) : Floating.toBits (mul v v) = 0 ↔
    2 * (Floating.format K).units ((Floating.format K).magnitude (Floating.toBits v)) ^ 2 ≤
      2 ^ (Floating.format K).unitExponent := by
  rw [toBits_mul_self hv]
  exact Binary.nearest_eq_zero_iff one_le_precision format_infinity_pos (Nat.two_pow_pos _)

theorem toBits_sqrt_zero (hx : Floating.toBits x = 0) : Floating.toBits (sqrt x) = 0 := by
  have hshows := shows_of_toBits hx (Nat.zero_le _)
  rw [toBits_eq (sqrt x), bits_sqrt, hshows.eq_zero wide.two_le]
  exact toNat_packedZero

theorem toBits_sqrt_infinity (hx : Floating.toBits x = (Floating.format K).infinity) :
    Floating.toBits (sqrt x) = (Floating.format K).infinity := by
  rw [format_eq] at hx ⊢
  have hshows := shows_of_toBits hx le_rfl
  rw [toBits_eq (sqrt x), bits_sqrt, hshows.eq_infinity wide.two_le]
  exact toNat_pack_infinity

/-- The root of a positive number is far above the unit. -/
theorem toBits_sqrt (h0 : 0 < Floating.toBits x)
    (hx : Floating.toBits x < (Floating.format K).infinity) :
    Floating.toBits (sqrt x) < (Floating.format K).infinity ∧
      2 ^ (2 * (Floating.format K).fractionBits) ≤
        (Floating.format K).units (Floating.toBits (sqrt x)) := by
  have hshows := shows_of_unsigned hx.le
  rw [format_eq] at hx ⊢
  obtain ⟨b, hb, hsqrt, hunits⟩ := toNat_pack_sqrt wide hshows h0 hx
  rw [toBits_eq (sqrt x), bits_sqrt, hsqrt]
  exact ⟨hb, hunits⟩

theorem lt_iff (hx : Unsigned x) (hy : Unsigned y) :
    lt x y = true ↔ Floating.toBits x < Floating.toBits y := by
  rw [lt_eq, UnpackedFloat.lt, compare_of_shows wide.two_le (shows_of_unsigned hx)
    (shows_of_unsigned hy)]
  simp [compare_lt_iff_lt]

theorem le_iff (hx : Unsigned x) (hy : Unsigned y) :
    le x y = true ↔ Floating.toBits x ≤ Floating.toBits y := by
  rw [le_eq, UnpackedFloat.le, compare_of_shows wide.two_le (shows_of_unsigned hx)
    (shows_of_unsigned hy)]
  exact Nat.isLE_compare

theorem toBits_ofNat {n : Nat} (hn : n < 2 ^ 64) :
    Floating.toBits (ofNat n : K) < (Floating.format K).infinity ∧
      Floating.toBits (ofNat n : K) =
        (Floating.format K).nearest (n * 2 ^ (Floating.format K).unitExponent) 1 := by
  have hwide := wide (K := K)
  have hfinite := nearest_natural_lt hwide hn
  have hbits := toNat_ofNat_of_le hfinite.le
  have hshows := shows_unpack_of_le hwide.two_le (hbits.trans_le hfinite.le)
  rw [toBits_eq, bits_ofNat, format_eq, ofDecimal_natural hwide hn, hshows.toNat_pack hwide.two_le,
    hbits]
  exact ⟨hfinite, rfl⟩

end Field

end UnitMatrix
