import Mathlib
import UnitMatrix.Number.Raw

/-! Floats are their bits. A float is a bit pattern in which there is one pattern only that is not a
number, and taking a pattern apart and putting it together again changes nothing. So a float is read
back from its bits, whatever they are, and every float that is not a number is the same. -/

namespace UnitMatrix

section Fields

open Float.Model Float.Model.UnpackedFloat

variable {spec : Format} {b : BitVec spec.numBits}

/-- The format in the terms of this library, where the leading bit counts. -/
def ofFormat (spec : Format) : Binary := ⟨spec.mantissaBitsWithoutImplicit + 1, spec.exponentBits⟩

theorem toNat_unpackExponent (b : BitVec spec.numBits) : (unpackExponent b).toNat =
    b.toNat / 2 ^ spec.mantissaBitsWithoutImplicit % 2 ^ spec.exponentBits := by
  have he := spec.he
  have hwidth : spec.mantissaBitsWithoutImplicit + spec.exponentBits - 1 -
      spec.mantissaBitsWithoutImplicit + 1 = spec.exponentBits := by omega
  simp [unpackExponent, Nat.shiftRight_eq_div_pow, hwidth]

theorem toNat_unpackMantissa (b : BitVec spec.numBits) :
    (unpackMantissa b).toNat = b.toNat % 2 ^ spec.mantissaBitsWithoutImplicit := by
  simp [unpackMantissa, Nat.sub_add_cancel spec.hm]

/-- Above infinity the exponent field is all ones and the fraction is not zero. -/
theorem eq_packedNaN_of_isNaN (h : spec.Valid b) (hnan : (ofFormat spec).isNaN b.toNat = true) :
    b = packedNaN spec := by
  have hlarge : (2 ^ spec.exponentBits - 1) * 2 ^ spec.mantissaBitsWithoutImplicit <
      b.toNat % 2 ^ (spec.exponentBits + spec.mantissaBitsWithoutImplicit) := of_decide_eq_true hnan
  rw [Nat.add_comm, Nat.pow_add, Nat.mod_mul, ← toNat_unpackMantissa, ← toNat_unpackExponent,
    Nat.mul_comm (2 ^ _) (unpackExponent b).toNat] at hlarge
  have hm := (unpackMantissa b).isLt
  have he := (unpackExponent b).isLt
  have hones : (unpackExponent b).toNat = 2 ^ spec.exponentBits - 1 := by
    have hnext : (2 ^ spec.exponentBits - 1) * 2 ^ spec.mantissaBitsWithoutImplicit <
        ((unpackExponent b).toNat + 1) * 2 ^ spec.mantissaBitsWithoutImplicit := by
      rw [Nat.add_mul, Nat.one_mul]
      omega
    have := Nat.lt_of_mul_lt_mul_right hnext
    omega
  refine h.eq_packedNaN (BitVec.eq_of_toNat_eq ?_) fun hzero => ?_
  · rw [hones, BitVec.neg_one_eq_allOnes, BitVec.toNat_allOnes]
  · simp [hzero, hones] at hlarge

/-- What is finite is a pattern of a float. -/
theorem valid_of_isFinite (h : (ofFormat spec).isFinite b.toNat = true) : spec.Valid b := by
  refine ⟨fun hones _ => ?_⟩
  have hlt : b.toNat % 2 ^ (spec.exponentBits + spec.mantissaBitsWithoutImplicit) <
      (2 ^ spec.exponentBits - 1) * 2 ^ spec.mantissaBitsWithoutImplicit := of_decide_eq_true h
  have hexponent : (unpackExponent b).toNat = 2 ^ spec.exponentBits - 1 := by
    rw [hones, BitVec.neg_one_eq_allOnes, BitVec.toNat_allOnes]
  rw [Nat.add_comm, Nat.pow_add, Nat.mod_mul, ← toNat_unpackExponent, hexponent, Nat.mul_comm] at hlt
  omega

end Fields

/-- Floats are determined by their bits, and one pattern only is not a number. -/
class LawfulFloating (α : Type) [Floating α] : Prop where
  ofBits_toBits : ∀ x : α, Floating.ofBits (Floating.toBits x) = x
  toBits_lt : ∀ x : α, Floating.toBits x < 2 * (Floating.format α).signBit
  toBits_of_isNaN : ∀ x : α, (Floating.format α).isNaN (Floating.toBits x) = true →
    Floating.toBits x = (Floating.format α).nan

instance : LawfulFloating Float where
  ofBits_toBits x := by
    show Float.ofBits (UInt64.ofNat x.toBits.toNat) = x
    rw [UInt64.ofNat_toNat, Float.ofBits_toBits]
  toBits_lt x := x.toBits.toNat_lt
  toBits_of_isNaN x h := by
    have h := eq_packedNaN_of_isNaN x.toModel.valid h
    show x.toModel.toBits.toBitVec.toNat = _
    rw [h]
    decide

/-- A finite double has the bits that it is made of. -/
theorem toBits_ofBits_of_isFinite {n : Nat} (hn : n < 2 ^ 64) (h : Binary.binary64.isFinite n = true) :
    Floating.toBits (Floating.ofBits n : Float) = n := by
  have hbits : (UInt64.ofNat n).toBitVec.toNat = n := UInt64.toNat_ofNat_of_lt' hn
  have hvalid : Float.Model.Format.binary64.Valid (UInt64.ofNat n).toBitVec :=
    valid_of_isFinite (by rw [hbits]; exact h)
  have hsame := Float.ofBits_toBits ⟨⟨UInt64.ofNat n, hvalid⟩⟩
  show (Float.ofBits (UInt64.ofNat n)).toBits.toNat = n
  rw [show Float.ofBits (UInt64.ofNat n) = ⟨⟨UInt64.ofNat n, hvalid⟩⟩ from hsame]
  exact hbits

instance : LawfulFloating Float32 where
  ofBits_toBits x := by
    show Float32.ofBits (UInt32.ofNat x.toBits.toNat) = x
    rw [UInt32.ofNat_toNat, Float32.ofBits_toBits]
  toBits_lt x := x.toBits.toNat_lt
  toBits_of_isNaN x h := by
    have h := eq_packedNaN_of_isNaN x.toModel.valid h
    show x.toModel.toBits.toBitVec.toNat = _
    rw [h]
    decide

end UnitMatrix
