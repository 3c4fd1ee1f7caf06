import UnitMatrix.Number.Raw

/-! What division asks of its numbers: the four operations, square roots, two comparisons, and the
relative error below which a pivot counts as zero. Floats have it, and so does any ordered field in
which non-negative elements have square roots. -/

namespace UnitMatrix

class RootField (K : Type) where
  zero : K
  add : K → K → K
  sub : K → K → K
  mul : K → K → K
  div : K → K → K
  neg : K → K
  sqrt : K → K
  lt : K → K → Bool
  le : K → K → Bool
  epsilon : K
  ofNat : Nat → K

instance : RootField Float where
  zero := 0
  add := (· + ·)
  sub := (· - ·)
  mul := (· * ·)
  div := (· / ·)
  neg := (- ·)
  sqrt := Float.sqrt
  lt a b := a < b
  le a b := a ≤ b
  epsilon := Float.ofBits 0x3CB0000000000000
  ofNat n := Floating.ofBits (Binary.binary64.ofDecimal n 0)

instance : RootField Float32 where
  zero := 0
  add := (· + ·)
  sub := (· - ·)
  mul := (· * ·)
  div := (· / ·)
  neg := (- ·)
  sqrt := Float32.sqrt
  lt a b := a < b
  le a b := a ≤ b
  epsilon := Float32.ofBits 0x34000000
  ofNat n := Floating.ofBits (Binary.binary32.ofDecimal n 0)

/-- The kinds of stored numbers that divide matrices. -/
def Raw.rootField? : (k : Raw) → Option (RootField k.Carrier)
  | .double => some (inferInstanceAs (RootField Float))
  | .single => some (inferInstanceAs (RootField Float32))
  | _ => none

end UnitMatrix
