import UnitMatrix.Number.Arithmetic
import UnitMatrix.Number.Style
import UnitMatrix.Index

/-! The four kinds of stored numbers, what they have in common, and which element types they can
stand for. Only floats stand for elements; integers are storage and nothing else. -/

namespace UnitMatrix

class Floating (α : Type) where
  format : Binary
  toBits : α → Nat
  ofBits : Nat → α

instance : Floating Float where
  format := .binary64
  toBits x := x.toBits.toNat
  ofBits n := Float.ofBits (UInt64.ofNat n)

instance : Floating Float32 where
  format := .binary32
  toBits x := x.toBits.toNat
  ofBits n := Float32.ofBits (UInt32.ofNat n)

inductive Raw where
  | double
  | single
  | signed
  | byte
  deriving DecidableEq

namespace Raw

@[reducible] def Carrier : Raw → Type
  | .double => Float
  | .single => Float32
  | .signed => Signed64
  | .byte => Byte

instance (k : Raw) : Arithmetic k.Carrier :=
  match k with
  | .double => inferInstanceAs (Arithmetic Float)
  | .single => inferInstanceAs (Arithmetic Float32)
  | .signed => inferInstanceAs (Arithmetic Signed64)
  | .byte => inferInstanceAs (Arithmetic Byte)

/-- Equality of numbers: not a number differs from itself, the two zeros are equal. -/
def eq : (k : Raw) → k.Carrier → k.Carrier → Bool
  | .double, a, b => a == b
  | .single, a, b => a == b
  | .signed, a, b => a == b
  | .byte, a, b => a == b

/-- The element types that numbers of this kind can stand for. -/
def holds : Raw → Index → Bool
  | .double, .double => true
  | .double, .quantity _ _ => true
  | .single, .single => true
  | _, _ => false

def text (style : Binary → NumberStyle) : (k : Raw) → k.Carrier → List Char
  | .double, x => (style .binary64).text .binary64 (Floating.toBits x)
  | .single, x => (style .binary32).text .binary32 (Floating.toBits x)
  | .signed, x => integerText x.val
  | .byte, x => integerText x.val
where
  integerText (n : Int) : List Char :=
    (if n < 0 then ['-'] else []) ++ Nat.toDigits 10 n.natAbs

end Raw

/-- A number as it is given from outside, before its kind is known. -/
inductive Literal where
  /-- The number `coefficient * 10 ^ -scale`. -/
  | decimal (coefficient : Int) (scale : Nat)
  | negativeZero
  | infinity (negative : Bool)
  | nan
  /-- The bits of a double. -/
  | bits (n : Nat)

namespace Literal

def doubleBits : Literal → Nat
  | .decimal coefficient scale =>
    Binary.binary64.withSign (coefficient < 0)
      (Binary.binary64.ofDecimal coefficient.natAbs (-scale))
  | .negativeZero => Binary.binary64.signBit
  | .infinity negative => Binary.binary64.withSign negative Binary.binary64.infinity
  | .nan => Binary.binary64.nan
  | .bits n => n

def toDouble (l : Literal) : Float :=
  Floating.ofBits l.doubleBits

/-- The nearest double, rounded again to single precision. -/
def toSingle (l : Literal) : Float32 :=
  let b := l.doubleBits
  let f := Binary.binary64
  Floating.ofBits (Binary.binary32.withSign (f.isNegative b) (f.convert .binary32 (f.magnitude b)))

/-- Whole numbers within range stand for themselves, everything else for zero. -/
def toRanged {lo hi : Int} (zero : Ranged lo hi) : Literal → Ranged lo hi
  | .decimal coefficient 0 => (Ranged.ofInt? coefficient).getD zero
  | _ => zero

def toRaw (l : Literal) : (k : Raw) → k.Carrier
  | .double => l.toDouble
  | .single => l.toSingle
  | .signed => l.toRanged Arithmetic.zero
  | .byte => l.toRanged Arithmetic.zero

end Literal

end UnitMatrix
