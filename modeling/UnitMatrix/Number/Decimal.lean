import UnitMatrix.Number.Binary

/-! Decimal digits of binary magnitudes: the fewest digits that read back as the magnitude, and the
digits up to a fixed place. The decimal expansion of a magnitude is finite, so both compare whole
numbers. -/

namespace UnitMatrix

/-- The number `0.d₁d₂… * 10 ^ point`. -/
structure Decimal where
  digits : List Char
  point : Int

namespace Decimal

/-- The number `digits * 10 ^ exponent`, without zeros at the end. -/
def ofScaled (digits : Nat) (exponent : Int) : Decimal :=
  let text := Nat.toDigits 10 digits
  ⟨(text.reverse.dropWhile (· = '0')).reverse, text.length + exponent⟩

end Decimal

/-- What happens to a decimal half way between two candidates. -/
inductive Tie where
  | up
  | even

namespace Binary

variable (f : Binary)

/-- The significant digits of a magnitude, read as a whole number. -/
def expansion (magnitude : Nat) : Nat :=
  f.units magnitude * Nat.pow 5 f.unitExponent

/-- The nearest decimal that reads back as `magnitude`, whose expansion is `exact`, among those
without the last `dropped` digits. Only the two neighbours of the exact value can be nearest. -/
def nearestDecimal? (tie : Tie) (magnitude exact dropped : Nat) : Option Decimal :=
  let exponent : Int := dropped - f.unitExponent
  let below := exact / Nat.pow 10 dropped
  let rest := exact % Nat.pow 10 dropped
  let readsBack (d : Nat) : Bool := f.ofDecimal d exponent == magnitude
  let prefersAbove : Bool :=
    if 2 * rest < Nat.pow 10 dropped then false
    else if Nat.pow 10 dropped < 2 * rest then true
    else match tie with
      | .up => true
      | .even => below % 2 == 1
  let (first, second) := if prefersAbove then (below + 1, below) else (below, below + 1)
  if readsBack first then some (.ofScaled first exponent)
  else if readsBack second then some (.ofScaled second exponent)
  else none

/-- The fewest digits that read back as `magnitude`; the exact expansion reads back in any case. -/
def shortest (tie : Tie) (magnitude : Nat) : Decimal :=
  let exact := f.expansion magnitude
  let length := (Nat.toDigits 10 exact).length
  ((List.range f.precision).findSome? fun n =>
      f.nearestDecimal? tie magnitude exact (length - (n + 1))).getD
    (.ofScaled exact (-f.unitExponent))

/-- The magnitude in units of `10 ^ -places`, a half to the even neighbour. -/
def fixed (magnitude places : Nat) : Nat :=
  roundHalfEven (f.units magnitude * Nat.pow 10 places) (Nat.pow 2 f.unitExponent)

end Binary

end UnitMatrix
