/-! Binary floating point formats, over the natural numbers. A magnitude (a number without its
sign) is given by its bits: a finite one is a whole number of units, the unit being the smallest
positive number of the format, and a rational is rounded to the nearest magnitude, a tie to the
even one. Everything here is exact arithmetic on `Nat`. -/

namespace UnitMatrix

/-- The nearest whole number to `num / den`, a half to the even neighbour. -/
def roundHalfEven (num den : Nat) : Nat :=
  let q := num / den
  let r := num % den
  if 2 * r < den then q
  else if den < 2 * r then q + 1
  else q + q % 2

/-- A format with `precision` significant bits, the leading one included. -/
structure Binary where
  precision : Nat
  exponentBits : Nat

namespace Binary

def binary64 : Binary := ⟨53, 11⟩

def binary32 : Binary := ⟨24, 8⟩

variable (f : Binary)

def fractionBits : Nat := f.precision - 1

/-- The smallest positive magnitude is `2 ^ -unitExponent`. -/
def unitExponent : Nat := Nat.pow 2 (f.exponentBits - 1) + f.precision - 3

/-- The bits of infinity; larger bits are not a number. -/
def infinity : Nat := (Nat.pow 2 f.exponentBits - 1) * Nat.pow 2 f.fractionBits

def nan : Nat := f.infinity + Nat.pow 2 (f.fractionBits - 1)

def signBit : Nat := Nat.pow 2 (f.exponentBits + f.fractionBits)

def units (magnitude : Nat) : Nat :=
  let exponent := magnitude / Nat.pow 2 f.fractionBits
  let fraction := magnitude % Nat.pow 2 f.fractionBits
  if exponent = 0 then fraction
  else (fraction + Nat.pow 2 f.fractionBits) * Nat.pow 2 (exponent - 1)

/-- The bits of the magnitude nearest to `num / den` units. A significand that rounds up to a power
of two carries into the exponent field, which is what the sum of the fields says. -/
def nearest (num den : Nat) : Nat :=
  let shift := (num / den).log2 + 1 - f.precision
  min (shift * Nat.pow 2 f.fractionBits + roundHalfEven num (den * Nat.pow 2 shift)) f.infinity

/-- The bits of the magnitude nearest to `digits * 10 ^ exponent`. Outside the first two bounds the
answer is known, and the powers of ten stay small. -/
def ofDecimal (digits : Nat) (exponent : Int) : Nat :=
  let scale : Int := (Nat.toDigits 10 digits).length + exponent
  if digits = 0 then 0
  else if f.unitExponent < scale then f.infinity
  else if scale < -f.unitExponent then 0
  else f.nearest (digits * Nat.pow 10 exponent.toNat * Nat.pow 2 f.unitExponent)
    (Nat.pow 10 (-exponent).toNat)

/-- The magnitude nearest to the product of two finite ones. -/
def product (x y : Nat) : Nat := f.nearest (f.units x * f.units y) (Nat.pow 2 f.unitExponent)

/-- The magnitude nearest to the quotient of two finite ones, the second one positive. -/
def quotient (x y : Nat) : Nat := f.nearest (f.units x * Nat.pow 2 f.unitExponent) (f.units y)

/-- No point half way between two neighbours has more significant decimal digits. -/
def midpointDigits : Nat :=
  (Nat.toDigits 10 (Nat.pow 2 (f.precision + 1) * Nat.pow 5 (f.unitExponent + 1))).length

/-- The magnitude of `magnitude` of format `f` in the format `g`, not a number staying that. -/
def convert (g : Binary) (magnitude : Nat) : Nat :=
  if f.infinity < magnitude then g.nan
  else if magnitude = f.infinity then g.infinity
  else g.nearest (f.units magnitude * Nat.pow 2 g.unitExponent) (Nat.pow 2 f.unitExponent)

end Binary

end UnitMatrix
