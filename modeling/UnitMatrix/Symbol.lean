import UnitMatrix.Fault
import UnitMatrix.Index

/-! How units are written. Positive powers stand side by side; a lone negative power goes below a
stroke, which takes the negation of its exponent, and exponents are signed bytes, of which one has
none. Where both powers are negative there is no stroke. -/

namespace UnitMatrix

namespace Symbol

def superscriptDigit (c : Char) : Char :=
  match c with
  | '0' => '⁰'
  | '1' => '¹'
  | '2' => '²'
  | '3' => '³'
  | '4' => '⁴'
  | '5' => '⁵'
  | '6' => '⁶'
  | '7' => '⁷'
  | '8' => '⁸'
  | '9' => '⁹'
  | c => c

def superscript (power : Int) : List Char :=
  (if power < 0 then ['⁻'] else []) ++ (Nat.toDigits 10 power.natAbs).map superscriptDigit

/-- A symbol with its power, which is left out if it is one. -/
def powerOf (symbol : Char) (power : Int) : List Char :=
  if power = 1 then [symbol] else symbol :: superscript power

/-- The power below the stroke. -/
def negated (power : Int) : Except Fault Int :=
  if power = -128 then .error (.overflow .negate) else .ok (-power)

def product (factors : List (Char × Int)) : List Char :=
  List.intercalate [' '] (factors.map fun u => powerOf u.1 u.2)

/-- The symbol of metres and seconds to the given powers, empty for a pure number. -/
def ofPowers (length time : Int) : Except Fault (List Char) :=
  let units := [('m', length), ('s', time)]
  let numerator := units.filter fun u => 0 < u.2
  match units.filter fun u => u.2 < 0 with
  | [] => .ok (product numerator)
  | [(name, power)] => do
    let power ← negated power
    let above := if numerator.isEmpty then ['1'] else product numerator
    .ok (above ++ '/' :: powerOf name power)
  | _ => .ok (product (units.filter fun u => u.2 ≠ 0))

end Symbol

/-- What follows the number of an element of this type. -/
def Index.unitText : Index → Except Fault (List Char)
  | .quantity length time => do
    let symbol ← Symbol.ofPowers length time
    .ok (if symbol.isEmpty then [] else ' ' :: symbol)
  | _ => .ok []

end UnitMatrix
