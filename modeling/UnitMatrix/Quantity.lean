import UnitMatrix.Display.Cell

/-! Single elements: a double with what it is measured in. Products and quotients follow the
arithmetic of index types; sums and comparisons are for numbers of one unit and leave it alone. -/

namespace UnitMatrix

structure Quantity where
  index : Index
  value : Float

/-- How the number of a quantity is set: its least width and what fills it up. -/
inductive Alignment where
  | left
  | center
  | right

structure NumberFormat where
  width : Nat
  precision : Option Nat
  fill : Char
  alignment : Alignment
  /-- Positive numbers have a sign. -/
  signed : Bool
  /-- Zeros between sign and digits fill up the width. -/
  zeroFilled : Bool

namespace NumberFormat

def filling (c : Char) (n : Nat) : List Char := List.replicate n c

/-- Filled up around the text; in the center a spare place goes to the right. -/
def aligned (s : NumberFormat) (text : List Char) : List Char :=
  let spare := s.width - text.length
  match s.alignment with
  | .left => text ++ filling s.fill spare
  | .center => filling s.fill (spare / 2) ++ text ++ filling s.fill (spare - spare / 2)
  | .right => filling s.fill spare ++ text

def number (s : NumberFormat) (f : Binary) (bits : Nat) : List Char :=
  let sign :=
    if showsMinus f bits then ['-'] else if s.signed && !f.isNaN bits then ['+'] else []
  let digits := displayMagnitude f s.precision bits
  if s.zeroFilled then
    sign ++ filling '0' (s.width - sign.length - digits.length) ++ digits
  else
    s.aligned (sign ++ digits)

end NumberFormat

namespace Quantity

def mul? (a b : Quantity) : Option Quantity :=
  (a.index.mul? b.index).map fun index => ⟨index, a.value * b.value⟩

def div? (a b : Quantity) : Option Quantity :=
  (a.index.div? b.index).map fun index => ⟨index, a.value / b.value⟩

def withValue (a : Quantity) (value : Float) : Quantity := { a with value := value }

def add (a b : Quantity) : Quantity := a.withValue (a.value + b.value)

def sub (a b : Quantity) : Quantity := a.withValue (a.value - b.value)

def neg (a : Quantity) : Quantity := a.withValue (-a.value)

def abs (a : Quantity) : Quantity := a.withValue a.value.abs

def default (a : Quantity) : Quantity := a.withValue 0

def mulNumber (a : Quantity) (factor : Float) : Quantity := a.withValue (a.value * factor)

def divNumber (a : Quantity) (divisor : Float) : Quantity := a.withValue (a.value / divisor)

def numberMul (factor : Float) (a : Quantity) : Quantity := a.withValue (factor * a.value)

def eq (a b : Quantity) : Bool := a.value == b.value

/-- What is not a number compares with nothing. -/
def compare? (a b : Quantity) : Option Ordering :=
  if a.value < b.value then some .lt
  else if b.value < a.value then some .gt
  else if a.value == b.value then some .eq
  else none

/-- The number is set by the format, the unit follows as it is. -/
def display (a : Quantity) (format : NumberFormat) : Except Fault String := do
  checkFormat format.width
  checkPrecision format.precision
  let unit ← a.index.unitText
  .ok (String.ofList (format.number .binary64 (Floating.toBits a.value) ++ unit))

def debug (a : Quantity) : String :=
  let number := String.ofList (debugStyle.text .binary64 (Floating.toBits a.value))
  let (length, time) := a.index.dimension
  let text (n : Int) := String.ofList (Raw.text.integerText n)
  s!"Quantity({number} m^{text length} s^{text time})"

end Quantity

end UnitMatrix
