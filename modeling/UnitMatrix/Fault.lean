/-! Why a computation stops: integer arithmetic that leaves its range, a position outside the
stored cells, shapes that do not fit each other, and a width or precision that cannot be written. -/

namespace UnitMatrix

/-- The integer operations that are checked for range. -/
inductive Operation where
  | add
  | subtract
  | multiply
  | divide
  | negate
  deriving DecidableEq

def Operation.name : Operation → String
  | .add => "add"
  | .subtract => "subtract"
  | .multiply => "multiply"
  | .divide => "divide"
  | .negate => "negate"

inductive Fault where
  | overflow (operation : Operation)
  | zeroDivisor
  /-- A position outside storage of `rows` by `columns` cells. -/
  | outside (row column rows columns : Nat)
  /-- Storage of a fixed shape was asked for another shape. -/
  | fixedShape
  /-- The two sides of a division have different column counts. -/
  | dividendColumns (dividend divisor : Nat)
  /-- A product of `rows × inner` by `inner' × columns` cells with `inner ≠ inner'`. -/
  | innerShape (rows inner inner' columns : Nat)
  /-- Two shapes of which neither stretches to the other. -/
  | incompatibleShapes
  /-- A width or a precision beyond sixteen bits. -/
  | formatRange
  deriving DecidableEq

def Fault.message : Fault → String
  | .overflow operation => s!"attempt to {operation.name} with overflow"
  | .zeroDivisor => "attempt to divide by zero"
  | .outside row column rows columns =>
    s!"position ({row}, {column}) is outside a {rows}x{columns} matrix"
  | .fixedShape =>
    "assertion `left == right` failed: fixed-size storage requested with another shape"
  | .dividendColumns dividend divisor =>
    s!"assertion `left == right` failed: dividend has {dividend} columns, divisor has {divisor}"
  | .innerShape rows inner inner2 columns =>
    s!"ndarray: inputs {rows} × {inner} and {inner2} × {columns} are not compatible for matrix multiplication"
  | .incompatibleShapes =>
    "called `Result::unwrap()` on an `Err` value: ShapeError/IncompatibleShape: incompatible shapes"
  | .formatRange => "Formatting argument out of range"

end UnitMatrix
