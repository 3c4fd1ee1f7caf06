import UnitMatrix.Demo.Units

/-! A walk through the library: an outer product as a table, three divisions by one state of motion,
both text formats, and a single element. -/

namespace UnitMatrix

namespace Demo

namespace Tour

abbrev stateRow : MatrixType := rowType motion

abbrev rate : MatrixType := matrixType [.length] [.frequency]

def narrate : Narration Unit := do
  let x ← state.ofValues [3.0, 2.0, 1.0]
  printLine s!"x0 = {← x.display none}"
  let row ← stateRow.ofValues [3.0, 2.0, 1.0]
  let outer ← x.mul row
  printLine s!"x5 * xt5 =\n{← outer.table}"
  let speed ← rate.ofValue 1.0
  let _ ← recorded (speed.div speed)
  let ratio ← recorded (x.div x)
  printLine s!"x5 / x5 = {← ratio.display (some 3)}"
  let _ ← recorded (Matrix.scalarDiv .double 1.0 x)
  let _ ← recorded (Matrix.scalarDiv .length 1.0 x)
  printLine s!"x5 as JSON: {String.ofList (← x.toJson)}"
  print s!"x5 * xt5 as CSV:\n{String.ofList (← outer.toCsv)}"
  let scaled ← x.divScalar .length 3.0
  let (index, number) ← scaled.read (.listed 0 0)
  let first ← index.cellText .double none number
  printLine s!"first state component over 3 m: {first}"

end Tour

end Demo

end UnitMatrix
