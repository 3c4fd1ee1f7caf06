import UnitMatrix.Demo.Units

/-! A filter that follows something moving along a line: one prediction from a resting state, then
one correction by a measured position. -/

namespace UnitMatrix

namespace Demo

namespace Kalman

/-- What states times themselves are measured in. -/
abbrev covariance : MatrixType := matrixType motion motion

/-- Takes a state to a later one; its columns undo the units of the state. -/
abbrev transition : MatrixType :=
  matrixType motion [.quantity (-1) 0, .quantity (-1) 1, .quantity (-1) 2]

abbrev observation : MatrixType := rowType [.dimensionless, .time, .quantity 0 2]

abbrev measurement : MatrixType := columnType [.length]

abbrev variance : MatrixType := columnType [.area]

/-- What a state is in for each metre of the measurement. -/
def perLength : IndexList := [.dimensionless, .frequency, .quantity 0 (-2)]

abbrev gain : MatrixType := columnType perLength

abbrev correction : MatrixType :=
  matrixType perLength [.dimensionless, .time, .quantity 0 2]

def setAll {k : Raw} (m : Matrix k) (entries : List (Nat × Nat × k.Carrier)) : Outcome (Matrix k) :=
  entries.foldlM (fun m e => m.write (.listed e.1 e.2.1) e.2.2) m

def conjugate {k : Raw} (m p : Matrix k) : Outcome (Matrix k) := do
  let mp ← m.mul p
  mp.mul m.transpose

def narrate : Narration Unit := do
  let x ← state.ofValues [0.0, 0.0, 0.0]
  printLine s!"X: {← x.display none}"
  let p ← covariance.zeros
  let p ← setAll p [(0, 0, 500.0), (1, 1, 500.0), (2, 2, 500.0)]
  printLine s!"P: {← p.display none}"
  let q ← covariance.ofRawRows [[0.01, 0.02, 0.02], [0.02, 0.04, 0.04], [0.02, 0.04, 0.04]]
  printLine s!"Q: {← q.display none}"
  let r ← variance.ofValue 9.0
  printLine s!"R: {← r.display none}"
  let h ← observation.ofValues [1.0, 0.0, 0.0]
  printLine s!"H: {← h.display none}"
  let f ← transition.identity
  let f ← setAll f [(0, 1, 1.0), (0, 2, 0.5), (1, 2, 1.0)]
  printLine s!"F: {← f.display none}"
  -- The state moves on, and the covariance grows.
  let x ← state.ofCompatible (← f.mul x)
  let p ← covariance.ofCompatible (← (← conjugate f p).add q)
  -- The measurement corrects both.
  let z ← measurement.ofValue (-393.66)
  let s ← variance.ofCompatible (← (← conjugate h p).add r)
  let k ← gain.ofCompatible (← recorded ((← p.mul h.transpose).div s))
  let y ← z.sub (← h.mul x)
  let x ← x.add (← k.mul y)
  printLine s!"X: {← x.display (some 2)}"
  let c ← (← correction.identity).sub (← k.mul h)
  let p ← covariance.ofCompatible (← (← conjugate c p).add (← conjugate k r))
  printLine s!"P: {← p.display (some 2)}"
  printLine (← p.table)

end Kalman

end Demo

end UnitMatrix
