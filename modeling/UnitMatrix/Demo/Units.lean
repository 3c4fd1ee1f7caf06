import UnitMatrix.Quantity
import UnitMatrix.Program.Session

/-! The units and the matrix types that the demonstrations share, and the record keeping of their
computations. -/

namespace UnitMatrix

namespace Index

def dimensionless : Index := .quantity 0 0
def length : Index := .quantity 1 0
def area : Index := .quantity 2 0
def time : Index := .quantity 0 1
def frequency : Index := .quantity 0 (-1)
def velocity : Index := .quantity 1 (-1)
def acceleration : Index := .quantity 1 (-2)

end Index

namespace Demo

/-- Matrices of doubles in storage of the extent of their lists. -/
abbrev matrixType (rows columns : IndexList) : MatrixType :=
  ⟨.double, .fixed rows.length columns.length, ⟨rows, columns⟩⟩

abbrev columnType (rows : IndexList) : MatrixType := matrixType rows [.identity]

abbrev rowType (columns : IndexList) : MatrixType := matrixType [.identity] columns

def motion : IndexList := [.length, .velocity, .acceleration]

abbrev state : MatrixType := columnType motion

structure Transcript where
  output : String
  log : List LogRecord

/-- Computations that print and leave records. -/
abbrev Narration := StateT Transcript Outcome

def print (text : String) : Narration Unit :=
  modify fun t => { t with output := t.output ++ text }

def printLine (text : String) : Narration Unit := print (text ++ "\n")

def recorded {k : Raw} (result : Outcome (Matrix k × Option LogRecord)) :
    Narration (Matrix k) := do
  let (m, record?) ← result
  modify fun t => { t with log := t.log ++ record?.toList }
  return m

def transcript (demo : Narration Unit) : Outcome Transcript :=
  (demo.run ⟨"", []⟩).map (·.2)

end Demo

end UnitMatrix
