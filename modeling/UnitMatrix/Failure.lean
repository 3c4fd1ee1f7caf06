import UnitMatrix.Csv.Reader
import UnitMatrix.Files
import UnitMatrix.Json.Reader

/-! Everything that can keep an operation from having a result. Rejected types come first, before
anything is computed; faults stop a computation; loading fails for reasons of its own. -/

namespace UnitMatrix

inductive LoadError where
  | file (fault : FileFault)
  /-- What was opened has no text to read, or takes no more of it. -/
  | unreadable (fault : FileFault)
  | csv (error : Csv.Error)
  | rowCount (expected found : Nat)
  | columnCount (row expected found : Nat)
  /-- There is not a single record. -/
  | empty
  deriving DecidableEq

def LoadError.message : LoadError → String
  | .file fault => s!"I/O error: {fault.message}"
  | .unreadable fault => s!"CSV parsing error: {fault.message}"
  | .csv error => error.message
  | .rowCount expected found => s!"expected {expected} rows, found {found}"
  | .columnCount row expected found =>
    s!"row {row}: expected {expected} columns, found {found}"
  | .empty => "source contains no data records"

/-- A directory opens like a file and is refused when read. -/
def LoadError.ofReading : FileFault → LoadError
  | .directory => .unreadable .directory
  | fault => .file fault

inductive Failure where
  /-- The types do not admit the operation. -/
  | illTyped
  | fault (fault : Fault)
  | load (error : LoadError)
  | json (fault : Json.Fault)
  /-- A JSON document of rows that do not fit. -/
  | jsonShape (error : LoadError)
  deriving DecidableEq

abbrev Outcome := Except Failure

instance : MonadLift (Except Fault) Outcome where
  monadLift x := x.mapError .fault

def require (p : Prop) [Decidable p] : Outcome Unit :=
  if p then .ok () else .error .illTyped

def demand {α : Type} : Option α → Outcome α
  | some x => .ok x
  | none => .error .illTyped

end UnitMatrix
