import UnitMatrix.Csv.Record
import UnitMatrix.Number.Reading
import UnitMatrix.Text.Blank
import UnitMatrix.Text.Utf8

/-! Rows of numbers from comma separated text. Records are read one after the other, so the first
faulty one is reported: a record is UTF-8 in all its fields before any of them is read as a number.
Fields are trimmed twice, of blank bytes before decoding and of blank characters after it. -/

namespace UnitMatrix

namespace Csv

/-- Why a record is refused. Records and fields count from zero. -/
inductive Cause where
  /-- A field with so many valid bytes before one that is not UTF-8. -/
  | encoding (validBytes : Nat)
  | number (fault : NumberFault)
  deriving DecidableEq

structure Error where
  record : Nat
  start : Position
  field : Nat
  cause : Cause
  deriving DecidableEq

def Error.message (e : Error) : String :=
  let record := e.record
  let line := e.start.line
  let byte := e.start.byte
  let field := e.field
  match e.cause with
  | .encoding validBytes =>
    s!"CSV parsing error: CSV parse error: record {record} (line {line}, field: {field}, " ++
      s!"byte: {byte}): invalid utf-8: invalid UTF-8 in field {field} near byte index {validBytes}"
  | .number fault =>
    s!"CSV parsing error: CSV deserialize error: record {record} (line: {line}, byte: {byte}): " ++
      s!"field {field}: {fault.message}"

/-- Blank bytes of ASCII, which are cut off ahead of decoding. -/
def isBlankByte (b : UInt8) : Bool :=
  b == 9 || b == 10 || b == 12 || b == 13 || b == 32

/-- Every field through `f`, the first fault with the number of its field. -/
def eachField {α β ε : Type} (f : α → Except ε β) (toCause : ε → Cause) (record : Nat)
    (start : Position) (fields : List α) : Except Error (List β) :=
  fields.zipIdx.mapM fun p => (f p.1).mapError fun e => ⟨record, start, p.2, toCause e⟩

def readRecord (k : Raw) (number : Nat) (r : Record) : Except Error (List k.Carrier) := do
  let texts ← eachField Utf8.decode .encoding number r.start
    (r.fields.map (trimBoth isBlankByte))
  eachField k.read .number number r.start (texts.map trimBlank)

def readRows (k : Raw) (bytes : List UInt8) : Except Error (List (List k.Carrier)) :=
  (records bytes).zipIdx.mapM fun p => readRecord k p.2 p.1

end Csv

end UnitMatrix
