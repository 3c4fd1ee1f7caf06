import UnitMatrix.Matrix

/-! Ways to come by a matrix of a given type. Types are checked first, then the counts of the values
where these are not part of a type, and only then there is storage: zeros at first, into which the
values are written one by one. -/

namespace UnitMatrix

namespace Frame

/-- The one element type of a uniform matrix, if numbers of kind `k` can stand for it. -/
def uniformIn? (f : Frame) (k : Raw) : Option Index :=
  f.uniform?.filter k.holds

def HeldBy (f : Frame) (k : Raw) : Prop :=
  f.grid?.any (fun grid => grid.all (·.all k.holds)) = true

instance (f : Frame) (k : Raw) : Decidable (f.HeldBy k) := inferInstanceAs (Decidable (_ = true))

/-- The position of the `n`-th element of a vector: down a column, or along a row. -/
def flatPosition (f : Frame) (n : Nat) : Nat × Nat :=
  if f.columns.length = 1 then (n, 0) else (0, n)

end Frame

namespace Matrix

variable {k : Raw}

def put (m : Matrix k) (i j : Nat) (x : k.Carrier) : Except Fault (Matrix k) :=
  (m.backend.set m.storage i j x).map m.withStorage

def putRow (m : Matrix k) (i : Nat) (row : List k.Carrier) : Except Fault (Matrix k) :=
  row.zipIdx.foldlM (fun m p => m.put i p.2 p.1) m

def putRows (m : Matrix k) (rows : List (List k.Carrier)) : Except Fault (Matrix k) :=
  rows.zipIdx.foldlM (fun m p => m.putRow p.2 p.1) m

def putVector (m : Matrix k) (values : List k.Carrier) : Except Fault (Matrix k) :=
  values.zipIdx.foldlM (fun m p =>
    let position := m.frame.flatPosition p.2
    m.put position.1 position.2 p.1) m

end Matrix

namespace MatrixType

/-- Zeros in the extent of the lists. Storage of a fixed shape has no other extent. -/
def zeros (t : MatrixType) : Except Fault (Matrix t.raw) :=
  let rows := t.frame.rows.length
  let columns := t.frame.columns.length
  let storage := Grid.replicate rows columns Arithmetic.zero
  match t.store with
  | .fixed r c => if rows = r ∧ columns = c then .ok ⟨.fixed, t.frame, storage⟩ else .error .fixedShape
  | .dynamic => .ok ⟨.dynamic, t.frame, storage⟩

def identity (t : MatrixType) : Outcome (Matrix t.raw) := do
  require (t.frame.rows.length = t.frame.columns.length)
  let m ← t.zeros
  (List.range t.frame.rows.length).foldlM (fun m i => m.put i i Arithmetic.one) m

/-- The given storage, with no check but that of a fixed shape. -/
def ofStorage (t : MatrixType) (rows : List (List t.raw.Carrier)) : Outcome (Matrix t.raw) :=
  match t.store with
  | .fixed r c => do
    require (rows.length = r)
    let storage ← demand (Grid.ofRows? c rows)
    .ok ⟨.fixed, t.frame, storage⟩
  | .dynamic => do
    let storage ← demand (Grid.ofRows? (rows.headD []).length rows)
    .ok ⟨.dynamic, t.frame, storage⟩

/-- Raw rows, whose lengths are checked one after the other as they are stored. -/
def ofRawRows (t : MatrixType) (rows : List (List t.raw.Carrier)) : Outcome (Matrix t.raw) := do
  let expected := t.frame.columns.length
  if rows.length ≠ t.frame.rows.length then
    .error (.load (.rowCount t.frame.rows.length rows.length))
  else
    let m ← t.zeros
    rows.zipIdx.foldlM (fun m p =>
      if p.1.length ≠ expected then .error (.load (.columnCount p.2 expected p.1.length))
      else m.putRow p.2 p.1) m

/-- Rows of elements of a uniform matrix, in its very shape. -/
def ofFixedRows (t : MatrixType) (rows : List (List t.raw.Carrier)) : Outcome (Matrix t.raw) := do
  let _ ← demand (t.frame.uniformIn? t.raw)
  require (rows.length = t.frame.rows.length ∧ ∀ row ∈ rows, row.length = t.frame.columns.length)
  let m ← t.zeros
  m.putRows rows

/-- Rows of elements of a uniform matrix, whose lengths are all checked beforehand. -/
def ofRows (t : MatrixType) (rows : List (List t.raw.Carrier)) : Outcome (Matrix t.raw) := do
  let _ ← demand (t.frame.uniformIn? t.raw)
  let expected := t.frame.columns.length
  if rows.length ≠ t.frame.rows.length then
    .error (.load (.rowCount t.frame.rows.length rows.length))
  else
    match rows.zipIdx.find? fun p => p.1.length ≠ expected with
    | some (row, i) => .error (.load (.columnCount i expected row.length))
    | none => do
      let m ← t.zeros
      m.putRows rows

def ofArray (t : MatrixType) (values : List t.raw.Carrier) : Outcome (Matrix t.raw) := do
  require (t.frame.isVector = true)
  let _ ← demand (t.frame.uniformIn? t.raw)
  require (values.length = t.frame.rows.length * t.frame.columns.length)
  let m ← t.zeros
  m.putVector values

/-- The elements of a vector, each of its own type. -/
def ofValues (t : MatrixType) (values : List t.raw.Carrier) : Outcome (Matrix t.raw) := do
  require (t.frame.isVector = true)
  require (t.frame.HeldBy t.raw)
  require (values.length = t.frame.rows.length * t.frame.columns.length)
  let m ← t.zeros
  m.putVector values

def ofValue (t : MatrixType) (value : t.raw.Carrier) : Outcome (Matrix t.raw) := do
  require (t.frame.isSingleton = true ∧ t.frame.HeldBy t.raw)
  let m ← t.zeros
  m.put 0 0 value

/-- The numbers of a matrix that has the same element types at the same positions. -/
def ofCompatible (t : MatrixType) (other : Matrix t.raw) : Outcome (Matrix t.raw) := do
  require (t.frame.Compatible other.frame)
  let m ← t.zeros
  (List.range t.frame.rows.length).foldlM (fun m i =>
    (List.range t.frame.columns.length).foldlM (fun m j => do
      let x ← other.backend.get other.storage i j
      m.put i j x) m) m

def ofCsv (t : MatrixType) (bytes : List UInt8) : Outcome (Matrix t.raw) :=
  match Csv.readRows t.raw bytes with
  | .error e => .error (.load (.csv e))
  | .ok [] => .error (.load .empty)
  | .ok rows => t.ofRawRows rows

/-- The rows of a JSON document. Rows that do not fit are reported ahead of text behind the
document. -/
def ofJson (t : MatrixType) (r : Json.Rounding) (text : List Char) : Outcome (Matrix t.raw) := do
  let (rows, rest) ← (Json.readRows r t.raw text).mapError Failure.json
  let m ← (t.ofRawRows rows).mapError fun
    | .load e => Failure.jsonShape e
    | failure => failure
  (Json.requireEnd rest).mapError Failure.json
  .ok m

end MatrixType

end UnitMatrix
