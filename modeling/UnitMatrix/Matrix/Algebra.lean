import UnitMatrix.Log
import UnitMatrix.Matrix.Build

/-! Operations on whole matrices. The frame of the result comes from the frames of the operands, the
numbers from their storage; the types reject an operation before any number is touched. Storage of
a fixed shape must agree in its shape as a type, storage of any shape finds out when running. -/

namespace UnitMatrix

namespace Matrix

variable {k : Raw}

/-- Storage of a fixed shape must satisfy `p`. -/
def WhenFixed (m : Matrix k) (p : Prop) : Prop := m.backend = .fixed → p

instance (m : Matrix k) (p : Prop) [Decidable p] : Decidable (m.WhenFixed p) :=
  inferInstanceAs (Decidable (_ → _))

/-- Both hold the same elements in the same kind of storage. -/
def Alike (a b : Matrix k) : Prop :=
  a.backend = b.backend ∧
    a.WhenFixed (a.storage.rows = b.storage.rows ∧ a.storage.columns = b.storage.columns) ∧
    a.frame.Compatible b.frame

instance (a b : Matrix k) : Decidable (a.Alike b) := inferInstanceAs (Decidable (_ ∧ _))

def add (a b : Matrix k) : Outcome (Matrix k) := do
  require (a.Alike b)
  let storage ← a.backend.combine Arithmetic.add a.storage b.storage
  .ok (a.withStorage storage)

def sub (a b : Matrix k) : Outcome (Matrix k) := do
  require (a.Alike b)
  let storage ← a.backend.combine Arithmetic.sub a.storage b.storage
  .ok (a.withStorage storage)

def mul (a b : Matrix k) : Outcome (Matrix k) := do
  require (a.backend = b.backend ∧ a.WhenFixed (a.storage.columns = b.storage.rows))
  let frame ← demand (a.frame.mul? b.frame)
  let storage ← a.backend.mul a.storage b.storage
  .ok ⟨a.backend, frame, storage⟩

/-- The `X` with `X * b = a`, and what its computation reports. -/
def div (a b : Matrix k) : Outcome (Matrix k × Option LogRecord) := do
  require (a.backend = b.backend ∧ a.WhenFixed (a.storage.columns = b.storage.columns))
  match k.rootField? with
  | none => .error .illTyped
  | some _ =>
    let frame ← demand (a.frame.div? b.frame)
    let q ← a.backend.div a.storage b.storage
    .ok (⟨a.backend, frame, q.grid⟩,
      LogRecord.ofRank? q.rank b.storage.rows b.storage.columns)

def transpose (m : Matrix k) : Matrix k :=
  ⟨m.backend, m.frame.transpose, m.backend.transpose m.storage⟩

def mulScalar (m : Matrix k) (e : Index) (x : k.Carrier) : Outcome (Matrix k) := do
  require (k.holds e = true)
  let frame ← demand (m.frame.mulScalar? e)
  let storage ← m.backend.scale m.storage x
  .ok ⟨m.backend, frame, storage⟩

def scalarMul (e : Index) (x : k.Carrier) (m : Matrix k) : Outcome (Matrix k) := do
  require (k.holds e = true)
  let frame ← demand (Frame.scalarMul? e m.frame)
  let storage ← m.backend.scale m.storage x
  .ok ⟨m.backend, frame, storage⟩

def divScalar (m : Matrix k) (e : Index) (x : k.Carrier) : Outcome (Matrix k) := do
  require (k.holds e = true)
  let frame ← demand (m.frame.divScalar? e)
  let storage ← m.backend.divideBy m.storage x
  .ok ⟨m.backend, frame, storage⟩

def ofScalar (backend : Backend) (e : Index) (x : k.Carrier) : Matrix k :=
  ⟨backend, .ofScalar e, backend.scalar x⟩

def scalarDiv (e : Index) (x : k.Carrier) (m : Matrix k) :
    Outcome (Matrix k × Option LogRecord) := do
  require (k.holds e = true)
  (ofScalar m.backend e x).div m

/-- Every number of the storage times a scalar that changes no unit. -/
def scale (m : Matrix k) (e : Index) (x : k.Carrier) : Outcome (Matrix k) := do
  require (k.holds e = true ∧ m.frame.Scales e)
  let storage ← m.backend.scale m.storage x
  .ok (m.withStorage storage)

/-- Every element of a uniform matrix times a scalar that does not change its type. -/
def scaleUniform (m : Matrix k) (e : Index) (x : k.Carrier) : Outcome (Matrix k) := do
  require (k.holds e = true)
  let element ← demand (m.frame.uniformIn? k)
  require (element.mul? e = some element)
  (List.range m.frame.rows.length).foldlM (fun m i =>
    (List.range m.frame.columns.length).foldlM (fun m j => do
      let storage ← m.backend.modifyM m.storage i j (Arithmetic.mul · x)
      .ok (m.withStorage storage)) m) m

/-- Every number of the storage times `x`, whatever it stands for. -/
def rawScale (m : Matrix k) (x : k.Carrier) : Outcome (Matrix k) := do
  let storage ← m.backend.scale m.storage x
  .ok (m.withStorage storage)

def rawDivide (m : Matrix k) (x : k.Carrier) : Outcome (Matrix k) := do
  let storage ← m.backend.divideBy m.storage x
  .ok (m.withStorage storage)

/-- Equal numbers in storage of one shape; only matrices of one type are compared. -/
def eq (a b : Matrix k) : Outcome Bool := do
  require (a.type = b.type)
  .ok (a.storage.columns == b.storage.columns && a.storage.rows == b.storage.rows &&
    (a.storage.entries.flatten.zip b.storage.entries.flatten).all fun p => k.eq p.1 p.2)

end Matrix

end UnitMatrix
