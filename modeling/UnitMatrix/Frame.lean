import UnitMatrix.Index.Lists

/-! The row list and the column list of a matrix, and the rules by which every operation derives
the lists of its result. A rule that answers `none` rejects the operation. Products and quotients
look at the first inner index only; that the other positions agree is what the contraction is for. -/

namespace UnitMatrix

/-- What the rows and the columns of a matrix are measured in. -/
structure Frame where
  rows : IndexList
  columns : IndexList
  deriving DecidableEq

namespace Frame

def Valid (f : Frame) : Prop :=
  ((1 ≤ f.rows.length ∧ f.rows.length ≤ 8) ∧ 1 ≤ f.columns.length ∧ f.columns.length ≤ 8) ∧
    (∀ i ∈ f.rows, i.Valid) ∧ ∀ i ∈ f.columns, i.Valid

instance (f : Frame) : Decidable f.Valid := inferInstanceAs (Decidable (_ ∧ _))

def grid? (f : Frame) : Option (List IndexList) :=
  UnitMatrix.grid? f.rows f.columns

def uniform? (f : Frame) : Option Index :=
  UnitMatrix.uniform? f.rows f.columns

def element? (f : Frame) (i j : Nat) : Option Index :=
  UnitMatrix.element? f.rows f.columns i j

def isRow (f : Frame) : Bool := f.rows.length == 1

def isColumn (f : Frame) : Bool := f.columns.length == 1

def isVector (f : Frame) : Bool := f.isRow || f.isColumn

def isSingleton (f : Frame) : Bool := f.isRow && f.isColumn

def sameShape (f g : Frame) : Bool :=
  f.rows.length == g.rows.length && f.columns.length == g.columns.length

/-- Every element type is defined and the same in both. -/
def Compatible (f g : Frame) : Prop :=
  f.grid?.isSome ∧ f.grid? = g.grid?

instance (f g : Frame) : Decidable (f.Compatible g) := inferInstanceAs (Decidable (_ ∧ _))

def transpose (f : Frame) : Frame := ⟨f.columns, f.rows⟩

/-- Lists of a product: all terms of the contraction have one type. -/
def mul? (f g : Frame) : Option Frame := do
  let _ ← contraction? f.columns g.rows
  let c ← f.columns.head?
  let r ← g.rows.head?
  let rows ← f.rows.mulEach? c
  let columns ← g.columns.leftMulEach? r
  some ⟨rows, columns⟩

/-- Lists of the `X` with `X * g = f`. -/
def div? (f g : Frame) : Option Frame :=
  if f.columns.length = g.columns.length then do
    let c ← f.columns.head?
    let c' ← g.columns.head?
    let d ← c.div? c'
    let rows ← f.rows.mulEach? d
    let columns ← g.rows.leftDivEach? .identity
    some ⟨rows, columns⟩
  else
    none

def mulScalar? (f : Frame) (k : Index) : Option Frame :=
  (f.rows.mulEach? k).map fun rows => ⟨rows, f.columns⟩

def scalarMul? (k : Index) (f : Frame) : Option Frame :=
  (f.rows.leftMulEach? k).map fun rows => ⟨rows, f.columns⟩

def divScalar? (f : Frame) (k : Index) : Option Frame :=
  (f.rows.divEach? k).map fun rows => ⟨rows, f.columns⟩

def ofScalar (k : Index) : Frame := ⟨[k], [.identity]⟩

def scalarDiv? (k : Index) (f : Frame) : Option Frame :=
  (ofScalar k).div? f

/-- A factor of type `k` leaves every row index as it is. -/
def Scales (f : Frame) (k : Index) : Prop :=
  ∀ r ∈ f.rows, r.mul? k = some r

instance (f : Frame) (k : Index) : Decidable (f.Scales k) :=
  inferInstanceAs (Decidable (∀ r ∈ f.rows, _))

end Frame

end UnitMatrix
