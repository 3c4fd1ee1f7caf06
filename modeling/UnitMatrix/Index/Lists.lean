import UnitMatrix.Index

/-! Lists of index types: elementwise and one-against-all arithmetic, the grid of element types
that a row list and a column list span, and the two ways in which many types can be one type,
uniformity and contraction. -/

namespace UnitMatrix

/-- The index types of all rows, or of all columns, of a matrix. -/
abbrev IndexList := List Index

namespace IndexList

/-- Elementwise, for lists of one length. -/
def pointwise? (op : Index → Index → Option Index) : IndexList → IndexList → Option IndexList
  | [], [] => some []
  | a :: as, b :: bs => (op a b).bind fun c => (pointwise? op as bs).map (c :: ·)
  | _, _ => none

def mulEach? (as : IndexList) (k : Index) : Option IndexList :=
  as.mapM (·.mul? k)

def leftMulEach? (k : Index) (as : IndexList) : Option IndexList :=
  as.mapM k.mul?

def divEach? (as : IndexList) (k : Index) : Option IndexList :=
  as.mapM (·.div? k)

def leftDivEach? (k : Index) (as : IndexList) : Option IndexList :=
  as.mapM k.div?

def common? : IndexList → Option Index
  | [] => none
  | a :: as => if as.all (· = a) then some a else none

end IndexList

def grid? (rows columns : IndexList) : Option (List IndexList) :=
  rows.mapM fun r => columns.leftMulEach? r

def uniform? (rows columns : IndexList) : Option Index :=
  (grid? rows columns).bind fun grid => IndexList.common? grid.flatten

/-- The type that every term of a matrix product has. -/
def contraction? (columns rows : IndexList) : Option Index :=
  (columns.pointwise? Index.mul? rows).bind IndexList.common?

def uniformRow? (k : Index) (columns : IndexList) : Option Index :=
  (columns.leftMulEach? k).bind IndexList.common?

def element? (rows columns : IndexList) (i j : Nat) : Option Index :=
  rows[i]?.bind fun r => columns[j]?.bind fun c => r.mul? c

end UnitMatrix
