import UnitMatrix.Division
import UnitMatrix.Grid.Algebra
import UnitMatrix.Grid.Loops

/-! The two kinds of storage and what each of them can do. Storage of a fixed shape has loops of its
own for everything; storage of any shape checks shapes when running and goes cell by cell. Only
the quotient is computed by one algorithm for both. -/

namespace UnitMatrix

inductive Backend where
  /-- The shape belongs to the type. -/
  | fixed
  /-- The shape is known only when running. -/
  | dynamic
  deriving DecidableEq

namespace Backend

section Cells

variable {α : Type}

/-- The cell at a position, or the fault that names it. -/
def get (b : Backend) (g : Grid α) (i j : Nat) : Except Fault α :=
  match b with
  | .fixed => g.get i j
  | .dynamic => g.getWithin i j

def set (b : Backend) (g : Grid α) (i j : Nat) (x : α) : Except Fault (Grid α) :=
  match b with
  | .fixed => g.set i j x
  | .dynamic => g.setWithin i j x

def modifyM (b : Backend) (g : Grid α) (i j : Nat) (f : α → Except Fault α) :
    Except Fault (Grid α) := do
  let x ← b.get g i j
  b.set g i j (← f x)

/-- The cells of the first `rows` rows and `columns` columns. -/
def readRows (b : Backend) (g : Grid α) (rows columns : Nat) : Except Fault (List (List α)) :=
  (List.range rows).mapM fun i => (List.range columns).mapM fun j => b.get g i j

def scalar (b : Backend) (x : α) : Grid α :=
  match b with
  | .fixed => ⟨1, [[x]], by simp⟩
  | .dynamic => .replicate 1 1 x

end Cells

section Numbers

variable {α : Type} [Arithmetic α]

def transpose (b : Backend) (g : Grid α) : Grid α :=
  match b with
  | .fixed => g.transposeInto
  | .dynamic => g.transpose

def scale (b : Backend) (g : Grid α) (factor : α) : Except Fault (Grid α) :=
  match b with
  | .fixed => g.updateEach (Arithmetic.mul · factor)
  | .dynamic => g.scale factor

def divideBy (b : Backend) (g : Grid α) (divisor : α) : Except Fault (Grid α) :=
  match b with
  | .fixed => g.updateEach (Arithmetic.div · divisor)
  | .dynamic => g.divideBy divisor

def combine (b : Backend) (op : α → α → Except Fault α) (x y : Grid α) : Except Fault (Grid α) :=
  match b with
  | .fixed => Grid.zipM op x y
  | .dynamic => Grid.stretchM op x y

def mul (b : Backend) (x y : Grid α) : Except Fault (Grid α) :=
  match b with
  | .fixed => Grid.mulKnown x y
  | .dynamic => Grid.mulAny x y

end Numbers

/-- The quotient with the rank of the divisor. -/
def div {K : Type} [RootField K] (b : Backend) (x y : Grid K) : Except Fault (Solution K) :=
  match b with
  | .fixed => .ok (divide x y)
  | .dynamic =>
    if x.columns = y.columns then .ok (divide x y)
    else .error (.dividendColumns x.columns y.columns)

end Backend

end UnitMatrix
