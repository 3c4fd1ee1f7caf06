import UnitMatrix.Backend
import UnitMatrix.Failure
import UnitMatrix.Frame

/-! Matrices with units. A matrix is raw storage under a frame; the storage may be of a shape fixed
by its type or of any shape. Nothing ties the stored numbers to the frame: what holds the two
together is that every operation derives the frame of its result from the frames of its operands. -/

namespace UnitMatrix

inductive Store where
  | fixed (rows columns : Nat)
  | dynamic
  deriving DecidableEq

def Store.backend : Store → Backend
  | .fixed _ _ => .fixed
  | .dynamic => .dynamic

structure MatrixType where
  raw : Raw
  store : Store
  frame : Frame
  deriving DecidableEq

structure Matrix (k : Raw) where
  backend : Backend
  frame : Frame
  storage : Grid k.Carrier

namespace Matrix

variable {k : Raw}

def store (m : Matrix k) : Store :=
  match m.backend with
  | .fixed => .fixed m.storage.rows m.storage.columns
  | .dynamic => .dynamic

def type (m : Matrix k) : MatrixType := ⟨k, m.store, m.frame⟩

/-- The same storage kind and frame around other storage. -/
def withStorage (m : Matrix k) (storage : Grid k.Carrier) : Matrix k :=
  { m with storage := storage }

/-- The raw numbers of the listed rows and columns. -/
def rawRows (m : Matrix k) : Except Fault (List (List k.Carrier)) :=
  m.backend.readRows m.storage m.frame.rows.length m.frame.columns.length

end Matrix

structure AnyMatrix where
  raw : Raw
  matrix : Matrix raw

namespace AnyMatrix

def type (m : AnyMatrix) : MatrixType := m.matrix.type

def as? (m : AnyMatrix) (k : Raw) : Option (Matrix k) :=
  if h : m.raw = k then some (h ▸ m.matrix) else none

end AnyMatrix

end UnitMatrix
