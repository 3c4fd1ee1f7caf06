import UnitMatrix.Matrix.Build

/-! Reading and writing single elements. There are several ways to name an element, each with its
own condition on the frame; all of them come down to an element type and a position in the storage,
and the storage decides whether it has such a position. -/

namespace UnitMatrix

/-- A way to name an element. -/
inductive Place where
  /-- Row and column of a uniform matrix. -/
  | cell (i j : Nat)
  /-- The position in a uniform vector. -/
  | flat (n : Nat)
  /-- Row and column of any matrix, known to lie within the lists. -/
  | listed (i j : Nat)
  /-- The row of a single column, known to lie within the list. -/
  | entry (i : Nat)
  /-- The only element. -/
  | sole

structure Site where
  element : Index
  row : Nat
  column : Nat

namespace Frame

/-- The element type at a position, if numbers of kind `k` can stand for it. -/
def heldAt? (f : Frame) (k : Raw) (i j : Nat) : Option Site :=
  ((f.element? i j).filter k.holds).map fun e => ⟨e, i, j⟩

def locate? (f : Frame) (k : Raw) : Place → Option Site
  | .cell i j => (f.uniformIn? k).map fun e => ⟨e, i, j⟩
  | .flat n =>
    if f.isVector then
      (f.uniformIn? k).map fun e => ⟨e, (f.flatPosition n).1, (f.flatPosition n).2⟩
    else none
  | .listed i j => f.heldAt? k i j
  | .entry i => if f.isColumn then f.heldAt? k i 0 else none
  | .sole => if f.isSingleton then f.heldAt? k 0 0 else none

end Frame

namespace Matrix

variable {k : Raw}

def locate (m : Matrix k) (p : Place) : Outcome Site :=
  demand (m.frame.locate? k p)

def read (m : Matrix k) (p : Place) : Outcome (Index × k.Carrier) := do
  let site ← m.locate p
  let x ← m.backend.get m.storage site.row site.column
  .ok (site.element, x)

def write (m : Matrix k) (p : Place) (x : k.Carrier) : Outcome (Matrix k) := do
  let site ← m.locate p
  m.put site.row site.column x

def modifyM (m : Matrix k) (p : Place) (f : k.Carrier → Except Fault k.Carrier) :
    Outcome (Matrix k) := do
  let site ← m.locate p
  let storage ← m.backend.modifyM m.storage site.row site.column f
  .ok (m.withStorage storage)

def increase (m : Matrix k) (p : Place) (x : k.Carrier) : Outcome (Matrix k) :=
  m.modifyM p (Arithmetic.add · x)

def decrease (m : Matrix k) (p : Place) (x : k.Carrier) : Outcome (Matrix k) :=
  m.modifyM p (Arithmetic.sub · x)

/-- A number of the storage, of whatever type. -/
def rawGet (m : Matrix k) (i j : Nat) : Outcome k.Carrier :=
  m.backend.get m.storage i j

/-- A number of the storage replaced, of whatever type. -/
def rawSet (m : Matrix k) (i j : Nat) (x : k.Carrier) : Outcome (Matrix k) :=
  m.put i j x

end Matrix

end UnitMatrix
