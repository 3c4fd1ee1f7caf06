import UnitMatrix.Grid

/-! Views of a grid: some of its rows and some of its columns, in an order of their own. Reading
through a view reads the grid behind it, and writing through a view changes the selected cells of
that grid one by one. -/

namespace UnitMatrix

/-- The positions from `start` up to `stop`, every `step`-th; a negative step starts at the last
position and goes back. -/
structure Slice where
  start : Nat
  stop : Nat
  step : Int

namespace Slice

def count (s : Slice) : Nat :=
  (s.stop - s.start + (s.step.natAbs - 1)) / s.step.natAbs

def position (s : Slice) (n : Nat) : Nat :=
  if 0 < s.step then s.start + n * s.step.natAbs else s.stop - 1 - n * s.step.natAbs

def positions (s : Slice) : List Nat :=
  (List.range s.count).map s.position

end Slice

/-- A view of a grid: the rows and columns selected, in their order. -/
structure View (α : Type) where
  grid : Grid α
  rows : List Nat
  columns : List Nat

namespace View

variable {α : Type}

def ofSlices (grid : Grid α) (rows columns : Slice) : View α :=
  ⟨grid, rows.positions, columns.positions⟩

def locate (v : View α) (i j : Nat) : Except Fault (Nat × Nat) :=
  match v.rows[i]?, v.columns[j]? with
  | some p, some q => .ok (p, q)
  | _, _ => .error (.outside i j v.rows.length v.columns.length)

def get (v : View α) (i j : Nat) : Except Fault α := do
  let (p, q) ← v.locate i j
  v.grid.get p q

def set (v : View α) (i j : Nat) (x : α) : Except Fault (Grid α) := do
  let (p, q) ← v.locate i j
  v.grid.set p q x

def modifyM (v : View α) (f : α → Except Fault α) : Except Fault (Grid α) :=
  v.rows.foldlM (fun g p => v.columns.foldlM (fun g q => g.modifyM p q f) g) v.grid

/-- A grid of its own with the cells of the view. -/
def copy (v : View α) : Except Fault (Grid α) :=
  Grid.ofRowsM v.columns.length (fun p => v.columns.mapM fun q => v.grid.get p q) v.rows
    fun _ _ _ hf => length_of_mapM_ok hf

def transpose (v : View α) : Except Fault (Grid α) :=
  Grid.ofRowsM v.rows.length (fun q => v.rows.mapM fun p => v.grid.get p q) v.columns
    fun _ _ _ hf => length_of_mapM_ok hf

variable [Arithmetic α]

def scale (v : View α) (factor : α) : Except Fault (Grid α) :=
  v.modifyM (Arithmetic.mul · factor)

def divideBy (v : View α) (divisor : α) : Except Fault (Grid α) :=
  v.modifyM (Arithmetic.div · divisor)

end View

end UnitMatrix
