import UnitMatrix.Grid

/-! Sums, differences and products of grids, once for storage whose shape is known beforehand and
once for storage of any shape. Known shapes are combined cell against cell, and a product adds up
scaled rows. Storage of any shape checks the shapes first, stretches an extent of one to any other,
and forms each cell of a product as a sum over the inner position. -/

namespace UnitMatrix

open Arithmetic

namespace Grid

variable {α : Type}

/-- Produced cell by cell, row by row. -/
def ofFnM (rows columns : Nat) (f : Nat → Nat → Except Fault α) : Except Fault (Grid α) :=
  ofRowsM columns (fun i => (List.range columns).mapM (f i)) (List.range rows)
    fun _ _ _ hf => by simpa using length_of_mapM_ok hf

/-- Cell against cell, as far as both reach. -/
def zipM (op : α → α → Except Fault α) (a b : Grid α) : Except Fault (Grid α) :=
  ofRowsM (min a.columns b.columns) (fun p => (p.1.zip p.2).mapM fun c => op c.1 c.2)
    (a.entries.zip b.entries) fun p row hp hf => by
      have h := List.of_mem_zip (a := p.1) (b := p.2) hp
      rw [length_of_mapM_ok hf, List.length_zip, a.rectangular _ h.1, b.rectangular _ h.2]

/-- The extent that two extents stretch to. -/
def stretch? (m n : Nat) : Option Nat :=
  if m = n then some m else if m = 1 then some n else if n = 1 then some m else none

/-- A position along an extent that may have been stretched. -/
def along (extent i : Nat) : Nat := if extent = 1 then 0 else i

def stretchM (op : α → α → Except Fault α) (a b : Grid α) : Except Fault (Grid α) :=
  match stretch? a.rows b.rows, stretch? a.columns b.columns with
  | some rows, some columns =>
    ofFnM rows columns fun i j => do
      let x ← a.get (along a.rows i) (along a.columns j)
      let y ← b.get (along b.rows i) (along b.columns j)
      op x y
  | _, _ => .error .incompatibleShapes

variable [Arithmetic α]

def addScaled (out : List α) (factor : α) (row : List α) : Except Fault (List α) :=
  (out.zip row).mapM fun c => do add c.1 (← mul factor c.2)

/-- A row times the rows of a grid, added up from the first row on. -/
def rowTimes (row : List α) (b : Grid α) : Except Fault (List α) :=
  (row.zip b.entries).foldlM (fun out t => addScaled out t.1 t.2) (List.replicate b.columns zero)

theorem length_of_addScaled_foldlM {n : Nat} : ∀ {terms : List (α × List α)} {out sum : List α},
    (∀ t ∈ terms, t.2.length = n) → out.length = n →
    terms.foldlM (fun out t => addScaled out t.1 t.2) out = .ok sum → sum.length = n := by
  intro terms
  induction terms with
  | nil => intro out sum _ ho h; cases h; exact ho
  | cons t ts ih =>
    intro out sum ht ho h
    rw [List.foldlM_cons] at h
    cases hs : addScaled out t.1 t.2 with
    | error e => rw [hs] at h; cases h
    | ok next =>
      rw [hs] at h
      refine ih (fun t' h' => ht t' (by simp [h'])) ?_ h
      rw [length_of_mapM_ok hs, List.length_zip, ho, ht t (by simp), Nat.min_self]

def mulKnown (a b : Grid α) : Except Fault (Grid α) :=
  ofRowsM b.columns (rowTimes · b) a.entries fun _ _ _ hf =>
    length_of_addScaled_foldlM (fun _ ht => b.rectangular _ (List.of_mem_zip ht).2) (by simp) hf

/-- The sum over the inner position that is one cell of a product. -/
def innerSum (a b : Grid α) (i j : Nat) : Except Fault α :=
  (List.range a.columns).foldlM (fun sum k => do
    let x ← a.get i k
    let y ← b.get k j
    add sum (← mul x y)) zero

def mulAny (a b : Grid α) : Except Fault (Grid α) :=
  if a.columns = b.rows then ofFnM a.rows b.columns (innerSum a b)
  else .error (.innerShape a.rows a.columns b.rows b.columns)

end Grid

end UnitMatrix
