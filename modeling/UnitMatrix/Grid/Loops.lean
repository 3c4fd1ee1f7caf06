import UnitMatrix.Grid

/-! Reading, writing and going through the cells a second time. A storage of known shape is changed in
place by loops over its rows; a storage of any shape compares a position with its shape before it
looks at the cells. -/

namespace UnitMatrix

namespace Grid

variable {α : Type}

/-- A cell whose position is known to be within the shape. -/
def cell (g : Grid α) (i : Fin g.rows) (j : Fin g.columns) : α :=
  (g.entries.get i).get (j.cast (g.rectangular _ (List.get_mem g.entries i)).symm)

def getWithin (g : Grid α) (i j : Nat) : Except Fault α :=
  if h : i < g.rows ∧ j < g.columns then .ok (g.cell ⟨i, h.1⟩ ⟨j, h.2⟩)
  else .error (g.outside i j)

def setRow (g : Grid α) (i : Nat) (row : List α) (h : row.length = g.columns) : Grid α where
  columns := g.columns
  entries := g.entries.set i row
  rectangular := fun _ hmem =>
    (List.mem_or_eq_of_mem_set hmem).elim (g.rectangular _) fun heq => heq ▸ h

def setWithin (g : Grid α) (i j : Nat) (x : α) : Except Fault (Grid α) :=
  if h : i < g.rows ∧ j < g.columns then
    .ok (g.setRow i ((g.entries.get ⟨i, h.1⟩).set j x)
      (List.length_set.trans (g.rectangular _ (List.get_mem ..))))
  else .error (g.outside i j)

def updateEach (f : α → Except Fault α) (g : Grid α) : Except Fault (Grid α) :=
  (List.range g.rows).foldlM (fun s i =>
    (List.range g.columns).foldlM (fun s j => s.modifyM i j f) s) g

/-- The values go down column `i` of the rows of `out`, one row each. A row that does not reach so far
is left as it is. -/
def writeColumn (i : Nat) : (out : List (List α)) → (values : List α) → List (List α)
  | row :: out, x :: values => row.set i x :: writeColumn i out values
  | out, _ => out

theorem length_of_mem_writeColumn {i n : Nat} {out : List (List α)} {values : List α}
    (h : ∀ row ∈ out, row.length = n) : ∀ row ∈ writeColumn i out values, row.length = n := by
  induction out generalizing values with
  | nil => simp [writeColumn]
  | cons row out ih =>
    rw [List.forall_mem_cons] at h
    cases values with
    | nil => simpa [writeColumn] using h
    | cons x values =>
      rw [writeColumn, List.forall_mem_cons, List.length_set]
      exact ⟨h.1, ih h.2⟩

theorem length_of_mem_foldl_writeColumn {n : Nat} {rows : List (List α × Nat)}
    {out : List (List α)} (h : ∀ row ∈ out, row.length = n) :
    ∀ row ∈ rows.foldl (fun out r => writeColumn r.2 out r.1) out, row.length = n := by
  induction rows generalizing out with
  | nil => exact h
  | cons r rows ih => exact ih (length_of_mem_writeColumn h)

/-- Zeros in the shape of the transpose, over whose columns the rows are written. -/
def transposeInto [Arithmetic α] (g : Grid α) : Grid α where
  columns := g.rows
  entries := g.entries.zipIdx.foldl (fun out r => writeColumn r.2 out r.1)
    (List.replicate g.columns (List.replicate g.rows Arithmetic.zero))
  rectangular := length_of_mem_foldl_writeColumn (by simp +contextual [List.mem_replicate])

end Grid

end UnitMatrix
