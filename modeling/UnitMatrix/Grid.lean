import UnitMatrix.Number.Arithmetic

/-! Rectangular storage. A grid is a list of rows of one length, and a position outside it is a
fault that names the position and the shape. Whole-grid operations go through the cells row by
row, so the first fault in that order is the one that is reported. -/

namespace UnitMatrix

structure Grid (α : Type) where
  columns : Nat
  entries : List (List α)
  rectangular : ∀ row ∈ entries, row.length = columns

theorem length_of_mapM_ok {α β ε : Type} {f : α → Except ε β} {xs : List α} {ys : List β}
    (h : xs.mapM f = .ok ys) : ys.length = xs.length := by
  induction xs generalizing ys with
  | nil => cases h; rfl
  | cons x xs ih =>
    rw [List.mapM_cons] at h
    cases hx : f x with
    | error e => rw [hx] at h; cases h
    | ok y =>
      cases hs : xs.mapM f with
      | error e => rw [hx, hs] at h; cases h
      | ok zs => rw [hx, hs] at h; cases h; simp [ih hs]

theorem mem_of_mapM_ok {α β ε : Type} {f : α → Except ε β} {xs : List α} {ys : List β}
    (h : xs.mapM f = .ok ys) {y : β} (hy : y ∈ ys) : ∃ x ∈ xs, f x = .ok y := by
  induction xs generalizing ys with
  | nil => cases h; simp at hy
  | cons x xs ih =>
    rw [List.mapM_cons] at h
    cases hx : f x with
    | error e => rw [hx] at h; cases h
    | ok z =>
      cases hs : xs.mapM f with
      | error e => rw [hx, hs] at h; cases h
      | ok zs =>
        rw [hx, hs] at h
        cases h
        rcases List.mem_cons.1 hy with rfl | hy
        · exact ⟨x, by simp, hx⟩
        · obtain ⟨w, hw, hf⟩ := ih hs hy
          exact ⟨w, by simp [hw], hf⟩

namespace Grid

variable {α β : Type}

def rows (g : Grid α) : Nat := g.entries.length

@[ext] theorem ext {g h : Grid α} (hc : g.columns = h.columns) (he : g.entries = h.entries) :
    g = h := by
  cases g; cases h; cases hc; cases he; rfl

def get? (g : Grid α) (i j : Nat) : Option α :=
  g.entries[i]?.bind (·[j]?)

def outside (g : Grid α) (i j : Nat) : Fault :=
  .outside i j g.rows g.columns

/-- The cell at a position, or the fault that names it. -/
def get (g : Grid α) (i j : Nat) : Except Fault α :=
  match g.get? i j with
  | some x => .ok x
  | none => .error (g.outside i j)

def replicate (rows columns : Nat) (x : α) : Grid α where
  columns := columns
  entries := List.replicate rows (List.replicate columns x)
  rectangular := by simp +contextual [List.mem_replicate]

/-- Rows of equal length; `columns` counts when there is no row. -/
def ofRows? (columns : Nat) (rows : List (List α)) : Option (Grid α) :=
  if h : ∀ row ∈ rows, row.length = columns then some ⟨columns, rows, h⟩ else none

/-- Rows produced in order, the first fault ending the production. -/
def ofRowsM (columns : Nat) (f : β → Except Fault (List α)) (xs : List β)
    (h : ∀ x row, x ∈ xs → f x = .ok row → row.length = columns) : Except Fault (Grid α) :=
  match e : xs.mapM f with
  | .ok rows => .ok ⟨columns, rows, fun _ hr =>
      let ⟨x, hx, hf⟩ := mem_of_mapM_ok e hr
      h x _ hx hf⟩
  | .error fault => .error fault

/-- Every cell through `f`, row by row. -/
def mapM (f : α → Except Fault β) (g : Grid α) : Except Fault (Grid β) :=
  ofRowsM g.columns (fun row => row.mapM f) g.entries fun _ _ hx hf =>
    (length_of_mapM_ok hf).trans (g.rectangular _ hx)

def set (g : Grid α) (i j : Nat) (x : α) : Except Fault (Grid α) :=
  match g.get? i j with
  | none => .error (g.outside i j)
  | some _ => .ok
    { columns := g.columns
      entries := g.entries.modify i (·.set j x)
      rectangular := by
        intro row hrow
        obtain ⟨n, hn, rfl⟩ := List.getElem_of_mem hrow
        have hn : n < g.entries.length := by simpa using hn
        rw [List.getElem_modify]
        have hr := g.rectangular g.entries[n] (List.getElem_mem hn)
        split <;> simp [hr] }

def modifyM (g : Grid α) (i j : Nat) (f : α → Except Fault α) : Except Fault (Grid α) := do
  let x ← g.get i j
  g.set i j (← f x)

def transpose (g : Grid α) : Grid α where
  columns := g.rows
  entries := (List.range g.columns).map fun j => g.entries.filterMap (·[j]?)
  rectangular := by
    intro row hrow
    obtain ⟨j, hj, rfl⟩ := List.mem_map.1 hrow
    have hj : j < g.columns := by simpa using hj
    have : ∀ rows : List (List α), (∀ r ∈ rows, r.length = g.columns) →
        (rows.filterMap (·[j]?)).length = rows.length := by
      intro rows h
      induction rows with
      | nil => rfl
      | cons r rs ih =>
        have hr : j < r.length := by rw [h r (by simp)]; exact hj
        rw [List.filterMap_cons, List.getElem?_eq_getElem hr]
        simp [ih fun r' hr' => h r' (by simp [hr'])]
    exact this _ g.rectangular

/-- The cells of the first `rows` rows and `columns` columns. -/
def readRows (g : Grid α) (rows columns : Nat) : Except Fault (List (List α)) :=
  (List.range rows).mapM fun i => (List.range columns).mapM fun j => g.get i j

variable [Arithmetic α]

def scale (g : Grid α) (factor : α) : Except Fault (Grid α) :=
  g.mapM (Arithmetic.mul · factor)

/-- Every cell over `divisor`, without a detour over the reciprocal. -/
def divideBy (g : Grid α) (divisor : α) : Except Fault (Grid α) :=
  g.mapM (Arithmetic.div · divisor)

end Grid

end UnitMatrix
