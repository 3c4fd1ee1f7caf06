import Mathlib.Data.List.Induction
import UnitMatrix.Proofs.Program.Shapes

/-! Raw rows of a matrix and back. The rows read from a matrix are its storage, and a matrix made from
rows has these rows as its storage: writing them one by one leaves no cell out and meets none twice. -/

namespace UnitMatrix

/-- A walk through a list, in which each element is written at its index. -/
theorem exists_foldlM_zipIdx {ε σ α β : Type} (step : σ → α × Nat → Except ε σ) (xs : List α)
    (Holds : σ → (Nat → β) → Prop) (val : α → β) (size : Nat)
    (hstep : ∀ s g, ∀ x ∈ xs, ∀ n < size, Holds s g →
      ∃ s', step s (x, n) = .ok s' ∧ Holds s' fun q => if q = n then val x else g q)
    {s : σ} {g : Nat → β} {n : Nat} (h : Holds s g) (hsize : n + xs.length ≤ size) :
    ∃ s', (xs.zipIdx n).foldlM step s = .ok s' ∧
      Holds s' fun q => if q < n then g q else (xs[q - n]?.map val).getD (g q) := by
  induction xs generalizing s g n with
  | nil => exact ⟨s, rfl, by simpa using h⟩
  | cons x xs ih =>
    rw [List.length_cons] at hsize
    obtain ⟨s', hs', h'⟩ := hstep s g x List.mem_cons_self n (by omega) h
    obtain ⟨s'', hs'', h''⟩ :=
      ih (fun s g x' hx' => hstep s g x' (List.mem_cons_of_mem _ hx')) h' (n := n + 1) (by omega)
    refine ⟨s'', ?_, ?_⟩
    · rw [List.zipIdx_cons, List.foldlM_cons, hs']
      exact hs''
    · -- positions before the first are as they were, the first has just been written, and the
      -- others are those of the rest, one further on
      convert h'' using 2 with q
      rcases Nat.lt_trichotomy q n with hq | rfl | hq
      · simp [hq, Nat.ne_of_lt hq, Nat.lt_succ_of_lt hq]
      · simp
      · simp [Nat.not_lt_of_gt hq, Nat.ne_of_gt hq, show ¬ q < n + 1 by omega,
          show q - n = q - (n + 1) + 1 by omega]

namespace Matrix

variable {k : Raw} {m : Matrix k} {b : Backend} {f : Frame} {cell : Nat → Nat → Option k.Carrier}

structure Has (b : Backend) (f : Frame) (m : Matrix k) (cell : Nat → Nat → Option k.Carrier) :
    Prop where
  on : m.On f
  backend : m.backend = b
  cells : ∀ i j, m.storage.get? i j = cell i j

theorem Has.put (h : m.Has b f cell) {i j : Nat} (hi : i < f.rows.length) (hj : j < f.columns.length)
    (x : k.Carrier) : ∃ m', m.put i j x = .ok m' ∧
      m'.Has b f fun p q => if p = i ∧ q = j then some x else cell p q := by
  rw [Matrix.put_eq]
  cases hs : m.storage.set i j x with
  | error e => exact absurd (Grid.set_eq_error_iff.1 hs) (Grid.not_outside h.on.2 hi hj e)
  | ok g =>
    refine ⟨m.withStorage g, rfl, ⟨h.on.1, ?_, ?_⟩, h.backend, fun p q => ?_⟩
    · exact (Grid.rows_of_set hs).trans h.on.2.1
    · exact (Grid.columns_of_set hs).trans h.on.2.2
    · rw [← h.cells]
      exact Grid.get?_of_set hs

theorem Has.congr (h : m.Has b f cell) {cell' : Nat → Nat → Option k.Carrier}
    (hcell : ∀ i j, cell i j = cell' i j) : m.Has b f cell' :=
  ⟨h.on, h.backend, fun i j => (h.cells i j).trans (hcell i j)⟩

theorem Has.cell_eq_none (h : m.Has b f cell) {i j : Nat}
    (hout : f.rows.length ≤ i ∨ f.columns.length ≤ j) : cell i j = none := by
  rw [← h.cells, Grid.get?_eq_none_iff, h.on.2.1, h.on.2.2]
  exact hout

theorem Has.putRow (h : m.Has b f cell) {i : Nat} (hi : i < f.rows.length) {row : List k.Carrier}
    (hrow : row.length = f.columns.length) : ∃ m', m.putRow i row = .ok m' ∧
      m'.Has b f fun p q => if p = i then row[q]? else cell p q := by
  -- the walk along the row changes the cells of row `i` only, so these are what it keeps track of
  have hstart : m.Has b f fun p q => if p = i then cell i q else cell p q :=
    h.congr fun p q => by split <;> simp [*]
  have hstep : ∀ (m' : Matrix k) (g : Nat → Option k.Carrier), ∀ x ∈ row, ∀ n < f.columns.length,
      (m'.Has b f fun p q => if p = i then g q else cell p q) → ∃ m'', m'.put i n x = .ok m'' ∧
        m''.Has b f fun p q => if p = i then if q = n then some x else g q else cell p q := by
    intro m' g x _ n hn hm'
    obtain ⟨m'', hput, hm''⟩ := hm'.put hi hn x
    exact ⟨m'', hput, hm''.congr fun p q => by by_cases hp : p = i <;> simp [hp]⟩
  obtain ⟨m', hm', hend⟩ := exists_foldlM_zipIdx (fun (m : Matrix k) p => m.put i p.2 p.1) row
    (fun m' g => m'.Has b f fun p q => if p = i then g q else cell p q) some f.columns.length hstep
    (n := 0) hstart (by omega)
  refine ⟨m', hm', hend.congr fun p q => ?_⟩
  by_cases hq : q < row.length
  · simp [hq]
  · have hnone := h.cell_eq_none (i := i) (j := q) (.inr (by omega))
    simp [hq, hnone]

theorem backend_store (m : Matrix k) : m.store.backend = m.backend := by
  unfold Matrix.store
  cases m.backend <;> rfl

end Matrix

namespace MatrixType

variable {t : MatrixType} {rows : List (List t.raw.Carrier)}

theorem exists_zeros (ht : t.Covers) :
    ∃ m cell, t.zeros = .ok m ∧ m.Has t.store.backend t.frame cell := by
  have hon := ensures_zeros ht (E := fun _ => True)
  unfold zeros at hon ⊢
  unfold Covers at ht
  cases h : t.store with
  | fixed r c =>
    rw [h] at ht hon
    dsimp only at hon ⊢
    rw [if_pos ⟨ht.1.symm, ht.2.symm⟩] at hon ⊢
    exact ⟨_, _, rfl, hon, rfl, fun _ _ => rfl⟩
  | dynamic =>
    rw [h] at hon
    exact ⟨_, _, rfl, hon, rfl, fun _ _ => rfl⟩

theorem ofRawRows_eq (ht : t.Covers) (hrows : rows.length = t.frame.rows.length)
    (hcolumns : ∀ row ∈ rows, row.length = t.frame.columns.length) :
    t.ofRawRows rows = .ok ⟨t.store.backend, t.frame, ⟨t.frame.columns.length, rows, hcolumns⟩⟩ := by
  obtain ⟨m, cell, hzeros, hm⟩ := exists_zeros ht
  let step (m : Matrix t.raw) (p : List t.raw.Carrier × Nat) : Outcome (Matrix t.raw) :=
    if p.1.length ≠ t.frame.columns.length then
      .error (.load (.columnCount p.2 t.frame.columns.length p.1.length))
    else m.putRow p.2 p.1
  have hstep : ∀ m' g, ∀ row ∈ rows, ∀ n < t.frame.rows.length,
      m'.Has t.store.backend t.frame g → ∃ m'', step m' (row, n) = .ok m'' ∧
        m''.Has t.store.backend t.frame fun p => if p = n then fun q => row[q]? else g p := by
    intro m' g row hrow n hn hm'
    obtain ⟨m'', hput, hm''⟩ := hm'.putRow hn (hcolumns row hrow)
    refine ⟨m'', ?_, hm''.congr fun p q => by split <;> rfl⟩
    simp only [step, hcolumns row hrow, ne_eq, not_true, if_false, hput]
    rfl
  obtain ⟨m', hfold, hend⟩ := exists_foldlM_zipIdx step rows
    (fun m g => m.Has t.store.backend t.frame g) (fun row q => row[q]?) t.frame.rows.length hstep
    (n := 0) hm (by omega)
  have hstorage : m'.storage = ⟨t.frame.columns.length, rows, hcolumns⟩ := by
    refine Grid.ext_get? (hend.on.2.1.trans hrows.symm) hend.on.2.2 fun p q => ?_
    rw [hend.cells]
    by_cases hp : p < rows.length
    · simp [hp, Grid.get?]
    · have hnone := hm.cell_eq_none (i := p) (j := q) (.inl (by omega))
      simp [hp, Grid.get?, hnone]
  unfold ofRawRows
  dsimp only
  rw [if_neg (not_not.2 hrows), hzeros]
  refine hfold.trans ?_
  rw [← hstorage, ← hend.backend, ← hend.on.1]

/-- The storage of a matrix, row by row, makes the same matrix again. -/
theorem ofRawRows_of_type_eq (ht : t.Covers) {m : Matrix t.raw} (htype : m.type = t)
    (hm : m.storage.Extent t.frame.rows.length t.frame.columns.length) :
    t.ofRawRows m.storage.entries = .ok m := by
  have hcolumns : ∀ row ∈ m.storage.entries, row.length = t.frame.columns.length :=
    fun row hrow => (m.storage.rectangular row hrow).trans hm.2
  have hstorage : (⟨t.frame.columns.length, m.storage.entries, hcolumns⟩ : Grid t.raw.Carrier) =
      m.storage := Grid.ext hm.2.symm rfl
  have hframe : m.frame = t.frame := congrArg frame htype
  have hstore : m.store = t.store := congrArg store htype
  rw [ofRawRows_eq ht hm.1 hcolumns, hstorage, ← hstore, m.backend_store, ← hframe]

end MatrixType

theorem mapM_range {ε α : Type} {f : Nat → Except ε α} {xs : List α}
    (h : ∀ i x, xs[i]? = some x → f i = .ok x) : (List.range xs.length).mapM f = .ok xs := by
  induction xs using List.reverseRecOn with
  | nil => rfl
  | append_singleton xs x ih =>
    have hinit := ih fun i y hy => h i y (by
      rw [List.getElem?_append_left (List.getElem?_eq_some_iff.1 hy).1, hy])
    have hlast := h xs.length x (by simp)
    rw [List.length_append, List.length_singleton, List.range_succ, List.mapM_append, hinit]
    simp [hlast]
    rfl

theorem Grid.readRows_eq {α : Type} {g : Grid α} {rows columns : Nat}
    (hg : g.Extent rows columns) : g.readRows rows columns = .ok g.entries := by
  obtain ⟨rfl, rfl⟩ := hg
  refine mapM_range fun i row hi => ?_
  rw [← g.rectangular row (List.mem_of_getElem? hi)]
  refine mapM_range fun j x hj => ?_
  rw [get, get?, hi, Option.bind_some, hj]

namespace Matrix

variable {k : Raw} {m : Matrix k}

theorem rawRows_eq (h : m.Fits) : m.rawRows = .ok m.storage.entries := by
  rw [rawRows, Backend.readRows_eq]
  exact Grid.readRows_eq h.extent

theorem ofRawRows_entries (h : m.Fits) : m.type.ofRawRows m.storage.entries = .ok m :=
  MatrixType.ofRawRows_of_type_eq (covers_type h) rfl h.extent

end Matrix

end UnitMatrix
