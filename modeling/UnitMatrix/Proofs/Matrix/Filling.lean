import UnitMatrix.Proofs.Grid.Visits
import UnitMatrix.Proofs.Matrix.Loading

/-! Ways to fill a matrix. Rows are stored row after row, the elements of a vector one after the other
down its column or along its row, and a single element at the only place. Row by row these are the same
numbers at the same places, so they make the same matrix. -/

namespace UnitMatrix

section Placed

variable {α : Type}

/-- The numbers of rows, row by row, each with its row and its column. -/
def placed (rows : List (List α)) : List (α × Nat × Nat) :=
  rows.zipIdx.flatMap fun row => row.1.zipIdx.map fun x => (x.1, row.2, x.2)

theorem placed_row (values : List α) :
    placed [values] = values.zipIdx.map fun x => (x.1, 0, x.2) :=
  List.append_nil _

theorem placed_column (values : List α) :
    placed (values.map ([·])) = values.zipIdx.map fun x => (x.1, x.2, 0) := by
  rw [placed, List.zipIdx_map, List.flatMap_map]
  exact List.map_eq_flatMap.symm

/-- Rows of one element each are the elements of a column. -/
theorem eq_map_singleton {rows : List (List α)} (h : ∀ row ∈ rows, row.length = 1) :
    rows.flatten.map ([·]) = rows := by
  induction rows with
  | nil => rfl
  | cons row rows ih =>
    obtain ⟨x, rfl⟩ := List.length_eq_one_iff.1 (h row List.mem_cons_self)
    rw [List.flatten_cons, List.map_append, ih fun row hrow => h row (List.mem_cons_of_mem _ hrow)]
    rfl

end Placed

namespace Matrix

variable {k : Raw} {m : Matrix k}

theorem putRows_eq (m : Matrix k) (rows : List (List k.Carrier)) :
    m.putRows rows = (placed rows).foldlM (fun m c => m.put c.2.1 c.2.2 c.1) m := by
  rw [putRows, placed, foldlM_flatMap]
  simp only [List.foldlM_map]
  rfl

/-- The lists stay what they are, so each position is known from the start. -/
theorem putVector_eq (m : Matrix k) (values : List k.Carrier) :
    m.putVector values = (values.zipIdx.map fun x => (x.1, m.frame.flatPosition x.2)).foldlM
      (fun m c => m.put c.2.1 c.2.2 c.1) m := by
  rw [putVector, List.foldlM_map]
  have hput (s : Grid k.Carrier) (p : k.Carrier × Nat) :
      (m.withStorage s).put (m.frame.flatPosition p.2).1 (m.frame.flatPosition p.2).2 p.1 =
        (s.set (m.frame.flatPosition p.2).1 (m.frame.flatPosition p.2).2 p.1).map m.withStorage :=
    put_eq ..
  exact (foldlM_map_comm (φ := m.withStorage) hput values.zipIdx m.storage).trans
    (foldlM_map_comm (φ := m.withStorage) hput values.zipIdx m.storage).symm

theorem putVector_flatten (hf : m.frame.isVector = true) {rows : List (List k.Carrier)}
    (hrows : rows.length = m.frame.rows.length)
    (hcolumns : ∀ row ∈ rows, row.length = m.frame.columns.length) :
    m.putVector rows.flatten = m.putRows rows := by
  rw [putVector_eq, putRows_eq]
  by_cases hc : m.frame.columns.length = 1
  · have hsingle := eq_map_singleton fun row hrow => (hcolumns row hrow).trans hc
    simp only [Frame.flatPosition, if_pos hc]
    rw [← placed_column, hsingle]
  · have hr : m.frame.rows.length = 1 := by
      simpa [Frame.isVector, Frame.isRow, Frame.isColumn, hc] using hf
    obtain ⟨row, rfl⟩ := List.length_eq_one_iff.1 (hrows.trans hr)
    simp only [Frame.flatPosition, if_neg hc]
    rw [placed_row, List.flatten_cons, List.flatten_nil, List.append_nil]

end Matrix

namespace MatrixType

variable {t : MatrixType} {rows : List (List t.raw.Carrier)}

/-- Rows that fit are stored in zeros without a fault. -/
theorem exists_putRows (ht : t.Covers) (hrows : rows.length = t.frame.rows.length)
    (hcolumns : ∀ row ∈ rows, row.length = t.frame.columns.length) :
    ∃ zeros m, t.zeros = .ok zeros ∧ zeros.frame = t.frame ∧ zeros.putRows rows = .ok m ∧
      t.ofRawRows rows = .ok m := by
  obtain ⟨zeros, hzeros, hon⟩ := (ensures_zeros ht).exists_ok
  obtain ⟨m, hm, -⟩ := (hon.putRows hrows hcolumns).exists_ok
  refine ⟨zeros, m, hzeros, hon.1, hm, ?_⟩
  rw [ofRawRows_eq_match ht hrows, misfit?_eq_none_iff.2 hcolumns, hzeros, ok_bind, hm]
  rfl

/-- Whatever way to fill a matrix of this type is open, it makes `m` of these rows. -/
structure Makes (t : MatrixType) (rows : List (List t.raw.Carrier)) (m : Matrix t.raw) : Prop where
  ofRawRows : t.ofRawRows rows = .ok m
  ofFixedRows : ∀ e, t.frame.uniformIn? t.raw = some e → t.ofFixedRows rows = .ok m
  ofRows : ∀ e, t.frame.uniformIn? t.raw = some e → t.ofRows rows = .ok m
  ofArray : ∀ e, t.frame.uniformIn? t.raw = some e → t.frame.isVector = true →
    t.ofArray rows.flatten = .ok m
  ofValues : t.frame.HeldBy t.raw → t.frame.isVector = true → t.ofValues rows.flatten = .ok m
  ofValue : ∀ x, rows = [[x]] → t.frame.HeldBy t.raw → t.frame.isSingleton = true →
    t.ofValue x = .ok m

theorem exists_makes (ht : t.Covers) (hrows : rows.length = t.frame.rows.length)
    (hcolumns : ∀ row ∈ rows, row.length = t.frame.columns.length) :
    ∃ m, t.Makes rows m ∧ m.type = t ∧ m.rawRows = .ok rows := by
  obtain ⟨zeros, m, hzeros, hframe, hput, hraw⟩ := exists_putRows ht hrows hcolumns
  have hfilled {fill : Matrix t.raw → Except Fault (Matrix t.raw)} (h : fill zeros = .ok m) :
      ((t.zeros : Outcome _) >>= fun z => (fill z : Outcome _)) = .ok m := by
    rw [hzeros]
    show ((fill zeros : Except Fault _) : Outcome _) = _
    rw [h]
    rfl
  have hvector (hv : t.frame.isVector = true) : zeros.putVector rows.flatten = .ok m := by
    rw [← hframe] at hv hrows hcolumns
    rw [Matrix.putVector_flatten hv hrows hcolumns, hput]
  have hlength : rows.flatten.length = t.frame.rows.length * t.frame.columns.length := by
    rw [List.length_flatten, List.map_congr_left hcolumns, List.map_const', List.sum_replicate_nat,
      hrows]
  refine ⟨m, ⟨hraw, fun e he => ?_, fun e he => ?_, fun e he hv => ?_, fun hh hv => ?_,
    fun x hx hh hv => ?_⟩, rawRows_of_ofRawRows ht hraw⟩
  · exact demand_bind_eq_ok_iff.2 ⟨e, he, require_bind_eq_ok_iff.2 ⟨⟨hrows, hcolumns⟩, hfilled hput⟩⟩
  · exact (ofRows_eq_ofRawRows ht he).trans hraw
  · exact require_bind_eq_ok_iff.2 ⟨hv, demand_bind_eq_ok_iff.2 ⟨e, he,
      require_bind_eq_ok_iff.2 ⟨hlength, hfilled (hvector hv)⟩⟩⟩
  · exact require_bind_eq_ok_iff.2 ⟨hv, require_bind_eq_ok_iff.2 ⟨hh,
      require_bind_eq_ok_iff.2 ⟨hlength, hfilled (hvector hv)⟩⟩⟩
  · subst hx
    refine require_bind_eq_ok_iff.2 ⟨⟨hv, hh⟩, hfilled ?_⟩
    rw [← hput, Matrix.putRows_eq]
    exact (bind_pure (zeros.put 0 0 x)).symm

end MatrixType

end UnitMatrix
