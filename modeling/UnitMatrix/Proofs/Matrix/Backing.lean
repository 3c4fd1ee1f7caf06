import UnitMatrix.Proofs.Matrix.Positions

/-! Storage that has a number for every listed position, and perhaps more. This is all that reading a
matrix asks for: where reading stops, it stops at a listed position that the storage does not have. -/

namespace UnitMatrix

namespace Matrix

variable {k : Raw} {m : Matrix k}

/-- The storage goes at least as far as the lists. -/
def Backed (m : Matrix k) : Prop :=
  m.frame.rows.length ≤ m.storage.rows ∧ m.frame.columns.length ≤ m.storage.columns

instance (m : Matrix k) : Decidable m.Backed := inferInstanceAs (Decidable (_ ∧ _))

theorem Backed.exists_get (h : m.Backed) {i j : Nat} (hi : i < m.frame.rows.length)
    (hj : j < m.frame.columns.length) :
    ∃ x, m.storage.get i j = .ok x := by
  have hin : i < m.storage.rows ∧ j < m.storage.columns := ⟨hi.trans_le h.1, hj.trans_le h.2⟩
  obtain ⟨x, hx⟩ := Option.isSome_iff_exists.1 (Grid.get?_isSome_iff.2 hin)
  exact ⟨x, by rw [Grid.get, hx]⟩

/-- A listed position that the storage does not have, and the fault that names it. -/
structure Lacks (m : Matrix k) (e : Fault) (i j : Nat) : Prop where
  row_lt : i < m.frame.rows.length
  column_lt : j < m.frame.columns.length
  outside : m.storage.Outside i j e

theorem exists_lacks_of_rawRows {e : Fault} (h : m.rawRows = .error e) : ∃ i j, m.Lacks e i j := by
  have hread : Ensures m.rawRows (fun _ => True) fun e => ∃ i j, m.Lacks e i j := by
    refine Grid.ensures_row fun i hi => Grid.ensures_row fun j hj => ?_
    refine (m.backend.ensures_get m.storage i j).mono (fun _ _ => trivial) fun e he => ?_
    exact ⟨i, j, List.mem_range.1 hi, List.mem_range.1 hj, he⟩
  rw [h] at hread
  exact hread

theorem lengths_of_rawRows {rows : List (List k.Carrier)} (h : m.rawRows = .ok rows) :
    rows.length = m.frame.rows.length ∧ ∀ row ∈ rows, row.length = m.frame.columns.length := by
  have hread : Ensures m.rawRows
      (fun rows => rows.length = (List.range m.frame.rows.length).length ∧
        ∀ row ∈ rows, row.length = (List.range m.frame.columns.length).length)
      fun _ => True :=
    .mapM fun i _ => (Ensures.mapM fun j _ => Ensures.any (m.backend.get m.storage i j)).mono
      (fun _ hrow => hrow.1) fun _ _ => trivial
  rw [h] at hread
  simpa [Ensures] using hread

theorem exists_lacks_of_toCsv {e : Fault} (h : m.toCsv = .error e) : ∃ i j, m.Lacks e i j := by
  refine exists_lacks_of_rawRows ?_
  rw [toCsv] at h
  cases hrows : m.rawRows with
  | ok rows =>
    rw [hrows] at h
    cases h
  | error e' =>
    rw [hrows] at h
    cases h
    rfl

end Matrix

end UnitMatrix
