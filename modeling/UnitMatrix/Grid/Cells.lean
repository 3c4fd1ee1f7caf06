import UnitMatrix.Grid

/-! Grids through their cells. Shape and cells determine a grid, and here stands what each operation
does to them: transposing exchanges the two parts of a position, setting changes one cell and
nothing else, and a position outside is the only reason why setting fails. -/

namespace UnitMatrix

namespace Grid

variable {α : Type}

theorem get?_eq_none_iff {g : Grid α} {i j : Nat} :
    g.get? i j = none ↔ g.rows ≤ i ∨ g.columns ≤ j := by
  rw [get?]
  by_cases hi : i < g.entries.length
  · have hr := g.rectangular g.entries[i] (List.getElem_mem hi)
    rw [List.getElem?_eq_getElem hi, Option.bind_some, List.getElem?_eq_none_iff, hr]
    exact ⟨.inr, fun h => h.resolve_left (Nat.not_le_of_lt hi)⟩
  · have hi := Nat.le_of_not_lt hi
    rw [List.getElem?_eq_none hi]
    exact ⟨fun _ => .inl hi, fun _ => rfl⟩

theorem get?_isSome_iff {g : Grid α} {i j : Nat} :
    (g.get? i j).isSome ↔ i < g.rows ∧ j < g.columns := by
  rw [Option.isSome_iff_ne_none, Ne, get?_eq_none_iff]
  omega

/-- Two grids of one shape with the same cells are the same. -/
theorem ext_get? {g h : Grid α} (hr : g.rows = h.rows) (hc : g.columns = h.columns)
    (hget : ∀ i j, g.get? i j = h.get? i j) : g = h := by
  refine ext hc (List.ext_getElem hr fun i hi hi' => List.ext_getElem? fun j => ?_)
  simpa [get?, hi, hi'] using hget i j

@[simp] theorem rows_replicate (m n : Nat) (x : α) : (replicate m n x).rows = m := by
  simp [replicate, rows]

theorem set_eq_error_iff {g : Grid α} {i j : Nat} {x : α} {e : Fault} :
    g.set i j x = .error e ↔ (g.rows ≤ i ∨ g.columns ≤ j) ∧ e = g.outside i j := by
  rw [← get?_eq_none_iff, set]
  cases g.get? i j <;> simp [eq_comm]

/-- The cell that was set holds the new value, every other cell what it held before. -/
theorem get?_of_set {g h : Grid α} {i j p q : Nat} {x : α} (hs : g.set i j x = .ok h) :
    h.get? p q = if p = i ∧ q = j then some x else g.get? p q := by
  unfold set at hs
  split at hs
  · cases hs
  next y hy =>
    cases hs
    obtain ⟨hi, hj⟩ := get?_isSome_iff.1 (Option.isSome_of_mem hy)
    by_cases hp : p = i
    · subst hp
      have hi : p < g.entries.length := hi
      have hr := g.rectangular g.entries[p] (List.getElem_mem hi)
      simp only [get?, List.getElem?_modify_eq, List.getElem?_eq_getElem hi, Option.bind_some,
        true_and]
      by_cases hq : q = j
      · subst hq
        simp [hr, hj]
      · simp [hq, List.getElem?_set_ne (Ne.symm hq)]
    · simp [get?, hp, List.getElem?_modify_ne _ _ (Ne.symm hp)]

theorem rows_of_set {g h : Grid α} {i j : Nat} {x : α} (hs : g.set i j x = .ok h) :
    h.rows = g.rows := by
  unfold set at hs
  split at hs
  · cases hs
  · cases hs; simp [rows]

theorem columns_of_set {g h : Grid α} {i j : Nat} {x : α} (hs : g.set i j x = .ok h) :
    h.columns = g.columns := by
  unfold set at hs
  split at hs
  · cases hs
  · cases hs; rfl

/-- So does reading, also where there is nothing to read. -/
theorem get_of_set {g h : Grid α} {i j p q : Nat} {x : α} (hs : g.set i j x = .ok h) :
    h.get p q = if p = i ∧ q = j then .ok x else g.get p q := by
  by_cases hpq : p = i ∧ q = j
  · rw [get, get?_of_set hs, if_pos hpq, if_pos hpq]
  · rw [get, get?_of_set hs, if_neg hpq, if_neg hpq, get, outside, outside, rows_of_set hs,
      columns_of_set hs]

@[simp] theorem rows_transpose (g : Grid α) : g.transpose.rows = g.columns := by
  simp [transpose, rows]

@[simp] theorem columns_transpose (g : Grid α) : g.transpose.columns = g.rows := rfl

theorem get?_transpose (g : Grid α) (i j : Nat) : g.transpose.get? i j = g.get? j i := by
  have cells : ∀ rows : List (List α), (∀ r ∈ rows, r.length = g.columns) → i < g.columns →
      ∀ j : Nat, (rows.filterMap (·[i]?))[j]? = rows[j]?.bind (·[i]?) := by
    intro rows h hi
    induction rows with
    | nil => simp
    | cons r rs ih =>
      intro j
      have hr : i < r.length := by rw [h r (by simp)]; exact hi
      rw [List.filterMap_cons, List.getElem?_eq_getElem hr]
      cases j with
      | zero => simp [hr]
      | succ j => simpa using ih (fun r' hr' => h r' (by simp [hr'])) j
  by_cases hi : i < g.columns
  · simp only [get?, transpose, List.getElem?_map, List.getElem?_range hi, Option.map_some,
      Option.bind_some]
    exact cells _ g.rectangular hi j
  · rw [get?_eq_none_iff.2 (.inr (Nat.le_of_not_lt hi)), get?_eq_none_iff]
    exact .inl (by simpa [transpose, rows] using hi)

theorem transpose_transpose (g : Grid α) : g.transpose.transpose = g :=
  ext_get? (by simp) (by simp) fun i j => by rw [get?_transpose, get?_transpose]

end Grid

end UnitMatrix
