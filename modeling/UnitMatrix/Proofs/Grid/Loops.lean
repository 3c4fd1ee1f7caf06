import UnitMatrix.Proofs.Grid.Visits

/-! Both kinds of storage do the same to single grids. The loop that changes every cell in place visits
each of them once, so it leaves what going cell by cell leaves and stops with the same fault; writing the
rows over the columns of zeros leaves no zero; and a position is within the shape exactly if both
lookups find something. Only sums, differences and products are formed in different orders. -/

namespace UnitMatrix

namespace Grid

variable {α : Type} {g : Grid α} {i j : Nat}

theorem getWithin_eq (g : Grid α) (i j : Nat) : g.getWithin i j = g.get i j := by
  unfold getWithin get
  split
  next h =>
    obtain ⟨hi, hj⟩ := h
    have hrow : g.entries[i]? = some (g.entries.get ⟨i, hi⟩) := List.getElem?_eq_getElem hi
    have hcell : g.get? i j = some (g.cell ⟨i, hi⟩ ⟨j, hj⟩) := by
      rw [get?, hrow, Option.bind_some]
      exact List.getElem?_eq_getElem _
    rw [hcell]
  next h => rw [get?_eq_none_iff.2 (by omega)]

theorem setWithin_eq (g : Grid α) (i j : Nat) (x : α) : g.setWithin i j x = g.set i j x := by
  unfold setWithin set
  split
  next h =>
    obtain ⟨y, hy⟩ := Option.isSome_iff_exists.1 (get?_isSome_iff.2 h)
    rw [hy]
    refine congrArg Except.ok (ext rfl (List.ext_getElem? fun n => ?_))
    show (g.entries.set i ((g.entries.get ⟨i, h.1⟩).set j x))[n]? =
      (g.entries.modify i (·.set j x))[n]?
    rw [List.getElem?_modify, List.getElem?_set]
    split
    next hn =>
      subst hn
      have hi : i < g.entries.length := h.1
      simp [hi]
    next => simp
  next h => rw [get?_eq_none_iff.2 (by omega)]

theorem eq_of_failure?_eq {ε β : Type} {x y : Except ε β} (hfault : failure? x = failure? y)
    (hok : ∀ a b, x = .ok a → y = .ok b → a = b) : x = y := by
  cases x with
  | ok a =>
    cases y with
    | ok b => rw [hok a b rfl rfl]
    | error e => cases hfault
  | error e =>
    cases y with
    | ok b => cases hfault
    | error e' => rw [Option.some.inj hfault]

theorem updateEach_eq (f : α → Except Fault α) (g : Grid α) : g.updateEach f = g.mapM f := by
  have hwalk := (visits_modifyM f (nodup_rectangle g.rows g.columns)
    (inside_of_mem_rectangle le_rfl le_rfl)).walk
  rw [foldlM_product] at hwalk
  refine eq_of_failure?_eq ?_ fun h h' hloop hmap => ?_
  · rw [failure?_cells]
    exact hwalk.1.trans (findSome?_product ..)
  · exact (hwalk.2 h hloop).holds.unique (mapM_eq_ok_iff_holds.1 hmap)

theorem length_writeColumn (i : Nat) (out : List (List α)) (values : List α) :
    (writeColumn i out values).length = out.length := by
  induction out generalizing values with
  | nil => rfl
  | cons row out ih =>
    cases values with
    | nil => rfl
    | cons x values => simp [writeColumn, ih]

theorem getElem?_writeColumn {out : List (List α)} {values row : List α} {x : α}
    (hrow : out[j]? = some row) (hx : values[j]? = some x) :
    (writeColumn i out values)[j]? = some (row.set i x) := by
  induction out generalizing values j with
  | nil => cases hrow
  | cons row' out ih =>
    cases values with
    | nil => cases hx
    | cons x' values =>
      cases j with
      | zero =>
        cases hrow
        cases hx
        rfl
      | succ j => exact ih hrow hx

/-- The columns that are written so far stand in front of zeros. -/
theorem getElem?_foldl_writeColumn {rows out : List (List α)} {written zeros : List α}
    (hrows : ∀ row ∈ rows, j < row.length) (hout : out[j]? = some (written ++ zeros))
    (hzeros : zeros.length = rows.length) :
    ((rows.zipIdx written.length).foldl (fun out r => writeColumn r.2 out r.1) out)[j]? =
      some (written ++ rows.filterMap (·[j]?)) := by
  induction rows generalizing out written zeros with
  | nil =>
    rw [List.length_eq_zero_iff.1 hzeros] at hout
    exact hout
  | cons row rows ih =>
    rw [List.forall_mem_cons] at hrows
    obtain ⟨y, zeros, rfl⟩ := List.exists_cons_of_length_eq_add_one hzeros
    have hx := List.getElem?_eq_getElem hrows.1
    have hset : (written ++ y :: zeros).set written.length row[j] =
        (written ++ [row[j]]) ++ zeros := by simp
    have hnext := getElem?_writeColumn (i := written.length) hout hx
    rw [hset] at hnext
    have hrest := ih hrows.2 hnext (Nat.succ.inj hzeros)
    rw [List.length_append, List.length_singleton] at hrest
    rw [List.zipIdx_cons, List.foldl_cons, List.filterMap_cons, hx]
    simpa using hrest

theorem transposeInto_eq [Arithmetic α] (g : Grid α) : g.transposeInto = g.transpose := by
  refine ext rfl (List.ext_getElem? fun j => ?_)
  have hlength : g.transposeInto.entries.length = g.columns := by
    have hfold : ∀ (rows : List (List α × Nat)) (out : List (List α)),
        (rows.foldl (fun out r => writeColumn r.2 out r.1) out).length = out.length := fun rows out => by
      induction rows generalizing out with
      | nil => rfl
      | cons r rows ih => exact (ih _).trans (length_writeColumn ..)
    exact (hfold _ _).trans List.length_replicate
  by_cases hj : j < g.columns
  · have hzeros : (List.replicate g.columns (List.replicate g.rows Arithmetic.zero))[j]? =
        some (([] : List α) ++ List.replicate g.rows Arithmetic.zero) := by simp [hj]
    have hwritten := getElem?_foldl_writeColumn
      (fun row hrow => (g.rectangular row hrow).symm ▸ hj) hzeros List.length_replicate
    rw [transposeInto, transpose, List.getElem?_map, List.getElem?_range hj]
    exact hwritten
  · rw [List.getElem?_eq_none (by omega), List.getElem?_eq_none (by simp [transpose]; omega)]

end Grid

namespace Backend

section Cells

variable {α : Type} (b : Backend) (g : Grid α)

@[simp] theorem get_eq (i j : Nat) : b.get g i j = g.get i j := by
  cases b with
  | fixed => rfl
  | dynamic => exact g.getWithin_eq i j

@[simp] theorem set_eq (i j : Nat) (x : α) : b.set g i j x = g.set i j x := by
  cases b with
  | fixed => rfl
  | dynamic => exact g.setWithin_eq i j x

@[simp] theorem modifyM_eq (i j : Nat) (f : α → Except Fault α) :
    b.modifyM g i j f = g.modifyM i j f := by
  simp only [modifyM, Grid.modifyM, get_eq, set_eq]

@[simp] theorem readRows_eq (rows columns : Nat) :
    b.readRows g rows columns = g.readRows rows columns := by
  simp only [readRows, Grid.readRows, get_eq]

@[simp] theorem scalar_eq (x : α) : b.scalar x = .replicate 1 1 x := by
  cases b <;> rfl

theorem ensures_get (i j : Nat) : Ensures (b.get g i j) (fun _ => True) (g.Outside i j) := by
  rw [get_eq]
  exact g.ensures_get i j

theorem ensures_set (i j : Nat) (x : α) :
    Ensures (b.set g i j x) (fun h => h.Extent g.rows g.columns) (g.Outside i j) := by
  rw [set_eq]
  exact g.ensures_set i j x

theorem ensures_modifyM {E : Fault → Prop} (i j : Nat) {f : α → Except Fault α}
    (hf : ∀ x, Ensures (f x) (fun _ => True) E) :
    Ensures (b.modifyM g i j f) (fun h => h.Extent g.rows g.columns)
      fun e => g.Outside i j e ∨ E e := by
  rw [modifyM_eq]
  exact g.ensures_modifyM i j hf

end Cells

section Numbers

variable {α : Type} [Arithmetic α] (b : Backend) (g : Grid α)

@[simp] theorem transpose_eq : b.transpose g = g.transpose := by
  cases b with
  | fixed => exact g.transposeInto_eq
  | dynamic => rfl

@[simp] theorem scale_eq (factor : α) : b.scale g factor = g.scale factor := by
  cases b with
  | fixed => exact Grid.updateEach_eq _ g
  | dynamic => rfl

@[simp] theorem divideBy_eq (divisor : α) : b.divideBy g divisor = g.divideBy divisor := by
  cases b with
  | fixed => exact Grid.updateEach_eq _ g
  | dynamic => rfl

variable [Shapeless α] {rows columns : Nat} {g} (hg : g.Extent rows columns)

include hg

theorem ensures_scale (factor : α) :
    Ensures (b.scale g factor) (fun h => h.Extent rows columns) fun e => ¬ e.IsShape := by
  rw [scale_eq]
  exact hg.scale factor

theorem ensures_divideBy (divisor : α) :
    Ensures (b.divideBy g divisor) (fun h => h.Extent rows columns) fun e => ¬ e.IsShape := by
  rw [divideBy_eq]
  exact hg.divideBy divisor

end Numbers

end Backend

namespace Matrix

variable {k : Raw} (m : Matrix k)

theorem storage_transpose : m.transpose.storage = m.storage.transpose :=
  m.backend.transpose_eq m.storage

theorem put_eq (i j : Nat) (x : k.Carrier) : m.put i j x = (m.storage.set i j x).map m.withStorage := by
  rw [put, Backend.set_eq]

theorem ofScalar_eq (b : Backend) (e : Index) (x : k.Carrier) :
    ofScalar b e x = ⟨b, .ofScalar e, .replicate 1 1 x⟩ := by
  rw [ofScalar, Backend.scalar_eq]

end Matrix

end UnitMatrix
