import UnitMatrix.Program.Arrays
import UnitMatrix.Proofs.Grid.Loops

/-! Arrays through views. A slice selects positions within its axis, none of them twice, whatever its
step and its direction; so a view meets each selected cell of the array once. What is read through a
view is what a copy of the selection holds, and what is changed through it is changed as on such a copy,
while all cells that are not selected stay as they are. Positions are those of the view: one that it
does not have is outside, however large the array is. -/

namespace UnitMatrix

namespace Slice

variable {s : Slice} {extent n p : Nat}

structure Within (s : Slice) (extent : Nat) : Prop where
  start_le : s.start ≤ s.stop
  stop_le : s.stop ≤ extent
  step_ne : s.step ≠ 0

theorem lt_count_iff (h : s.step ≠ 0) : n < s.count ↔ n * s.step.natAbs < s.stop - s.start := by
  have hpos : 0 < s.step.natAbs := Int.natAbs_pos.2 h
  rw [count, Nat.lt_iff_add_one_le, Nat.le_div_iff_mul_le hpos, Nat.succ_mul]
  omega

theorem position_bounds (hs : s.Within extent) (hn : n < s.count) :
    s.start ≤ s.position n ∧ s.position n < s.stop := by
  have hlt := (lt_count_iff hs.step_ne).1 hn
  unfold position
  split <;> omega

theorem position_injective (hs : s.Within extent) {m : Nat} (hm : m < s.count) (hn : n < s.count)
    (h : s.position m = s.position n) : m = n := by
  have hpos : 0 < s.step.natAbs := Int.natAbs_pos.2 hs.step_ne
  have hm := (lt_count_iff hs.step_ne).1 hm
  have hn := (lt_count_iff hs.step_ne).1 hn
  refine Nat.eq_of_mul_eq_mul_right hpos ?_
  unfold position at h
  split at h <;> omega

theorem length_positions : s.positions.length = s.count := by
  rw [positions, List.length_map, List.length_range]

theorem getElem?_positions (hn : n < s.count) : s.positions[n]? = some (s.position n) := by
  rw [positions, List.getElem?_map, List.getElem?_range hn]
  rfl

theorem nodup_positions (hs : s.Within extent) : s.positions.Nodup := by
  refine List.Nodup.map_on (fun m hm n hn h => ?_) List.nodup_range
  exact position_injective hs (List.mem_range.1 hm) (List.mem_range.1 hn) h

/-- Every position of the range whose distance from the first one selected is a multiple of the step. -/
theorem mem_positions_iff (hs : s.Within extent) :
    p ∈ s.positions ↔ (s.start ≤ p ∧ p < s.stop) ∧
      s.step.natAbs ∣ if 0 < s.step then p - s.start else s.stop - 1 - p := by
  constructor
  · intro hp
    obtain ⟨n, hn, rfl⟩ := List.mem_map.1 hp
    have hn := List.mem_range.1 hn
    refine ⟨position_bounds hs hn, n, ?_⟩
    have hlt := (lt_count_iff hs.step_ne).1 hn
    rw [Nat.mul_comm]
    unfold position
    split <;> omega
  · rintro ⟨⟨hstart, hstop⟩, n, hn⟩
    rw [Nat.mul_comm] at hn
    refine List.mem_map.2 ⟨n, List.mem_range.2 ((lt_count_iff hs.step_ne).2 ?_), ?_⟩
    · split at hn <;> omega
    · unfold position
      split at hn <;> rename_i hstep
      · rw [if_pos hstep]
        omega
      · rw [if_neg hstep]
        omega

end Slice

theorem getElem?_eq_iff {xs : List Nat} (hxs : xs.Nodup) {m n x y : Nat} (hm : xs[m]? = some x)
    (hn : xs[n]? = some y) : x = y ↔ m = n := by
  obtain ⟨hmlt, rfl⟩ := List.getElem?_eq_some_iff.1 hm
  obtain ⟨hnlt, rfl⟩ := List.getElem?_eq_some_iff.1 hn
  exact hxs.getElem_inj_iff

namespace View

variable {α : Type} {v : View α} {c h : Grid α} {i j p q : Nat}

/-- The rows and columns selected are in the grid, and none is selected twice. -/
structure Selects (v : View α) : Prop where
  rows_lt : ∀ p ∈ v.rows, p < v.grid.rows
  columns_lt : ∀ q ∈ v.columns, q < v.grid.columns
  rows_nodup : v.rows.Nodup
  columns_nodup : v.columns.Nodup

theorem selects_ofSlices {g : Grid α} {rows columns : Slice} (hr : rows.Within g.rows)
    (hc : columns.Within g.columns) : (ofSlices g rows columns).Selects where
  rows_lt _ hp := ((Slice.mem_positions_iff hr).1 hp).1.2.trans_le hr.stop_le
  columns_lt _ hq := ((Slice.mem_positions_iff hc).1 hq).1.2.trans_le hc.stop_le
  rows_nodup := Slice.nodup_positions hr
  columns_nodup := Slice.nodup_positions hc

theorem locate_eq_ok (hp : v.rows[i]? = some p) (hq : v.columns[j]? = some q) :
    v.locate i j = .ok (p, q) := by
  rw [locate, hp, hq]

theorem locate_of_outside (h : v.rows.length ≤ i ∨ v.columns.length ≤ j) :
    v.locate i j = .error (.outside i j v.rows.length v.columns.length) := by
  unfold locate
  split
  next p q hp hq =>
    have hi := (List.getElem?_eq_some_iff.1 hp).1
    have hj := (List.getElem?_eq_some_iff.1 hq).1
    omega
  next => rfl

theorem set_of_outside (h : v.rows.length ≤ i ∨ v.columns.length ≤ j) (x : α) :
    v.set i j x = .error (.outside i j v.rows.length v.columns.length) := by
  rw [set, locate_of_outside h]
  rfl

theorem get_eq (hp : v.rows[i]? = some p) (hq : v.columns[j]? = some q) :
    v.get i j = v.grid.get p q := by
  rw [get, locate_eq_ok hp hq]
  rfl

theorem copy_eq_ok_iff : v.copy = .ok c ↔ c.Holds v.get v.rows.length v.columns.length := by
  refine Grid.ofRowsM_eq_ok_iff_holds _ fun i p row hp => ?_
  exact mapM_eq_ok_iff_holdsRow _ fun j q hq => (get_eq hp hq).symm

theorem transpose_eq_ok_iff :
    v.transpose = .ok c ↔ c.Holds (fun j i => v.get i j) v.columns.length v.rows.length := by
  refine Grid.ofRowsM_eq_ok_iff_holds _ fun j q row hq => ?_
  exact mapM_eq_ok_iff_holdsRow _ fun i p hp => (get_eq hp hq).symm

theorem exists_copy (hv : v.Selects) : ∃ c, v.copy = .ok c := by
  have hcopy : Ensures v.copy (fun c => c.Extent v.rows.length v.columns.length) fun _ => False :=
    Grid.ensures_ofRowsM rfl fun p hp => Grid.ensures_row fun q hq =>
      Grid.Extent.get ⟨rfl, rfl⟩ (hv.rows_lt p hp) (hv.columns_lt q hq)
  exact hcopy.exists_ok.imp fun _ hc => hc.1

theorem extent_of_copy (hc : v.copy = .ok c) : c.Extent v.rows.length v.columns.length :=
  (copy_eq_ok_iff.1 hc).1

theorem get?_of_copy (hc : v.copy = .ok c) (hp : v.rows[i]? = some p) (hq : v.columns[j]? = some q) :
    c.get? i j = v.grid.get? p q := by
  obtain ⟨x, hx, hget⟩ := (copy_eq_ok_iff.1 hc).2 i j (List.getElem?_eq_some_iff.1 hp).1
    (List.getElem?_eq_some_iff.1 hq).1
  rw [get_eq hp hq, Grid.get] at hget
  split at hget
  next y hy =>
    cases hget
    rw [hx, hy]
  next => cases hget

/-- Reading through a view is reading the copy, also where there is nothing to read. -/
theorem get_of_copy (hc : v.copy = .ok c) (i j : Nat) : v.get i j = c.get i j := by
  have hextent := extent_of_copy hc
  by_cases hin : i < v.rows.length ∧ j < v.columns.length
  · obtain ⟨x, hx, hget⟩ := (copy_eq_ok_iff.1 hc).2 i j hin.1 hin.2
    rw [hget, Grid.get, hx]
  · have hout : v.rows.length ≤ i ∨ v.columns.length ≤ j := by omega
    have hnone : c.get? i j = none := Grid.get?_eq_none_iff.2 (by rwa [hextent.1, hextent.2])
    rw [get, locate_of_outside hout, Grid.get, hnone, Grid.outside, hextent.1, hextent.2]
    rfl

theorem transpose_of_copy (hc : v.copy = .ok c) : v.transpose = .ok c.transpose :=
  transpose_eq_ok_iff.2 ((Grid.holds_transpose v.get).2 (copy_eq_ok_iff.1 hc))

/-- `h` is the grid of the view with the cells of `c` in the selected places. -/
structure Written (v : View α) (c h : Grid α) : Prop where
  extent : h.Extent v.grid.rows v.grid.columns
  selected : ∀ i j p q, v.rows[i]? = some p → v.columns[j]? = some q → h.get? p q = c.get? i j
  others : ∀ p q, p ∉ v.rows ∨ q ∉ v.columns → h.get? p q = v.grid.get? p q

/-- What is done through the view ends as the same does on a grid of its own: with the same fault, or
with the same cells in the selected places and all others as they were. -/
def Mirrors (v : View α) (through own : Except Fault (Grid α)) : Prop :=
  match own with
  | .ok c => ∃ h, through = .ok h ∧ v.Written c h
  | .error e => through = .error e

theorem failure?_modifyM (hc : v.copy = .ok c) (f : α → Except Fault α) :
    (v.rows ×ˢ v.columns).findSome? (fun c => failure? (v.grid.get c.1 c.2 >>= f)) =
      failure? (c.mapM f) := by
  obtain ⟨hr, hcol⟩ := extent_of_copy hc
  rw [Grid.failure?_cells, findSome?_product, hr, hcol]
  refine findSome?_eq_range fun i p hp => findSome?_eq_range fun j q hq => ?_
  rw [← get_of_copy hc, get_eq hp hq]

/-- Selected cells that have gone through `f` are those of a copy that has. -/
theorem written_of_replaces {f : α → Except Fault α} {c' : Grid α} (hc : v.copy = .ok c)
    (hown : c.mapM f = .ok c') (hh : Grid.Replaces (fun c => v.grid.get c.1 c.2 >>= f)
      (v.rows ×ˢ v.columns) v.grid h) : v.Written c' h where
  extent := hh.extent
  selected i j p q hp hq := by
    obtain ⟨hr, hcol⟩ := extent_of_copy hc
    obtain ⟨x, hx, hget⟩ := hh.replaced (p, q)
      (List.mem_product.2 ⟨List.mem_of_getElem? hp, List.mem_of_getElem? hq⟩)
    obtain ⟨y, hy, hcell⟩ := (Grid.mapM_eq_ok_iff_holds.1 hown).2 i j
      (hr ▸ (List.getElem?_eq_some_iff.1 hp).1) (hcol ▸ (List.getElem?_eq_some_iff.1 hq).1)
    have hcell : c.get i j >>= f = .ok y := hcell
    rw [← get_of_copy hc, get_eq hp hq] at hcell
    rw [hget, hy, Except.ok.inj (hx.symm.trans hcell)]
  others p q hout := by
    refine hh.kept p q fun hmem => ?_
    obtain ⟨hp, hq⟩ := List.mem_product.1 hmem
    exact hout.elim (fun h => h hp) fun h => h hq

theorem mirrors_modifyM (hv : v.Selects) (hc : v.copy = .ok c) (f : α → Except Fault α) :
    v.Mirrors (v.modifyM f) (c.mapM f) := by
  have hvisits := Grid.visits_modifyM (g := v.grid) f (hv.rows_nodup.product hv.columns_nodup)
    fun c hc => ⟨hv.rows_lt _ (List.mem_product.1 hc).1, hv.columns_lt _ (List.mem_product.1 hc).2⟩
  obtain ⟨hfault, hwalk⟩ := hvisits.walk
  rw [foldlM_product, failure?_modifyM hc] at hfault
  cases hown : c.mapM f with
  | error e =>
    rw [hown] at hfault
    exact failure?_eq_some_iff.1 hfault
  | ok c' =>
    rw [hown] at hfault
    obtain ⟨h, hthrough⟩ := exists_of_failure?_eq_none hfault
    have hreplaces := hwalk h ((foldlM_product ..).trans hthrough)
    exact ⟨h, hthrough, written_of_replaces hc hown hreplaces⟩

theorem mirrors_set (hv : v.Selects) (hc : v.copy = .ok c) (i j : Nat) (x : α) :
    v.Mirrors (v.set i j x) (c.set i j x) := by
  obtain ⟨hr, hcol⟩ := extent_of_copy hc
  by_cases hin : i < v.rows.length ∧ j < v.columns.length
  · obtain ⟨c', hown, -⟩ := (Grid.Extent.set ⟨hr, hcol⟩ hin.1 hin.2 x).exists_ok
    have hp := List.getElem?_eq_getElem hin.1
    have hq := List.getElem?_eq_getElem hin.2
    obtain ⟨h, hset, hextent⟩ := (Grid.Extent.set ⟨rfl, rfl⟩
      (hv.rows_lt _ (List.mem_of_getElem? hp)) (hv.columns_lt _ (List.mem_of_getElem? hq)) x).exists_ok
    have hthrough : v.set i j x = .ok h := by
      rw [set, locate_eq_ok hp hq]
      exact hset
    unfold Mirrors
    rw [hown]
    refine ⟨h, hthrough, hextent, fun i' j' p' q' hp' hq' => ?_, fun p' q' hout => ?_⟩
    · -- the same place of the view is the same place of the grid, for none is selected twice
      have hplace : (p' = v.rows[i] ∧ q' = v.columns[j]) ↔ (i' = i ∧ j' = j) :=
        and_congr (getElem?_eq_iff hv.rows_nodup hp' hp) (getElem?_eq_iff hv.columns_nodup hq' hq)
      rw [Grid.get?_of_set hset, Grid.get?_of_set hown, get?_of_copy hc hp' hq']
      simp only [hplace]
    · rw [Grid.get?_of_set hset, if_neg]
      rintro ⟨rfl, rfl⟩
      exact hout.elim (fun h => h (List.getElem_mem _)) fun h => h (List.getElem_mem _)
  · have hout : v.rows.length ≤ i ∨ v.columns.length ≤ j := by omega
    have hown : c.set i j x = .error (c.outside i j) :=
      Grid.set_eq_error_iff.2 ⟨by rwa [hr, hcol], rfl⟩
    unfold Mirrors
    rw [hown, set_of_outside hout, Grid.outside, hr, hcol]

end View

section Programs

variable {α : Type} [Arithmetic α] [RootField α] {s : Arrays α} {name own : String} {g c : Grid α}
  {rows columns : Slice}

/-- What a program reads through a view, and what it makes of it, are those of a copy. -/
structure SameReadings (s : Arrays α) (name : String) (rows columns : Slice) (own : String) : Prop where
  element : ∀ i j, s.step (.view name rows columns (.element i j)) = s.step (.element own i j)
  transpose : ∀ target,
    s.step (.view name rows columns (.transpose target)) = s.step (.transpose own target)
  divide : ∀ divisor target,
    s.step (.view name rows columns (.divide divisor target)) = s.step (.divide own divisor target)

theorem sameReadings_of_copy (hg : s.lookup name = some g) (hown : s.lookup own = some c)
    (hcopy : (View.ofSlices g rows columns).copy = .ok c) : SameReadings s name rows columns own := by
  have hname : s.get name = .ok g := by rw [Arrays.get, hg]; rfl
  have hown : s.get own = .ok c := by rw [Arrays.get, hown]; rfl
  refine ⟨fun i j => ?_, fun target => ?_, fun divisor target => ?_⟩
  · simp only [Arrays.step, Arrays.act, hname, hown, View.get_of_copy hcopy, Backend.get_eq]
    rfl
  · simp only [Arrays.step, Arrays.act, hname, hown, View.transpose_of_copy hcopy,
      Backend.transpose_eq]
    rfl
  · simp only [Arrays.step, Arrays.act, hname, hown, hcopy]
    rfl

end Programs

namespace View

variable {k : Raw} {v : View k.Carrier} {g c : Grid k.Carrier} {rows columns : Slice}

/-- What goes through the view ends as it does on `c`, a grid of its own, and leaves all cells that the
view does not have as they were. -/
structure ActsAs (v : View k.Carrier) (c : Grid k.Carrier) : Prop where
  get : ∀ i j, v.get i j = c.get i j
  transpose : v.transpose = .ok c.transpose
  set : ∀ i j x, v.Mirrors (v.set i j x) (c.set i j x)
  scale : ∀ x, v.Mirrors (v.scale x) (c.scale x)
  divideBy : ∀ x, v.Mirrors (v.divideBy x) (c.divideBy x)

theorem actsAs_copy (hv : v.Selects) (hc : v.copy = .ok c) : v.ActsAs c where
  get := get_of_copy hc
  transpose := transpose_of_copy hc
  set := mirrors_set hv hc
  scale x := mirrors_modifyM hv hc (Arithmetic.mul · x)
  divideBy x := mirrors_modifyM hv hc (Arithmetic.div · x)

/-- A position that the view does not have is outside, and the shape is that of the view. -/
def Refuses (v : View k.Carrier) (rows columns : Nat) : Prop :=
  ∀ i j, rows ≤ i ∨ columns ≤ j → v.get i j = .error (.outside i j rows columns) ∧
    ∀ x, v.set i j x = .error (.outside i j rows columns)

theorem refuses_outside (v : View k.Carrier) : v.Refuses v.rows.length v.columns.length := by
  intro i j hout
  refine ⟨?_, set_of_outside hout⟩
  rw [View.get, locate_of_outside hout]
  rfl

/-- The view of two slices has a copy, whose cells are the selected ones in their order, and it acts as
this copy does. Within the view a cell can always be set, and floating point numbers can always be scaled
and divided; outside the view there is nothing. -/
theorem ofSlices_actsAs_copy (hr : rows.Within g.rows) (hc : columns.Within g.columns) :
    ∃ c, (ofSlices g rows columns).copy = .ok c ∧ c.Extent rows.count columns.count ∧
      (∀ i j, i < rows.count → j < columns.count →
        c.get? i j = g.get? (rows.position i) (columns.position j)) ∧
      (ofSlices g rows columns).ActsAs c ∧
      (∀ i j x, i < rows.count → j < columns.count → ∃ c', c.set i j x = .ok c') ∧
      (k.IsFloating → ∀ x, (∃ c', c.scale x = .ok c') ∧ ∃ c', c.divideBy x = .ok c') ∧
      (ofSlices g rows columns).Refuses rows.count columns.count ∧
      ∀ [RootField k.Carrier] (s : Arrays k.Carrier) (name own : String), s.lookup name = some g →
        s.lookup own = some c → SameReadings s name rows columns own := by
  have hv := selects_ofSlices hr hc
  obtain ⟨c, hcopy⟩ := exists_copy hv
  have hextent : c.Extent rows.count columns.count := by
    simpa only [ofSlices, Slice.length_positions] using extent_of_copy hcopy
  refine ⟨c, hcopy, hextent, fun i j hi hj => ?_, actsAs_copy hv hcopy, fun i j x hi hj => ?_,
    fun hk x => ⟨?_, ?_⟩, ?_, fun s name own hg hown => sameReadings_of_copy hg hown hcopy⟩
  · exact get?_of_copy hcopy (Slice.getElem?_positions hi) (Slice.getElem?_positions hj)
  · exact (hextent.set hi hj x).exists_ok.imp fun _ h => h.1
  · exact (Grid.exists_scale hk c x).imp fun _ h => h.1
  · exact (Grid.exists_divideBy hk c x).imp fun _ h => h.1
  · simpa only [ofSlices, Slice.length_positions] using refuses_outside (ofSlices g rows columns)

def board : Grid Raw.double.Carrier := ⟨4, [[1, 2, 3, 4], [5, 6, 7, 8], [9, 10, 11, 12]], by simp⟩

/-- Every second row from the last one back, and every second of the last three columns: the middle row
and the columns in between are not touched, and the position `(2, 0)` is outside. -/
theorem board_actsAs_copy : (⟨0, 3, -2⟩ : Slice).Within 3 ∧ (⟨1, 4, 2⟩ : Slice).Within 4 ∧
    (⟨0, 3, -2⟩ : Slice).positions = [2, 0] ∧ (⟨1, 4, 2⟩ : Slice).positions = [1, 3] ∧
    ∃ c, (ofSlices board ⟨0, 3, -2⟩ ⟨1, 4, 2⟩).copy = .ok c ∧
      (ofSlices board ⟨0, 3, -2⟩ ⟨1, 4, 2⟩).ActsAs c ∧ (∃ c', c.scale (2 : Float) = .ok c') ∧
      (ofSlices board ⟨0, 3, -2⟩ ⟨1, 4, 2⟩).get 2 0 = .error (.outside 2 0 2 2) ∧
      SameReadings [("board", board), ("own", c)] "board" ⟨0, 3, -2⟩ ⟨1, 4, 2⟩ "own" := by
  have hr : (⟨0, 3, -2⟩ : Slice).Within 3 := ⟨by decide, by decide, by decide⟩
  have hc : (⟨1, 4, 2⟩ : Slice).Within 4 := ⟨by decide, by decide, by decide⟩
  obtain ⟨c, hcopy, -, -, hacts, -, hscale, hrefuses, hreadings⟩ :=
    ofSlices_actsAs_copy (k := .double) (g := board) hr hc
  exact ⟨hr, hc, by decide, by decide, c, hcopy, hacts, (hscale (.inl rfl) 2).1,
    (hrefuses 2 0 (by decide)).1, hreadings _ "board" "own" rfl rfl⟩

end View

end UnitMatrix
