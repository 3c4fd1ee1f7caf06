import Mathlib.Data.List.GetD
import Mathlib.Data.List.Nodup
import Mathlib.Data.List.Perm.Basic
import Mathlib.Order.Lattice
import UnitMatrix.Division

/-! What elimination does to the order of the columns, whatever the numbers are. A pivot is a largest
column by any size that the comparison goes by. Pivots and the columns left over are the columns of
the beginning in another order, there are no more pivots than steps, and a solution is written to
the places that its pivots had, with zeros everywhere else. -/

namespace UnitMatrix

variable {K : Type}

theorem bringForward_perm (best : Nat) (columns : List (Column K)) :
    (bringForward best columns).Perm columns := by
  cases columns with
  | nil => exact .refl _
  | cons first others =>
    cases best with
    | zero => exact .refl _
    | succ n =>
      simp only [bringForward]
      rcases Nat.lt_or_ge n others.length with hn | hn
      · rw [List.getD_eq_getElem _ _ hn, List.set_eq_take_append_cons_drop, if_pos hn]
        conv => rhs; rw [← List.take_append_drop n others, List.drop_eq_getElem_cons hn]
        exact (List.perm_middle.cons _).trans ((List.Perm.swap ..).trans (List.perm_middle.symm.cons _))
      · rw [List.getD_eq_default _ _ hn, List.set_eq_of_length_le hn]

/-- What comes to the front is a matter of the position alone. -/
theorem origins_bringForward {columns columns' : List (Column K)}
    (h : columns'.map Column.origin = columns.map Column.origin) (best : Nat) :
    (bringForward best columns').map Column.origin =
      (bringForward best columns).map Column.origin := by
  cases columns with
  | nil => rw [List.map_eq_nil_iff.1 h]
  | cons first others =>
    obtain ⟨first', others', rfl, hfirst, hothers⟩ := List.map_eq_cons_iff.1 h
    cases best with
    | zero => exact h
    | succ best =>
      simp only [bringForward, List.map_cons, List.map_set, ← List.getD_map, hfirst, hothers]

/-- The column at the position comes to the front. -/
theorem getElem?_of_bringForward {best : Nat} {columns others : List (Column K)} {pivot : Column K}
    (h : bringForward best columns = pivot :: others) (hbest : best < columns.length) :
    columns[best]? = some pivot := by
  cases columns with
  | nil => simp at hbest
  | cons first rest =>
    cases best with
    | zero =>
      cases h
      rfl
    | succ n =>
      have hn : n < rest.length := Nat.lt_of_succ_lt_succ hbest
      have hhead : rest.getD n first = pivot := (List.cons.inj h).1
      rw [List.getElem?_cons_succ, ← hhead, List.getD_eq_getElem _ _ hn, List.getElem?_eq_getElem hn]

variable [RootField K]

theorem choosePivot_perm (k : Nat) (columns : List (Column K)) :
    (choosePivot k columns).Perm columns :=
  bringForward_perm _ _

section Largest

open RootField

/-- A scan for the last of the largest ends at one of the pairs, whatever the comparison says. -/
theorem foldl_largest_mem (pairs : List (K × Nat)) (start : K × Nat) :
    pairs.foldl (fun best y => if lt y.1 best.1 then best else y) start ∈ start :: pairs := by
  induction pairs generalizing start with
  | nil => simp
  | cons y pairs ih =>
    rw [List.foldl_cons]
    split
    next => exact List.cons_subset_cons _ (List.subset_cons_self ..) (ih start)
    next => exact List.mem_cons_of_mem _ (ih y)

theorem lastLargest_lt {xs : List K} (hxs : xs ≠ []) : lastLargest xs < xs.length := by
  cases xs with
  | nil => exact absurd rfl hxs
  | cons x xs =>
    have hmem : _ ∈ (x :: xs).zipIdx := foldl_largest_mem (xs.zipIdx 1) (x, 0)
    exact (List.getElem?_eq_some_iff.1 (List.mem_zipIdx_iff_getElem?.1 hmem)).1

theorem foldl_largest_map {f : K → K} (hf : ∀ x y, lt (f x) (f y) = lt x y)
    (pairs : List (K × Nat)) (start : K × Nat) :
    (pairs.map (Prod.map f id)).foldl (fun best y => if lt y.1 best.1 then best else y)
        (Prod.map f id start) =
      Prod.map f id (pairs.foldl (fun best y => if lt y.1 best.1 then best else y) start) := by
  induction pairs generalizing start with
  | nil => rfl
  | cons y pairs ih =>
    rw [List.map_cons, List.foldl_cons, List.foldl_cons, ← ih, Prod.map_fst, Prod.map_fst, hf]
    split <;> rfl

/-- Numbers that compare in the same way have their last largest at the same position. -/
theorem lastLargest_map {f : K → K} (hf : ∀ x y, lt (f x) (f y) = lt x y) (xs : List K) :
    lastLargest (xs.map f) = lastLargest xs := by
  cases xs with
  | nil => rfl
  | cons x xs =>
    have hfold := congrArg Prod.snd (foldl_largest_map hf (xs.zipIdx 1) (x, 0))
    rw [List.map_cons, lastLargest, lastLargest, List.zipIdx_map]
    exact hfold

variable {ι : Type} [LinearOrder ι] (size : K → ι)

theorem foldl_largest (pairs : List (K × Nat)) (start : K × Nat)
    (h : ∀ p ∈ start :: pairs, ∀ q ∈ start :: pairs, lt p.1 q.1 = true ↔ size p.1 < size q.1) :
    let best := pairs.foldl (fun best y => if lt y.1 best.1 then best else y) start
    ∀ p ∈ start :: pairs, size p.1 ≤ size best.1 := by
  induction pairs generalizing start with
  | nil => simp
  | cons y pairs ih =>
    have hy : y ∈ start :: y :: pairs := by simp
    have hstart : start ∈ start :: y :: pairs := by simp
    rw [List.foldl_cons]
    by_cases hlt : lt y.1 start.1 = true
    · have hsub : start :: pairs ⊆ start :: y :: pairs :=
        List.cons_subset_cons _ (List.subset_cons_self ..)
      have hle := ih start fun p hp q hq => h p (hsub hp) q (hsub hq)
      rw [if_pos hlt]
      have hyle := (h y hy start hstart).1 hlt
      intro _ p hp
      rcases List.mem_cons.1 hp with rfl | hp
      · exact hle p (by simp)
      · rcases List.mem_cons.1 hp with rfl | hp
        · exact hyle.le.trans (hle start (by simp))
        · exact hle p (by simp [hp])
    · have hsub : y :: pairs ⊆ start :: y :: pairs := List.subset_cons_self ..
      have hle := ih y fun p hp q hq => h p (hsub hp) q (hsub hq)
      rw [if_neg hlt]
      have hyle : size start.1 ≤ size y.1 := not_lt.1 fun hlt' => hlt ((h y hy start hstart).2 hlt')
      intro _ p hp
      rcases List.mem_cons.1 hp with rfl | hp
      · exact hyle.trans (hle y (by simp))
      · exact hle p hp

/-- The position found is that of a largest number, by any size that the comparison goes by. -/
theorem exists_lastLargest {xs : List K} (hxs : xs ≠ [])
    (h : ∀ x ∈ xs, ∀ y ∈ xs, lt x y = true ↔ size x < size y) :
    ∃ x, xs[lastLargest xs]? = some x ∧ ∀ y ∈ xs, size y ≤ size x := by
  cases xs with
  | nil => exact absurd rfl hxs
  | cons x xs =>
    have hzip : (x, 0) :: xs.zipIdx 1 = (x :: xs).zipIdx := rfl
    have hmem := foldl_largest_mem (xs.zipIdx 1) (x, 0)
    have hle := foldl_largest size (xs.zipIdx 1) (x, 0) fun p hp q hq =>
      h p.1 (List.fst_mem_of_mem_zipIdx (hzip ▸ hp)) q.1 (List.fst_mem_of_mem_zipIdx (hzip ▸ hq))
    rw [hzip] at hmem hle
    refine ⟨_, List.mem_zipIdx_iff_getElem?.1 hmem, fun y hy => ?_⟩
    obtain ⟨n, hn⟩ := List.mem_iff_getElem?.1 hy
    exact hle (y, n) (List.mem_zipIdx_iff_getElem?.2 hn)

/-- Whatever comes behind the position found is smaller. -/
theorem foldl_largest_last (pairs : List (K × Nat)) (start : K × Nat)
    (h : ∀ p ∈ start :: pairs, ∀ q ∈ start :: pairs, lt p.1 q.1 = true ↔ size p.1 < size q.1)
    (hsorted : (start :: pairs).Pairwise fun p q => p.2 < q.2) :
    let best := pairs.foldl (fun best y => if lt y.1 best.1 then best else y) start
    ∀ p ∈ start :: pairs, best.2 < p.2 → size p.1 < size best.1 := by
  induction pairs generalizing start with
  | nil => simp
  | cons y pairs ih =>
    have hy : y ∈ start :: y :: pairs := by simp
    have hstart : start ∈ start :: y :: pairs := by simp
    obtain ⟨hfirst, htail⟩ := List.pairwise_cons.1 hsorted
    rw [List.foldl_cons]
    by_cases hlt : lt y.1 start.1 = true
    · have hsub : start :: pairs ⊆ start :: y :: pairs :=
        List.cons_subset_cons _ (List.subset_cons_self ..)
      have hrest := fun p hp q hq => h p (hsub hp) q (hsub hq)
      rw [if_pos hlt]
      intro best p hp hbehind
      rcases List.mem_cons.1 hp with rfl | hp
      · exact ih _ hrest (hsorted.sublist (by simp)) _ (by simp) hbehind
      · rcases List.mem_cons.1 hp with rfl | hp
        · exact ((h _ hy _ hstart).1 hlt).trans_le (foldl_largest size pairs start hrest _ (by simp))
        · exact ih _ hrest (hsorted.sublist (by simp)) _ (by simp [hp]) hbehind
    · have hsub : y :: pairs ⊆ start :: y :: pairs := List.subset_cons_self ..
      rw [if_neg hlt]
      intro best p hp hbehind
      rcases List.mem_cons.1 hp with rfl | hp
      · exact absurd hbehind (Nat.lt_asymm (hfirst _ (foldl_largest_mem pairs y)))
      · exact ih _ (fun p hp q hq => h p (hsub hp) q (hsub hq)) htail p hp hbehind

theorem size_lt_of_lastLargest_lt {xs : List K} {x y : K} {i : Nat}
    (h : ∀ x ∈ xs, ∀ y ∈ xs, lt x y = true ↔ size x < size y) (hx : xs[lastLargest xs]? = some x)
    (hi : lastLargest xs < i) (hy : xs[i]? = some y) : size y < size x := by
  cases xs with
  | nil => simp at hy
  | cons first xs =>
    have hzip : (first, 0) :: xs.zipIdx 1 = (first :: xs).zipIdx := rfl
    have hsorted : ((first :: xs).zipIdx).Pairwise fun p q => p.2 < q.2 := by
      rw [← List.pairwise_map, List.zipIdx_map_snd]
      exact List.pairwise_lt_range'
    have hmem := foldl_largest_mem (xs.zipIdx 1) (first, 0)
    have hlast := foldl_largest_last size (xs.zipIdx 1) (first, 0) (fun p hp q hq =>
      h p.1 (List.fst_mem_of_mem_zipIdx (hzip ▸ hp)) q.1 (List.fst_mem_of_mem_zipIdx (hzip ▸ hq)))
      hsorted
    rw [hzip] at hmem hlast
    have hbest := List.mem_zipIdx_iff_getElem?.1 hmem
    cases hx.symm.trans hbest
    exact hlast (y, i) (List.mem_zipIdx_iff_getElem?.2 hy) hi

/-- The pivot has the largest norm. -/
theorem size_le_of_choosePivot {k : Nat} {columns others : List (Column K)} {pivot : Column K}
    (hsize : ∀ a ∈ columns, ∀ b ∈ columns, lt (normFrom k a.values) (normFrom k b.values) = true ↔
      size (normFrom k a.values) < size (normFrom k b.values))
    (h : choosePivot k columns = pivot :: others) :
    pivot ∈ columns ∧
      ∀ a ∈ columns, size (normFrom k a.values) ≤ size (normFrom k pivot.values) := by
  have hmem : pivot ∈ columns := (choosePivot_perm k columns).subset (by simp [h])
  have hnorms : columns.map (fun c => normFrom k c.values) ≠ [] := by
    simpa using List.ne_nil_of_mem hmem
  obtain ⟨x, hx, hle⟩ := exists_lastLargest size hnorms (by simpa using hsize)
  have hbest : lastLargest (columns.map fun c => normFrom k c.values) < columns.length := by
    simpa using (List.getElem?_eq_some_iff.1 hx).1
  rw [List.getElem?_map, getElem?_of_bringForward h hbest] at hx
  cases hx
  exact ⟨hmem, by simpa using hle⟩

end Largest

theorem origin_applyColumn (r : Reflector K) (k : Nat) (columns : List (Column K)) :
    (columns.map (r.applyColumn k)).map Column.origin = columns.map Column.origin := by
  simp [Reflector.applyColumn, Function.comp_def]

theorem origins_eliminateFrom (scale steps : Nat) (tolerance? : Option K) (k : Nat)
    (columns : List (Column K)) (targets : List (List K)) :
    let e := eliminateFrom scale steps tolerance? k columns targets
    ((e.pivots ++ e.rest).map Column.origin).Perm (columns.map Column.origin) := by
  induction steps generalizing tolerance? k columns targets with
  | zero => exact .refl _
  | succ steps ih =>
    have hperm := (choosePivot_perm k columns).map Column.origin
    rw [eliminateFrom]
    split
    next h => simpa [h] using hperm
    next pivot others h =>
      rw [h] at hperm
      dsimp only
      split
      next => simpa using hperm
      next =>
        split
        next => simpa using hperm
        next =>
          exact (((ih _ _ _ _).trans (.of_eq (origin_applyColumn ..))).cons pivot.origin).trans hperm

theorem length_pivots_eliminateFrom (scale steps : Nat) (tolerance? : Option K) (k : Nat)
    (columns : List (Column K)) (targets : List (List K)) :
    (eliminateFrom scale steps tolerance? k columns targets).pivots.length ≤ steps := by
  induction steps generalizing tolerance? k columns targets with
  | zero => exact Nat.zero_le _
  | succ steps ih =>
    rw [eliminateFrom]
    split
    next => exact Nat.zero_le _
    next =>
      dsimp only
      split
      next => exact Nat.zero_le _
      next =>
        split
        next => exact Nat.succ_le_succ (Nat.zero_le _)
        next => exact Nat.succ_le_succ (ih _ _ _ _)

theorem length_targets_eliminateFrom (scale steps : Nat) (tolerance? : Option K) (k : Nat)
    (columns : List (Column K)) (targets : List (List K)) :
    (eliminateFrom scale steps tolerance? k columns targets).targets.length = targets.length := by
  induction steps generalizing tolerance? k columns targets with
  | zero => rfl
  | succ steps ih =>
    rw [eliminateFrom]
    split
    next => rfl
    next =>
      dsimp only
      split
      next => rfl
      next =>
        split
        next => rfl
        next => exact (ih _ _ _ _).trans (by simp)

/-- The rows of the divisor in the order of the elimination, the pivots first. -/
def Elimination.permutation (e : Elimination K) : List Nat :=
  (e.pivots ++ e.rest).map Column.origin

omit [RootField K] in
theorem Elimination.take_permutation (e : Elimination K) :
    e.permutation.take e.pivots.length = e.pivots.map Column.origin := by
  simp [permutation]

omit [RootField K] in
theorem Elimination.getElem?_permutation (e : Elimination K) {j : Nat} (hj : j < e.pivots.length) :
    e.permutation[j]? = some e.pivots[j].origin := by
  rw [permutation, List.map_append, List.getElem?_append_left (by simpa using hj),
    List.getElem?_map, List.getElem?_eq_getElem hj, Option.map_some]

omit [RootField K] in
/-- Behind the pivots stand the places that no pivot had. -/
theorem Elimination.notMem_origins (e : Elimination K) (h : e.permutation.Nodup) {j p : Nat}
    (hj : e.pivots.length ≤ j) (hp : e.permutation[j]? = some p) :
    p ∉ e.pivots.map Column.origin := by
  rw [permutation, List.map_append] at h hp
  rw [List.getElem?_append_right (by simpa using hj)] at hp
  exact fun hmem => List.disjoint_of_nodup_append h hmem (List.mem_of_getElem? hp)

/-- Every row of the divisor has its place, as a pivot or among the rest. -/
theorem permutation_eliminate (height : Nat) (columns targets : List (List K)) :
    (eliminate height columns targets).permutation.Perm (List.range columns.length) := by
  refine (origins_eliminateFrom ..).trans (.of_eq ?_)
  apply List.ext_getElem <;> simp

theorem nodup_origins_eliminate (height : Nat) (columns targets : List (List K)) :
    ((eliminate height columns targets).pivots.map Column.origin).Nodup := by
  have h := (permutation_eliminate height columns targets).nodup_iff.2 List.nodup_range
  rw [Elimination.permutation, List.map_append] at h
  exact h.of_append_left

theorem lt_of_mem_origins_eliminate {height : Nat} {columns targets : List (List K)} {j : Nat}
    (hj : j ∈ (eliminate height columns targets).pivots.map Column.origin) :
    j < columns.length := by
  have h := (permutation_eliminate height columns targets).mem_iff.1
    (by rw [Elimination.permutation, List.map_append]; exact List.mem_append_left _ hj)
  simpa using h

open RootField

theorem getD_foldl_set_of_notMem {pairs : List (Column K × K)} {row : List K} {j : Nat}
    (h : j ∉ pairs.map fun p => p.1.origin) :
    (pairs.foldl (fun row p => row.set p.1.origin p.2) row).getD j zero = row.getD j zero := by
  induction pairs generalizing row with
  | nil => rfl
  | cons p pairs ih =>
    simp only [List.map_cons, List.mem_cons, not_or] at h
    rw [List.foldl_cons, ih h.2]
    simp only [List.getD_eq_getElem?_getD, List.getElem?_set_ne (Ne.symm h.1)]

theorem getD_foldl_set_of_mem {pairs : List (Column K × K)} {row : List K} {p : Column K × K}
    (hnodup : (pairs.map fun p => p.1.origin).Nodup) (hp : p ∈ pairs)
    (hlt : p.1.origin < row.length) :
    (pairs.foldl (fun row p => row.set p.1.origin p.2) row).getD p.1.origin zero = p.2 := by
  induction pairs generalizing row with
  | nil => simp at hp
  | cons q pairs ih =>
    rw [List.map_cons, List.nodup_cons] at hnodup
    rw [List.foldl_cons]
    rcases List.mem_cons.1 hp with rfl | hp
    · rw [getD_foldl_set_of_notMem hnodup.1, List.getD_eq_getElem _ _ (by simpa using hlt),
        List.getElem_set_self]
    · exact ih hnodup.2 hp (by simpa using hlt)

omit [RootField K] in
theorem map_origin_zip {pivots : List (Column K)} {solution : List K}
    (h : solution.length = pivots.length) :
    ((pivots.zip solution).map fun p => p.1.origin) = pivots.map Column.origin := by
  have hfst : (pivots.zip solution).map Prod.fst = pivots := List.map_fst_zip (by omega)
  conv => rhs; rw [← hfst, List.map_map]
  rfl

/-- The unknown of every pivot stands at the place that the pivot had. -/
theorem getD_placeSolution_of_mem {count : Nat} {pivots : List (Column K)} {solution : List K}
    {p : Column K × K} (hl : solution.length = pivots.length)
    (hnodup : (pivots.map Column.origin).Nodup) (hp : p ∈ pivots.zip solution)
    (hlt : p.1.origin < count) :
    (placeSolution count pivots solution).getD p.1.origin zero = p.2 :=
  getD_foldl_set_of_mem (map_origin_zip hl ▸ hnodup) hp (by simpa using hlt)

theorem map_placeSolution {count : Nat} {pivots : List (Column K)} {solution : List K}
    (hl : solution.length = pivots.length) (hnodup : (pivots.map Column.origin).Nodup)
    (hlt : ∀ p ∈ pivots, p.origin < count) :
    (pivots.map fun p => (placeSolution count pivots solution).getD p.origin zero) = solution := by
  refine List.ext_getElem (by simp [hl]) fun i hi hi' => ?_
  have hpi : i < pivots.length := by simpa using hi
  have hmem : (pivots[i], solution[i]) ∈ pivots.zip solution :=
    List.mem_iff_getElem.2 ⟨i, by simp; omega, List.getElem_zip⟩
  rw [List.getElem_map]
  exact getD_placeSolution_of_mem hl hnodup hmem (hlt _ (List.getElem_mem hpi))

theorem getD_placeSolution_of_notMem {count : Nat} {pivots : List (Column K)} {solution : List K}
    {j : Nat} (hl : solution.length = pivots.length) (hj : j ∉ pivots.map Column.origin) :
    (placeSolution count pivots solution).getD j zero = zero := by
  rw [placeSolution, getD_foldl_set_of_notMem (map_origin_zip hl ▸ hj)]
  simp only [List.getD_eq_getElem?_getD, List.getElem?_replicate]
  split <;> rfl

end UnitMatrix
