import UnitMatrix.Proofs.Division.Strict
import UnitMatrix.Proofs.Number.FloatField

/-! Division has a result for all floats, whatever is among them. No entry is read that is not there, the
order of the rows stays a permutation, and every cell of the quotient is written: the unknowns at the
places of their pivots, zero everywhere else. One record is kept if the rank is not full, and none if
it is. -/

namespace UnitMatrix

open RootField

section Cells

variable {K : Type} [RootField K] {dividend divisor : Grid K} {i j p : Nat} {target : List K}

theorem get?_divide
    (ht : (eliminate divisor.columns divisor.entries dividend.entries).targets[i]? = some target)
    (hp : p < divisor.rows) :
    let e := eliminate divisor.columns divisor.entries dividend.entries
    (divide dividend divisor).grid.get? i p =
      some ((placeSolution divisor.rows e.pivots (backSubstitute target 0 e.pivots)).getD p zero) := by
  intro e
  have hrow : (divide dividend divisor).grid.entries[i]? =
      some (placeSolution divisor.rows e.pivots (backSubstitute target 0 e.pivots)) := by
    show (e.targets.map _)[i]? = _
    rw [List.getElem?_map, ht, Option.map_some]
  have hlength := length_placeSolution divisor.rows e.pivots (backSubstitute target 0 e.pivots)
  rw [Grid.get?, hrow, Option.bind_some, List.getElem?_eq_getElem (hlength.symm ▸ hp),
    List.getD_eq_getElem _ _ (hlength.symm ▸ hp)]

theorem exists_get?_divide_of_lt
    (ht : (eliminate divisor.columns divisor.entries dividend.entries).targets[i]? = some target)
    (hj : j < (divide dividend divisor).rank) :
    let e := eliminate divisor.columns divisor.entries dividend.entries
    ∃ p x, e.permutation[j]? = some p ∧ (backSubstitute target 0 e.pivots)[j]? = some x ∧
      (divide dividend divisor).grid.get? i p = some x := by
  intro e
  have hj : j < e.pivots.length := hj
  have hlength := length_backSubstitute target 0 e.pivots
  have hx : j < (backSubstitute target 0 e.pivots).length := hlength.symm ▸ hj
  have hmem : (e.pivots[j], (backSubstitute target 0 e.pivots)[j]) ∈
      e.pivots.zip (backSubstitute target 0 e.pivots) :=
    List.mem_iff_getElem.2 ⟨j, by simp; omega, List.getElem_zip⟩
  have hplace : e.pivots[j].origin < divisor.rows :=
    lt_of_mem_origins_eliminate (List.mem_map_of_mem (List.getElem_mem hj))
  refine ⟨_, _, e.getElem?_permutation hj, List.getElem?_eq_getElem hx, ?_⟩
  rw [get?_divide ht hplace]
  exact congrArg some (getD_placeSolution_of_mem hlength (nodup_origins_eliminate ..) hmem hplace)

theorem exists_get?_divide_of_le
    (ht : (eliminate divisor.columns divisor.entries dividend.entries).targets[i]? = some target)
    (hrank : (divide dividend divisor).rank ≤ j) (hj : j < divisor.rows) :
    let e := eliminate divisor.columns divisor.entries dividend.entries
    ∃ p, e.permutation[j]? = some p ∧ (divide dividend divisor).grid.get? i p = some zero := by
  intro e
  have hperm : e.permutation.Perm (List.range divisor.rows) := permutation_eliminate ..
  have hlength : j < e.permutation.length := by
    rw [hperm.length_eq, List.length_range]
    exact hj
  have hp := List.getElem?_eq_getElem hlength
  have hplace := List.mem_range.1 (hperm.subset (List.getElem_mem hlength))
  have hnot := e.notMem_origins (hperm.nodup_iff.2 List.nodup_range) hrank hp
  refine ⟨_, hp, ?_⟩
  rw [get?_divide ht hplace]
  exact congrArg some (getD_placeSolution_of_notMem (length_backSubstitute ..) hnot)

theorem rank_divide_le : (divide dividend divisor).rank ≤ min divisor.columns divisor.rows := by
  have hperm : (eliminate divisor.columns divisor.entries dividend.entries).permutation.Perm
      (List.range divisor.rows) := permutation_eliminate ..
  refine Nat.le_min.2 ⟨length_pivots_eliminateFrom .., ?_⟩
  have hlength := hperm.length_eq
  rw [Elimination.permutation, List.length_map, List.length_append, List.length_range] at hlength
  exact (Nat.le_add_right ..).trans_eq hlength

end Cells

theorem ofRank?_of_le {rank rows columns : Nat} (h : rank ≤ rows) :
    LogRecord.ofRank? rank rows columns =
      if rank = rows then none
      else some (if rank = 0 then .zeroDivisor rows columns else .rankDeficient rank rows) := by
  unfold LogRecord.ofRank?
  grind

variable {K : Type} [Floating K] [RootField K] [FloatField K] {m n c : Nat} {dividend divisor : Grid K}

/-- The quotient of `m × c` by `n × c` cells. No entry is missing on the way to it, no fault is met, and
what the output held is gone. The unknowns stand at the places of their pivots, in the order of the
elimination, and all other cells are zero without a sign. There is a record if and only if the rank is
not full. -/
theorem divide_total (hdividend : dividend.Extent m c) (hdivisor : divisor.Extent n c) :
    let e := eliminate c divisor.entries dividend.entries
    let q := divide dividend divisor
    (∀ out : Grid K, out.Extent m n → Strict.divide dividend divisor out = .ok q) ∧
    (∀ backend : Backend, backend.div dividend divisor = .ok q) ∧
    q.grid.Extent m n ∧ e.permutation.Perm (List.range n) ∧ q.rank ≤ min c n ∧
    (∀ i < m, ∀ j < q.rank, ∃ target p x, e.targets[i]? = some target ∧
      e.permutation[j]? = some p ∧ (backSubstitute target 0 e.pivots)[j]? = some x ∧
      q.grid.get? i p = some x) ∧
    (∀ i < m, ∀ j < n, q.rank ≤ j → ∃ p x, e.permutation[j]? = some p ∧
      q.grid.get? i p = some x ∧ Floating.toBits x = 0) ∧
    Arrays.quotient dividend divisor = .ok (q.grid, if q.rank = n then none
      else some (if q.rank = 0 then .zeroDivisor n c else .rankDeficient q.rank n)) := by
  obtain ⟨rfl, rfl⟩ := hdivisor
  intro e q
  have hdiv (backend : Backend) : backend.div dividend divisor = .ok q := by
    cases backend with
    | fixed => rfl
    | dynamic => exact if_pos hdividend.2
  have hrank : q.rank ≤ min divisor.columns divisor.rows := rank_divide_le
  have hrows : e.targets.length = m := (length_targets_eliminateFrom ..).trans hdividend.1
  have htarget {i : Nat} (hi : i < m) : ∃ target, e.targets[i]? = some target :=
    ⟨_, List.getElem?_eq_getElem (hrows.symm ▸ hi)⟩
  refine ⟨fun out hout => Strict.divide_eq hdividend ⟨rfl, rfl⟩ hout, hdiv,
    ⟨(List.length_map _).trans hrows, rfl⟩, permutation_eliminate .., hrank, ?_, ?_, ?_⟩
  · intro i hi j hj
    obtain ⟨target, ht⟩ := htarget hi
    obtain ⟨p, x, hp, hx, hcell⟩ := exists_get?_divide_of_lt ht hj
    exact ⟨target, p, x, ht, hp, hx, hcell⟩
  · intro i hi j hj hle
    obtain ⟨target, ht⟩ := htarget hi
    obtain ⟨p, hp, hcell⟩ := exists_get?_divide_of_le ht hle hj
    exact ⟨p, zero, hp, hcell, toBits_zero⟩
  · rw [Arrays.quotient, hdiv, ← ofRank?_of_le (hrank.trans (Nat.min_le_right ..))]
    rfl

/-- One over a column of two and of what is not a number. The latter compares with nothing, so it is the
pivot; the place of the former is zero. -/
theorem divide_total_of_nan :
    let one : Grid Float := .replicate 1 1 1
    let column : Grid Float := ⟨1, [[2], [0 / 0]], by decide⟩
    let sevens : Grid Float := .replicate 1 2 7
    one.Extent 1 1 ∧ column.Extent 2 1 ∧ sevens.Extent 1 2 ∧
      Strict.divide one column sevens = .ok (divide one column) ∧
      Backend.dynamic.div one column = .ok (divide one column) ∧
      (eliminate 1 column.entries one.entries).permutation = [1, 0] ∧
      (divide one column).rank ≤ 1 ∧
      ∃ x, (divide one column).grid.get? 0 0 = some x ∧ Floating.toBits x = 0 := by
  intro one column sevens
  have hone : one.Extent 1 1 := Grid.extent_replicate 1 1 _
  have hcolumn : column.Extent 2 1 := ⟨rfl, rfl⟩
  have hsevens : sevens.Extent 1 2 := Grid.extent_replicate 1 2 _
  have horder : (eliminate 1 column.entries one.entries).permutation = [1, 0] := by decide +kernel
  obtain ⟨hstrict, hdiv, -, -, hrank, -, hzero, -⟩ := divide_total hone hcolumn
  obtain ⟨p, x, hp, hx, hbits⟩ := hzero 0 (by decide) 1 (by decide) hrank
  rw [horder] at hp
  cases hp
  exact ⟨hone, hcolumn, hsevens, hstrict sevens hsevens, hdiv .dynamic, horder, hrank, x, hx, hbits⟩

end UnitMatrix
