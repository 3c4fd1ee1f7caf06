import UnitMatrix.Log
import UnitMatrix.Proofs.Division.Permutation
import UnitMatrix.Proofs.Division.Tolerance

/-! When a divisor counts as zero, in floats. The pivot has the largest norm, and no row becomes a pivot
if this norm is within its own tolerance. That is so for a zero divisor, and also where the squares of
all numbers are rounded to zero, where those of a row add up to infinity, and for huge extents. -/

namespace UnitMatrix

section Largest

open RootField FloatField

variable {K : Type} [Floating K] [RootField K] [FloatField K]

theorem le_normFrom_of_choosePivot {k : Nat} {columns others : List (Column K)} {pivot : Column K}
    (hcolumns : ∀ c ∈ columns, Unsigned (normFrom k c.values))
    (h : choosePivot k columns = pivot :: others) :
    pivot ∈ columns ∧ ∀ c ∈ columns,
      Floating.toBits (normFrom k c.values) ≤ Floating.toBits (normFrom k pivot.values) :=
  size_le_of_choosePivot Floating.toBits
    (fun a ha b hb => lt_iff (hcolumns a ha) (hcolumns b hb)) h

end Largest

section Elimination

open RootField

variable {K : Type} [RootField K] {scale steps k : Nat} {columns others : List (Column K)}
  {pivot : Column K} {targets : List (List K)}

theorem eliminateFrom_of_le (h : choosePivot k columns = pivot :: others)
    (hle : le (normFrom k pivot.values)
      (mul (mul (normFrom k pivot.values) epsilon) (ofNat scale)) = true) :
    eliminateFrom scale (steps + 1) none k columns targets = ⟨[], pivot :: others, targets⟩ := by
  rw [eliminateFrom, h]
  exact if_pos hle

theorem pivots_eliminateFrom_ne_nil (h : choosePivot k columns = pivot :: others)
    (hle : ¬ le (normFrom k pivot.values)
      (mul (mul (normFrom k pivot.values) epsilon) (ofNat scale)) = true) :
    (eliminateFrom scale (steps + 1) none k columns targets).pivots ≠ [] := by
  rw [eliminateFrom, h]
  dsimp only
  rw [if_neg (by simpa using hle)]
  split <;> simp

end Elimination

section ZeroDivisor

open RootField

variable {K : Type} [Floating K] [RootField K] [FloatField K]

/-- A divisor whose norms tell nothing: every square is rounded to zero, or the squares of a row add up to
infinity, or the relative error grows with the extents to the whole. -/
def Indistinct (divisor : Grid K) : Prop :=
  (∀ row ∈ divisor.entries, ∀ v ∈ row, Floating.toBits (mul v v) = 0) ∨
    (∃ row ∈ divisor.entries, Floating.toBits (squareSum row) = (Floating.format K).infinity) ∨
      2 ^ (Floating.format K).fractionBits ≤ max divisor.columns divisor.rows

theorem le_tolerance_iff_indistinct {divisor : Grid K} {columns others : List (Column K)}
    {pivot : Column K} (hcolumns : columns.map Column.values = divisor.entries)
    (hextent : 0 < max divisor.columns divisor.rows) (hword : max divisor.columns divisor.rows < 2 ^ 64)
    (hfinite : ∀ row ∈ divisor.entries, ∀ v ∈ row, IsFinite v)
    (h : choosePivot 0 columns = pivot :: others) :
    le (normFrom 0 pivot.values) (mul (mul (normFrom 0 pivot.values) epsilon)
      (ofNat (max divisor.columns divisor.rows))) = true ↔ Indistinct divisor := by
  have hrow {c : Column K} (hc : c ∈ columns) : c.values ∈ divisor.entries :=
    hcolumns ▸ List.mem_map_of_mem hc
  obtain ⟨hmem, hle⟩ := le_normFrom_of_choosePivot
    (fun c hc => (farAboveUnit_normFrom (hfinite _ (hrow hc))).unsigned) h
  -- what the pivot does not reach, no row does
  have hlargest {row : List K} (hr : row ∈ divisor.entries) :
      Floating.toBits (normFrom 0 row) ≤ Floating.toBits (normFrom 0 pivot.values) := by
    obtain ⟨c, hc, rfl⟩ := List.mem_map.1 (hcolumns ▸ hr)
    exact hle c hc
  have hpivot := hfinite _ (hrow hmem)
  have hnorm := farAboveUnit_normFrom hpivot
  rw [le_tolerance_iff hnorm hextent hword, Indistinct]
  refine or_congr ?_ (or_congr_left ?_)
  · rw [toBits_normFrom_eq_zero_iff hpivot]
    refine ⟨fun h0 row hr => ?_, fun h0 => h0 _ (hrow hmem)⟩
    rw [← toBits_normFrom_eq_zero_iff (hfinite row hr)]
    exact Nat.le_zero.1 ((hlargest hr).trans_eq ((toBits_normFrom_eq_zero_iff hpivot).2 h0))
  · rw [toBits_normFrom_eq_infinity_iff hpivot]
    refine ⟨fun hinf => ⟨_, hrow hmem, hinf⟩, ?_⟩
    rintro ⟨row, hr, hinf⟩
    rw [← toBits_normFrom_eq_infinity_iff (hfinite row hr)] at hinf
    rw [← toBits_normFrom_eq_infinity_iff hpivot]
    exact Nat.le_antisymm hnorm.unsigned (hinf.symm.trans_le (hlargest hr))

variable (dividend divisor : Grid K)

theorem eliminate_cases (hrows : 0 < divisor.rows) (hcolumns : 0 < divisor.columns)
    (hword : max divisor.columns divisor.rows < 2 ^ 64)
    (hfinite : ∀ row ∈ divisor.entries, ∀ v ∈ row, IsFinite v) :
    let e := eliminate divisor.columns divisor.entries dividend.entries
    (Indistinct divisor → e.pivots = [] ∧ e.targets = dividend.entries) ∧
      (¬ Indistinct divisor → e.pivots ≠ []) := by
  have hvalues : (divisor.entries.mapIdx fun i values => Column.mk i values).map Column.values =
      divisor.entries :=
    List.ext_getElem (by simp) (by simp)
  obtain ⟨steps, hsteps⟩ := Nat.exists_eq_succ_of_ne_zero hcolumns.ne'
  obtain ⟨pivot, others, h⟩ : ∃ pivot others, choosePivot 0
      (divisor.entries.mapIdx fun i values => Column.mk i values) = pivot :: others := by
    refine List.exists_cons_of_length_pos ?_
    rw [(choosePivot_perm ..).length_eq, List.length_mapIdx]
    exact hrows
  have hiff := le_tolerance_iff_indistinct hvalues (by omega) hword hfinite h
  have he : eliminate divisor.columns divisor.entries dividend.entries =
      eliminateFrom (max divisor.columns divisor.rows) (steps + 1) none 0
        (divisor.entries.mapIdx fun i values => ⟨i, values⟩) dividend.entries :=
    congrArg (fun n => eliminateFrom (max divisor.columns divisor.rows) n none 0
      (divisor.entries.mapIdx fun i values => ⟨i, values⟩) dividend.entries) hsteps
  rw [he]
  refine ⟨fun hindistinct => ?_, fun hindistinct => ?_⟩
  · rw [eliminateFrom_of_le h (hiff.2 hindistinct)]
    exact ⟨rfl, rfl⟩
  · exact pivots_eliminateFrom_ne_nil h (mt hiff.1 hindistinct)

theorem indistinct_of_zeros {divisor : Grid K} (hzero : ∀ row ∈ divisor.entries, ∀ v ∈ row,
    (Floating.format K).magnitude (Floating.toBits v) = 0) : Indistinct divisor := by
  refine .inl fun row hr v hv => ?_
  have hfinite : IsFinite v := by
    have := format_infinity_pos (K := K)
    simpa [IsFinite, Binary.isFinite, hzero row hr v hv]
  rw [toBits_mul_self_eq_zero_iff hfinite, hzero row hr v hv, Binary.units_zero]
  exact Nat.zero_le _

theorem divide_of_indistinct (hrows : 0 < divisor.rows) (hcolumns : 0 < divisor.columns)
    (hword : max divisor.columns divisor.rows < 2 ^ 64)
    (hfinite : ∀ row ∈ divisor.entries, ∀ v ∈ row, IsFinite v) (h : Indistinct divisor) :
    (divide dividend divisor).rank = 0 ∧
      (divide dividend divisor).grid = .replicate dividend.rows divisor.rows zero := by
  obtain ⟨hnil, htargets⟩ :=
    (eliminate_cases dividend divisor hrows hcolumns hword hfinite).1 h
  have hentries : (divide dividend divisor).grid.entries = dividend.entries.map fun _ =>
      List.replicate divisor.rows zero := by
    show List.map _ (eliminate divisor.columns divisor.entries dividend.entries).targets = _
    rw [hnil, htargets]
    rfl
  refine ⟨List.length_eq_zero_iff.2 hnil, Grid.ext rfl ?_⟩
  rw [hentries, List.map_const']
  rfl

theorem ofRank?_eq_zeroDivisor_iff {rank rows columns : Nat} :
    LogRecord.ofRank? rank rows columns = some (.zeroDivisor rows columns) ↔ rank = 0 ∧ 0 < rows := by
  unfold LogRecord.ofRank?
  split
  next h => simp [h]
  next h => split <;> simp [h]

/-- A divisor counts as zero, and the quotient is left at zero, exactly if the divisor is indistinct. -/
theorem divide_cases_indistinct (hrows : 0 < divisor.rows) (hcolumns : 0 < divisor.columns)
    (hword : max divisor.columns divisor.rows < 2 ^ 64)
    (hfinite : ∀ row ∈ divisor.entries, ∀ v ∈ row, IsFinite v) :
    let q := divide dividend divisor
    let record? := LogRecord.ofRank? q.rank divisor.rows divisor.columns
    (¬ Indistinct divisor →
      1 ≤ q.rank ∧ record? ≠ some (.zeroDivisor divisor.rows divisor.columns)) ∧
    (Indistinct divisor → q.rank = 0 ∧
      record? = some (.zeroDivisor divisor.rows divisor.columns) ∧
      q.grid = Grid.replicate dividend.rows divisor.rows zero) ∧
    ((∀ row ∈ divisor.entries, ∀ v ∈ row,
      (Floating.format K).magnitude (Floating.toBits v) = 0) → Indistinct divisor) := by
  intro q record?
  obtain ⟨-, hpivots⟩ := eliminate_cases dividend divisor hrows hcolumns hword hfinite
  refine ⟨fun h => ?_, fun h => ?_, indistinct_of_zeros⟩
  · have hrank : 1 ≤ q.rank := List.length_pos_iff.2 (hpivots h)
    refine ⟨hrank, fun hrecord => ?_⟩
    have := (ofRank?_eq_zeroDivisor_iff.1 hrecord).1
    omega
  · obtain ⟨hrank, hgrid⟩ := divide_of_indistinct dividend divisor hrows hcolumns hword hfinite h
    exact ⟨hrank, ofRank?_eq_zeroDivisor_iff.2 ⟨hrank, hrows⟩, hgrid⟩

/-- One over two is a half, but one over `1e-200` is taken for one over zero: the square of the divisor
is rounded to zero. -/
theorem divide_cases_of_one_cell :
    let one : Grid Float := .replicate 1 1 1
    let two : Grid Float := .replicate 1 1 2
    let tiny : Grid Float := .replicate 1 1 (Float.ofBits 0x16687E92154EF7AC)
    (0 < two.rows ∧ 0 < two.columns ∧ max two.columns two.rows < 2 ^ 64 ∧
      (∀ row ∈ two.entries, ∀ v ∈ row, IsFinite v) ∧ ¬ Indistinct two ∧
      1 ≤ (divide one two).rank) ∧
    (0 < tiny.rows ∧ 0 < tiny.columns ∧ max tiny.columns tiny.rows < 2 ^ 64 ∧
      (∀ row ∈ tiny.entries, ∀ v ∈ row, IsFinite v) ∧ Indistinct tiny ∧
      LogRecord.ofRank? (divide one tiny).rank 1 1 = some (.zeroDivisor 1 1) ∧
      (divide one tiny).grid = .replicate 1 1 0) := by
  intro one two tiny
  have htwo : ∀ row ∈ two.entries, ∀ v ∈ row, IsFinite v := by
    simp only [two, Grid.replicate, List.replicate, List.mem_singleton, forall_eq, IsFinite]
    decide +kernel
  have htiny : ∀ row ∈ tiny.entries, ∀ v ∈ row, IsFinite v := by
    simp only [tiny, Grid.replicate, List.replicate, List.mem_singleton, forall_eq, IsFinite]
    decide +kernel
  have hdistinct : ¬ Indistinct two := by
    simp only [two, Indistinct, Grid.replicate, List.replicate, List.mem_singleton, forall_eq,
      exists_eq_left]
    decide +kernel
  have hindistinct : Indistinct tiny := by
    simp only [tiny, Indistinct, Grid.replicate, List.replicate, List.mem_singleton, forall_eq,
      exists_eq_left]
    decide +kernel
  obtain ⟨hrank, -⟩ := (divide_cases_indistinct one two (by decide) (by decide) (by decide) htwo).1
    hdistinct
  obtain ⟨-, hrecord, hgrid⟩ :=
    (divide_cases_indistinct one tiny (by decide) (by decide) (by decide) htiny).2.1 hindistinct
  exact ⟨⟨by decide, by decide, by decide, htwo, hdistinct, hrank⟩,
    by decide, by decide, by decide, htiny, hindistinct, hrecord, hgrid⟩

/-- A divisor that is not zero may leave the quotient at zero. -/
theorem not_forall_one_le_rank :
    ¬ ∀ dividend divisor : Grid Float, 0 < divisor.rows → 0 < divisor.columns →
      dividend.columns = divisor.columns → (∀ row ∈ dividend.entries, ∀ v ∈ row, IsFinite v) →
      (∀ row ∈ divisor.entries, ∀ v ∈ row, IsFinite v) →
      (∃ row ∈ divisor.entries, ∃ v ∈ row,
        (Floating.format Float).magnitude (Floating.toBits v) ≠ 0) →
      1 ≤ (divide dividend divisor).rank := by
  intro h
  have hrank := h (.replicate 1 1 1) (.replicate 1 1 (Float.ofBits 0x16687E92154EF7AC)) (by decide)
    (by decide) rfl
  simp only [Grid.replicate, List.replicate, List.mem_singleton, forall_eq, exists_eq_left,
    IsFinite] at hrank
  exact absurd (hrank (by decide +kernel) (by decide +kernel) (by decide +kernel))
    (by decide +kernel)

end ZeroDivisor

end UnitMatrix
