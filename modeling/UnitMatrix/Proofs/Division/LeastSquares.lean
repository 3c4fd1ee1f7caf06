import Mathlib.LinearAlgebra.LinearIndependent.Defs
import Mathlib.LinearAlgebra.Matrix.DotProduct
import UnitMatrix.Proofs.Division.Triangular

/-! Least squares. The quotient of two matrices is their basic solution on the rows of the divisor
that became pivots: these rows are linearly independent, the quotient is zero in every other column,
and what is left of the dividend is orthogonal to them. No other matrix has these three properties,
so dividing undoes multiplication whenever the factor lives on those columns. -/

namespace UnitMatrix

variable {K : Type} [ExactField K] {m n c : Nat}

/-- A solution of `X * D = L` in the least squares sense, on independent rows `P` of the divisor. -/
structure BasicSolution (L : Matrix (Fin m) (Fin c) K) (D : Matrix (Fin n) (Fin c) K)
    (P : Finset (Fin n)) (X : Matrix (Fin m) (Fin n) K) : Prop where
  independent : LinearIndepOn K D.row P
  support : ∀ i, ∀ j ∉ P, X i j = 0
  orthogonal : ∀ i, ∀ p ∈ P, (L - X * D).row i ⬝ᵥ D.row p = 0

namespace BasicSolution

variable {L : Matrix (Fin m) (Fin c) K} {D : Matrix (Fin n) (Fin c) K} {P : Finset (Fin n)}
  {X Y : Matrix (Fin m) (Fin n) K}

theorem row_mul (hX : ∀ i, ∀ j ∉ P, X i j = 0) (i : Fin m) :
    (X * D).row i = ∑ j ∈ P, X i j • D.row j := by
  have hall : (X * D).row i = ∑ j, X i j • D.row j :=
    (Matrix.mul_apply_eq_vecMul X D i).trans (Matrix.vecMul_eq_sum ..)
  rw [hall]
  exact (Finset.sum_subset (Finset.subset_univ P) fun j _ hj => by rw [hX i j hj, zero_smul]).symm

/-- There is one basic solution only: the difference of two is orthogonal to itself. -/
theorem unique (hX : BasicSolution L D P X) (hY : BasicSolution L D P Y) : X = Y := by
  have hzero : ∀ i, ∀ j ∉ P, (X - Y) i j = 0 := fun i j hj => by
    rw [Matrix.sub_apply, hX.support i j hj, hY.support i j hj, sub_self]
  have hres (i : Fin m) : ((X - Y) * D).row i = (L - Y * D).row i - (L - X * D).row i := by
    funext k
    simp [Matrix.sub_mul]
  funext i
  have hdot : ∀ p ∈ P, ((X - Y) * D).row i ⬝ᵥ D.row p = 0 := fun p hp => by
    rw [hres, sub_dotProduct, hX.orthogonal i p hp, hY.orthogonal i p hp, sub_self]
  have hself : ((X - Y) * D).row i ⬝ᵥ ((X - Y) * D).row i = 0 := by
    conv => lhs; rw [row_mul hzero i, sum_dotProduct]
    refine Finset.sum_eq_zero fun p hp => ?_
    rw [smul_dotProduct, ← row_mul hzero i, dotProduct_comm, hdot p hp, smul_zero]
  have hcoef := linearIndepOn_finset_iff.1 hX.independent ((X - Y) i)
    ((row_mul hzero i).symm.trans (dotProduct_self_eq_zero.1 hself))
  funext j
  by_cases hj : j ∈ P
  · exact sub_eq_zero.1 (hcoef j hj)
  · rw [hX.support i j hj, hY.support i j hj]

/-- A factor on independent rows is the basic solution for its product. -/
theorem of_mul (hD : LinearIndepOn K D.row P) (hY : ∀ i, ∀ j ∉ P, Y i j = 0) :
    BasicSolution (Y * D) D P Y :=
  ⟨hD, hY, fun i p _ => by rw [sub_self]; exact zero_dotProduct _⟩

end BasicSolution

theorem combination_map (pivots : List (Column K)) (f : Column K → K) (i : Nat) :
    combination pivots (pivots.map f) i =
      (pivots.map fun p => p.values.getD i 0 * f p).sum := by
  rw [combination, List.zip_map_right, zip_self, List.map_map, List.map_map]
  rfl

/-- What the rotation makes of a sum over rows that became pivots. -/
theorem Rotated.apply_sum {k : Nat} {φ : Rotation K c k} {row : Nat → Fin c → K}
    {pivots : List (Column K)} {before after : List (List K)}
    (h : Rotated φ row pivots before after) (f : Nat → K) (i : Fin c) :
    φ (pivots.map fun p => f p.origin • row p.origin).sum i =
      combination pivots (pivots.map fun p => f p.origin) i := by
  have happly : ∀ x, φ x i = (LinearMap.proj i ∘ₗ φ.map) x := fun _ => rfl
  rw [combination_map, happly, map_list_sum, List.map_map]
  refine congrArg List.sum (List.map_congr_left fun p hp => ?_)
  have hval : φ (row p.origin) i = p.values.getD i 0 :=
    congrFun (h.values p hp).symm i
  rw [Function.comp_apply, map_smul, ← happly, hval, smul_eq_mul, mul_comm]

/-- The weights of a sum of pivots that is zero. -/
theorem Triangular.eq_zero {row : Nat} {pivots : List (Column K)} (h : Triangular row pivots)
    {weights : List K} (hl : weights.length = pivots.length)
    (hw : ∀ i, row ≤ i → i < row + pivots.length → combination pivots weights i = 0) :
    ∀ w ∈ weights, w = 0 := by
  have hzero : List.replicate pivots.length (0 : K) = backSubstitute [] row pivots := by
    refine eq_backSubstitute h (by simp) fun i _ _ => ?_
    rw [← List.map_const', combination_map]
    simp
  have hweights : weights = backSubstitute [] row pivots :=
    eq_backSubstitute h hl fun i hi hlt => by simp [hw i hi hlt]
  intro w hmem
  rw [hweights, ← hzero] at hmem
  exact List.eq_of_mem_replicate hmem

/-- A sum over the positions listed, without repetition, in any order. -/
theorem sum_filter_mem {V : Type} [AddCommMonoid V] {P : List Nat} (hnodup : P.Nodup)
    (hlt : ∀ j ∈ P, j < n) (f : Nat → V) : ∑ j : Fin n with j.val ∈ P, f j = (P.map f).sum := by
  have hmap : P.toFinset = ({j : Fin n | j.val ∈ P} : Finset (Fin n)).map Fin.valEmbedding := by
    ext j
    simp only [List.mem_toFinset, Finset.mem_map, Finset.mem_filter, Finset.mem_univ, true_and]
    exact ⟨fun hj => ⟨⟨j, hlt j hj⟩, hj, rfl⟩, fun ⟨_, hi, he⟩ => he ▸ hi⟩
  rw [← List.sum_toFinset f hnodup, hmap, Finset.sum_map]
  rfl

section Quotient

variable (L : Matrix (Fin m) (Fin c) K) (D : Matrix (Fin n) (Fin c) K)

def elimination : Elimination K :=
  eliminate c (Grid.ofMatrix D).entries (Grid.ofMatrix L).entries

/-- The quotient of two matrices and the rank of the divisor. -/
def quotient : Solution K := divide (Grid.ofMatrix L) (Grid.ofMatrix D)

/-- The rows of the divisor that come first in the elimination, as many as the rank. -/
def chosenRows : Finset (Fin n) :=
  {j : Fin n | j.val ∈ (elimination L D).permutation.take (quotient L D).rank}

theorem mem_chosenRows {j : Fin n} :
    j ∈ chosenRows L D ↔ j.val ∈ (elimination L D).pivots.map Column.origin := by
  rw [chosenRows, ← Elimination.take_permutation]
  simp
  rfl

theorem row_ofMatrix (j : Fin n) : vector c ((Grid.ofMatrix D).entries.getD j []) = D.row j :=
  congrFun (Grid.toMatrix_ofMatrix D) j

theorem exists_rotated_elimination : Triangular 0 (elimination L D).pivots ∧
    ∃ φ : Rotation K c 0, Rotated φ (fun j => vector c ((Grid.ofMatrix D).entries.getD j []))
      (elimination L D).pivots (Grid.ofMatrix L).entries (elimination L D).targets := by
  obtain ⟨htri, φ, hφ⟩ := exists_rotated_eliminate (Grid.ofMatrix D).rectangular
    (Grid.ofMatrix L).rectangular
  exact ⟨htri, φ, hφ.subset (List.subset_append_left ..)⟩

theorem lt_of_mem_pivots {p : Column K} (hp : p ∈ (elimination L D).pivots) : p.origin < n := by
  have := lt_of_mem_origins_eliminate (List.mem_map_of_mem hp)
  simpa [Grid.ofMatrix] using this

theorem nodup_pivots : ((elimination L D).pivots.map Column.origin).Nodup :=
  nodup_origins_eliminate ..

theorem length_pivots_le : (elimination L D).pivots.length ≤ c :=
  length_pivots_eliminateFrom ..

theorem sum_chosenRows (f : Nat → K) :
    ∑ j ∈ chosenRows L D, f j • D.row j = ((elimination L D).pivots.map fun p =>
      f p.origin • vector c ((Grid.ofMatrix D).entries.getD p.origin [])).sum := by
  have hsum := sum_filter_mem (n := n) (nodup_pivots L D)
    (List.forall_mem_map.2 fun p hp => lt_of_mem_pivots L D hp)
    fun j => f j • vector c ((Grid.ofMatrix D).entries.getD j [])
  rw [List.map_map] at hsum
  refine (Finset.sum_congr ?_ fun j _ => ?_).trans hsum
  · ext j
    simpa using mem_chosenRows L D
  · rw [row_ofMatrix]

theorem linearIndepOn_chosenRows : LinearIndepOn K D.row (chosenRows L D) := by
  obtain ⟨htri, φ, hφ⟩ := exists_rotated_elimination L D
  refine linearIndepOn_finset_iff.2 fun f hf j hj => ?_
  obtain ⟨g, hg⟩ : ∃ g : Nat → K, ∀ j : Fin n, g j = f j :=
    ⟨fun j => if h : j < n then f ⟨j, h⟩ else 0, by simp⟩
  simp only [← hg, sum_chosenRows] at hf
  have hzero := htri.eq_zero (List.length_map _) fun i _ hi => by
    have hc := length_pivots_le L D
    rw [← hφ.apply_sum g ⟨i, by omega⟩, hf, map_zero, Pi.zero_apply]
  obtain ⟨p, hp, hpj⟩ := List.mem_map.1 ((mem_chosenRows L D).1 hj)
  rw [← hg, ← hpj]
  exact hzero _ (List.mem_map_of_mem hp)

theorem length_targets : (elimination L D).targets.length = m := by
  rw [elimination, eliminate, length_targets_eliminateFrom, Grid.ofMatrix, List.length_ofFn]

def unknowns (i : Fin m) : List K :=
  backSubstitute ((elimination L D).targets.getD i []) 0 (elimination L D).pivots

theorem length_unknowns (i : Fin m) :
    (unknowns L D i).length = (elimination L D).pivots.length :=
  length_backSubstitute ..

def solutionRow (i : Fin m) : List K :=
  placeSolution n (elimination L D).pivots (unknowns L D i)

theorem map_solutionRow (i : Fin m) :
    ((elimination L D).pivots.map fun p => (solutionRow L D i).getD p.origin 0) =
      unknowns L D i :=
  map_placeSolution (length_unknowns L D i) (nodup_pivots L D) fun _ hp => lt_of_mem_pivots L D hp

theorem entries_quotient :
    (quotient L D).grid.entries = List.ofFn (solutionRow L D) := by
  have hdef : (quotient L D).grid.entries = (elimination L D).targets.map fun target =>
      placeSolution (Grid.ofMatrix D).rows (elimination L D).pivots
        (backSubstitute target 0 (elimination L D).pivots) := rfl
  rw [hdef, Grid.rows_ofMatrix]
  refine List.ext_getElem (by simp [length_targets]) fun i hi _ => ?_
  rw [List.length_map] at hi
  rw [List.getElem_map, List.getElem_ofFn, solutionRow, unknowns, List.getD_eq_getElem _ _ hi]

theorem toMatrix_quotient (i : Fin m) (j : Fin n) :
    (quotient L D).grid.toMatrix m n i j = (solutionRow L D i).getD j 0 := by
  simp [Grid.toMatrix, entries_quotient, vector]

theorem toMatrix_quotient_eq_zero (i : Fin m) (j : Fin n) (hj : j ∉ chosenRows L D) :
    (quotient L D).grid.toMatrix m n i j = 0 := by
  rw [toMatrix_quotient]
  exact getD_placeSolution_of_notMem (length_unknowns L D i) (mt (mem_chosenRows L D).2 hj)

/-- Turned like the targets, the residual is zero in the rows of the triangle. -/
theorem residual_eq_zero {φ : Rotation K c 0}
    (hφ : Rotated φ (fun j => vector c ((Grid.ofMatrix D).entries.getD j []))
      (elimination L D).pivots (Grid.ofMatrix L).entries (elimination L D).targets)
    (htri : Triangular 0 (elimination L D).pivots) (i : Fin m) (k : Fin c)
    (hk : k.val < (elimination L D).pivots.length) :
    φ ((L - (quotient L D).grid.toMatrix m n * D).row i) k = 0 := by
  have htarget : φ (L.row i) = vector c ((elimination L D).targets.getD i []) := by
    have hi : i.val < (elimination L D).targets.length := (length_targets L D).symm ▸ i.isLt
    have hat := congrArg (·[i.val]?) hφ.targets
    simp only [Grid.ofMatrix, List.getElem?_map, List.getElem?_eq_getElem hi, List.getElem?_ofFn,
      i.isLt, dif_pos, Option.map_some, Option.some_inj, vector_ofFn] at hat
    rw [List.getD_eq_getElem _ _ hi]
    exact hat.symm
  have hsum : ((quotient L D).grid.toMatrix m n * D).row i = ((elimination L D).pivots.map fun p =>
      (solutionRow L D i).getD p.origin 0 •
        vector c ((Grid.ofMatrix D).entries.getD p.origin [])).sum := by
    rw [BasicSolution.row_mul (toMatrix_quotient_eq_zero L D) i]
    simp only [toMatrix_quotient]
    exact sum_chosenRows L D fun j => (solutionRow L D i).getD j 0
  have hrow : (L - (quotient L D).grid.toMatrix m n * D).row i =
      L.row i - ((quotient L D).grid.toMatrix m n * D).row i := rfl
  rw [hrow, map_sub, Pi.sub_apply, htarget, hsum,
    hφ.apply_sum fun j => (solutionRow L D i).getD j 0, map_solutionRow, unknowns,
    combination_backSubstitute htri _ (Nat.zero_le _) (by omega)]
  exact sub_self _

theorem basicSolution_quotient :
    BasicSolution L D (chosenRows L D) ((quotient L D).grid.toMatrix m n) where
  independent := linearIndepOn_chosenRows L D
  support := toMatrix_quotient_eq_zero L D
  orthogonal i p hp := by
    obtain ⟨htri, φ, hφ⟩ := exists_rotated_elimination L D
    obtain ⟨pivot, hpivot, horigin⟩ := List.mem_map.1 ((mem_chosenRows L D).1 hp)
    have hvalues : φ (D.row p) = vector c pivot.values := by
      rw [hφ.values pivot hpivot, horigin, row_ofMatrix]
    rw [← φ.dot, hvalues]
    -- where the turned residual is not zero, beyond the triangle, the pivot is
    refine Finset.sum_eq_zero fun k _ => ?_
    rcases Nat.lt_or_ge k.val (elimination L D).pivots.length with hk | hk
    · rw [residual_eq_zero L D hφ htri i k hk, zero_mul]
    · have hbeyond : vector c pivot.values k = 0 := htri.getD_eq_zero hpivot (by omega)
      rw [hbeyond, mul_zero]

theorem permutation_elimination : (elimination L D).permutation.Perm (List.range n) := by
  have := permutation_eliminate c (Grid.ofMatrix D).entries (Grid.ofMatrix L).entries
  rwa [show (Grid.ofMatrix D).entries.length = n from Grid.rows_ofMatrix D] at this

theorem rank_le : (quotient L D).rank ≤ min c n := by
  have hlen := (permutation_elimination L D).length_eq
  rw [Elimination.permutation, List.length_map, List.length_append, List.length_range] at hlen
  have hrank : (quotient L D).rank = (elimination L D).pivots.length := rfl
  exact le_min (length_pivots_le L D) (by omega)

/-- With full rank every row is chosen. -/
theorem mem_chosenRows_of_rank_eq (h : (quotient L D).rank = n) (j : Fin n) :
    j ∈ chosenRows L D := by
  have hperm := permutation_elimination L D
  rw [chosenRows, List.take_of_length_le (by rw [hperm.length_eq, List.length_range, h])]
  simpa using hperm.mem_iff.2 (List.mem_range.2 j.isLt)

theorem grid_quotient :
    (quotient L D).grid = Grid.ofMatrix ((quotient L D).grid.toMatrix m n) := by
  have hm : (quotient L D).grid.rows = m := by
    rw [Grid.rows, entries_quotient, List.length_ofFn]
  exact (Grid.ofMatrix_toMatrix hm (Grid.rows_ofMatrix D)).symm

end Quotient

/-- The quotient of two matrices is the basic solution on its pivots, none of which is zero. A factor
of the dividend that lives on the pivots is found again, and with full rank every factor is. -/
theorem divide_basicSolution (L : Matrix (Fin m) (Fin c) K) (D : Matrix (Fin n) (Fin c) K) :
    let e := elimination L D
    let s := quotient L D
    let P := chosenRows L D
    let X := s.grid.toMatrix m n
    e.permutation.Perm (List.range n) ∧ s.rank ≤ min c n ∧ s.rank = e.pivots.length ∧
      (∀ k (hk : k < e.pivots.length), e.pivots[k].values.getD k 0 ≠ 0) ∧
      s.grid = Grid.ofMatrix X ∧ BasicSolution L D P X ∧
      (∀ Y : Matrix (Fin m) (Fin n) K, (∀ i, ∀ j ∉ P, Y i j = 0) → L = Y * D → X = Y) ∧
      (s.rank = n → ∀ Y : Matrix (Fin m) (Fin n) K, L = Y * D → X = Y) := by
  intro e s P X
  have hX : BasicSolution L D P X := basicSolution_quotient L D
  have hfound (Y : Matrix (Fin m) (Fin n) K) (hY : ∀ i, ∀ j ∉ P, Y i j = 0) (h : L = Y * D) :
      X = Y :=
    hX.unique (h ▸ .of_mul hX.independent hY)
  refine ⟨permutation_elimination L D, rank_le L D, rfl, fun k hk => ?_, grid_quotient L D, hX,
    hfound, fun hn Y => hfound Y fun i j hj => absurd (mem_chosenRows_of_rank_eq L D hn j) hj⟩
  have hpivot := (exists_rotated_elimination L D).1.getD_ne_zero k hk
  rwa [Nat.zero_add] at hpivot

end UnitMatrix
