import UnitMatrix.Proofs.Division.Gram

/-! Symmetries of division, in exact arithmetic. The quotient is linear in the dividend, a factor of
the divisor goes to the denominator, and the order of the equations, which are the columns of both
sides, is of no account. Rank and pivots stay the same in all of this, also when rows tie for the
next pivot and when the divisor has more rows than columns. -/

namespace UnitMatrix

variable {K : Type} [ExactField K] {m n c : Nat}

theorem BasicSolution.add_smul {L L' : Matrix (Fin m) (Fin c) K} {D : Matrix (Fin n) (Fin c) K}
    {P : Finset (Fin n)} {X X' : Matrix (Fin m) (Fin n) K} (h : BasicSolution L D P X)
    (h' : BasicSolution L' D P X') (s s' : K) :
    BasicSolution (s • L + s' • L') D P (s • X + s' • X') where
  independent := h.independent
  support i j hj := by simp [h.support i j hj, h'.support i j hj]
  orthogonal i p hp := by
    have hres : s • L + s' • L' - (s • X + s' • X') * D =
        s • (L - X * D) + s' • (L' - X' * D) := by
      rw [Matrix.add_mul, Matrix.smul_mul, Matrix.smul_mul, smul_sub, smul_sub]
      exact add_sub_add_comm ..
    have hrow : (s • L + s' • L' - (s • X + s' • X') * D).row i =
        s • (L - X * D).row i + s' • (L' - X' * D).row i := congrFun hres i
    rw [hrow, add_dotProduct, smul_dotProduct, smul_dotProduct, h.orthogonal i p hp,
      h'.orthogonal i p hp, smul_zero, smul_zero, add_zero]

section Dividend

variable (L L' : Matrix (Fin m) (Fin c) K) (D : Matrix (Fin n) (Fin c) K)

theorem toMatrix_quotient_add_smul (s s' : K) :
    (quotient (s • L + s' • L') D).grid.toMatrix m n =
      s • (quotient L D).grid.toMatrix m n + s' • (quotient L' D).grid.toMatrix m n := by
  -- the rows are chosen without a look at the dividend, and over them there is one basic solution
  have hchosen (M : Matrix (Fin m) (Fin c) K) : BasicSolution M D (chosenRows L D)
      ((quotient M D).grid.toMatrix m n) :=
    chosenRows_eq one_pos (one_smul K (D * D.transpose)).symm L M ▸ basicSolution_quotient M D
  exact (hchosen _).unique ((hchosen L).add_smul (hchosen L') s s')

theorem gram_smul (t : K) : t • D * (t • D).transpose = (t * t) • (D * D.transpose) := by
  rw [Matrix.transpose_smul, Matrix.smul_mul, Matrix.mul_smul, smul_smul]

theorem toMatrix_quotient_smul {t : K} (ht : t ≠ 0) :
    (quotient L (t • D)).grid.toMatrix m n = t⁻¹ • (quotient L D).grid.toMatrix m n := by
  have hL : L * (t • D).transpose = t • (L * D.transpose) := by
    rw [Matrix.transpose_smul, Matrix.mul_smul]
  rw [toMatrix_quotient_of_gram (mul_self_pos.2 ht) (gram_smul D t) hL, div_mul_cancel_left₀ ht]

theorem gram_submatrix (order : Equiv.Perm (Fin c)) :
    L.submatrix id order * (D.submatrix id order).transpose = L * D.transpose := by
  rw [Matrix.transpose_submatrix, Matrix.submatrix_mul_equiv, Matrix.submatrix_id_id]

end Dividend

/-- Division is linear in the dividend, and a factor other than zero of the divisor divides the
quotient. The divisor is eliminated as without the factor: the same rows are pivots in the same
order, and the rank is the same. -/
theorem quotient_linear (A A' : Matrix (Fin m) (Fin c) K) (D : Matrix (Fin n) (Fin c) K)
    (s s' : K) {t : K} (ht : t ≠ 0) :
    let X := (quotient A D).grid.toMatrix m n
    let X' := (quotient A' D).grid.toMatrix m n
    (quotient A D).grid = Grid.ofMatrix X ∧ (quotient A' D).grid = Grid.ofMatrix X' ∧
      (quotient (s • A + s' • A') D).grid = Grid.ofMatrix (s • X + s' • X') ∧
      (quotient A (t • D)).grid = Grid.ofMatrix (fun i j => X i j / t) ∧
      (quotient A (t • D)).rank = (quotient A D).rank ∧
      (elimination A (t • D)).permutation = (elimination A D).permutation := by
  intro X X'
  have hscaled : t⁻¹ • X = fun i j => X i j / t := by
    funext i j
    exact (div_eq_inv_mul ..).symm
  refine ⟨grid_quotient A D, grid_quotient A' D, ?_, ?_,
    rank_quotient_eq (mul_self_pos.2 ht) (gram_smul D t) A A,
    permutation_elimination_eq (mul_self_pos.2 ht) (gram_smul D t) A A⟩
  · rw [grid_quotient, toMatrix_quotient_add_smul]
  · rw [grid_quotient, toMatrix_quotient_smul A D ht, hscaled]

/-- Three rows in the plane, two of which tie for the first pivot, against minus twice these rows. -/
theorem quotient_linear_of_negative :
    letI := ExactField.real (1 / 8) (by norm_num)
    let D : Matrix (Fin 3) (Fin 2) ℝ := !![0, 2; 2, 0; 1, 1]
    let A : Matrix (Fin 1) (Fin 2) ℝ := !![3, 4]
    let A' : Matrix (Fin 1) (Fin 2) ℝ := !![0, -1]
    let X := (quotient A D).grid.toMatrix 1 3
    let X' := (quotient A' D).grid.toMatrix 1 3
    (-2 : ℝ) ≠ 0 ∧ (quotient ((5 : ℝ) • A + (-7 : ℝ) • A') D).grid =
        Grid.ofMatrix ((5 : ℝ) • X + (-7 : ℝ) • X') ∧
      (quotient A ((-2 : ℝ) • D)).grid = Grid.ofMatrix (fun i j => X i j / -2) ∧
      (quotient A ((-2 : ℝ) • D)).rank = (quotient A D).rank ∧
      (elimination A ((-2 : ℝ) • D)).permutation = (elimination A D).permutation := by
  let _ : ExactField ℝ := ExactField.real (1 / 8) (by norm_num)
  intro D A A' X X'
  have ht : (-2 : ℝ) ≠ 0 := by norm_num
  obtain ⟨-, -, hsum, hquotient, hrank, hpermutation⟩ := quotient_linear A A' D 5 (-7) ht
  exact ⟨ht, hsum, hquotient, hrank, hpermutation⟩

/-- The columns of dividend and divisor may be taken in any order: quotient, rank and pivots are
those of the order given. -/
theorem quotient_reorder (order : Equiv.Perm (Fin c)) (A : Matrix (Fin m) (Fin c) K)
    (D : Matrix (Fin n) (Fin c) K) :
    (quotient (A.submatrix id order) (D.submatrix id order)).grid = (quotient A D).grid ∧
      (quotient (A.submatrix id order) (D.submatrix id order)).rank = (quotient A D).rank ∧
      (elimination (A.submatrix id order) (D.submatrix id order)).permutation =
        (elimination A D).permutation := by
  have hD := (gram_submatrix D D order).trans (one_smul K _).symm
  have hA := (gram_submatrix A D order).trans (one_smul K _).symm
  refine ⟨?_, rank_quotient_eq one_pos hD A _, permutation_elimination_eq one_pos hD A _⟩
  rw [grid_quotient, toMatrix_quotient_of_gram one_pos hD hA, div_one, one_smul, ← grid_quotient]

end UnitMatrix
