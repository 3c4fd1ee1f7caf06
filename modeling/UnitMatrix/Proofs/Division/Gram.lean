import UnitMatrix.Proofs.Division.RankDecision

/-! What a quotient depends on, in exact arithmetic. A reflection that clears the tail of a pivot
leaves inner products of tails that the ones before it determine. So the inner products of the rows
of the divisor decide which rows become pivots, in which order and how many, and if all of them
change by one positive factor the elimination goes the same way. Together with the inner products of
dividend and divisor they decide the quotient. -/

namespace UnitMatrix

variable {K : Type} [ExactField K] {m n c k : Nat}

def tailDot (k : Nat) (x y : Fin c → K) : K := tailFrom k x ⬝ᵥ tailFrom k y

theorem tailDot_zero (x y : Fin c → K) : tailDot 0 x y = x ⬝ᵥ y := by
  rw [tailDot, tailFrom_zero, tailFrom_zero]

theorem tailFrom_eq_add (hk : k < c) (x : Fin c → K) :
    tailFrom k x = Pi.single ⟨k, hk⟩ (x ⟨k, hk⟩) + tailFrom (k + 1) x := by
  funext i
  rw [Pi.add_apply]
  rcases Nat.lt_trichotomy i.val k with hi | hi | hi
  · rw [tailFrom_of_lt hi, tailFrom_of_lt (by omega), Pi.single_eq_of_ne (Fin.ne_of_val_ne hi.ne),
      add_zero]
  · obtain rfl : i = ⟨k, hk⟩ := Fin.ext hi
    rw [tailFrom_of_le (k := k) le_rfl, tailFrom_of_lt (Nat.lt_succ_self k), Pi.single_eq_same,
      add_zero]
  · rw [tailFrom_of_le hi.le, tailFrom_of_le (by omega), Pi.single_eq_of_ne (Fin.ne_of_val_ne hi.ne'),
      zero_add]

theorem tailDot_succ (hk : k < c) (x y : Fin c → K) :
    tailDot k x y = x ⟨k, hk⟩ * y ⟨k, hk⟩ + tailDot (k + 1) x y := by
  have hx : tailFrom (k + 1) x ⟨k, hk⟩ = 0 := tailFrom_of_lt (Nat.lt_succ_self k)
  have hy : tailFrom (k + 1) y ⟨k, hk⟩ = 0 := tailFrom_of_lt (Nat.lt_succ_self k)
  rw [tailDot, tailFrom_eq_add hk x, tailFrom_eq_add hk y]
  simp [add_dotProduct, dotProduct_add, single_dotProduct, dotProduct_single, hx, hy, tailDot]

theorem tailDot_eq_zero {x y : Fin c → K} (hy : y ∈ front K c k) : tailDot k x y = 0 := by
  rw [tailDot]
  refine Finset.sum_eq_zero fun i _ => ?_
  rcases Nat.lt_or_ge i.val k with hi | hi
  · rw [tailFrom_of_lt hi, zero_mul]
  · rw [tailFrom_of_le (x := y) hi, hy i hi, mul_zero]

namespace Rotation

variable (φ : Rotation K c k)

theorem tailDot_apply (x y : Fin c → K) : tailDot k (φ x) (φ y) = tailDot k x y := by
  rw [tailDot, φ.tailFrom_apply x le_rfl, φ.tailFrom_apply y le_rfl, φ.dot, tailDot]

/-- Clearing the tail of `p` takes the share of `p` out of every inner product. -/
theorem tailDot_next (hk : k < c) {p : Fin c → K} (hp : φ p ∈ front K c (k + 1))
    (x y : Fin c → K) : tailDot k p p * tailDot (k + 1) (φ x) (φ y) =
      tailDot k p p * tailDot k x y - tailDot k x p * tailDot k y p := by
  have hshare (z : Fin c → K) : tailDot k z p = φ z ⟨k, hk⟩ * φ p ⟨k, hk⟩ := by
    rw [← φ.tailDot_apply, tailDot_succ hk, tailDot_eq_zero hp, add_zero]
  have hxy : tailDot k x y = φ x ⟨k, hk⟩ * φ y ⟨k, hk⟩ + tailDot (k + 1) (φ x) (φ y) := by
    rw [← φ.tailDot_apply, tailDot_succ hk]
  rw [hshare, hshare, hshare, hxy]
  ring

end Rotation

/-- Where the inner products of tails are proportional, they are so still when one pivot of either
side is cleared. -/
theorem tailDot_next_mul {φ φ' : Rotation K c k} {row row' : Nat → Fin c → K} {w : K} {p : Nat}
    (hw : w ≠ 0) (hpos : tailDot k (row p) (row p) ≠ 0) (hk : k < c)
    (hp : φ (row p) ∈ front K c (k + 1)) (hp' : φ' (row' p) ∈ front K c (k + 1))
    (hdot : ∀ i j, tailDot k (row' i) (row' j) = w * tailDot k (row i) (row j)) (i j : Nat) :
    tailDot (k + 1) (φ' (row' i)) (φ' (row' j)) = w * tailDot (k + 1) (φ (row i)) (φ (row j)) := by
  have hij := φ.tailDot_next hk hp (row i) (row j)
  have hij' := φ'.tailDot_next hk hp' (row' i) (row' j)
  simp only [hdot] at hij'
  refine mul_left_cancel₀ (mul_ne_zero hw hpos) ?_
  linear_combination hij' - w * w * hij

theorem lengthOf_eq_root_mul {w : K} (hw : 0 ≤ w) {x y : Fin c → K} (h : y ⬝ᵥ y = w * (x ⬝ᵥ x)) :
    lengthOf y = ExactField.root w * lengthOf x := by
  refine (mul_self_inj_of_nonneg (lengthOf_nonneg y)
    (mul_nonneg (ExactField.root_nonneg hw) (lengthOf_nonneg x))).1 ?_
  rw [lengthOf_mul_self, h, ← lengthOf_mul_self x, mul_mul_mul_comm, ExactField.root_mul_root hw]

theorem root_pos {w : K} (hw : 0 < w) : 0 < ExactField.root w := by
  refine lt_of_le_of_ne (ExactField.root_nonneg hw.le) fun h => hw.ne ?_
  rw [← ExactField.root_mul_root hw.le, ← h, mul_zero]

namespace Rotated

variable {row row' : Nat → Fin c → K} {columns columns' : List (Column K)}
  {before after before' after' : List (List K)}

/-- Tails with proportional inner products have proportional norms. -/
theorem normFrom_eq_root_mul {φ φ' : Rotation K c k} (h : Rotated φ row columns before after)
    (h' : Rotated φ' row' columns' before' after') (hk : k ≤ c) {w : K} (hw : 0 < w)
    (hdot : ∀ i j, tailDot k (row' i) (row' j) = w * tailDot k (row i) (row j))
    {a a' : Column K} (ha : a ∈ columns) (ha' : a' ∈ columns') (horigin : a'.origin = a.origin) :
    normFrom k a'.values = ExactField.root w * normFrom k a.values := by
  rw [h.normFrom_eq le_rfl hk ha, h'.normFrom_eq le_rfl hk ha', horigin]
  exact lengthOf_eq_root_mul hw.le (hdot ..)

/-- So both have the same pivot. -/
theorem origins_choosePivot {φ φ' : Rotation K c k} (h : Rotated φ row columns before after)
    (h' : Rotated φ' row' columns' before' after') (hk : k ≤ c) {w : K} (hw : 0 < w)
    (horigins : columns'.map Column.origin = columns.map Column.origin)
    (hdot : ∀ i j, tailDot k (row' i) (row' j) = w * tailDot k (row i) (row j)) :
    (choosePivot k columns').map Column.origin = (choosePivot k columns).map Column.origin := by
  have hlength : columns'.length = columns.length := by simpa using congrArg List.length horigins
  have hnorms : columns'.map (fun a => normFrom k a.values) =
      (columns.map fun a => normFrom k a.values).map (ExactField.root w * ·) := by
    refine List.ext_getElem (by simp [hlength]) fun i hi hi' => ?_
    have hi : i < columns'.length := by simpa using hi
    have horigin : columns'[i].origin = columns[i].origin := by
      have := congrArg (·[i]?) horigins
      simpa [hi, hlength ▸ hi] using this
    simp only [List.getElem_map]
    exact h.normFrom_eq_root_mul h' hk hw hdot (List.getElem_mem _) (List.getElem_mem _) horigin
  rw [choosePivot, choosePivot, hnorms,
    lastLargest_map fun x y => by simp [mul_lt_mul_iff_right₀ (root_pos hw)]]
  exact origins_bringForward horigins _

end Rotated

/-- One step: the pivot's tail is cleared, and the other columns go on from what the reflection made
of them. -/
theorem Rotated.exists_next {row : Nat → Fin c → K} {pivot : Column K} {others : List (Column K)}
    {targets : List (List K)}
    (h : Rotated (Rotation.refl (k := k)) row (pivot :: others) targets targets) (hk : k < c)
    (hn : 0 < normFrom k pivot.values) :
    let r := Reflector.ofTail (normFrom k pivot.values) (pivot.values.drop k)
    ∃ ψ : Rotation K c k, ψ (row pivot.origin) ∈ front K c (k + 1) ∧
      Rotated (Rotation.refl (k := k + 1)) (fun j => ψ (row j)) (others.map (r.applyColumn k))
        (targets.map (r.apply k)) (targets.map (r.apply k)) := by
  intro r
  have hp : pivot.values.length = c := h.length_values pivot List.mem_cons_self
  obtain ⟨-, hzero⟩ := Reflector.getD_apply_ofTail (hp.symm ▸ hk) hn
  have hd : k + r.direction.length = c := by
    rw [Reflector.length_ofTail, List.length_drop]
    omega
  have hstep := h.reflect (Reflector.weighed_ofTail ..) hd
  refine ⟨_, fun i hi => ?_, hstep.rest⟩
  exact (congrFun (hstep.values _ List.mem_cons_self) i).symm.trans (hzero i hi)

/-- The same rows are pivots, in the same order, and the same rows are left over in the same order. -/
structure Elimination.SameOrder (e e' : Elimination K) : Prop where
  pivots : e'.pivots.map Column.origin = e.pivots.map Column.origin
  rest : e'.rest.map Column.origin = e.rest.map Column.origin

/-- A tolerance grows with the norms that it is set by. -/
theorem tolerance_mul (s norm : K) (tolerance? : Option K) (scale : Nat) :
    (tolerance?.map (s * ·)).getD (s * norm * ExactField.error * scale) =
      s * tolerance?.getD (norm * ExactField.error * scale) := by
  cases tolerance? with
  | none => simp only [Option.map_none, Option.getD_none, mul_assoc]
  | some t => rfl

/-- Columns whose tails have proportional inner products are eliminated in the same order. -/
theorem sameOrder_eliminateFrom {w : K} (hw : 0 < w) {scale steps : Nat} {tolerance? : Option K}
    (htol : ∀ t ∈ tolerance?, 0 ≤ t) (hk : k + steps = c) {row row' : Nat → Fin c → K}
    {columns columns' : List (Column K)} {targets targets' : List (List K)}
    (h : Rotated (Rotation.refl (k := k)) row columns targets targets)
    (h' : Rotated (Rotation.refl (k := k)) row' columns' targets' targets')
    (horigins : columns'.map Column.origin = columns.map Column.origin)
    (hdot : ∀ i j, tailDot k (row' i) (row' j) = w * tailDot k (row i) (row j)) :
    (eliminateFrom scale steps tolerance? k columns targets).SameOrder
      (eliminateFrom scale steps (tolerance?.map (ExactField.root w * ·)) k columns' targets') := by
  induction steps generalizing tolerance? k row row' columns columns' targets targets' with
  | zero => exact ⟨rfl, horigins⟩
  | succ steps ih =>
    have hchosen := h.origins_choosePivot h' (by omega) hw horigins hdot
    have hsub := (choosePivot_perm k columns).subset
    have hsub' := (choosePivot_perm k columns').subset
    cases hcons : choosePivot k columns with
    | nil =>
      rw [hcons] at hchosen
      rw [eliminateFrom, eliminateFrom, hcons, List.map_eq_nil_iff.1 hchosen]
      exact ⟨rfl, rfl⟩
    | cons pivot others =>
      rw [hcons] at hchosen hsub
      -- the norms differ by one factor, and with them the tolerances that they are compared with
      obtain ⟨pivot', others', hcons', hpivot, hothers⟩ := List.map_eq_cons_iff.1 hchosen
      rw [hcons'] at hsub'
      have hnorm := h.normFrom_eq_root_mul h' (by omega) hw hdot (hsub List.mem_cons_self)
        (hsub' List.mem_cons_self) hpivot
      rw [eliminateFrom, eliminateFrom, hcons, hcons']
      dsimp only
      simp only [exact_le, decide_eq_true_eq, exact_mul, exact_epsilon, exact_ofNat, hnorm,
        tolerance_mul, mul_le_mul_iff_right₀ (root_pos hw)]
      split
      next => exact ⟨rfl, hcons' ▸ hchosen⟩
      next hle =>
        obtain ⟨hn, ht⟩ := norm_pos htol hle
        split
        next => exact ⟨congrArg (fun origin => [origin]) hpivot, hothers⟩
        next =>
          rw [← hnorm]
          obtain ⟨ψ, hψ, hnext⟩ := (h.subset hsub).exists_next (by omega) hn
          obtain ⟨ψ', hψ', hnext'⟩ := (h'.subset hsub').exists_next (by omega)
            (hnorm ▸ mul_pos (root_pos hw) hn)
          have hpos : 0 < tailDot k (row pivot.origin) (row pivot.origin) := by
            rw [h.normFrom_eq le_rfl (by omega) (hsub List.mem_cons_self)] at hn
            rw [tailDot, ← lengthOf_mul_self]
            exact mul_pos hn hn
          have horder := ih ht (by omega) hnext hnext'
            (by rw [origin_applyColumn, origin_applyColumn, hothers])
            (tailDot_next_mul hw.ne' hpos.ne' (by omega) hψ (hpivot ▸ hψ') hdot)
          exact ⟨List.cons_eq_cons.2 ⟨hpivot, horder.pivots⟩, horder.rest⟩

section Quotient

variable {m' : Nat} {D D' : Matrix (Fin n) (Fin c) K} {w : K}

/-- Behind the last row of a matrix there is nothing. -/
theorem vector_entries (D : Matrix (Fin n) (Fin c) K) (j : Nat) :
    vector c ((Grid.ofMatrix D).entries.getD j []) = if h : j < n then D.row ⟨j, h⟩ else 0 := by
  split
  next h => exact row_ofMatrix D ⟨j, h⟩
  next h =>
    rw [List.getD_eq_default _ _ (by simpa [Grid.ofMatrix] using h)]
    rfl

theorem tailDot_entries (hD : D' * D'.transpose = w • (D * D.transpose)) (i j : Nat) :
    tailDot 0 (vector c ((Grid.ofMatrix D').entries.getD i []))
        (vector c ((Grid.ofMatrix D').entries.getD j [])) =
      w * tailDot 0 (vector c ((Grid.ofMatrix D).entries.getD i []))
        (vector c ((Grid.ofMatrix D).entries.getD j [])) := by
  simp only [vector_entries, tailDot_zero]
  by_cases hi : i < n
  · by_cases hj : j < n
    · rw [dif_pos hi, dif_pos hj, dif_pos hi, dif_pos hj]
      exact congrFun (congrFun hD ⟨i, hi⟩) ⟨j, hj⟩
    · simp [hj]
  · simp [hi]

/-- The inner products of the rows of the divisor decide the order of the elimination, a positive
factor and the dividend do not matter. -/
theorem sameOrder_elimination (hw : 0 < w) (hD : D' * D'.transpose = w • (D * D.transpose))
    (L : Matrix (Fin m) (Fin c) K) (L' : Matrix (Fin m') (Fin c) K) :
    (elimination L D).SameOrder (elimination L' D') := by
  have hrows : (Grid.ofMatrix D').entries.length = (Grid.ofMatrix D).entries.length :=
    (Grid.rows_ofMatrix D').trans (Grid.rows_ofMatrix D).symm
  rw [elimination, elimination, eliminate, eliminate, hrows]
  refine sameOrder_eliminateFrom hw (by simp) (Nat.zero_add c)
    (.initial (Grid.ofMatrix D).rectangular (Grid.ofMatrix L).rectangular)
    (.initial (Grid.ofMatrix D').rectangular (Grid.ofMatrix L').rectangular) ?_ (tailDot_entries hD)
  exact List.ext_getElem (by simp [hrows]) (by simp)

theorem rank_quotient_eq (hw : 0 < w) (hD : D' * D'.transpose = w • (D * D.transpose))
    (L : Matrix (Fin m) (Fin c) K) (L' : Matrix (Fin m') (Fin c) K) :
    (quotient L' D').rank = (quotient L D).rank := by
  have hlength := congrArg List.length (sameOrder_elimination hw hD L L').pivots
  rwa [List.length_map, List.length_map] at hlength

theorem permutation_elimination_eq (hw : 0 < w) (hD : D' * D'.transpose = w • (D * D.transpose))
    (L : Matrix (Fin m) (Fin c) K) (L' : Matrix (Fin m') (Fin c) K) :
    (elimination L' D').permutation = (elimination L D).permutation := by
  have horder := sameOrder_elimination hw hD L L'
  rw [Elimination.permutation, Elimination.permutation, List.map_append, List.map_append,
    horder.pivots, horder.rest]

theorem chosenRows_eq (hw : 0 < w) (hD : D' * D'.transpose = w • (D * D.transpose))
    (L : Matrix (Fin m) (Fin c) K) (L' : Matrix (Fin m') (Fin c) K) :
    chosenRows L' D' = chosenRows L D := by
  rw [chosenRows, chosenRows, permutation_elimination_eq hw hD L L', rank_quotient_eq hw hD L L']

variable {L L' : Matrix (Fin m) (Fin c) K} {X : Matrix (Fin m) (Fin n) K} {P : Finset (Fin n)}

theorem residual_dot (i : Fin m) (p : Fin n) :
    (L - X * D).row i ⬝ᵥ D.row p = (L * D.transpose - X * (D * D.transpose)) i p := by
  rw [← Matrix.mul_assoc, ← Matrix.sub_mul]
  rfl

/-- A basic solution is one for all matrices with such inner products, up to the factors. -/
theorem BasicSolution.of_gram (h : BasicSolution L D P X) {v : K} (hw : w ≠ 0)
    (hD : D' * D'.transpose = w • (D * D.transpose))
    (hL : L' * D'.transpose = v • (L * D.transpose)) (hP : LinearIndepOn K D'.row P) :
    BasicSolution L' D' P ((v / w) • X) where
  independent := hP
  support i j hj := by rw [Matrix.smul_apply, h.support i j hj, smul_zero]
  orthogonal i p hp := by
    have horthogonal := h.orthogonal i p hp
    rw [residual_dot] at horthogonal ⊢
    rw [hL, hD, Matrix.smul_mul, Matrix.mul_smul, smul_smul, div_mul_cancel₀ _ hw, ← smul_sub,
      Matrix.smul_apply, horthogonal, smul_zero]

/-- The quotient depends on inner products alone. -/
theorem toMatrix_quotient_of_gram {v : K} (hw : 0 < w)
    (hD : D' * D'.transpose = w • (D * D.transpose))
    (hL : L' * D'.transpose = v • (L * D.transpose)) :
    (quotient L' D').grid.toMatrix m n = (v / w) • (quotient L D).grid.toMatrix m n := by
  have h' := basicSolution_quotient L' D'
  have hP := chosenRows_eq hw hD L L'
  exact h'.unique (hP ▸ (basicSolution_quotient L D).of_gram hw.ne' hD hL (hP ▸ h'.independent))

end Quotient

end UnitMatrix
