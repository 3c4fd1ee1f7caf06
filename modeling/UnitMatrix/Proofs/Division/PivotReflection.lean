import UnitMatrix.Proofs.Division.Triangular

/-! The reflection of one pivot, on the lists that elimination works on. All columns of an elimination
have one length, and on them the reflector of a pivot is an isometry that undoes itself: it leaves the
entries before the pivot's position alone, keeps the inner products of tails, and sends the tail of the
pivot to a single entry. -/

namespace UnitMatrix

variable {K : Type} [ExactField K] {c k : Nat}

theorem reflection_reflection (v x : Fin c → K) : reflection v (reflection v x) = x := by
  by_cases hv : v ⬝ᵥ v = 0
  · simp [reflection_apply, hv]
  · -- the share of `v` changes its sign, so the second reflection gives back what the first took
    have hshare : reflection v x ⬝ᵥ v = -(x ⬝ᵥ v) := by
      rw [reflection_apply, sub_dotProduct, smul_dotProduct, smul_eq_mul, div_mul_cancel₀ _ hv]
      ring
    rw [reflection_apply v (reflection v x), hshare, reflection_apply, mul_neg, neg_div, neg_smul,
      sub_neg_eq_add, sub_add_cancel]

theorem eq_of_vector_eq {xs ys : List K} (hx : xs.length = c) (hy : ys.length = c)
    (h : vector c xs = vector c ys) : xs = ys := by
  refine List.ext_getElem (hx.trans hy.symm) fun i hi hi' => ?_
  simpa [vector, hi, hi'] using congrFun h ⟨i, hx ▸ hi⟩

namespace Reflector

theorem take_apply (r : Reflector K) (k : Nat) (xs : List K) :
    (r.apply k xs).take k = xs.take k := by
  rw [apply]
  by_cases hk : k ≤ xs.length
  · exact List.take_left' (by simpa using hk)
  · -- of a column that ends before `k` there is no tail to reflect
    have htail : r.applyTail [] = [] := by simp [applyTail]
    rw [List.drop_eq_nil_of_le (by omega), htail, List.append_nil, List.take_take, Nat.min_self]

variable {r : Reflector K} {xs ys : List K}

theorem drop_apply (hk : k ≤ xs.length) : (r.apply k xs).drop k = r.applyTail (xs.drop k) :=
  List.drop_left' (by simpa using hk)

theorem dotProduct_applyTail (hr : r.Weighed) (hx : xs.length = r.direction.length)
    (hy : ys.length = r.direction.length) :
    dotProduct (r.applyTail xs) (r.applyTail ys) = dotProduct xs ys := by
  have hd : 0 + r.direction.length = r.direction.length := Nat.zero_add _
  have htail (zs : List K) : r.applyTail zs = r.apply 0 zs := rfl
  rw [htail, htail, dotProduct_eq_vector (length_apply hx hd) (length_apply hy hd),
    vector_apply hr hx hd, vector_apply hr hy hd, reflection_dot, ← dotProduct_eq_vector hx hy]

theorem dotProduct_drop_apply (hr : r.Weighed) (hd : k + r.direction.length = c)
    (hx : xs.length = c) (hy : ys.length = c) :
    dotProduct ((r.apply k xs).drop k) ((r.apply k ys).drop k) =
      dotProduct (xs.drop k) (ys.drop k) := by
  rw [drop_apply (by omega), drop_apply (by omega)]
  exact dotProduct_applyTail hr (by simp; omega) (by simp; omega)

theorem apply_apply (hr : r.Weighed) (hd : k + r.direction.length = c) (hx : xs.length = c) :
    r.apply k (r.apply k xs) = xs := by
  have hlen := length_apply hx hd
  refine eq_of_vector_eq (length_apply hlen hd) hx ?_
  rw [vector_apply hr hlen hd, vector_apply hr hx hd, reflection_reflection]

/-- The step of elimination at position `k`, for any column `x` that is not zero from there on. The
direction is the tail of `x` with its head moved away from zero by the length of the tail. The weight
is positive, so that the reflector does reflect. Of any column it leaves the entries before `k` alone;
of columns as long as `x` it keeps the inner products of tails, and applied twice it changes nothing.
Of the tail of `x` itself only the head remains. -/
theorem ofTail_isometry {x : List K} (hn : 0 < normFrom k x) :
    let alpha := if 0 < x.getD k 0 then -normFrom k x else normFrom k x
    let r := ofTail (normFrom k x) (x.drop k)
    r.direction = (x.getD k 0 - alpha) :: x.drop (k + 1) ∧
      r.weight = dotProduct r.direction r.direction ∧ 0 < r.weight ∧
      (∀ a, (r.apply k a).take k = a.take k) ∧
      (∀ a b, a.length = x.length → b.length = x.length →
        dotProduct ((r.apply k a).drop k) ((r.apply k b).drop k) =
          dotProduct (a.drop k) (b.drop k)) ∧
      (∀ a, a.length = x.length → r.apply k (r.apply k a) = a) ∧
      (r.apply k x).drop k = alpha :: List.replicate (x.length - (k + 1)) 0 := by
  intro alpha r
  have hsq := normFrom_mul_self k x
  have hk : k < x.length := by
    refine Nat.lt_of_not_le fun hle => hn.ne' ?_
    simpa [List.drop_eq_nil_of_le hle, squareSum_eq_dotProduct, dotProduct_eq_sum] using hsq
  have hhead : x.getD k 0 = x[k] := List.getD_eq_getElem _ _ hk
  have htail : x.drop k = x[k] :: x.drop (k + 1) := List.drop_eq_getElem_cons hk
  have halpha : alpha = target (normFrom k x) x[k] := by rw [← hhead]; rfl
  have hr : r.Weighed := weighed_ofTail ..
  have hd : k + r.direction.length = x.length := by
    rw [length_ofTail, List.length_drop]
    omega
  refine ⟨?_, ?_, ?_, r.take_apply k, fun a b ha hb => dotProduct_drop_apply hr hd ha hb,
    fun a ha => apply_apply hr hd ha, ?_⟩
  · show (ofTail (normFrom k x) (x.drop k)).direction = _
    rw [htail, ofTail_cons, hhead, halpha]
  · rw [← squareSum_eq_dotProduct, hr]
  · show 0 < (ofTail (normFrom k x) (x.drop k)).weight
    rw [htail] at hsq ⊢
    exact weight_ofTail_pos hn hsq
  · rw [drop_apply hk.le]
    show (ofTail (normFrom k x) (x.drop k)).applyTail (x.drop k) = _
    rw [htail] at hsq ⊢
    rw [applyTail_ofTail hn hsq, halpha, List.length_drop]

/-- A tail of length five whose head is negative, behind an entry that stays. -/
theorem ofTail_isometry_of_real :
    letI := ExactField.real 0 le_rfl
    let x : List ℝ := [2, -3, 0, 4]
    let r := ofTail (normFrom 1 x) (x.drop 1)
    0 < normFrom 1 x ∧ normFrom 1 x = 5 ∧ r.direction = [-8, 0, 4] ∧ 0 < r.weight ∧
      r.apply 1 x = [2, 5, 0, 0] ∧ r.apply 1 [2, 5, 0, 0] = x := by
  let _ : ExactField ℝ := ExactField.real 0 le_rfl
  intro x r
  have hnorm : normFrom 1 x = 5 := by
    have hsq := normFrom_mul_self 1 x
    have hpos := normFrom_nonneg 1 x
    norm_num [x, squareSum_eq_dotProduct, dotProduct_eq_sum] at hsq hpos ⊢
    nlinarith
  have hn : 0 < normFrom 1 x := by rw [hnorm]; norm_num
  obtain ⟨hdirection, -, hweight, hbefore, -, htwice, himage⟩ := ofTail_isometry hn
  have hx : r.apply 1 x = [2, 5, 0, 0] := by
    rw [← List.take_append_drop 1 (r.apply 1 x), hbefore x, himage, hnorm]
    norm_num [x, List.replicate]
  refine ⟨hn, hnorm, ?_, hweight, hx, ?_⟩
  · rw [hdirection, hnorm]
    norm_num [x]
  · rw [← hx]
    exact htwice x rfl

end Reflector

end UnitMatrix
