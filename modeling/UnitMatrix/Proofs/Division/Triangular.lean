import UnitMatrix.Proofs.Division.Permutation
import UnitMatrix.Proofs.Division.Reflection

/-! What elimination leaves, in exact arithmetic. One rotation takes every column and every target to
what became of it, whichever way the elimination ended, and the pivots form a triangle with nothing
but non-zero numbers on its diagonal. A triangle is solved by back substitution, in one way only. -/

namespace UnitMatrix

variable {K : Type} [ExactField K] {c k : Nat}

/-- Pivots from row `row` on: each is non-zero at its own row and zero beyond. -/
def Triangular : (row : Nat) → List (Column K) → Prop
  | _, [] => True
  | row, pivot :: pivots =>
    pivot.values.getD row 0 ≠ 0 ∧ (∀ i, row < i → pivot.values.getD i 0 = 0) ∧
      Triangular (row + 1) pivots

/-- A pivot longer than the tolerance has a tail, and the tolerance stays non-negative. -/
theorem norm_pos {scale : Nat} {tolerance? : Option K} (htol : ∀ t ∈ tolerance?, 0 ≤ t)
    {xs : List K}
    (hle : ¬ normFrom k xs ≤ tolerance?.getD (normFrom k xs * ExactField.error * scale)) :
    0 < normFrom k xs ∧
      ∀ t ∈ some (tolerance?.getD (normFrom k xs * ExactField.error * scale)), 0 ≤ t := by
  have hn := normFrom_nonneg k xs
  have ht : 0 ≤ tolerance?.getD (normFrom k xs * ExactField.error * scale) := by
    cases tolerance? with
    | none => exact mul_nonneg (mul_nonneg hn ExactField.error_nonneg) (Nat.cast_nonneg _)
    | some t => exact htol t rfl
  exact ⟨ht.trans_lt (not_le.1 hle), by simpa using ht⟩

/-- The only entry from `k` on of a column with a tail. -/
theorem getD_ne_zero_of_last {xs : List K} (hx : xs.length = k + 1) (hn : 0 < normFrom k xs) :
    xs.getD k 0 ≠ 0 := by
  intro h0
  have hk : k < xs.length := by omega
  rw [List.getD_eq_getElem _ _ hk] at h0
  have hsq := normFrom_mul_self k xs
  rw [List.drop_eq_getElem_cons hk, List.drop_eq_nil_of_le (by omega), squareSum_cons, h0,
    squareSum_eq_dotProduct] at hsq
  simp [dotProduct_eq_sum] at hsq
  exact hn.ne' hsq

/-- The pivot under its own reflection: zero beyond row `k`, and not zero there. -/
theorem Reflector.apply_ofTail {xs : List K} (hk : k < xs.length) (hn : 0 < normFrom k xs) :
    (ofTail (normFrom k xs) (xs.drop k)).apply k xs =
      xs.take k ++ target (normFrom k xs) xs[k] :: List.replicate (xs.length - (k + 1)) 0 := by
  have hsq := normFrom_mul_self k xs
  rw [List.drop_eq_getElem_cons hk] at hsq
  rw [apply, List.drop_eq_getElem_cons hk, applyTail_ofTail hn hsq, List.length_drop]

theorem Reflector.target_ne_zero {norm : K} (hn : 0 < norm) (head : K) : target norm head ≠ 0 := by
  unfold target
  split
  · exact neg_ne_zero.2 hn.ne'
  · exact hn.ne'

theorem Reflector.getD_apply_ofTail {xs : List K} (hk : k < xs.length) (hn : 0 < normFrom k xs) :
    ((ofTail (normFrom k xs) (xs.drop k)).apply k xs).getD k 0 ≠ 0 ∧
      ∀ i, k < i → ((ofTail (normFrom k xs) (xs.drop k)).apply k xs).getD i 0 = 0 := by
  have hlen : (xs.take k).length = k := by simp; omega
  rw [apply_ofTail hk hn]
  refine ⟨?_, fun i hi => ?_⟩
  · rw [List.getD_append_right _ _ _ _ hlen.le, hlen, Nat.sub_self]
    exact target_ne_zero hn _
  · rw [List.getD_append_right _ _ _ _ (by omega), hlen,
      show i - k = (i - k - 1) + 1 by omega, List.getD_cons_succ]
    simp [List.getElem?_replicate]
    split <;> rfl

/-- What a rotation makes of the rows that the columns were and of the targets. -/
structure Rotated (φ : Rotation K c k) (row : Nat → Fin c → K) (columns : List (Column K))
    (before after : List (List K)) : Prop where
  length_values : ∀ a ∈ columns, a.values.length = c
  values : ∀ a ∈ columns, vector c a.values = φ (row a.origin)
  length_targets : ∀ t ∈ after, t.length = c
  targets : after.map (vector c) = before.map fun t => φ (vector c t)

namespace Rotated

variable {row : Nat → Fin c → K} {columns columns' : List (Column K)} {before after : List (List K)}

theorem refl (hl : ∀ a ∈ columns, a.values.length = c)
    (hv : ∀ a ∈ columns, vector c a.values = row a.origin) (ht : ∀ t ∈ before, t.length = c) :
    Rotated (Rotation.refl (k := k)) row columns before before :=
  ⟨hl, hv, ht, rfl⟩

theorem subset {φ : Rotation K c k} (h : Rotated φ row columns before after)
    (hs : columns' ⊆ columns) : Rotated φ row columns' before after :=
  ⟨fun a ha => h.length_values a (hs ha), fun a ha => h.values a (hs ha), h.length_targets,
    h.targets⟩

/-- A reflector applied to every column and every target. -/
theorem reflect (h : Rotated (Rotation.refl (k := k)) row columns before before) {r : Reflector K}
    (hr : r.Weighed) (hd : k + r.direction.length = c) :
    Rotated (Rotation.reflect (r.axis c k) r.axis_eq_zero) row (columns.map (r.applyColumn k))
      before (before.map (r.apply k)) where
  length_values a ha := by
    obtain ⟨b, hb, rfl⟩ := List.mem_map.1 ha
    exact Reflector.length_apply (h.length_values b hb) hd
  values a ha := by
    obtain ⟨b, hb, rfl⟩ := List.mem_map.1 ha
    rw [Reflector.applyColumn, Reflector.vector_apply hr (h.length_values b hb) hd, h.values b hb]
    rfl
  length_targets t ht := by
    obtain ⟨u, hu, rfl⟩ := List.mem_map.1 ht
    exact Reflector.length_apply (h.length_targets u hu) hd
  targets := by
    rw [List.map_map]
    exact List.map_congr_left fun t ht => Reflector.vector_apply hr (h.length_targets t ht) hd

theorem rest {ψ : Rotation K c k} {pivot : Column K}
    (h : Rotated ψ row (pivot :: columns) before after) :
    Rotated (Rotation.refl (k := k + 1)) (fun j => ψ (row j)) columns after after :=
  refl (fun a ha => h.length_values a (List.mem_cons_of_mem _ ha))
    (fun a ha => h.values a (List.mem_cons_of_mem _ ha)) h.length_targets

/-- A pivot that is zero beyond row `k` is not moved by the steps to come. -/
theorem next {φ : Rotation K c (k + 1)} {ψ : Rotation K c k} {pivot : Column K}
    {middle : List (List K)} (h : Rotated ψ row (pivot :: columns) before middle)
    (hzero : ∀ i, k < i → pivot.values.getD i 0 = 0)
    (h' : Rotated φ (fun j => ψ (row j)) columns' middle after) :
    Rotated (φ.next ψ) row (pivot :: columns') before after where
  length_values a ha := by
    rcases List.mem_cons.1 ha with rfl | ha
    · exact h.length_values a (by simp)
    · exact h'.length_values a ha
  values a ha := by
    rcases List.mem_cons.1 ha with rfl | ha
    · have hfix : φ (vector c a.values) = vector c a.values :=
        φ.fixed _ fun i hi => hzero i hi
      rw [← hfix, h.values a (by simp)]
      rfl
    · exact h'.values a ha
  length_targets := h'.length_targets
  targets := by
    have hm : middle.map (fun t => φ (vector c t)) = (middle.map (vector c)).map φ := by
      rw [List.map_map]
      rfl
    rw [h'.targets, hm, h.targets, List.map_map]
    rfl

end Rotated

/-- The elimination as a whole, by induction on the rows left. -/
theorem exists_rotated_eliminateFrom (scale : Nat) {steps : Nat} {tolerance? : Option K}
    (htol : ∀ t ∈ tolerance?, 0 ≤ t) (hk : k + steps = c) {row : Nat → Fin c → K}
    {columns : List (Column K)} {targets : List (List K)}
    (h : Rotated (Rotation.refl (k := k)) row columns targets targets) :
    let e := eliminateFrom scale steps tolerance? k columns targets
    Triangular k e.pivots ∧
      ∃ φ : Rotation K c k, Rotated φ row (e.pivots ++ e.rest) targets e.targets := by
  induction steps generalizing tolerance? k row columns targets with
  | zero => exact ⟨trivial, .refl, h⟩
  | succ steps ih =>
    have hperm := choosePivot_perm k columns
    rw [eliminateFrom]
    split
    next hnil => exact ⟨trivial, .refl, h.subset (by simp)⟩
    next pivot others hcons =>
      rw [hcons] at hperm
      have hsub : pivot :: others ⊆ columns := hperm.subset
      have hp : pivot.values.length = c := h.length_values pivot (hsub (by simp))
      dsimp only
      simp only [exact_le, decide_eq_true_eq, exact_mul, exact_epsilon, exact_ofNat]
      split
      -- within the tolerance: nothing is reflected any more
      next => exact ⟨trivial, .refl, h.subset hsub⟩
      next hle =>
        obtain ⟨hn, ht⟩ := norm_pos htol hle
        split
        next hlast =>
          -- the last row is not reflected, its pivot is triangular as it is
          subst hlast
          refine ⟨⟨getD_ne_zero_of_last (by omega) hn, fun i hi => ?_, trivial⟩, .refl,
            h.subset hsub⟩
          exact List.getD_eq_default _ _ (by omega)
        next =>
          obtain ⟨hne, hzero⟩ := Reflector.getD_apply_ofTail (by omega) hn
          generalize hR : Reflector.ofTail (normFrom k pivot.values) (pivot.values.drop k) = r
            at hne hzero ⊢
          have hr : r.Weighed := hR ▸ Reflector.weighed_ofTail ..
          have hd : k + r.direction.length = c := by
            rw [← hR, Reflector.length_ofTail, List.length_drop]
            omega
          -- the pivot is done with, and the rest goes on from what the reflection made of it
          have hstep := (h.subset hsub).reflect hr hd
          obtain ⟨htri, φ, hrest⟩ := ih ht (by omega) hstep.rest
          exact ⟨⟨hne, hzero, htri⟩, _, hstep.next hzero hrest⟩

/-- Before the elimination the columns are the rows as they are. -/
theorem Rotated.initial {columns targets : List (List K)} (hc : ∀ xs ∈ columns, xs.length = c)
    (ht : ∀ t ∈ targets, t.length = c) :
    Rotated (Rotation.refl (k := k)) (fun j => vector c (columns.getD j []))
      (columns.mapIdx fun i values => ⟨i, values⟩) targets targets := by
  refine .refl ?_ ?_ ht
  · intro a ha
    obtain ⟨i, hi, rfl⟩ := List.mem_mapIdx.1 ha
    exact hc _ (List.getElem_mem hi)
  · intro a ha
    obtain ⟨i, hi, rfl⟩ := List.mem_mapIdx.1 ha
    simp [hi]

theorem exists_rotated_eliminate {columns targets : List (List K)}
    (hc : ∀ xs ∈ columns, xs.length = c) (ht : ∀ t ∈ targets, t.length = c) :
    let e := eliminate c columns targets
    Triangular 0 e.pivots ∧ ∃ φ : Rotation K c 0,
      Rotated φ (fun j => vector c (columns.getD j [])) (e.pivots ++ e.rest) targets e.targets :=
  exists_rotated_eliminateFrom _ (by simp) (Nat.zero_add c) (.initial hc ht)

namespace Triangular

variable {pivots : List (Column K)} {row : Nat}

theorem getD_ne_zero (h : Triangular row pivots) (n : Nat) (hn : n < pivots.length) :
    pivots[n].values.getD (row + n) 0 ≠ 0 := by
  induction pivots generalizing row n with
  | nil => simp at hn
  | cons pivot pivots ih =>
    cases n with
    | zero => exact h.1
    | succ n =>
      have := ih h.2.2 n (Nat.lt_of_succ_lt_succ hn)
      rwa [Nat.add_right_comm] at this

theorem getD_eq_zero (h : Triangular row pivots) {pivot : Column K} (hp : pivot ∈ pivots) {i : Nat}
    (hi : row + pivots.length ≤ i) : pivot.values.getD i 0 = 0 := by
  induction pivots generalizing row with
  | nil => simp at hp
  | cons first others ih =>
    simp only [List.length_cons] at hi
    rcases List.mem_cons.1 hp with rfl | hp
    · exact h.2.1 i (by omega)
    · exact ih h.2.2 hp (by omega)

end Triangular

def combination (pivots : List (Column K)) (weights : List K) (i : Nat) : K :=
  ((pivots.zip weights).map fun p => p.1.values.getD i 0 * p.2).sum

theorem combination_cons (pivot : Column K) (pivots : List (Column K)) (w : K) (weights : List K)
    (i : Nat) : combination (pivot :: pivots) (w :: weights) i =
      pivot.values.getD i 0 * w + combination pivots weights i := by
  simp [combination]

theorem foldl_sub_eq_sum {α : Type} (f : α → K) (xs : List α) (a : K) :
    xs.foldl (fun sum x => sum - f x) a = a - (xs.map f).sum := by
  induction xs generalizing a with
  | nil => simp
  | cons x xs ih => rw [List.foldl_cons, ih, List.map_cons, List.sum_cons, sub_sub]

theorem backSubstitute_cons (target : List K) (row : Nat) (pivot : Column K)
    (pivots : List (Column K)) :
    backSubstitute target row (pivot :: pivots) =
      (target.getD row 0 - combination pivots (backSubstitute target (row + 1) pivots) row) /
        pivot.values.getD row 0 :: backSubstitute target (row + 1) pivots := by
  rw [backSubstitute, combination]
  simp only [exact_sub, exact_mul, exact_zero, exact_div, foldl_sub_eq_sum]

theorem combination_backSubstitute {row : Nat} {pivots : List (Column K)}
    (h : Triangular row pivots) (target : List K) {i : Nat} (hi : row ≤ i)
    (hlt : i < row + pivots.length) :
    combination pivots (backSubstitute target row pivots) i = target.getD i 0 := by
  induction pivots generalizing row with
  | nil => simp at hlt; omega
  | cons pivot pivots ih =>
    obtain ⟨hne, hzero, htri⟩ := h
    rw [backSubstitute_cons, combination_cons]
    rcases Nat.eq_or_lt_of_le hi with rfl | hi
    · rw [mul_div_cancel₀ _ hne, sub_add_cancel]
    · rw [hzero i hi, zero_mul, zero_add]
      exact ih htri hi (by rw [List.length_cons] at hlt; omega)

theorem eq_backSubstitute {row : Nat} {pivots : List (Column K)} (h : Triangular row pivots)
    {target weights : List K} (hl : weights.length = pivots.length)
    (hw : ∀ i, row ≤ i → i < row + pivots.length →
      combination pivots weights i = target.getD i 0) :
    weights = backSubstitute target row pivots := by
  induction pivots generalizing row weights with
  | nil => exact List.length_eq_zero_iff.1 hl
  | cons pivot pivots ih =>
    obtain ⟨w, weights, rfl⟩ := List.exists_cons_of_length_eq_add_one hl
    obtain ⟨hne, hzero, htri⟩ := h
    simp only [List.length_cons, combination_cons] at hw hl
    have hrest : weights = backSubstitute target (row + 1) pivots := by
      refine ih htri (by omega) fun i hi hlt => ?_
      have := hw i (by omega) (by omega)
      rwa [hzero i hi, zero_mul, zero_add] at this
    have hfirst := hw row le_rfl (by omega)
    rw [backSubstitute_cons, ← hrest, ← hfirst, add_sub_cancel_right, mul_div_cancel_left₀ _ hne]

end UnitMatrix
