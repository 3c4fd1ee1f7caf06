import Mathlib.LinearAlgebra.Matrix.Rank
import UnitMatrix.Proofs.Division.Distance
import UnitMatrix.Proofs.Division.LeastSquares

/-! How the rank is decided, in exact arithmetic. Each pivot is the row farthest from the span of the
rows chosen before it, at the distance that stands on the diagonal, so the diagonal does not
increase. When the elimination ends, whichever way, every row is within the tolerance of the span of
the pivots. Without a tolerance the rank is that of linear algebra, and every equation that can be
solved is solved. -/

namespace UnitMatrix

variable {K : Type} [ExactField K] {m n c k : Nat}

/-- Each pivot has the longest tail of all columns behind it, and the tails left over are within
`bound`. -/
def Ranked (bound : K) : (row : Nat) → (pivots rest : List (Column K)) → Prop
  | row, [], rest => ∀ a ∈ rest, normFrom row a.values ≤ bound
  | row, pivot :: pivots, rest =>
    (∀ a ∈ pivots ++ rest, normFrom row a.values ≤ normFrom row pivot.values) ∧
      Ranked bound (row + 1) pivots rest

theorem normFrom_le_of_choosePivot {columns others : List (Column K)} {pivot : Column K}
    (h : choosePivot k columns = pivot :: others) :
    ∀ a ∈ columns, normFrom k a.values ≤ normFrom k pivot.values :=
  (size_le_of_choosePivot id (fun a _ b _ => by simp) h).2

theorem normFrom_of_length_le {xs : List K} (h : xs.length ≤ k) : normFrom k xs = 0 := by
  have hsq := normFrom_mul_self k xs
  rw [List.drop_eq_nil_of_le h] at hsq
  exact mul_self_eq_zero.1 hsq

theorem Reflector.normFrom_apply {r : Reflector K} (hr : r.Weighed) {xs : List K}
    (hx : xs.length = c) (hd : k + r.direction.length = c) :
    normFrom k (r.apply k xs) = normFrom k xs := by
  have hk : k ≤ c := by omega
  have happly : vector c (r.apply k xs) =
      Rotation.reflect (r.axis c k) r.axis_eq_zero (vector c xs) := vector_apply hr hx hd
  rw [normFrom_eq_lengthOf (length_apply hx hd) hk, normFrom_eq_lengthOf hx hk, happly,
    Rotation.tailFrom_apply _ _ le_rfl, Rotation.lengthOf_apply]

/-- Up to row `k` a column keeps the norms that it had before the elimination from there on. -/
theorem exists_normFrom_eq {scale steps : Nat} {tolerance? : Option K}
    (htol : ∀ t ∈ tolerance?, 0 ≤ t) (hk : k + steps = c) {row : Nat → Fin c → K}
    {columns : List (Column K)} {targets : List (List K)}
    (h : Rotated (Rotation.refl (k := k)) row columns targets targets) {a : Column K}
    (ha : a ∈ (eliminateFrom scale steps tolerance? k columns targets).pivots ++
      (eliminateFrom scale steps tolerance? k columns targets).rest) :
    ∃ b ∈ columns, ∀ i ≤ k, normFrom i a.values = normFrom i b.values := by
  obtain ⟨-, φ, hφ⟩ := exists_rotated_eliminateFrom scale htol hk h
  have horigin := (origins_eliminateFrom scale steps tolerance? k columns targets).subset
    (List.mem_map_of_mem ha)
  obtain ⟨b, hb, hba⟩ := List.mem_map.1 horigin
  refine ⟨b, hb, fun i hi => ?_⟩
  rw [hφ.normFrom_eq hi (by omega) ha, h.normFrom_eq hi (by omega) hb, hba]

theorem ranked_eliminateFrom {scale steps : Nat} {tolerance? : Option K} {bound : K}
    (h0 : 0 ≤ bound) (htol : ∀ t ∈ tolerance?, 0 ≤ t) (hk : k + steps = c) {row : Nat → Fin c → K}
    {columns : List (Column K)} {targets : List (List K)}
    (hbound : ∀ a ∈ columns,
      tolerance?.getD (normFrom k a.values * ExactField.error * scale) ≤ bound)
    (h : Rotated (Rotation.refl (k := k)) row columns targets targets) :
    let e := eliminateFrom scale steps tolerance? k columns targets
    Ranked bound k e.pivots e.rest := by
  induction steps generalizing tolerance? k row columns targets with
  | zero =>
    intro _ a ha
    have hlength := h.length_values a ha
    exact (normFrom_of_length_le (by omega)).trans_le h0
  | succ steps ih =>
    rw [eliminateFrom]
    split
    next => exact fun a ha => by simp at ha
    next pivot others hcons =>
      have hsub : pivot :: others ⊆ columns := hcons ▸ (choosePivot_perm k columns).subset
      have hmax := normFrom_le_of_choosePivot hcons
      have hpivot : pivot ∈ columns := hsub (by simp)
      dsimp only
      simp only [exact_le, decide_eq_true_eq, exact_mul, exact_epsilon, exact_ofNat]
      split
      -- what is left over is no longer than the pivot, and the pivot is within the tolerance
      next hle => exact fun a ha => (hmax a (hsub ha)).trans (hle.trans (hbound pivot hpivot))
      next hle =>
        obtain ⟨hn, ht⟩ := norm_pos htol hle
        split
        next hlast =>
          subst hlast
          refine ⟨fun a ha => hmax a (hsub (by simpa using .inr ha)), fun a ha => ?_⟩
          have hlength := h.length_values a (hsub (List.mem_cons_of_mem _ ha))
          exact (normFrom_of_length_le (hlength.trans hk.symm).le).trans_le h0
        next =>
          generalize hR : Reflector.ofTail (normFrom k pivot.values) (pivot.values.drop k) = r
          have hr : r.Weighed := hR ▸ Reflector.weighed_ofTail ..
          have hp : pivot.values.length = c := h.length_values pivot hpivot
          have hd : k + r.direction.length = c := by
            rw [← hR, Reflector.length_ofTail, List.length_drop]
            omega
          have hrest := ((h.subset hsub).reflect hr hd).rest
          have hkeep {a : Column K} (ha : a ∈ columns) :
              normFrom k (r.applyColumn k a).values = normFrom k a.values :=
            Reflector.normFrom_apply hr (h.length_values a ha) hd
          refine ⟨fun a ha => ?_, ih ht (by omega) (fun a _ => hbound pivot hpivot) hrest⟩
          obtain ⟨_, hb, hnorm⟩ := exists_normFrom_eq ht (by omega) hrest ha
          obtain ⟨b, hother, rfl⟩ := List.mem_map.1 hb
          have hb : b ∈ columns := hsub (List.mem_cons_of_mem _ hother)
          rw [hnorm k (Nat.le_succ k), hkeep hb, hkeep hpivot]
          exact hmax b hb

namespace Ranked

variable {bound : K} {row : Nat} {pivots rest : List (Column K)}

theorem le_getElem (h : Ranked bound row pivots rest) {i : Nat} (hi : i < pivots.length)
    {a : Column K} (ha : a ∈ pivots.drop i ++ rest) :
    normFrom (row + i) a.values ≤ normFrom (row + i) pivots[i].values := by
  induction pivots generalizing row i with
  | nil => simp at hi
  | cons pivot pivots ih =>
    cases i with
    | zero =>
      rw [List.drop_zero, List.cons_append] at ha
      rcases List.mem_cons.1 ha with rfl | ha
      · exact le_rfl
      · exact h.1 a ha
    | succ i =>
      have := ih h.2 (Nat.lt_of_succ_lt_succ hi) (by simpa using ha)
      rwa [Nat.add_right_comm] at this

theorem rest_le (h : Ranked bound row pivots rest) {a : Column K} (ha : a ∈ rest) :
    normFrom (row + pivots.length) a.values ≤ bound := by
  induction pivots generalizing row with
  | nil => exact h a ha
  | cons pivot pivots ih =>
    have := ih h.2
    rwa [Nat.add_right_comm] at this

end Ranked

/-- On the diagonal of a triangle stands, but for the sign, the tail of the pivot. -/
theorem Triangular.abs_getD {pivots : List (Column K)} {row : Nat} (h : Triangular row pivots)
    {i : Nat} (hi : i < pivots.length) (hlen : pivots[i].values.length = c) (hc : row + i < c) :
    |pivots[i].values.getD (row + i) 0| = normFrom (row + i) pivots[i].values := by
  have hbeyond : ∀ j, row + i < j → pivots[i].values.getD j 0 = 0 := by
    induction pivots generalizing row i with
    | nil => simp at hi
    | cons pivot pivots ih =>
      cases i with
      | zero => exact h.2.1
      | succ i =>
        intro j hj
        exact ih h.2.2 (Nat.lt_of_succ_lt_succ hi) hlen (by omega) j (by omega)
  have htail : tailFrom (row + i) (vector c pivots[i].values) =
      Pi.single ⟨row + i, hc⟩ (pivots[i].values.getD (row + i) 0) := by
    funext j
    rcases Nat.lt_trichotomy j.val (row + i) with hlt | heq | hlt
    · rw [tailFrom_of_lt hlt, Pi.single_eq_of_ne (Fin.ne_of_val_ne hlt.ne)]
    · obtain rfl : j = ⟨row + i, hc⟩ := Fin.ext heq
      rw [Pi.single_eq_same]
      exact tailFrom_of_le le_rfl
    · rw [tailFrom_of_le hlt.le, Pi.single_eq_of_ne (Fin.ne_of_val_ne hlt.ne')]
      exact hbeyond j hlt
  rw [normFrom_eq_lengthOf hlen hc.le, htail]
  refine (mul_self_inj_of_nonneg (abs_nonneg _) (lengthOf_nonneg _)).1 ?_
  rw [abs_mul_abs_self, lengthOf_mul_self, single_dotProduct, Pi.single_eq_same]

/-- The entry of the triangle in a row, of the pivot with the number `column`. -/
def Elimination.entry (e : Elimination K) (row column : Nat) : K :=
  (e.pivots.getD column ⟨0, []⟩).values.getD row 0

def longestRow (D : Matrix (Fin n) (Fin c) K) : K :=
  Finset.univ.fold max 0 fun j => lengthOf (D.row j)

theorem lengthOf_le_longestRow (D : Matrix (Fin n) (Fin c) K) (j : Fin n) :
    lengthOf (D.row j) ≤ longestRow D :=
  (Finset.le_fold_max _).2 (.inr ⟨j, Finset.mem_univ j, le_rfl⟩)

theorem longestRow_nonneg (D : Matrix (Fin n) (Fin c) K) : 0 ≤ longestRow D :=
  (Finset.le_fold_max _).2 (.inl le_rfl)

section Quotient

variable (L : Matrix (Fin m) (Fin c) K) (D : Matrix (Fin n) (Fin c) K)

/-- The span of the rows of the divisor that became the first `k` pivots. -/
def leadingSpan (k : Nat) : Submodule K (Fin c → K) :=
  Submodule.span K (D.row '' {j | j.val ∈ (elimination L D).permutation.take k})

/-- The tolerance below which a row counts as a combination of the pivots. -/
def toleranceOf (D : Matrix (Fin n) (Fin c) K) : K :=
  longestRow D * ExactField.error * (max c n : Nat)

theorem toleranceOf_nonneg : 0 ≤ toleranceOf D :=
  mul_nonneg (mul_nonneg (longestRow_nonneg D) ExactField.error_nonneg) (Nat.cast_nonneg _)

theorem ranked_elimination :
    Ranked (toleranceOf D) 0 (elimination L D).pivots (elimination L D).rest := by
  have hinitial := Rotated.initial (k := 0) (Grid.ofMatrix D).rectangular
    (Grid.ofMatrix L).rectangular
  refine ranked_eliminateFrom (toleranceOf_nonneg D) (by simp) (Nat.zero_add c) (fun a ha => ?_)
    hinitial
  obtain ⟨j, hj, horigin⟩ : ∃ j : Fin n, a.origin = j.val ∧ True := by
    obtain ⟨i, hi, rfl⟩ := List.mem_mapIdx.1 ha
    exact ⟨⟨i, by simpa [Grid.ofMatrix] using hi⟩, rfl, trivial⟩
  have hnorm : normFrom 0 a.values = lengthOf (D.row j) := by
    rw [hinitial.normFrom_eq le_rfl (Nat.zero_le c) ha, tailFrom_zero, hj]
    exact congrArg lengthOf (row_ofMatrix D j)
  have hscale : (Grid.ofMatrix D).entries.length = n := Grid.rows_ofMatrix D
  rw [Option.getD_none, hnorm, hscale]
  exact mul_le_mul_of_nonneg_right
    (mul_le_mul_of_nonneg_right (lengthOf_le_longestRow D j) ExactField.error_nonneg)
    (Nat.cast_nonneg _)

theorem take_permutation_elimination {k : Nat} (hk : k ≤ (elimination L D).pivots.length) :
    (elimination L D).permutation.take k =
      ((elimination L D).pivots.take k).map Column.origin := by
  rw [Elimination.permutation, List.map_append, List.take_append_of_le_length (by simpa using hk),
    List.map_take]

theorem exists_column (j : Fin n) :
    ∃ a ∈ (elimination L D).pivots ++ (elimination L D).rest, a.origin = j.val :=
  List.mem_map.1 ((permutation_elimination L D).mem_iff.2 (List.mem_range.2 j.isLt))

/-- The tail of a column is the distance of its row from the rows chosen first. -/
theorem isDistance_leadingSpan {k : Nat} (hk : k ≤ (elimination L D).pivots.length) {a : Column K}
    (ha : a ∈ (elimination L D).pivots ++ (elimination L D).rest) {j : Fin n}
    (hj : a.origin = j.val) :
    IsDistance (D.row j) (leadingSpan L D k) (normFrom k a.values) := by
  obtain ⟨htri, φ, hφ⟩ := exists_rotated_eliminate (Grid.ofMatrix D).rectangular
    (Grid.ofMatrix L).rectangular
  have hspan : D.row '' {j | j.val ∈ (elimination L D).permutation.take k} =
      (fun p => vector c ((Grid.ofMatrix D).entries.getD p.origin [])) ''
        {p | p ∈ (elimination L D).pivots.take k} := by
    rw [take_permutation_elimination L D hk]
    ext x
    constructor
    · rintro ⟨i, hi, rfl⟩
      obtain ⟨p, hp, hpi⟩ := List.mem_map.1 hi
      refine ⟨p, hp, ?_⟩
      rw [← row_ofMatrix, ← hpi]
    · rintro ⟨p, hp, rfl⟩
      have hlt := lt_of_mem_pivots L D (List.mem_of_mem_take hp)
      exact ⟨⟨p.origin, hlt⟩, List.mem_map.2 ⟨p, hp, rfl⟩, (row_ofMatrix D ⟨p.origin, hlt⟩).symm⟩
  rw [leadingSpan, hspan, ← row_ofMatrix, ← hj]
  exact hφ.isDistance htri (length_pivots_le L D) hk ha

theorem abs_entry {k : Nat} (hk : k < (elimination L D).pivots.length) :
    |(elimination L D).entry k k| = normFrom k (elimination L D).pivots[k].values := by
  obtain ⟨htri, φ, hφ⟩ := exists_rotated_elimination L D
  have hc := length_pivots_le L D
  have habs := htri.abs_getD hk (hφ.length_values _ (List.getElem_mem hk)) (by omega)
  rw [Nat.zero_add] at habs
  rwa [Elimination.entry, List.getD_eq_getElem _ _ hk]

theorem abs_entry_pos {k : Nat} (hk : k < (elimination L D).pivots.length) :
    0 < |(elimination L D).entry k k| := by
  have hne := (exists_rotated_elimination L D).1.getD_ne_zero k hk
  rw [Nat.zero_add] at hne
  rwa [Elimination.entry, List.getD_eq_getElem _ _ hk, abs_pos]

/-- The diagonal does not increase: the next pivot was among the columns behind this one. -/
theorem abs_entry_anti {k : Nat} (hk : k + 1 < (elimination L D).pivots.length) :
    |(elimination L D).entry (k + 1) (k + 1)| ≤ |(elimination L D).entry k k| := by
  obtain ⟨-, φ, hφ⟩ := exists_rotated_elimination L D
  have hc := length_pivots_le L D
  have hlength := hφ.length_values _ (List.getElem_mem hk)
  have hbehind : (elimination L D).pivots[k + 1] ∈
      (elimination L D).pivots.drop k ++ (elimination L D).rest :=
    List.mem_append_left _ (List.mem_drop_iff_getElem.2 ⟨1, by omega, by simp⟩)
  have hmax := (ranked_elimination L D).le_getElem (i := k) (by omega) hbehind
  rw [abs_entry L D hk, abs_entry L D (Nat.lt_of_succ_lt hk)]
  calc normFrom (k + 1) (elimination L D).pivots[k + 1].values
      ≤ normFrom k (elimination L D).pivots[k + 1].values := by
        rw [normFrom_eq_lengthOf hlength (by omega), normFrom_eq_lengthOf hlength (by omega)]
        exact lengthOf_tailFrom_anti (Nat.le_succ k) _
    _ ≤ normFrom k (elimination L D).pivots[k].values := by rwa [Nat.zero_add] at hmax

/-- The pivot is as far from the rows chosen before it as the diagonal says. -/
theorem exists_isDistance_pivot {k : Nat} (hk : k < (elimination L D).pivots.length) :
    ∃ j : Fin n, (elimination L D).permutation[k]? = some j.val ∧
      IsDistance (D.row j) (leadingSpan L D k) |(elimination L D).entry k k| := by
  have hmem := List.getElem_mem hk
  refine ⟨⟨(elimination L D).pivots[k].origin, lt_of_mem_pivots L D hmem⟩,
    (elimination L D).getElem?_permutation hk, ?_⟩
  rw [abs_entry L D hk]
  exact isDistance_leadingSpan L D hk.le (List.mem_append_left _ hmem) rfl

/-- No row that remains is farther. -/
theorem exists_isDistance_le_pivot {k : Nat} (hk : k < (elimination L D).pivots.length) {j : Fin n}
    (hj : j.val ∉ (elimination L D).permutation.take k) :
    ∃ d ≤ |(elimination L D).entry k k|, IsDistance (D.row j) (leadingSpan L D k) d := by
  obtain ⟨a, ha, horigin⟩ := exists_column L D j
  refine ⟨normFrom k a.values, ?_, isDistance_leadingSpan L D hk.le ha horigin⟩
  have hbehind : a ∈ (elimination L D).pivots.drop k ++ (elimination L D).rest := by
    rw [← List.take_append_drop k (elimination L D).pivots, List.append_assoc] at ha
    refine (List.mem_append.1 ha).resolve_left fun htake => hj ?_
    rw [take_permutation_elimination L D hk.le, ← horigin]
    exact List.mem_map_of_mem htake
  have hmax := (ranked_elimination L D).le_getElem hk hbehind
  rw [Nat.zero_add] at hmax
  rwa [abs_entry L D hk]

/-- In the end every row is within the tolerance of the span of the pivots. -/
theorem exists_isDistance_le_tolerance (j : Fin n) :
    ∃ d ≤ toleranceOf D, IsDistance (D.row j) (leadingSpan L D (quotient L D).rank) d := by
  obtain ⟨a, ha, horigin⟩ := exists_column L D j
  rcases List.mem_append.1 ha with hpivot | hrest
  · refine ⟨0, toleranceOf_nonneg D, .of_mem (Submodule.subset_span ⟨j, ?_, rfl⟩)⟩
    have htake := take_permutation_elimination L D le_rfl
    rw [List.take_length] at htake
    show j.val ∈ (elimination L D).permutation.take (elimination L D).pivots.length
    rw [htake, ← horigin]
    exact List.mem_map_of_mem hpivot
  · refine ⟨_, ?_, isDistance_leadingSpan L D le_rfl ha horigin⟩
    have hle := (ranked_elimination L D).rest_le hrest
    rwa [Nat.zero_add] at hle

theorem card_chosenRows : (chosenRows L D).card = (quotient L D).rank := by
  have hsum := sum_filter_mem (n := n) (nodup_pivots L D)
    (List.forall_mem_map.2 fun p hp => lt_of_mem_pivots L D hp) fun _ => 1
  have hrows : chosenRows L D =
      ({j | j.val ∈ (elimination L D).pivots.map Column.origin} : Finset (Fin n)) := by
    ext j
    simpa using mem_chosenRows L D
  rw [Finset.card_eq_sum_ones, hrows, hsum, List.map_const', List.sum_replicate, List.length_map,
    smul_eq_mul, mul_one]
  rfl

theorem finrank_leadingSpan :
    Module.finrank K (leadingSpan L D (quotient L D).rank) = (quotient L D).rank := by
  have hrows : {j : Fin n | j.val ∈ (elimination L D).permutation.take (quotient L D).rank} =
      (chosenRows L D : Set (Fin n)) := by
    ext j
    simp [chosenRows]
  rw [leadingSpan, hrows, Set.image_eq_range,
    finrank_span_eq_card (linearIndepOn_chosenRows L D)]
  simpa using card_chosenRows L D

section NoTolerance

variable (h : (ExactField.error : K) = 0)

include h

theorem row_mem_leadingSpan (j : Fin n) : D.row j ∈ leadingSpan L D (quotient L D).rank := by
  obtain ⟨d, hd, hdistance⟩ := exists_isDistance_le_tolerance L D j
  rw [toleranceOf, h, mul_zero, zero_mul] at hd
  exact hdistance.mem_of_le hd

theorem rank_quotient : (quotient L D).rank = D.rank := by
  have hspan : Submodule.span K (Set.range D.row) = leadingSpan L D (quotient L D).rank := by
    refine le_antisymm (Submodule.span_le.2 ?_) (Submodule.span_mono (Set.image_subset_range ..))
    rintro _ ⟨j, rfl⟩
    exact row_mem_leadingSpan L D h j
  rw [Matrix.rank_eq_finrank_span_row, hspan, finrank_leadingSpan]

/-- What is left of a dividend that is a product is in the span of the pivots, and orthogonal to it. -/
theorem quotient_mul {Y : Matrix (Fin m) (Fin n) K} (hY : Y * D = L) :
    (quotient L D).grid.toMatrix m n * D = L := by
  have hX := basicSolution_quotient L D
  have hmul (Z : Matrix (Fin m) (Fin n) K) (i : Fin m) :
      (Z * D).row i ∈ leadingSpan L D (quotient L D).rank := by
    have hsum : (Z * D).row i = ∑ j, Z i j • D.row j :=
      (Matrix.mul_apply_eq_vecMul Z D i).trans (Matrix.vecMul_eq_sum ..)
    rw [hsum]
    exact Submodule.sum_mem _ fun j _ => Submodule.smul_mem _ _ (row_mem_leadingSpan L D h j)
  have hzero (i : Fin m) : (L - (quotient L D).grid.toMatrix m n * D).row i = 0 := by
    have hmem : (L - (quotient L D).grid.toMatrix m n * D).row i ∈
        leadingSpan L D (quotient L D).rank := by
      have := Submodule.sub_mem _ (hmul Y i) (hmul ((quotient L D).grid.toMatrix m n) i)
      rwa [hY] at this
    have horthogonal : ∀ s ∈ leadingSpan L D (quotient L D).rank,
        (L - (quotient L D).grid.toMatrix m n * D).row i ⬝ᵥ s = 0 := by
      intro s hs
      induction hs using Submodule.span_induction with
      | mem s hs =>
        obtain ⟨p, hp, rfl⟩ := hs
        exact hX.orthogonal i p (by simpa [chosenRows] using hp)
      | zero => exact dotProduct_zero _
      | add s t _ _ hs ht => rw [dotProduct_add, hs, ht, add_zero]
      | smul a s _ hs => rw [dotProduct_smul, hs, smul_zero]
    exact dotProduct_self_eq_zero.1 (horthogonal _ hmem)
  funext i
  exact (sub_eq_zero.1 (hzero i)).symm

end NoTolerance

end Quotient

/-- The pivots are chosen by distance: the diagonal does not increase, and at every step it is the
largest distance of a remaining row from the span of the rows chosen before. In the end no row is
farther from the span of the pivots than the tolerance. Without a tolerance the rank is the rank of
the divisor, and the quotient solves every equation that has a solution. -/
theorem elimination_rankDecision (L : Matrix (Fin m) (Fin c) K) (D : Matrix (Fin n) (Fin c) K) :
    let e := elimination L D
    let r := (quotient L D).rank
    let X := (quotient L D).grid.toMatrix m n
    e.permutation.Perm (List.range n) ∧ (∀ k < r, 0 < |e.entry k k|) ∧
      (∀ k, k + 1 < r → |e.entry (k + 1) (k + 1)| ≤ |e.entry k k|) ∧
      (∀ k < r, ∃ j : Fin n, e.permutation[k]? = some j.val ∧
        IsDistance (D.row j) (leadingSpan L D k) |e.entry k k|) ∧
      (∀ k < r, ∀ j : Fin n, j.val ∉ e.permutation.take k →
        ∃ d ≤ |e.entry k k|, IsDistance (D.row j) (leadingSpan L D k) d) ∧
      (∀ j : Fin n, ∃ d ≤ longestRow D * ExactField.error * (max c n : Nat),
        IsDistance (D.row j) (leadingSpan L D r) d) ∧
      ((ExactField.error : K) = 0 →
        r = D.rank ∧ ((∃ Y : Matrix (Fin m) (Fin n) K, Y * D = L) → X * D = L)) := by
  intro e r X
  refine ⟨permutation_elimination L D, fun k hk => abs_entry_pos L D hk,
    fun k hk => abs_entry_anti L D hk, fun k hk => exists_isDistance_pivot L D hk,
    fun k hk j hj => exists_isDistance_le_pivot L D hk hj, exists_isDistance_le_tolerance L D,
    fun h => ⟨rank_quotient L D h, ?_⟩⟩
  rintro ⟨Y, hY⟩
  exact quotient_mul L D h hY

/-- Three rows in the plane have rank two, and what they combine to is divided without a rest. -/
theorem elimination_rankDecision_of_plane :
    letI := ExactField.real 0 le_rfl
    let D : Matrix (Fin 3) (Fin 2) ℝ := !![0, 2; 1, 0; 1, 2]
    let L : Matrix (Fin 1) (Fin 2) ℝ := !![3, 4]
    let e := elimination L D
    D.rank = 2 ∧ (quotient L D).rank = 2 ∧ 0 < |e.entry 1 1| ∧ |e.entry 1 1| ≤ |e.entry 0 0| ∧
      (∃ j : Fin 3, e.permutation[1]? = some j.val ∧
        IsDistance (D.row j) (leadingSpan L D 1) |e.entry 1 1|) ∧
      (∃ d ≤ |e.entry 0 0|, IsDistance (D.row 2) (leadingSpan L D 0) d) ∧
      (quotient L D).grid.toMatrix 1 3 * D = L := by
  let _ : ExactField ℝ := ExactField.real 0 le_rfl
  intro D L e
  have hrank : D.rank = 2 := by
    have hone : (!![0, 1, 0; 1 / 2, 0, 0] : Matrix (Fin 2) (Fin 3) ℝ) * D = 1 := by
      ext i j
      fin_cases i <;> fin_cases j <;> simp [D, Matrix.mul_apply, Fin.sum_univ_three]
    have hle := Matrix.rank_mul_le_right (!![0, 1, 0; 1 / 2, 0, 0] : Matrix (Fin 2) (Fin 3) ℝ) D
    rw [hone, Matrix.rank_one, Fintype.card_fin] at hle
    exact le_antisymm (Matrix.rank_le_width D) hle
  have hL : (!![2, 3, 0] : Matrix (Fin 1) (Fin 3) ℝ) * D = L := by
    ext i j
    fin_cases i; fin_cases j <;> simp [D, L, Matrix.mul_apply, Fin.sum_univ_three]
    norm_num
  obtain ⟨-, hpos, hanti, hpivot, hremaining, -, hexact⟩ := elimination_rankDecision L D
  obtain ⟨hr, hsolved⟩ := hexact rfl
  have htwo : (quotient L D).rank = 2 := hr.trans hrank
  rw [htwo] at hpos hanti hpivot hremaining
  exact ⟨hrank, htwo, hpos 1 (by decide), hanti 0 (by decide), hpivot 1 (by decide),
    hremaining 0 (by decide) 2 (by simp), hsolved ⟨_, hL⟩⟩

end UnitMatrix
