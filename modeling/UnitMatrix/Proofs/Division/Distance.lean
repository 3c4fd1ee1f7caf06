import Mathlib.LinearAlgebra.Span.Basic
import Mathlib.Order.Bounds.Basic
import UnitMatrix.Proofs.Division.Triangular

/-! Distances in exact arithmetic. The distance of a vector from a subspace is the least length of a
difference. From the vectors that are zero from position `k` on it is the length of the tail, and
these vectors are what a triangle of `k` pivots spans. Rotations keep distances, so the tail of a
column is the distance of a row of the divisor from the span of the rows chosen before it. -/

namespace UnitMatrix

variable {K : Type} [ExactField K] {c k : Nat}

def lengthOf (x : Fin c → K) : K := ExactField.root (x ⬝ᵥ x)

theorem dot_self_nonneg (x : Fin c → K) : 0 ≤ x ⬝ᵥ x :=
  Finset.sum_nonneg fun i _ => mul_self_nonneg (x i)

theorem lengthOf_nonneg (x : Fin c → K) : 0 ≤ lengthOf x :=
  ExactField.root_nonneg (dot_self_nonneg x)

theorem lengthOf_mul_self (x : Fin c → K) : lengthOf x * lengthOf x = x ⬝ᵥ x :=
  ExactField.root_mul_root (dot_self_nonneg x)

theorem lengthOf_le_iff {x y : Fin c → K} : lengthOf x ≤ lengthOf y ↔ x ⬝ᵥ x ≤ y ⬝ᵥ y := by
  rw [mul_self_le_mul_self_iff (lengthOf_nonneg x) (lengthOf_nonneg y), lengthOf_mul_self,
    lengthOf_mul_self]

theorem eq_zero_of_lengthOf_le {x : Fin c → K} (h : lengthOf x ≤ 0) : x = 0 := by
  have hlength := le_antisymm h (lengthOf_nonneg x)
  have hsum : x ⬝ᵥ x = 0 := by rw [← lengthOf_mul_self, hlength, mul_zero]
  funext i
  exact mul_self_eq_zero.1 ((Finset.sum_eq_zero_iff_of_nonneg fun i _ => mul_self_nonneg (x i)).1 hsum
    i (Finset.mem_univ i))

/-- The distance of a vector from a subspace: the least length of a difference. -/
def IsDistance (x : Fin c → K) (S : Submodule K (Fin c → K)) (d : K) : Prop :=
  IsLeast ((fun s => lengthOf (x - s)) '' S) d

theorem IsDistance.mem_of_le {x : Fin c → K} {S : Submodule K (Fin c → K)} {d : K}
    (h : IsDistance x S d) (hd : d ≤ 0) : x ∈ S := by
  obtain ⟨⟨s, hs, rfl⟩, -⟩ := h
  rwa [sub_eq_zero.1 (eq_zero_of_lengthOf_le hd)]

theorem IsDistance.of_mem {x : Fin c → K} {S : Submodule K (Fin c → K)} (h : x ∈ S) :
    IsDistance x S 0 := by
  have hzero : lengthOf (x - x) = 0 := by
    rw [← mul_self_eq_zero, lengthOf_mul_self, sub_self, dotProduct_zero]
  refine ⟨⟨x, h, hzero⟩, ?_⟩
  rintro _ ⟨s, -, rfl⟩
  exact lengthOf_nonneg _

/-- The vectors that are zero from position `k` on. -/
def front (K : Type) [ExactField K] (c k : Nat) : Submodule K (Fin c → K) where
  carrier := {x | ∀ i, k ≤ i.val → x i = 0}
  add_mem' hx hy i hi := by rw [Pi.add_apply, hx i hi, hy i hi, add_zero]
  zero_mem' _ _ := rfl
  smul_mem' a x hx i hi := by rw [Pi.smul_apply, hx i hi, smul_zero]

theorem front_zero : front K c 0 = ⊥ := by
  refine (Submodule.eq_bot_iff _).2 fun x hx => ?_
  funext i
  exact hx i (Nat.zero_le _)

theorem front_mono {i : Nat} (h : i ≤ k) : front K c i ≤ front K c k :=
  fun _ hx j hj => hx j (h.trans hj)

def tailFrom (k : Nat) (x : Fin c → K) : Fin c → K := fun i => if k ≤ i.val then x i else 0

theorem tailFrom_of_le {x : Fin c → K} {i : Fin c} (h : k ≤ i.val) : tailFrom k x i = x i := if_pos h

theorem tailFrom_of_lt {x : Fin c → K} {i : Fin c} (h : i.val < k) : tailFrom k x i = 0 :=
  if_neg (Nat.not_le.2 h)

theorem tailFrom_zero (x : Fin c → K) : tailFrom 0 x = x :=
  funext fun i => tailFrom_of_le (Nat.zero_le i.val)

theorem sub_tailFrom_mem (x : Fin c → K) : x - tailFrom k x ∈ front K c k := fun i hi => by
  rw [Pi.sub_apply, tailFrom_of_le hi, sub_self]

theorem lengthOf_tailFrom_anti {i : Nat} (h : i ≤ k) (x : Fin c → K) :
    lengthOf (tailFrom k x) ≤ lengthOf (tailFrom i x) := by
  refine lengthOf_le_iff.2 (Finset.sum_le_sum fun j _ => ?_)
  rcases Nat.lt_or_ge j.val k with hj | hj
  · rw [tailFrom_of_lt hj, mul_zero]
    exact mul_self_nonneg _
  · rw [tailFrom_of_le hj, tailFrom_of_le (h.trans hj)]

/-- The distance from the vectors that are zero from `k` on is the length of the tail. -/
theorem isDistance_front (k : Nat) (x : Fin c → K) :
    IsDistance x (front K c k) (lengthOf (tailFrom k x)) := by
  refine ⟨⟨x - tailFrom k x, sub_tailFrom_mem x, congrArg lengthOf (sub_sub_cancel ..)⟩, ?_⟩
  rintro _ ⟨s, hs, rfl⟩
  -- entry by entry: before `k` the tail has nothing, from `k` on the other vector has nothing
  refine lengthOf_le_iff.2 (Finset.sum_le_sum fun i _ => ?_)
  rcases Nat.lt_or_ge i.val k with hi | hi
  · rw [tailFrom_of_lt hi, mul_zero]
    exact mul_self_nonneg _
  · rw [tailFrom_of_le hi, Pi.sub_apply, hs i hi, sub_zero]

/-- On lists of `c` numbers the norm from `k` on is the length of the tail. -/
theorem normFrom_eq_lengthOf {xs : List K} (hx : xs.length = c) (hk : k ≤ c) :
    normFrom k xs = lengthOf (tailFrom k (vector c xs)) := by
  have hpad : (List.replicate k 0 ++ xs.drop k).length = c := by simp; omega
  have htail : vector c (List.replicate k 0 ++ xs.drop k) = tailFrom k (vector c xs) := by
    funext i
    rcases Nat.lt_or_ge i.val k with hi | hi
    · simp [vector, tailFrom_of_lt hi, List.getElem?_append_left, hi]
    · rw [tailFrom_of_le hi]
      simp only [vector, List.getD_eq_getElem?_getD]
      rw [List.getElem?_append_right (by simpa using hi), List.length_replicate,
        List.getElem?_drop, Nat.add_sub_cancel' hi]
  have hdot : vector c xs ⬝ᵥ tailFrom k (vector c xs) =
      tailFrom k (vector c xs) ⬝ᵥ tailFrom k (vector c xs) := by
    refine Finset.sum_congr rfl fun i _ => ?_
    rcases Nat.lt_or_ge i.val k with hi | hi
    · rw [tailFrom_of_lt hi, mul_zero, mul_zero]
    · rw [tailFrom_of_le hi]
  rw [normFrom, exact_sqrt, squareSum_eq_dotProduct, dotProduct_drop (by omega),
    dotProduct_eq_vector hx hpad, htail, hdot, lengthOf]

namespace Rotation

variable (φ : Rotation K c k)

theorem apply_of_lt (x : Fin c → K) {i : Fin c} (hi : i.val < k) : φ x i = x i := by
  have hsingle : φ (Pi.single i 1) = Pi.single i 1 := φ.fixed _ fun j hj =>
    Pi.single_eq_of_ne (fun h => by rw [h] at hj; omega) 1
  calc φ x i = φ x ⬝ᵥ φ (Pi.single i 1) := by rw [hsingle, dotProduct_single_one]
    _ = x ⬝ᵥ Pi.single i 1 := φ.dot _ _
    _ = x i := dotProduct_single_one ..

theorem lengthOf_apply (x : Fin c → K) : lengthOf (φ x) = lengthOf x :=
  congrArg ExactField.root (φ.dot x x)

theorem tailFrom_apply (x : Fin c → K) {i : Nat} (hi : i ≤ k) :
    tailFrom i (φ x) = φ (tailFrom i x) := by
  have hsub : φ (tailFrom i x) = φ x - (x - tailFrom i x) := by
    have hfix : φ (x - tailFrom i x) = x - tailFrom i x :=
      φ.fixed _ (front_mono hi (sub_tailFrom_mem x))
    rw [map_sub] at hfix
    rw [← hfix, sub_sub_cancel]
  rw [hsub]
  funext j
  rw [Pi.sub_apply, Pi.sub_apply]
  rcases Nat.lt_or_ge j.val i with hj | hj
  · rw [tailFrom_of_lt hj, tailFrom_of_lt hj, φ.apply_of_lt x (by omega), sub_zero, sub_self]
  · rw [tailFrom_of_le hj, tailFrom_of_le hj, sub_self, sub_zero]

theorem isDistance_map {x : Fin c → K} {S : Submodule K (Fin c → K)} {d : K} :
    IsDistance (φ x) (S.map φ.map) d ↔ IsDistance x S d := by
  have hlength (s : Fin c → K) : lengthOf (φ x - φ s) = lengthOf (x - s) := by
    rw [← map_sub, lengthOf_apply]
  rw [IsDistance, IsDistance, Submodule.map_coe, Set.image_image]
  exact iff_of_eq (congrArg (IsLeast · d) (Set.image_congr fun s _ => hlength s))

end Rotation

/-- One vector more, with something at position `k` and nothing beyond. -/
theorem span_insert_front {x : Fin c → K} (hk : k < c) (hx : x ∈ front K c (k + 1))
    (hne : x ⟨k, hk⟩ ≠ 0) : Submodule.span K (insert x (front K c k)) = front K c (k + 1) := by
  refine le_antisymm (Submodule.span_le.2 ?_) fun y hy => ?_
  · exact Set.insert_subset hx (front_mono (Nat.le_succ k))
  · refine Submodule.mem_span_insert.2 ⟨y ⟨k, hk⟩ / x ⟨k, hk⟩, y - (y ⟨k, hk⟩ / x ⟨k, hk⟩) • x,
      Submodule.subset_span fun i hi => ?_, (add_sub_cancel ..).symm⟩
    rw [Pi.sub_apply, Pi.smul_apply, smul_eq_mul]
    rcases Nat.eq_or_lt_of_le hi with hi | hi
    · obtain rfl : i = ⟨k, hk⟩ := Fin.ext hi.symm
      rw [div_mul_cancel₀ _ hne, sub_self]
    · rw [hx i hi, hy i hi, mul_zero, sub_zero]

def valuesOf (c : Nat) (columns : List (Column K)) : Set (Fin c → K) :=
  (fun a => vector c a.values) '' {a | a ∈ columns}

/-- A triangle and what is zero from its first row on span what is zero from its end on. -/
theorem Triangular.span_front_union {row : Nat} {pivots : List (Column K)}
    (h : Triangular row pivots) (hc : row + pivots.length ≤ c) :
    Submodule.span K (front K c row ∪ valuesOf c pivots) = front K c (row + pivots.length) := by
  induction pivots generalizing row with
  | nil => simp [valuesOf]
  | cons pivot pivots ih =>
    obtain ⟨hne, hzero, htri⟩ := h
    rw [List.length_cons] at hc ⊢
    have hinsert : valuesOf c (pivot :: pivots) =
        insert (vector c pivot.values) (valuesOf c pivots) :=
      (congrArg _ (Set.ext fun _ => List.mem_cons)).trans (Set.image_insert_eq ..)
    have hpivot : vector c pivot.values ∈ front K c (row + 1) := fun i hi => hzero i hi
    have hnext := ih htri (by omega)
    rw [Submodule.span_union, Submodule.span_eq] at hnext
    rw [hinsert, Set.union_insert, ← Set.insert_union, Submodule.span_union,
      span_insert_front (by omega) hpivot hne, hnext, Nat.add_assoc, Nat.add_comm 1]

theorem Triangular.take {row : Nat} {pivots : List (Column K)} (h : Triangular row pivots)
    (i : Nat) : Triangular row (pivots.take i) := by
  induction pivots generalizing row i with
  | nil => simpa using h
  | cons pivot pivots ih =>
    cases i with
    | zero => trivial
    | succ i => exact ⟨h.1, h.2.1, ih h.2.2 i⟩

/-- The first `i` pivots span what is zero from `i` on. -/
theorem Triangular.span_take {pivots : List (Column K)} (h : Triangular 0 pivots) {i : Nat}
    (hi : i ≤ pivots.length) (hc : pivots.length ≤ c) :
    Submodule.span K (valuesOf c (pivots.take i)) = front K c i := by
  have hlength : (pivots.take i).length = i := by simp [hi]
  have hspan := (h.take i).span_front_union (c := c) (by omega)
  rwa [Submodule.span_union, front_zero, Submodule.span_eq, bot_sup_eq, hlength, Nat.zero_add] at hspan

/-- The tail of a column from `i` on is the distance of its row from the rows of the first `i`
pivots. -/
theorem Rotated.isDistance {φ : Rotation K c 0} {row : Nat → Fin c → K}
    {pivots rest : List (Column K)} {before after : List (List K)}
    (h : Rotated φ row (pivots ++ rest) before after) (htri : Triangular 0 pivots)
    (hc : pivots.length ≤ c) {i : Nat} (hi : i ≤ pivots.length) {a : Column K}
    (ha : a ∈ pivots ++ rest) :
    IsDistance (row a.origin)
      (Submodule.span K ((fun p => row p.origin) '' {p | p ∈ pivots.take i}))
      (normFrom i a.values) := by
  have himage : φ.map '' ((fun p => row p.origin) '' {p | p ∈ pivots.take i}) =
      valuesOf c (pivots.take i) := by
    rw [valuesOf, Set.image_image]
    refine Set.image_congr fun p hp => (h.values p ?_).symm
    exact List.mem_append_left _ (List.mem_of_mem_take hp)
  rw [← φ.isDistance_map, Submodule.map_span, himage, htri.span_take hi hc, ← h.values a ha,
    normFrom_eq_lengthOf (h.length_values a ha) (hi.trans hc)]
  exact isDistance_front i _

/-- What a column has from `i` on is what its row has from there on. -/
theorem Rotated.normFrom_eq {φ : Rotation K c k} {row : Nat → Fin c → K}
    {columns : List (Column K)} {before after : List (List K)}
    (h : Rotated φ row columns before after) {i : Nat} (hi : i ≤ k) (hk : k ≤ c) {a : Column K}
    (ha : a ∈ columns) : normFrom i a.values = lengthOf (tailFrom i (row a.origin)) := by
  rw [normFrom_eq_lengthOf (h.length_values a ha) (hi.trans hk), h.values a ha,
    φ.tailFrom_apply _ hi, φ.lengthOf_apply]

end UnitMatrix
