import Mathlib.Algebra.Module.LinearMap.Basic
import Mathlib.Tactic.FieldSimp
import Mathlib.Tactic.LinearCombination
import Mathlib.Tactic.Linarith
import UnitMatrix.Proofs.Division.Exact

/-! Reflections in exact arithmetic. On vectors a reflection is linear and keeps inner products; the
one that elimination chooses for a pivot sends the pivot's tail to a multiple of the first unit
vector. Reflections from position `k` on leave alone what is zero from there on, and so does one
after the other. -/

namespace UnitMatrix

variable {K : Type} [ExactField K] {c k : Nat}

/-- The reflection of vectors along `v`. For `v = 0` it does nothing, division by zero being zero. -/
def reflection (v : Fin c → K) : (Fin c → K) →ₗ[K] (Fin c → K) where
  toFun x := x - (2 * (x ⬝ᵥ v) / (v ⬝ᵥ v)) • v
  map_add' x y := by
    rw [add_dotProduct, mul_add, add_div, add_smul]
    exact add_sub_add_comm ..
  map_smul' a x := by
    rw [smul_dotProduct, smul_eq_mul, RingHom.id_apply, smul_sub, smul_smul]
    congr 2
    ring

theorem reflection_apply (v x : Fin c → K) :
    reflection v x = x - (2 * (x ⬝ᵥ v) / (v ⬝ᵥ v)) • v := rfl

theorem reflection_dot (v x y : Fin c → K) : reflection v x ⬝ᵥ reflection v y = x ⬝ᵥ y := by
  simp only [reflection_apply, sub_dotProduct, dotProduct_sub, smul_dotProduct, dotProduct_smul,
    smul_eq_mul, dotProduct_comm v y]
  by_cases hv : v ⬝ᵥ v = 0
  · simp [hv]
  · field_simp
    ring

/-- A linear map that keeps inner products, and every vector that is zero from `k` on. -/
structure Rotation (K : Type) [ExactField K] (c k : Nat) where
  map : (Fin c → K) →ₗ[K] (Fin c → K)
  dot : ∀ x y, map x ⬝ᵥ map y = x ⬝ᵥ y
  fixed : ∀ x, (∀ i, k ≤ i.val → x i = 0) → map x = x

namespace Rotation

instance : CoeFun (Rotation K c k) fun _ => (Fin c → K) → Fin c → K := ⟨fun φ => φ.map⟩

def refl : Rotation K c k := ⟨.id, fun _ _ => rfl, fun _ _ => rfl⟩

def next (φ : Rotation K c (k + 1)) (ψ : Rotation K c k) : Rotation K c k where
  map := φ.map ∘ₗ ψ.map
  dot x y := (φ.dot _ _).trans (ψ.dot x y)
  fixed x hx := by
    rw [LinearMap.comp_apply, ψ.fixed x hx]
    exact φ.fixed x fun i hi => hx i (by omega)

def reflect (v : Fin c → K) (hv : ∀ i, i.val < k → v i = 0) : Rotation K c k where
  map := reflection v
  dot := reflection_dot v
  fixed x hx := by
    have hxv : x ⬝ᵥ v = 0 := Finset.sum_eq_zero fun i _ => by
      rcases Nat.lt_or_ge i.val k with hi | hi
      · rw [hv i hi, mul_zero]
      · rw [hx i hi, zero_mul]
    simp [reflection_apply, hxv]

end Rotation

theorem dotProduct_drop {xs : List K} (hk : k ≤ xs.length) (ys : List K) :
    dotProduct (xs.drop k) ys = dotProduct xs (List.replicate k 0 ++ ys) := by
  induction k generalizing xs with
  | zero => rfl
  | succ k ih =>
    cases xs with
    | nil => simp at hk
    | cons x xs => simpa [List.replicate_succ] using ih (Nat.le_of_succ_le_succ hk)

namespace Reflector

def Weighed (r : Reflector K) : Prop := r.weight = squareSum r.direction

theorem weighed_ofTail (norm : K) (tail : List K) : (ofTail norm tail).Weighed := by
  cases tail <;> rfl

theorem applyTail_eq {r : Reflector K} (hr : r.Weighed) {xs : List K}
    (hx : xs.length = r.direction.length) :
    r.applyTail xs =
      (xs.zip r.direction).map fun p => p.1 - 2 * dotProduct xs r.direction / r.weight * p.2 := by
  have hw : 0 ≤ r.weight := hr ▸ squareSum_nonneg _
  rw [applyTail, exact_le]
  -- a weight that is not positive is zero, and with it the factor
  split
  next h =>
    have h0 : r.weight = 0 := le_antisymm (by simpa using h) hw
    simp [h0, ← List.unzip_fst, List.unzip_zip, hx]
  next => simp [two_mul]

def axis (c k : Nat) (r : Reflector K) : Fin c → K :=
  vector c (List.replicate k 0 ++ r.direction)

theorem axis_eq_zero (r : Reflector K) (i : Fin c) (hi : i.val < k) : r.axis c k i = 0 := by
  simp [axis, vector, List.getElem?_append_left, hi]

theorem vector_apply {r : Reflector K} (hr : r.Weighed) {xs : List K} (hx : xs.length = c)
    (hd : k + r.direction.length = c) :
    vector c (r.apply k xs) = reflection (r.axis c k) (vector c xs) := by
  have hpad : (List.replicate k 0 ++ r.direction).length = c := by simp [hd]
  have hdot : dotProduct (xs.drop k) r.direction = vector c xs ⬝ᵥ r.axis c k := by
    rw [dotProduct_drop (by omega), dotProduct_eq_vector hx hpad, axis]
  have hweight : r.weight = r.axis c k ⬝ᵥ r.axis c k := by
    rw [hr, squareSum_eq_dotProduct, axis, ← dotProduct_eq_vector hpad hpad,
      ← dotProduct_drop (by omega), List.drop_left' (by simp)]
  funext i
  rw [reflection_apply, ← hdot, ← hweight, apply, applyTail_eq hr (by simp; omega)]
  generalize 2 * dotProduct (xs.drop k) r.direction / r.weight = factor
  have hlen : (xs.take k).length = k := by simp; omega
  -- before `k` there is no direction, from `k` on an entry loses its share of it
  by_cases hi : i.val < k
  · have hhead (ys : List K) : vector c (xs.take k ++ ys) i = vector c xs i := by
      simp only [vector, List.getD_eq_getElem?_getD]
      rw [List.getElem?_append_left (by omega), List.getElem?_take_of_lt hi]
    simp [hhead, axis_eq_zero r i hi]
  · have hd' : i.val - k < r.direction.length := by omega
    have hx' : k + (i.val - k) < xs.length := by omega
    simp only [vector, axis, List.getD_eq_getElem?_getD, Pi.sub_apply, Pi.smul_apply, smul_eq_mul]
    rw [List.getElem?_append_right (by omega), List.getElem?_append_right (by simp; omega),
      List.getElem?_map, List.zip, List.getElem?_zipWith, List.getElem?_drop, hlen,
      List.length_replicate, List.getElem?_eq_getElem hd', List.getElem?_eq_getElem hx']
    simp only [Nat.add_sub_cancel' (Nat.le_of_not_lt hi)]
    rw [List.getElem?_eq_getElem (by omega)]
    rfl

/-- What becomes of the first entry of a tail under the reflection that is chosen for it. -/
def target (norm head : K) : K := if 0 < head then -norm else norm

theorem target_mul_self (norm head : K) : target norm head * target norm head = norm * norm := by
  unfold target
  split <;> ring

theorem target_mul_head_le (norm head : K) (hn : 0 ≤ norm) : target norm head * head ≤ 0 := by
  unfold target
  split
  next h => simpa using mul_nonneg hn h.le
  next h => exact mul_nonpos_of_nonneg_of_nonpos hn (not_lt.1 h)

theorem ofTail_cons (norm head : K) (rest : List K) :
    ofTail norm (head :: rest) =
      ⟨(head - target norm head) :: rest, squareSum ((head - target norm head) :: rest)⟩ := by
  simp [ofTail, target]

/-- The head does not cancel, so the direction is not zero. -/
theorem weight_ofTail_pos {norm head : K} {rest : List K} (hn : 0 < norm)
    (hnorm : norm * norm = squareSum (head :: rest)) :
    0 < (ofTail norm (head :: rest)).weight := by
  have hle := target_mul_head_le norm head hn.le
  have hsq := target_mul_self norm head
  have hpos := mul_pos hn hn
  rw [squareSum_cons] at hnorm
  rw [ofTail_cons, squareSum_cons]
  -- the weight is `2 * norm * norm - 2 * target * head`
  nlinarith

/-- The tail that the reflector was made for becomes a multiple of the first unit vector. -/
theorem applyTail_ofTail {norm head : K} {rest : List K} (hn : 0 < norm)
    (hnorm : norm * norm = squareSum (head :: rest)) :
    (ofTail norm (head :: rest)).applyTail (head :: rest) =
      target norm head :: List.replicate rest.length 0 := by
  have hw := weight_ofTail_pos hn hnorm
  have hsq := target_mul_self norm head
  rw [applyTail_eq (weighed_ofTail ..) (length_ofTail ..).symm]
  rw [squareSum_cons] at hnorm
  rw [ofTail_cons, squareSum_cons] at hw ⊢
  -- the norm makes the factor one, so the direction itself is taken away
  have hone : 2 * dotProduct (head :: rest) ((head - target norm head) :: rest) /
      ((head - target norm head) * (head - target norm head) + squareSum rest) = 1 := by
    rw [div_eq_one_iff_eq hw.ne', dotProduct_cons, ← squareSum_eq_dotProduct]
    linear_combination -hnorm - hsq
  simp only [hone, List.zip_cons_cons, List.map_cons, one_mul, sub_sub_cancel, zip_self,
    List.map_map, Function.comp_def, sub_self, List.map_const']

end Reflector

end UnitMatrix
