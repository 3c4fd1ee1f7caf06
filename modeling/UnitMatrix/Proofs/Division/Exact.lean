import Mathlib.Algebra.BigOperators.Fin
import Mathlib.Algebra.Order.Field.Basic
import Mathlib.Analysis.Real.Sqrt
import Mathlib.Data.Matrix.Mul
import UnitMatrix.Division

/-! Division in exact arithmetic. The numbers are an ordered field in which non-negative elements
have square roots, and the tolerance is any non-negative constant. What the elimination adds up entry
by entry is then an inner product of vectors, and grids are the matrices of linear algebra. -/

namespace UnitMatrix

/-- An ordered field with square roots of its non-negative elements, and a relative error. -/
class ExactField (K : Type) extends Field K, LinearOrder K, IsStrictOrderedRing K where
  root : K → K
  root_nonneg : ∀ {x : K}, 0 ≤ x → 0 ≤ root x
  root_mul_root : ∀ {x : K}, 0 ≤ x → root x * root x = x
  error : K
  error_nonneg : 0 ≤ error

noncomputable abbrev ExactField.real (ε : ℝ) (hε : 0 ≤ ε) : ExactField ℝ where
  root := Real.sqrt
  root_nonneg _ := Real.sqrt_nonneg _
  root_mul_root := Real.mul_self_sqrt
  error := ε
  error_nonneg := hε

variable {K : Type} [ExactField K]

instance : RootField K where
  zero := 0
  add := (· + ·)
  sub := (· - ·)
  mul := (· * ·)
  div := (· / ·)
  neg := (- ·)
  sqrt := ExactField.root
  lt a b := decide (a < b)
  le a b := decide (a ≤ b)
  epsilon := ExactField.error
  ofNat n := n

@[simp] theorem exact_zero : (RootField.zero : K) = 0 := rfl

@[simp] theorem exact_add (a b : K) : RootField.add a b = a + b := rfl

@[simp] theorem exact_sub (a b : K) : RootField.sub a b = a - b := rfl

@[simp] theorem exact_mul (a b : K) : RootField.mul a b = a * b := rfl

@[simp] theorem exact_div (a b : K) : RootField.div a b = a / b := rfl

@[simp] theorem exact_neg (a : K) : RootField.neg a = -a := rfl

@[simp] theorem exact_sqrt (a : K) : RootField.sqrt a = ExactField.root a := rfl

@[simp] theorem exact_lt (a b : K) : RootField.lt a b = decide (a < b) := rfl

@[simp] theorem exact_le (a b : K) : RootField.le a b = decide (a ≤ b) := rfl

@[simp] theorem exact_epsilon : (RootField.epsilon : K) = ExactField.error := rfl

@[simp] theorem exact_ofNat (n : Nat) : (RootField.ofNat n : K) = n := rfl

def vector (c : Nat) (xs : List K) : Fin c → K := fun i => xs.getD i 0

theorem vector_ofFn {c : Nat} (f : Fin c → K) : vector c (List.ofFn f) = f := by
  funext i
  simp [vector]

namespace Grid

variable {m n : Nat}

def ofMatrix (A : Matrix (Fin m) (Fin n) K) : Grid K where
  columns := n
  entries := List.ofFn fun i => List.ofFn (A i)
  rectangular row h := by
    obtain ⟨i, rfl⟩ := (List.mem_ofFn' ..).1 h
    exact List.length_ofFn

def toMatrix (m n : Nat) (g : Grid K) : Matrix (Fin m) (Fin n) K :=
  fun i => vector n (g.entries.getD i [])

omit [ExactField K] in
theorem rows_ofMatrix (A : Matrix (Fin m) (Fin n) K) : (ofMatrix A).rows = m := List.length_ofFn

theorem toMatrix_ofMatrix (A : Matrix (Fin m) (Fin n) K) : (ofMatrix A).toMatrix m n = A := by
  funext i
  simp [toMatrix, ofMatrix, vector_ofFn]

theorem ofMatrix_toMatrix {g : Grid K} (hm : g.rows = m) (hn : g.columns = n) :
    ofMatrix (g.toMatrix m n) = g := by
  subst hm hn
  refine ext rfl (List.ext_getElem (rows_ofMatrix _) fun i _ hi => ?_)
  have hlen : g.entries[i].length = g.columns := g.rectangular _ (List.getElem_mem hi)
  refine List.ext_getElem (by simp [ofMatrix, hlen]) fun j hj hj' => ?_
  simp [ofMatrix, toMatrix, vector, hi, hj']

end Grid

theorem foldl_add_eq_sum {α : Type} (f : α → K) (xs : List α) (a : K) :
    xs.foldl (fun sum x => sum + f x) a = a + (xs.map f).sum := by
  induction xs generalizing a with
  | nil => simp
  | cons x xs ih => simp [ih, add_assoc]

theorem zip_self {α : Type} (xs : List α) : xs.zip xs = xs.map fun x => (x, x) :=
  List.zipWith_self

theorem dotProduct_eq_sum (xs ys : List K) :
    dotProduct xs ys = ((xs.zip ys).map fun p => p.1 * p.2).sum := by
  simp [dotProduct, foldl_add_eq_sum fun p : K × K => p.1 * p.2]

theorem squareSum_eq_dotProduct (xs : List K) : squareSum xs = dotProduct xs xs := by
  rw [dotProduct_eq_sum, zip_self]
  simp [squareSum, foldl_add_eq_sum fun x : K => x * x, Function.comp_def]

@[simp] theorem dotProduct_cons (x y : K) (xs ys : List K) :
    dotProduct (x :: xs) (y :: ys) = x * y + dotProduct xs ys := by
  simp [dotProduct_eq_sum]

@[simp] theorem squareSum_cons (x : K) (xs : List K) :
    squareSum (x :: xs) = x * x + squareSum xs := by
  simp [squareSum_eq_dotProduct]

theorem squareSum_nonneg (xs : List K) : 0 ≤ squareSum xs := by
  induction xs with
  | nil => exact le_rfl
  | cons x xs ih => simpa using add_nonneg (mul_self_nonneg x) ih

theorem normFrom_nonneg (k : Nat) (xs : List K) : 0 ≤ normFrom k xs :=
  ExactField.root_nonneg (squareSum_nonneg _)

theorem normFrom_mul_self (k : Nat) (xs : List K) :
    normFrom k xs * normFrom k xs = squareSum (xs.drop k) :=
  ExactField.root_mul_root (squareSum_nonneg _)

theorem dotProduct_eq_vector {c : Nat} {xs ys : List K} (hx : xs.length = c) (hy : ys.length = c) :
    dotProduct xs ys = vector c xs ⬝ᵥ vector c ys := by
  rw [dotProduct_eq_sum]
  induction c generalizing xs ys with
  | zero =>
    obtain rfl := List.length_eq_zero_iff.1 hx
    obtain rfl := List.length_eq_zero_iff.1 hy
    exact (Fin.sum_univ_zero fun i => vector 0 [] i * vector 0 [] i).symm
  | succ c ih =>
    obtain ⟨x, xs, rfl⟩ := List.exists_cons_of_length_eq_add_one hx
    obtain ⟨y, ys, rfl⟩ := List.exists_cons_of_length_eq_add_one hy
    rw [List.zip_cons_cons, List.map_cons, List.sum_cons, ih (Nat.succ.inj hx) (Nat.succ.inj hy)]
    exact (Fin.sum_univ_succ fun i => vector (c + 1) (x :: xs) i * vector (c + 1) (y :: ys) i).symm

end UnitMatrix
