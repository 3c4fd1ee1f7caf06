import UnitMatrix.Division.RootField

/-! Elimination by reflections. The columns to be combined are brought to triangular form one pivot
at a time: the longest remaining tail becomes the pivot, and a reflection that sends the pivot's
tail to a multiple of the first unit vector is applied to every remaining column and every target.
Tails are compared anew at each step, and of equally long ones the last is taken. The elimination
ends when a tail is within the tolerance set by the first pivot. -/

namespace UnitMatrix

variable {K : Type}

/-- A column and the row of the divisor that it was. -/
structure Column (K : Type) where
  origin : Nat
  values : List K

/-- Triangular form: the pivots in order, the columns left over, and the targets. -/
structure Elimination (K : Type) where
  pivots : List (Column K)
  rest : List (Column K)
  targets : List (List K)

/-- The column at `best` comes to the front, the front column takes its place. -/
def bringForward (best : Nat) : List (Column K) → List (Column K)
  | [] => []
  | first :: others =>
    match best with
    | 0 => first :: others
    | n + 1 => others.getD n first :: others.set n first

open RootField

variable [RootField K]

def squareSum (values : List K) : K :=
  values.foldl (fun sum v => add sum (mul v v)) zero

/-- The sum of `x * v`, from the front, as far as both lists reach. -/
def dotProduct (xs vs : List K) : K :=
  (xs.zip vs).foldl (fun sum p => add sum (mul p.1 p.2)) zero

/-- Euclidean length from position `k` on. -/
def normFrom (k : Nat) (values : List K) : K :=
  sqrt (squareSum (values.drop k))

/-- The position of the last of the largest. A number that compares with nothing counts as equal. -/
def lastLargest : List K → Nat
  | [] => 0
  | x :: xs =>
    ((xs.zipIdx 1).foldl (fun best y => if lt y.1 best.1 then best else y) (x, 0)).2

/-- A reflection along `direction`, whose square sum is `weight`. -/
structure Reflector (K : Type) where
  direction : List K
  weight : K

namespace Reflector

/-- The reflection that sends `tail`, of length `norm`, to a multiple of the first unit vector. The
sign is chosen so that the first entry does not cancel. -/
def ofTail (norm : K) : List K → Reflector K
  | [] => ⟨[], squareSum []⟩
  | head :: rest =>
    let alpha := if lt zero head then neg norm else norm
    let direction := sub head alpha :: rest
    ⟨direction, squareSum direction⟩

/-- The image of a tail: `x - (2 * (x · v) / (v · v)) * v`. A weight of zero reflects nothing. -/
def applyTail (r : Reflector K) (xs : List K) : List K :=
  if le r.weight zero then xs
  else
    let dot := dotProduct xs r.direction
    let factor := div (add dot dot) r.weight
    (xs.zip r.direction).map fun p => sub p.1 (mul factor p.2)

/-- The image of a column, its first `k` entries left alone. -/
def apply (r : Reflector K) (k : Nat) (values : List K) : List K :=
  values.take k ++ r.applyTail (values.drop k)

theorem length_ofTail (norm : K) (tail : List K) :
    (ofTail norm tail).direction.length = tail.length := by
  cases tail <;> rfl

theorem length_apply {r : Reflector K} {k c : Nat} {values : List K} (hv : values.length = c)
    (hd : k + r.direction.length = c) : (r.apply k values).length = c := by
  rw [apply, applyTail]
  split
  · simpa using hv
  · simp
    omega

def applyColumn (r : Reflector K) (k : Nat) (c : Column K) : Column K :=
  ⟨c.origin, r.apply k c.values⟩

end Reflector

/-- The columns with the next pivot in front. -/
def choosePivot (k : Nat) (columns : List (Column K)) : List (Column K) :=
  bringForward (lastLargest (columns.map fun c => normFrom k c.values)) columns

/-- Elimination from row `k` on, with `steps` rows left. The tolerance is known from the second step
on; `scale` is the larger of the two extents of the divisor. The last row is triangular as it is. -/
def eliminateFrom (scale : Nat) : (steps : Nat) → (tolerance? : Option K) → (k : Nat) →
    List (Column K) → List (List K) → Elimination K
  | 0, _, _, columns, targets => ⟨[], columns, targets⟩
  | steps + 1, tolerance?, k, columns, targets =>
    match choosePivot k columns with
    | [] => ⟨[], [], targets⟩
    | pivot :: others =>
      let norm := normFrom k pivot.values
      let tolerance := tolerance?.getD (mul (mul norm epsilon) (ofNat scale))
      if le norm tolerance then ⟨[], pivot :: others, targets⟩
      else if steps = 0 then ⟨[pivot], others, targets⟩
      else
        let r := Reflector.ofTail norm (pivot.values.drop k)
        let e := eliminateFrom scale steps (some tolerance) (k + 1)
          (others.map (r.applyColumn k)) (targets.map (r.apply k))
        ⟨r.applyColumn k pivot :: e.pivots, e.rest, e.targets⟩

def eliminate (height : Nat) (columns targets : List (List K)) : Elimination K :=
  eliminateFrom (max height columns.length) height none 0
    (columns.mapIdx fun i values => ⟨i, values⟩) targets

end UnitMatrix
