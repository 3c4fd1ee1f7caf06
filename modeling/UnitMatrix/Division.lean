import UnitMatrix.Division.Elimination
import UnitMatrix.Grid

/-! Division of grids: the `X` with `X * divisor = dividend`, in the least squares sense. The rows
of both sides are columns of the transposed system, which elimination brings to triangular form and
back substitution solves, row by row of the dividend. Unknowns beyond the rank stay at zero, so a
divisor of lower rank has the basic solution and a zero divisor the zero quotient. -/

namespace UnitMatrix

open RootField

variable {K : Type} [RootField K]

/-- The unknowns of the pivots from row `row` on, the last one solved first. -/
def backSubstitute (target : List K) : (row : Nat) → List (Column K) → List K
  | _, [] => []
  | row, pivot :: pivots =>
    let known := backSubstitute target (row + 1) pivots
    let sum := (pivots.zip known).foldl
      (fun sum p => sub sum (mul (p.1.values.getD row zero) p.2)) (target.getD row zero)
    div sum (pivot.values.getD row zero) :: known

theorem length_backSubstitute (target : List K) (row : Nat) (pivots : List (Column K)) :
    (backSubstitute target row pivots).length = pivots.length := by
  induction pivots generalizing row with
  | nil => rfl
  | cons pivot pivots ih => rw [backSubstitute, List.length_cons, ih, List.length_cons]

/-- The unknowns at the places that their columns had, zero elsewhere. -/
def placeSolution (count : Nat) (pivots : List (Column K)) (solution : List K) : List K :=
  (pivots.zip solution).foldl (fun row p => row.set p.1.origin p.2) (List.replicate count zero)

theorem length_placeSolution (count : Nat) (pivots : List (Column K)) (solution : List K) :
    (placeSolution count pivots solution).length = count := by
  have : ∀ (pairs : List (Column K × K)) (row : List K), row.length = count →
      (pairs.foldl (fun row p => row.set p.1.origin p.2) row).length = count := by
    intro pairs
    induction pairs with
    | nil => intro row h; exact h
    | cons p ps ih => intro row h; exact ih _ (by simpa using h)
  exact this _ _ (by simp)

/-- The quotient of two grids and the rank that the divisor turned out to have. -/
structure Solution (K : Type) where
  grid : Grid K
  rank : Nat

/-- The quotient `dividend / divisor` of grids with equally many columns. -/
def divide (dividend divisor : Grid K) : Solution K :=
  let e := eliminate divisor.columns divisor.entries dividend.entries
  { grid :=
      { columns := divisor.rows
        entries := e.targets.map fun target =>
          placeSolution divisor.rows e.pivots (backSubstitute target 0 e.pivots)
        rectangular := by
          intro row h
          obtain ⟨_, _, rfl⟩ := List.mem_map.1 h
          exact length_placeSolution _ _ _ }
    rank := e.pivots.length }

end UnitMatrix
