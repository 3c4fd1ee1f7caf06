import UnitMatrix.Division
import UnitMatrix.Log

/-! Division goes row by row through the dividend. The rows take part in the elimination without a say
in it: order of the columns, reflections, tolerance and rank come from the divisor alone, each row is
turned by the same reflections, and each is solved for itself. So rows may be divided together or one
by one, in any order, over any kind of numbers. -/

namespace UnitMatrix

namespace Grid

variable {α : Type}

def stack (a b : Grid α) (h : a.columns = b.columns) : Grid α where
  columns := a.columns
  entries := a.entries ++ b.entries
  rectangular row hrow := by
    rcases List.mem_append.1 hrow with ha | hb
    · exact a.rectangular row ha
    · exact (b.rectangular row hb).trans h.symm

def pickRows (g : Grid α) (order : List Nat) : Grid α where
  columns := g.columns
  entries := order.filterMap (g.entries[·]?)
  rectangular row hrow := by
    obtain ⟨i, -, hi⟩ := List.mem_filterMap.1 hrow
    exact g.rectangular row (List.mem_of_getElem? hi)

theorem entries_stack (a b : Grid α) (h : a.columns = b.columns) :
    (a.stack b h).entries = a.entries ++ b.entries := rfl

theorem entries_pickRows (g : Grid α) (order : List Nat) :
    (g.pickRows order).entries = order.filterMap (g.entries[·]?) := rfl

end Grid

variable {K : Type} [RootField K]

/-- What the elimination makes of the targets, it makes of each for itself, and of nothing else. -/
theorem exists_turn_eliminateFrom (scale steps : Nat) (tolerance? : Option K) (k : Nat)
    (columns : List (Column K)) :
    ∃ (pivots rest : List (Column K)) (turn : List K → List K), ∀ targets : List (List K),
      eliminateFrom scale steps tolerance? k columns targets =
        ⟨pivots, rest, targets.map turn⟩ := by
  induction steps generalizing tolerance? k columns with
  | zero => exact ⟨[], columns, id, fun targets => by rw [List.map_id]; rfl⟩
  | succ steps ih =>
    simp only [eliminateFrom]
    split
    next => exact ⟨[], [], id, fun targets => by rw [List.map_id]⟩
    next pivot others _ =>
      split
      next => exact ⟨[], pivot :: others, id, fun targets => by rw [List.map_id]⟩
      next =>
        split
        next => exact ⟨[pivot], others, id, fun targets => by rw [List.map_id]⟩
        next =>
          -- the reflector is that of the pivot, whatever the targets are
          generalize Reflector.ofTail (normFrom k pivot.values) (pivot.values.drop k) = r
          generalize tolerance?.getD _ = tolerance
          obtain ⟨pivots, rest, turn, hturn⟩ :=
            ih (some tolerance) (k + 1) (others.map (r.applyColumn k))
          refine ⟨r.applyColumn k pivot :: pivots, rest, turn ∘ r.apply k, fun targets => ?_⟩
          rw [hturn, List.map_map]

/-- A row of the quotient is a function of the row of the dividend, and the rank is none of it. -/
theorem exists_solve (divisor : Grid K) :
    ∃ (rank : Nat) (solve : List K → List K), ∀ dividend : Grid K,
      (divide dividend divisor).rank = rank ∧
        (divide dividend divisor).grid.entries = dividend.entries.map solve := by
  obtain ⟨pivots, rest, turn, hturn⟩ := exists_turn_eliminateFrom
    (max divisor.columns divisor.entries.length) divisor.columns none 0
    (divisor.entries.mapIdx fun i values => ⟨i, values⟩)
  refine ⟨pivots.length,
    fun row => placeSolution divisor.rows pivots (backSubstitute (turn row) 0 pivots),
    fun dividend => ?_⟩
  have he : eliminate divisor.columns divisor.entries dividend.entries =
      ⟨pivots, rest, dividend.entries.map turn⟩ := hturn dividend.entries
  refine ⟨congrArg (fun e => e.pivots.length) he, ?_⟩
  show List.map _ (eliminate divisor.columns divisor.entries dividend.entries).targets = _
  rw [he, List.map_map]
  rfl

theorem columns_divide (dividend divisor : Grid K) :
    (divide dividend divisor).grid.columns = divisor.rows := rfl

theorem columns_divide_eq (a b divisor : Grid K) :
    (divide a divisor).grid.columns = (divide b divisor).grid.columns :=
  (columns_divide a divisor).trans (columns_divide b divisor).symm

/-- The quotient of stacked rows is the stack of the quotients, picked rows have the picked rows of the
quotient, and a row of the quotient depends on no other row of the dividend. Rank and record are the
same for all dividends. -/
theorem divide_rowwise (divisor : Grid K) :
    (∀ (a b : Grid K) (h : a.columns = b.columns),
      (divide (a.stack b h) divisor).grid =
        (divide a divisor).grid.stack (divide b divisor).grid (columns_divide_eq a b divisor)) ∧
    (∀ (a : Grid K) (order : List Nat),
      (divide (a.pickRows order) divisor).grid = (divide a divisor).grid.pickRows order) ∧
    (∀ (a b : Grid K) (i j : Nat), a.entries[i]? = b.entries[j]? →
      (divide a divisor).grid.entries[i]? = (divide b divisor).grid.entries[j]?) ∧
    (∀ a b : Grid K, (divide a divisor).rank = (divide b divisor).rank ∧
      LogRecord.ofRank? (divide a divisor).rank divisor.rows divisor.columns =
        LogRecord.ofRank? (divide b divisor).rank divisor.rows divisor.columns) := by
  obtain ⟨rank, solve, hsolve⟩ := exists_solve divisor
  refine ⟨fun a b h => Grid.ext rfl ?_, fun a order => Grid.ext rfl ?_, fun a b i j h => ?_,
    fun a b => ?_⟩
  · rw [Grid.entries_stack, (hsolve _).2, (hsolve a).2, (hsolve b).2, Grid.entries_stack,
      List.map_append]
  · rw [Grid.entries_pickRows, (hsolve _).2, (hsolve a).2, Grid.entries_pickRows,
      List.map_filterMap]
    exact congrArg (order.filterMap ·) (funext fun i => (List.getElem?_map ..).symm)
  · rw [(hsolve a).2, (hsolve b).2, List.getElem?_map, List.getElem?_map, h]
  · rw [(hsolve a).1, (hsolve b).1]
    exact ⟨rfl, rfl⟩

/-- Doubles, one row of which is not a number throughout: it is divided as it is alone, and the other
row does not notice. -/
theorem divide_rowwise_of_nan :
    let divisor : Grid Float := ⟨2, [[1, 2], [3, 4]], by decide⟩
    let bad : Grid Float := ⟨2, [[0 / 0, 1 / 0]], by decide⟩
    let good : Grid Float := ⟨2, [[5, 6]], by decide⟩
    bad.columns = good.columns ∧
      (divide (bad.stack good rfl) divisor).grid =
        (divide bad divisor).grid.stack (divide good divisor).grid
          (columns_divide_eq bad good divisor) ∧
      (bad.stack good rfl).entries[1]? = good.entries[0]? ∧
      (divide (bad.stack good rfl) divisor).grid.entries[1]? =
        (divide good divisor).grid.entries[0]? ∧
      (divide (bad.stack good rfl) divisor).rank = (divide good divisor).rank := by
  intro divisor bad good
  obtain ⟨hstack, -, hrow, hrank⟩ := divide_rowwise divisor
  have hsecond : (bad.stack good rfl).entries[1]? = good.entries[0]? := rfl
  exact ⟨rfl, hstack bad good rfl, hsecond, hrow _ _ 1 0 hsecond,
    (hrank (bad.stack good rfl) good).1⟩

end UnitMatrix
