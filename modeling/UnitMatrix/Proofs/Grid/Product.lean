import Mathlib.Algebra.BigOperators.Ring.Finset
import Mathlib.Algebra.BigOperators.Intervals
import UnitMatrix.Proofs.Grid.Extent

/-! Products of whole numbers. Arithmetic that stops when it leaves its range is exact when it does
not stop, so the cells of a product are the sums over the inner positions, in the integers. Three
factors can then be grouped either way. -/

namespace UnitMatrix

/-- Arithmetic that is exact as far as it goes, `val` being the integer that a number stands for. -/
structure Exact {α : Type} [Arithmetic α] (val : α → Int) : Prop where
  injective : Function.Injective val
  zero : val Arithmetic.zero = 0
  add : ∀ {x y z : α}, Arithmetic.add x y = .ok z → val z = val x + val y
  mul : ∀ {x y z : α}, Arithmetic.mul x y = .ok z → val z = val x * val y

namespace Ranged

variable {lo hi : Int}

theorem val_of_ofInt? {n : Int} {x : Ranged lo hi} (h : ofInt? n = some x) : x.val = n := by
  obtain ⟨_, h⟩ := Option.dite_none_right_eq_some.1 h
  cases h
  rfl

theorem val_of_checked {operation : Operation} {n : Int} {x : Ranged lo hi}
    (h : checked operation n = .ok x) : x.val = n := by
  unfold checked at h
  split at h
  next y hy =>
    cases h
    exact val_of_ofInt? hy
  next => cases h

theorem exact (h : lo ≤ 0 ∧ 1 ≤ hi) : @Exact (Ranged lo hi) (arithmetic h) val :=
  letI := arithmetic h
  { injective := fun _ _ => ext
    zero := rfl
    add := val_of_checked
    mul := val_of_checked }

end Ranged

namespace Grid

variable {α : Type} {val : α → Int}

def intAt (val : α → Int) (g : Grid α) (i j : Nat) : Int := ((g.get? i j).map val).getD 0

def rowAt (val : α → Int) (row : List α) (j : Nat) : Int := (row[j]?.map val).getD 0

theorem intAt_eq_rowAt {g : Grid α} {i : Nat} {row : List α} (h : g.entries[i]? = some row)
    (j : Nat) : g.intAt val i j = rowAt val row j := by
  rw [intAt, get?, h, Option.bind_some, rowAt]

theorem eq_of_intAt (hv : Function.Injective val) {g h : Grid α} (hr : g.rows = h.rows)
    (hc : g.columns = h.columns)
    (hval : ∀ i j, i < g.rows → j < g.columns → g.intAt val i j = h.intAt val i j) : g = h := by
  refine ext_get? hr hc fun i j => ?_
  by_cases hij : i < g.rows ∧ j < g.columns
  · obtain ⟨x, hx⟩ := Option.isSome_iff_exists.1 (get?_isSome_iff.2 hij)
    obtain ⟨y, hy⟩ := Option.isSome_iff_exists.1 (get?_isSome_iff.2 (hr ▸ hc ▸ hij))
    have := hval i j hij.1 hij.2
    simp only [intAt, hx, hy, Option.map_some, Option.getD_some] at this
    rw [hx, hy, hv this]
  · rw [get?_eq_none_iff.2 (by omega), get?_eq_none_iff.2 (by omega)]

open Finset

theorem sum_zip (row : List α) (rows : List (List α)) (hl : row.length = rows.length) (j : Nat) :
    ((row.zip rows).map fun t => val t.1 * rowAt val t.2 j).sum =
      ∑ n ∈ range row.length, rowAt val row n * ((rows[n]?.bind (·[j]?)).map val).getD 0 := by
  induction row generalizing rows with
  | nil => simp
  | cons x xs ih =>
    cases rows with
    | nil => cases hl
    | cons r rs =>
      rw [List.length_cons, sum_range_succ', List.zip_cons_cons, List.map_cons, List.sum_cons,
        ih rs (Nat.succ.inj hl), add_comm]
      rfl

variable [Arithmetic α]

theorem rowAt_zeros (hv : Exact val) (n j : Nat) :
    rowAt val (List.replicate n Arithmetic.zero) j = 0 := by
  by_cases hj : j < n <;> simp [rowAt, hj, hv.zero]

theorem rowAt_of_addScaled (hv : Exact val) {out row sum : List α} {factor : α}
    (hl : out.length = row.length) (h : addScaled out factor row = .ok sum) (j : Nat) :
    rowAt val sum j = rowAt val out j + val factor * rowAt val row j := by
  have hsum : sum.length = row.length := by rw [length_of_mapM_ok h, List.length_zip]; omega
  by_cases hj : j < row.length
  · have hx := List.getElem?_eq_getElem (l := out) (i := j) (by omega)
    have hy := List.getElem?_eq_getElem hj
    have hxy : (out.zip row)[j]? = some (out[j], row[j]) := List.getElem?_zip_eq_some.2 ⟨hx, hy⟩
    obtain ⟨z, hz, hadd⟩ := exists_of_mapM_ok h hxy
    obtain ⟨w, hmul, hadd⟩ := exists_of_bind_ok hadd
    simp only [rowAt, hx, hy, hz, Option.map_some, Option.getD_some]
    rw [hv.add hadd, hv.mul hmul]
  · simp [rowAt, hsum, hl, Nat.le_of_not_lt hj]

theorem rowAt_of_foldlM (hv : Exact val) {n : Nat} {terms : List (α × List α)} {out sum : List α}
    (hterms : ∀ t ∈ terms, t.2.length = n) (hl : out.length = n)
    (h : terms.foldlM (fun out t => addScaled out t.1 t.2) out = .ok sum) (j : Nat) :
    rowAt val sum j =
      rowAt val out j + (terms.map fun t => val t.1 * rowAt val t.2 j).sum := by
  induction terms generalizing out with
  | nil => cases h; simp
  | cons t ts ih =>
    rw [List.foldlM_cons] at h
    obtain ⟨next, hnext, h⟩ := exists_of_bind_ok h
    have ht := hterms t (by simp)
    have hln : next.length = n := by rw [length_of_mapM_ok hnext, List.length_zip]; omega
    rw [ih (fun t' ht' => hterms t' (by simp [ht'])) hln h,
      rowAt_of_addScaled hv (hl.trans ht.symm) hnext, List.map_cons, List.sum_cons, add_assoc]

/-- A cell of a product is the sum over the inner positions. -/
theorem intAt_of_mulKnown (hv : Exact val) {a b p : Grid α} (hinner : a.columns = b.rows)
    (h : a.mulKnown b = .ok p) {i : Nat} (hi : i < a.rows) (j : Nat) :
    p.intAt val i j = ∑ n ∈ range a.columns, a.intAt val i n * b.intAt val n j := by
  have hrow := List.getElem?_eq_getElem (l := a.entries) hi
  have hl := a.rectangular a.entries[i] (List.getElem_mem hi)
  obtain ⟨out, hout, hsum⟩ := exists_of_mapM_ok (ofRowsM_eq_ok_iff.1 h).2 hrow
  rw [intAt_eq_rowAt hout, rowAt_of_foldlM hv (n := b.columns)
    (fun t ht => b.rectangular _ (List.of_mem_zip ht).2) (by simp) hsum, rowAt_zeros hv,
    zero_add, sum_zip _ _ (hl.trans hinner), hl]
  exact sum_congr rfl fun n _ => by rw [intAt_eq_rowAt hrow]; rfl

variable [Shapeless α]

theorem extent_of_mulKnown {a b p : Grid α} (hinner : a.columns = b.rows)
    (h : a.mulKnown b = .ok p) : p.Extent a.rows b.columns := by
  have he := Extent.mulKnown Shapeless.add Shapeless.mul (⟨rfl, rfl⟩ : a.Extent a.rows a.columns)
    (⟨hinner.symm, rfl⟩ : b.Extent a.columns b.columns)
  rwa [h] at he

/-- Products of three factors, grouped either way, are the same as soon as both exist. -/
theorem eq_of_mulKnown_mulKnown (hv : Exact val) {a b c ab bc l r : Grid α}
    (hab : a.columns = b.rows) (hbc : b.columns = c.rows) (h : a.mulKnown b = .ok ab)
    (hl : ab.mulKnown c = .ok l) (h' : b.mulKnown c = .ok bc) (hr : a.mulKnown bc = .ok r) :
    l = r := by
  obtain ⟨har, hac⟩ := extent_of_mulKnown hab h
  obtain ⟨hbr, hbc'⟩ := extent_of_mulKnown hbc h'
  obtain ⟨hlr, hlc⟩ := extent_of_mulKnown (hac.trans hbc) hl
  obtain ⟨hrr, hrc⟩ := extent_of_mulKnown (hab.trans hbr.symm) hr
  refine eq_of_intAt hv.injective (by omega) (by omega) fun i j hi hj => ?_
  calc l.intAt val i j
      = ∑ n ∈ range b.columns,
          (∑ m ∈ range a.columns, a.intAt val i m * b.intAt val m n) * c.intAt val n j := by
        rw [intAt_of_mulKnown hv (hac.trans hbc) hl (by omega), hac]
        exact sum_congr rfl fun n _ => by rw [intAt_of_mulKnown hv hab h (by omega)]
    _ = ∑ m ∈ range a.columns,
          a.intAt val i m * ∑ n ∈ range b.columns, b.intAt val m n * c.intAt val n j := by
        simp only [sum_mul, mul_sum, mul_assoc]
        exact sum_comm
    _ = r.intAt val i j := by
        rw [intAt_of_mulKnown hv (hab.trans hbr.symm) hr (by omega)]
        refine sum_congr rfl fun m hm => ?_
        rw [intAt_of_mulKnown hv hbc h' (by rw [← hab]; exact mem_range.1 hm)]

end Grid

end UnitMatrix
