import UnitMatrix.Proofs.Grid.Cellwise
import UnitMatrix.Proofs.Grid.Product

/-! Which fault whole-grid operations on integers end with. Each of them goes through single operations
in a fixed order: along the rows, cell by cell; and a product of known shapes row by row of its left
factor, through the cells of the row, and for each of these along the whole row of sums. The first
operation that leaves the range is the fault. If none does there is a result, and it is exact. So a
product may have a fault although all of its cells would be in range, where a partial sum is not. -/

namespace UnitMatrix

section Failure

variable {ε α β σ : Type}

def failure? : Except ε α → Option ε
  | .ok _ => none
  | .error e => some e

theorem failure?_eq_some_iff {x : Except ε α} {e : ε} : failure? x = some e ↔ x = .error e := by
  cases x <;> simp [failure?]

theorem failure?_mapM {f : α → Except ε β} {xs : List α} :
    failure? (xs.mapM f) = xs.findSome? fun x => failure? (f x) := by
  induction xs with
  | nil => rfl
  | cons x xs ih =>
    rw [List.mapM_cons, List.findSome?_cons, ← ih]
    cases f x with
    | error e => rfl
    | ok y => cases xs.mapM f <;> rfl

/-- A walk over positions in which an invariant says what each step fails with. -/
theorem failure?_foldlM_range {step : σ → Nat → Except ε σ} {n : Nat} (Inv : Nat → σ → Prop)
    (fault : Nat → Option ε) (hstep : ∀ k < n, ∀ s, Inv k s →
      failure? (step s k) = fault k ∧ ∀ s', step s k = .ok s' → Inv (k + 1) s')
    {s : σ} (h : Inv 0 s) :
    failure? ((List.range n).foldlM step s) = (List.range n).findSome? fault ∧
      ∀ s', (List.range n).foldlM step s = .ok s' → Inv n s' := by
  induction n with
  | zero =>
    refine ⟨rfl, fun s' hs => ?_⟩
    cases hs
    exact h
  | succ n ih =>
    obtain ⟨hfault, hinv⟩ := ih fun k hk => hstep k (Nat.lt_succ_of_lt hk)
    rw [List.range_succ, List.foldlM_append, List.findSome?_append, ← hfault]
    cases hrun : (List.range n).foldlM step s with
    | error e => exact ⟨rfl, fun s' hs => nomatch hs⟩
    | ok t =>
      obtain ⟨hlast, hnext⟩ := hstep n n.lt_succ_self t (hinv t hrun)
      have hone : (Except.ok t >>= fun s => [n].foldlM step s) = step t n := by
        show (step t n >>= pure) = _
        exact bind_pure _
      rw [hone]
      refine ⟨?_, hnext⟩
      rw [hlast, List.findSome?_cons]
      cases fault n <;> rfl

theorem findSome?_eq_range {xs : List α} {f : α → Option β} {g : Nat → Option β}
    (h : ∀ i x, xs[i]? = some x → f x = g i) :
    xs.findSome? f = (List.range xs.length).findSome? g := by
  induction xs generalizing g with
  | nil => rfl
  | cons x xs ih =>
    have htail : xs.findSome? f = (List.range xs.length).findSome? (g ∘ Nat.succ) :=
      ih fun i y hy => h (i + 1) y hy
    rw [List.length_cons, List.range_succ_eq_map, List.findSome?_cons, List.findSome?_cons, h 0 x rfl,
      List.findSome?_map, htail]

theorem findSome?_flatMap {f : α → List β} {g : β → Option σ} {xs : List α} :
    (xs.flatMap f).findSome? g = xs.findSome? fun x => (f x).findSome? g := by
  induction xs with
  | nil => rfl
  | cons x xs ih =>
    rw [List.flatMap_cons, List.findSome?_append, ih, List.findSome?_cons]
    cases (f x).findSome? g <;> rfl

theorem Grid.failure?_ofRowsM {columns : Nat} {f : β → Except Fault (List α)} {xs : List β}
    {h : ∀ x row, x ∈ xs → f x = .ok row → row.length = columns} :
    failure? (ofRowsM columns f xs h) = xs.findSome? fun x => failure? (f x) := by
  rw [← failure?_mapM]
  unfold ofRowsM
  split
  next rows hrows => exact (congrArg failure? hrows).symm
  next e he => exact (congrArg failure? he).symm

end Failure

def InRange (lo hi n : Int) : Prop := lo ≤ n ∧ n ≤ hi

instance (lo hi n : Int) : Decidable (InRange lo hi n) := inferInstanceAs (Decidable (_ ∧ _))

/-- A single operation on integers, and its exact result if it has one. -/
structure Primitive where
  operation : Operation
  result? : Option Int
  deriving DecidableEq

namespace Primitive

variable {lo hi x y : Int}

def sum (x y : Int) : Primitive := ⟨.add, some (x + y)⟩

def difference (x y : Int) : Primitive := ⟨.subtract, some (x - y)⟩

def product (x y : Int) : Primitive := ⟨.multiply, some (x * y)⟩

/-- The quotient is cut off toward zero. -/
def quotient (x y : Int) : Primitive := ⟨.divide, if y = 0 then none else some (x.tdiv y)⟩

/-- What the operation fails with, if its result has to lie between `lo` and `hi`. -/
def fault? (lo hi : Int) (p : Primitive) : Option Fault :=
  match p.result? with
  | none => some .zeroDivisor
  | some n => if InRange lo hi n then none else some (.overflow p.operation)

theorem fault?_ne_none_iff {operation : Operation} {n : Int} :
    fault? lo hi ⟨operation, some n⟩ ≠ none ↔ ¬ InRange lo hi n := by
  by_cases h : InRange lo hi n <;> simp [fault?, h]

end Primitive

/-- A number is computed as the operation says: with its fault, or with its exact result. -/
structure Computes {α : Type} (val : α → Int) (lo hi : Int) (p : Primitive) (x : Except Fault α) :
    Prop where
  fault : failure? x = p.fault? lo hi
  exact : ∀ r, x = .ok r → p.result? = some (val r)

structure Bounded {α : Type} [Arithmetic α] (val : α → Int) (lo hi : Int) : Prop
    extends Exact val where
  computes_add : ∀ x y, Computes val lo hi (.sum (val x) (val y)) (Arithmetic.add x y)
  computes_sub : ∀ x y, Computes val lo hi (.difference (val x) (val y)) (Arithmetic.sub x y)
  computes_mul : ∀ x y, Computes val lo hi (.product (val x) (val y)) (Arithmetic.mul x y)
  computes_div : ∀ x y, Computes val lo hi (.quotient (val x) (val y)) (Arithmetic.div x y)

namespace Ranged

variable {lo hi : Int}

theorem computes_checked (operation : Operation) (n : Int) :
    Computes val lo hi ⟨operation, some n⟩
      (checked operation n : Except Fault (Ranged lo hi)) where
  fault := by
    by_cases h : InRange lo hi n
    · have hn : (ofInt? n : Option (Ranged lo hi)) = some ⟨n, h.1, h.2⟩ := dif_pos h
      simp [checked, hn, failure?, Primitive.fault?, h]
    · have hn : (ofInt? n : Option (Ranged lo hi)) = none := dif_neg h
      simp [checked, hn, failure?, Primitive.fault?, h]
  exact r hr := congrArg some (val_of_checked hr).symm

theorem computes_divide (x y : Ranged lo hi) :
    Computes val lo hi (.quotient x.val y.val) (divide x y) := by
  by_cases h : y.val = 0
  · rw [Primitive.quotient, divide, if_pos h, if_pos h]
    exact ⟨rfl, fun r hr => nomatch hr⟩
  · rw [Primitive.quotient, divide, if_neg h, if_neg h]
    exact computes_checked ..

theorem bounded (h : lo ≤ 0 ∧ 1 ≤ hi) : @Bounded (Ranged lo hi) (arithmetic h) val lo hi :=
  letI := arithmetic h
  { exact h with
    computes_add := fun _ _ => computes_checked ..
    computes_sub := fun _ _ => computes_checked ..
    computes_mul := fun _ _ => computes_checked ..
    computes_div := computes_divide }

end Ranged

def cellTrace (rows columns : Nat) (p : Nat → Nat → Primitive) : List Primitive :=
  (List.range rows).flatMap fun i => (List.range columns).map (p i)

open Finset in
/-- Each cell of a row of sums becomes larger by a product, which is formed just before. -/
def rowTrace (columns k : Nat) (x : Nat → Int) (y : Nat → Nat → Int) : List Primitive :=
  (List.range columns).flatMap fun j =>
    [.product (x k) (y k j), .sum (∑ n ∈ range k, x n * y n j) (x k * y k j)]

/-- The operations of a product: row by row of the left factor, and through the cells of the row. -/
def productTrace (rows inner columns : Nat) (x y : Nat → Nat → Int) : List Primitive :=
  (List.range rows).flatMap fun i => (List.range inner).flatMap fun k => rowTrace columns k (x i) y

namespace Grid

variable {α : Type} {val : α → Int} {lo hi : Int} {rows columns : Nat} {cell : Nat → Nat → Int}

/-- The computation goes through these operations. The first that fails is what it fails with; if none
does, it has a result, and these integers are in its cells. -/
structure RunsThrough (val : α → Int) (lo hi : Int) (trace : List Primitive) (rows columns : Nat)
    (cell : Nat → Nat → Int) (x : Except Fault (Grid α)) : Prop where
  fault : ∀ e, x = .error e ↔ trace.findSome? (Primitive.fault? lo hi) = some e
  result : ∀ g, x = .ok g →
    g.Extent rows columns ∧ ∀ i < rows, ∀ j < columns, g.intAt val i j = cell i j

theorem RunsThrough.faults_iff {trace : List Primitive} {x : Except Fault (Grid α)}
    (h : RunsThrough val lo hi trace rows columns cell x) :
    (∃ e, x = .error e) ↔ ∃ p ∈ trace, p.fault? lo hi ≠ none := by
  simp only [h.fault, ← Option.isSome_iff_exists]
  rw [List.findSome?_isSome_iff]
  simp only [Option.isSome_iff_ne_none]

theorem extent_of_ofRowsM {β : Type} {f : β → Except Fault (List α)} {xs : List β}
    {h : ∀ x row, x ∈ xs → f x = .ok row → row.length = columns} {g : Grid α}
    (hg : ofRowsM columns f xs h = .ok g) : g.Extent xs.length columns :=
  ⟨length_of_mapM_ok (ofRowsM_eq_ok_iff.1 hg).2, (ofRowsM_eq_ok_iff.1 hg).1⟩

section Cells

variable {β γ : Type} {xs : List β} {row : β → List γ} {f : γ → Except Fault α}
  {p : Nat → Nat → Primitive}

/-- Rows of cells that are computed one by one, each by one operation. -/
theorem runsThrough_cells
    {h : ∀ x out, x ∈ xs → (row x).mapM f = .ok out → out.length = columns}
    (hrows : xs.length = rows) (hcolumns : ∀ x ∈ xs, (row x).length = columns)
    (hp : ∀ i j x y, xs[i]? = some x → (row x)[j]? = some y → Computes val lo hi (p i j) (f y))
    (hcell : ∀ i < rows, ∀ j < columns, ∀ n, (p i j).result? = some n → n = cell i j) :
    RunsThrough val lo hi (cellTrace rows columns p) rows columns cell
      (ofRowsM columns (fun x => (row x).mapM f) xs h) where
  fault e := by
    have hrow (i : Nat) (x : β) (hx : xs[i]? = some x) : failure? ((row x).mapM f) =
        ((List.range columns).map (p i)).findSome? (Primitive.fault? lo hi) := by
      rw [failure?_mapM, List.findSome?_map, ← hcolumns x (List.mem_of_getElem? hx)]
      exact findSome?_eq_range fun j y hy => (hp i j x y hx hy).fault
    rw [← failure?_eq_some_iff, failure?_ofRowsM, findSome?_eq_range hrow, cellTrace,
      findSome?_flatMap, hrows]
  result g hg := by
    subst hrows
    refine ⟨extent_of_ofRowsM hg, fun i hi j hj => ?_⟩
    have hx := List.getElem?_eq_getElem hi
    obtain ⟨out, hout, hrun⟩ := exists_of_mapM_ok (ofRowsM_eq_ok_iff.1 hg).2 hx
    have hy := List.getElem?_eq_getElem (hcolumns _ (List.mem_of_getElem? hx) ▸ hj)
    obtain ⟨r, hr, hf⟩ := exists_of_mapM_ok hrun hy
    have hexact := (hp i j _ _ hx hy).exact r hf
    rw [intAt_eq_rowAt hout, rowAt, hr]
    exact hcell i hi j hj _ hexact

theorem intAt_eq_val {g : Grid α} {i j : Nat} {x : α} {row : List α} (hrow : g.entries[i]? = some row)
    (hx : row[j]? = some x) : g.intAt val i j = val x := by
  rw [intAt_eq_rowAt hrow, rowAt, hx]
  rfl

theorem runsThrough_zipM {a b : Grid α} {op : α → α → Except Fault α} {p : Int → Int → Primitive}
    {r : Int → Int → Int} (ha : a.Extent rows columns) (hb : b.Extent rows columns)
    (hp : ∀ x y, Computes val lo hi (p (val x) (val y)) (op x y))
    (hr : ∀ x y n, (p x y).result? = some n → n = r x y) :
    RunsThrough val lo hi
      (cellTrace rows columns fun i j => p (a.intAt val i j) (b.intAt val i j)) rows columns
      (fun i j => r (a.intAt val i j) (b.intAt val i j)) (zipM op a b) := by
  have hcolumns : columns = min a.columns b.columns := by rw [ha.2, hb.2, Nat.min_self]
  rw [hcolumns]
  refine runsThrough_cells (ha.length_zip hb) (fun q hq => length_zip_of_mem hq)
    (fun i j q c hq hc => ?_) fun i _ j _ n hn => hr _ _ n hn
  obtain ⟨hqa, hqb⟩ := List.getElem?_zip_eq_some.1 hq
  obtain ⟨hca, hcb⟩ := List.getElem?_zip_eq_some.1 hc
  rw [intAt_eq_val hqa hca, intAt_eq_val hqb hcb]
  exact hp c.1 c.2

theorem runsThrough_mapM {a : Grid α} {f : α → Except Fault α} {p : Int → Primitive}
    {r : Int → Int} (ha : a.Extent rows columns)
    (hp : ∀ x, Computes val lo hi (p (val x)) (f x))
    (hr : ∀ x n, (p x).result? = some n → n = r x) :
    RunsThrough val lo hi (cellTrace rows columns fun i j => p (a.intAt val i j)) rows columns
      (fun i j => r (a.intAt val i j)) (a.mapM f) := by
  obtain ⟨rfl, rfl⟩ := ha
  refine runsThrough_cells rfl a.rectangular (fun i j row x hrow hx => ?_) fun i _ j _ n hn =>
    hr _ n hn
  rw [intAt_eq_val hrow hx]
  exact hp x

end Cells

section Products

open Finset

variable [Arithmetic α] (hv : Bounded val lo hi) {inner : Nat}

include hv

theorem failure?_mulAdd (sum x y : α) :
    failure? (do Arithmetic.add sum (← Arithmetic.mul x y)) =
      [Primitive.product (val x) (val y), .sum (val sum) (val x * val y)].findSome?
        (Primitive.fault? lo hi) := by
  have hmul := hv.computes_mul x y
  rw [List.findSome?_cons, ← hmul.fault]
  cases hz : Arithmetic.mul x y with
  | error e => rfl
  | ok z =>
    have hadd := hv.computes_add sum z
    rw [hv.mul hz] at hadd
    rw [ok_bind, hadd.fault, List.findSome?_cons]
    cases Primitive.fault? lo hi (.sum (val sum) (val x * val y)) <;> rfl

theorem failure?_addScaled {out row : List α} {factor : α} (hout : out.length = columns)
    (hrow : row.length = columns) :
    failure? (addScaled out factor row) = (List.range columns).findSome? fun j =>
      [Primitive.product (val factor) (rowAt val row j),
        .sum (rowAt val out j) (val factor * rowAt val row j)].findSome?
          (Primitive.fault? lo hi) := by
  have hlength : (out.zip row).length = columns := by
    rw [List.length_zip, hout, hrow, Nat.min_self]
  rw [addScaled, failure?_mapM, ← hlength]
  refine findSome?_eq_range fun j c hc => ?_
  obtain ⟨hx, hy⟩ := List.getElem?_zip_eq_some.1 hc
  rw [failure?_mulAdd hv, rowAt, rowAt, hx, hy]
  rfl

/-- A row of the product goes through the cells of its row of the left factor. The row of sums holds what
has been added up so far. -/
theorem failure?_rowTimes {row : List α} {b : Grid α} (hrow : row.length = inner)
    (hb : b.Extent inner columns) :
    failure? (rowTimes row b) = (List.range inner).findSome? fun k =>
      (rowTrace columns k (rowAt val row) (b.intAt val)).findSome? (Primitive.fault? lo hi) := by
  rw [rowTimes, zip_eq_map_range Arithmetic.zero [] (hrow.trans hb.1.symm), List.foldlM_map, hrow]
  refine (failure?_foldlM_range (fun k out => out.length = columns ∧
    ∀ j, rowAt val out j = ∑ n ∈ range k, rowAt val row n * b.intAt val n j) _
    (fun k hk out hout => ?_) ⟨by rw [List.length_replicate, hb.2], fun j => ?_⟩).1
  · obtain ⟨hlength, hsums⟩ := hout
    have hentry := List.getElem?_eq_getElem (l := b.entries) (hb.1.symm ▸ hk)
    have hterm : (b.entries.getD k []).length = columns := by
      rw [List.getD_eq_getElem?_getD, hentry]
      exact (b.rectangular _ (List.mem_of_getElem? hentry)).trans hb.2
    have hfactor : val (row.getD k Arithmetic.zero) = rowAt val row k := by
      rw [rowAt, List.getD_eq_getElem?_getD, List.getElem?_eq_getElem (hrow.symm ▸ hk)]
      rfl
    have hcells (j : Nat) : rowAt val (b.entries.getD k []) j = b.intAt val k j := by
      rw [List.getD_eq_getElem?_getD, hentry, intAt_eq_rowAt hentry]
      rfl
    refine ⟨?_, fun next hnext => ⟨?_, fun j => ?_⟩⟩
    · rw [failure?_addScaled hv hlength hterm, rowTrace, findSome?_flatMap, hfactor]
      simp only [hcells, hsums]
    · rw [length_of_mapM_ok hnext, List.length_zip, hlength, hterm, Nat.min_self]
    · rw [rowAt_of_addScaled hv.toExact (hlength.trans hterm.symm) hnext, hsums, hfactor, hcells,
        sum_range_succ]
  · rw [rowAt_zeros hv.toExact, sum_range_zero]

theorem runsThrough_mulKnown {a b : Grid α} (ha : a.Extent rows inner) (hb : b.Extent inner columns) :
    RunsThrough val lo hi (productTrace rows inner columns (a.intAt val) (b.intAt val)) rows columns
      (fun i j => ∑ k ∈ range inner, a.intAt val i k * b.intAt val k j) (a.mulKnown b) where
  fault e := by
    have hrow (i : Nat) (row : List α) (h : a.entries[i]? = some row) : failure? (rowTimes row b) =
        ((List.range inner).flatMap fun k =>
          rowTrace columns k (a.intAt val i) (b.intAt val)).findSome? (Primitive.fault? lo hi) := by
      have hlength := (a.rectangular row (List.mem_of_getElem? h)).trans ha.2
      rw [failure?_rowTimes hv hlength hb, findSome?_flatMap, funext (intAt_eq_rowAt h)]
    rw [← failure?_eq_some_iff, mulKnown, failure?_ofRowsM, findSome?_eq_range hrow, productTrace,
      findSome?_flatMap, ← ha.1]
    rfl
  result p hp := by
    refine ⟨?_, fun i hi j _ => ?_⟩
    · rw [← ha.1, ← hb.2]
      exact extent_of_ofRowsM hp
    · rw [intAt_of_mulKnown hv.toExact (ha.2.trans hb.1.symm) hp (ha.1.symm ▸ hi), ha.2]

end Products

end Grid

section Criteria

variable {lo hi : Int} {rows inner columns : Nat}

theorem exists_mem_cellTrace {p : Nat → Nat → Primitive} :
    (∃ q ∈ cellTrace rows columns p, q.fault? lo hi ≠ none) ↔
      ∃ i < rows, ∃ j < columns, (p i j).fault? lo hi ≠ none := by
  simp only [cellTrace, List.mem_flatMap, List.mem_map, List.mem_range]
  constructor
  · rintro ⟨_, ⟨i, hi, j, hj, rfl⟩, h⟩
    exact ⟨i, hi, j, hj, h⟩
  · rintro ⟨i, hi, j, hj, h⟩
    exact ⟨_, ⟨i, hi, j, hj, rfl⟩, h⟩

open Finset in
theorem exists_mem_productTrace {x y : Nat → Nat → Int} :
    (∃ q ∈ productTrace rows inner columns x y, q.fault? lo hi ≠ none) ↔
      ∃ i < rows, ∃ j < columns, ∃ k < inner, ¬ InRange lo hi (x i k * y k j) ∨
        ¬ InRange lo hi (∑ n ∈ range (k + 1), x i n * y n j) := by
  simp only [productTrace, rowTrace, List.mem_flatMap, List.mem_range, List.mem_cons,
    List.not_mem_nil, or_false, sum_range_succ]
  constructor
  · rintro ⟨q, ⟨i, hi, k, hk, j, hj, rfl | rfl⟩, h⟩
    · exact ⟨i, hi, j, hj, k, hk, .inl (Primitive.fault?_ne_none_iff.1 h)⟩
    · exact ⟨i, hi, j, hj, k, hk, .inr (Primitive.fault?_ne_none_iff.1 h)⟩
  · rintro ⟨i, hi, j, hj, k, hk, h | h⟩
    · exact ⟨_, ⟨i, hi, k, hk, j, hj, .inl rfl⟩, Primitive.fault?_ne_none_iff.2 h⟩
    · exact ⟨_, ⟨i, hi, k, hk, j, hj, .inr rfl⟩, Primitive.fault?_ne_none_iff.2 h⟩

/-- In two's complement one quotient is out of range, that of the least number by minus one; without
signs there is none. -/
theorem fault?_quotient_ne_none_iff (h1 : 1 ≤ hi) (hs : lo = -hi - 1 ∨ lo = 0) {x y : Int}
    (hx : InRange lo hi x) (hy : InRange lo hi y) :
    (Primitive.quotient x y).fault? lo hi ≠ none ↔ y = 0 ∨ y = -1 ∧ x = lo := by
  by_cases h0 : y = 0
  · simp [Primitive.quotient, Primitive.fault?, h0]
  rw [Primitive.quotient, if_neg h0, Primitive.fault?_ne_none_iff, or_iff_right h0]
  obtain ⟨hlx, hxh⟩ := hx
  obtain ⟨hly, hyh⟩ := hy
  unfold InRange
  rcases hs with rfl | rfl
  · by_cases hone : y = -1
    · subst hone
      rw [Int.tdiv_neg, Int.tdiv_one]
      omega
    · have hfits : InRange (-hi - 1) hi (x.tdiv y) := by
        by_cases hunit : y = 1
        · rw [hunit, Int.tdiv_one]
          exact ⟨hlx, hxh⟩
        · -- by two or more, at least a half is lost
          have hhalf : (x.tdiv y).natAbs ≤ x.natAbs / 2 := by
            rw [Int.natAbs_tdiv]
            exact Nat.div_le_div_left (by omega) (by decide)
          exact ⟨by omega, by omega⟩
      exact ⟨fun h => absurd hfits h, fun h => absurd h.1 hone⟩
  · have hq := Int.tdiv_nonneg hlx hly
    have hle : x.tdiv y ≤ x := Int.tdiv_le_self y hlx
    omega

end Criteria

namespace Grid

open Finset

variable {lo hi : Int} {m n c : Nat}

theorem inRange_intAt (h : lo ≤ 0 ∧ 1 ≤ hi) (a : Grid (Ranged lo hi)) (i j : Nat) :
    InRange lo hi (a.intAt Ranged.val i j) := by
  rw [intAt]
  cases a.get? i j with
  | none => exact ⟨h.1, by simp; omega⟩
  | some x => exact ⟨x.lo_le, x.le_hi⟩

theorem RunsThrough.with_faults {α : Type} {val : α → Int} {p : Nat → Nat → Primitive}
    {cell : Nat → Nat → Int} {x : Except Fault (Grid α)} {fails : Nat → Nat → Prop}
    (h : RunsThrough val lo hi (cellTrace m n p) m n cell x)
    (hp : ∀ i j, (p i j).fault? lo hi ≠ none ↔ fails i j) :
    RunsThrough val lo hi (cellTrace m n p) m n cell x ∧
      ((∃ e, x = .error e) ↔ ∃ i < m, ∃ j < n, fails i j) := by
  refine ⟨h, ?_⟩
  rw [h.faults_iff, exists_mem_cellTrace]
  simp only [hp]

end Grid

end UnitMatrix
