import UnitMatrix.Proofs.Division.RankDecision
import UnitMatrix.Proofs.Grid.Cellwise
import UnitMatrix.Proofs.Units.Products

/-! Division by a single column, in exact arithmetic. The pivot is the largest entry, the last one if
several are largest, nothing is reflected, and whatever is divided goes over this one entry. So a
scalar over a column is a row with one entry, and the row times the column is the scalar again. -/

namespace UnitMatrix

open RootField

variable {K : Type} [ExactField K] {m n c : Nat}

/-- Exact numbers are added and multiplied without a fault. -/
instance : Arithmetic K where
  zero := 0
  one := 1
  add a b := .ok (a + b)
  sub a b := .ok (a - b)
  mul a b := .ok (a * b)
  div a b := .ok (a / b)

namespace Grid

def ofFn (X : Fin m → Fin n → K) : Grid K := ofMatrix (Matrix.of X)

omit [ExactField K] in
theorem extent_ofFn (X : Fin m → Fin n → K) : (ofFn X).Extent m n := ⟨rows_ofMatrix _, rfl⟩

omit [ExactField K] in
theorem get?_ofFn (X : Fin m → Fin n → K) (i : Fin m) (j : Fin n) :
    (ofFn X).get? i j = some (X i j) := by
  simp [get?, ofFn, ofMatrix]

theorem innerSum_ofFn (X : Fin m → Fin n → K) (Y : Fin n → Fin c → K) (i : Fin m) (j : Fin c) :
    innerSum (ofFn X) (ofFn Y) i j = .ok (∑ k, X i k * Y k j) := by
  have hstep (sum : K) (k : Fin n) : (do
      let x ← (ofFn X).get i k
      let y ← (ofFn Y).get k j
      Arithmetic.add sum (← Arithmetic.mul x y)) = .ok (sum + X i k * Y k j) := by
    rw [get, get, get?_ofFn, get?_ofFn]
    rfl
  have hrange : List.range (ofFn X).columns = (List.finRange n).map Fin.val :=
    List.map_coe_finRange_eq_range.symm
  rw [innerSum, hrange, List.foldlM_map, foldlM_eq_ok_foldl (fun sum k _ => hstep sum k),
    foldl_add_eq_sum fun k => X i k * Y k j, ← List.ofFn_eq_map, List.sum_ofFn]
  exact congrArg Except.ok (zero_add _)

end Grid

theorem Backend.mul_ofFn (backend : Backend) (X : Fin m → Fin n → K) (Y : Fin n → Fin c → K) :
    backend.mul (Grid.ofFn X) (Grid.ofFn Y) = .ok (Grid.ofFn fun i j => ∑ k, X i k * Y k j) := by
  have hinner : (Grid.ofFn X).columns = (Grid.ofFn Y).rows := (Grid.extent_ofFn Y).1.symm
  have hholds : (Grid.ofFn fun i j => ∑ k, X i k * Y k j).Holds
      (Grid.innerSum (Grid.ofFn X) (Grid.ofFn Y)) (Grid.ofFn X).rows (Grid.ofFn Y).columns := by
    rw [(Grid.extent_ofFn X).1]
    refine ⟨Grid.extent_ofFn _, fun i j hi hj => ?_⟩
    exact ⟨_, Grid.get?_ofFn _ ⟨i, hi⟩ ⟨j, hj⟩, Grid.innerSum_ofFn X Y ⟨i, hi⟩ ⟨j, hj⟩⟩
  cases backend with
  | fixed => exact (Grid.mulKnown_eq_ok_iff hinner).2 hholds
  | dynamic => exact (Grid.mulAny_eq_ok_iff hinner).2 hholds

def IsLastLargest (a : Fin n → K) (p : Fin n) : Prop :=
  ∀ j, |a j| ≤ |a p| ∧ (p < j → |a j| < |a p|)

theorem IsLastLargest.ne_zero {a : Fin n → K} {p : Fin n} (h : IsLastLargest a p) (ha : a ≠ 0) :
    a p ≠ 0 := by
  intro hp
  refine ha (funext fun j => abs_nonpos_iff.1 ((h j).1.trans ?_))
  rw [hp, abs_zero]

namespace Grid

def column (a : Fin n → K) : Grid K := ofFn fun j (_ : Fin 1) => a j

def onlyColumn (p : Fin n) (x : Fin m → K) : Grid K := ofFn fun i j => if j = p then x i else 0

omit [ExactField K] in
theorem rows_column (a : Fin n → K) : (column a).rows = n := (extent_ofFn _).1

omit [ExactField K] in
theorem entries_column (a : Fin n → K) : (column a).entries = List.ofFn fun j => [a j] := by
  simp [column, ofFn, ofMatrix]

theorem onlyColumn_mul (backend : Backend) (p : Fin n) (x : K) (a : Fin n → K) :
    backend.mul (onlyColumn p fun _ : Fin 1 => x) (column a) = .ok (replicate 1 1 (x * a p)) := by
  rw [onlyColumn, column, Backend.mul_ofFn]
  simp only [ite_mul, zero_mul, Finset.sum_ite_eq', Finset.mem_univ, if_true]
  rfl

end Grid

theorem normFrom_singleton (x : K) : normFrom 0 [x] = |x| := by
  refine (mul_self_inj_of_nonneg (normFrom_nonneg 0 [x]) (abs_nonneg x)).1 ?_
  rw [normFrom_mul_self, abs_mul_abs_self, List.drop_zero, squareSum_cons]
  exact add_zero _

def lone (a : Fin n → K) (j : Fin n) : Column K := ⟨j, [a j]⟩

omit [ExactField K] in
theorem mapIdx_column (a : Fin n → K) :
    ((Grid.column a).entries.mapIdx fun i values => Column.mk i values) = List.ofFn (lone a) := by
  rw [Grid.entries_column]
  exact List.ext_getElem (by simp) fun j hj _ => by simp [lone]

theorem exists_isLastLargest (a : Fin n → K) (hn : 0 < n) :
    ∃ p : Fin n, lastLargest (List.ofFn fun j => |a j|) = p ∧ IsLastLargest a p := by
  have hlt : ∀ x ∈ List.ofFn (fun j => |a j|), ∀ y ∈ List.ofFn (fun j => |a j|),
      lt x y = true ↔ id x < id y := fun x _ y _ => by simp
  obtain ⟨x, hx, hle⟩ := exists_lastLargest id (List.ne_nil_of_length_pos (by simpa using hn)) hlt
  have hbest : lastLargest (List.ofFn fun j => |a j|) < n := by
    simpa using (List.getElem?_eq_some_iff.1 hx).1
  obtain rfl : |a ⟨_, hbest⟩| = x := by simpa [hbest] using hx
  refine ⟨⟨_, hbest⟩, rfl, fun j => ⟨hle _ (List.mem_ofFn.2 ⟨j, rfl⟩), fun hj => ?_⟩⟩
  exact size_lt_of_lastLargest_lt (y := |a j|) id hlt hx hj (by simp)

theorem exists_choosePivot_lone (a : Fin n → K) (hn : 0 < n) :
    ∃ p others, IsLastLargest a p ∧ choosePivot 0 (List.ofFn (lone a)) = lone a p :: others := by
  obtain ⟨p, hp, hlargest⟩ := exists_isLastLargest a hn
  have hnorms : (List.ofFn (lone a)).map (fun b => normFrom 0 b.values) =
      List.ofFn fun j => |a j| := by
    rw [List.map_ofFn]
    exact congrArg List.ofFn (funext fun j => normFrom_singleton (a j))
  cases hchoose : choosePivot 0 (List.ofFn (lone a)) with
  | nil =>
    have hlength := (choosePivot_perm 0 (List.ofFn (lone a))).length_eq
    rw [hchoose, List.length_ofFn, List.length_nil] at hlength
    omega
  | cons pivot others =>
    rw [choosePivot, hnorms, hp] at hchoose
    have hpivot := getElem?_of_bringForward hchoose (by simp)
    rw [List.getElem?_ofFn, dif_pos p.isLt] at hpivot
    cases hpivot
    exact ⟨p, others, hlargest, rfl⟩

/-- The largest entry is above the tolerance, and triangular as it is. -/
theorem exists_eliminate_column {a : Fin n → K} (ha : a ≠ 0)
    (hn : n * (ExactField.error : K) < 1) :
    ∃ p others, IsLastLargest a p ∧ ∀ targets,
      eliminate 1 (Grid.column a).entries targets = ⟨[lone a p], others, targets⟩ := by
  have hpos : 0 < n := Nat.pos_of_ne_zero fun h => by
    subst h
    exact ha (funext fun j => j.elim0)
  obtain ⟨p, others, hlargest, hchoose⟩ := exists_choosePivot_lone a hpos
  have hrows : (Grid.column a).entries.length = n := Grid.rows_column a
  have habove : ¬ |a p| ≤ |a p| * ExactField.error * n := by
    have hap : 0 < |a p| := abs_pos.2 (hlargest.ne_zero ha)
    rw [not_le, mul_assoc, mul_comm ExactField.error]
    exact mul_lt_of_lt_one_right hap hn
  refine ⟨p, others, hlargest, fun targets => ?_⟩
  rw [eliminate, mapIdx_column, hrows, Nat.max_eq_right hpos, eliminateFrom, hchoose]
  dsimp only
  rw [lone, normFrom_singleton, if_neg (by simpa using habove), if_pos rfl]

theorem placeSolution_lone (a : Fin n → K) (p : Fin n) (x : K) :
    placeSolution n [lone a p] [x] = List.ofFn fun j => if j = p then x else 0 := by
  refine List.ext_getElem (by simp [length_placeSolution]) fun j hj hj' => ?_
  simp [placeSolution, lone, List.getElem_set, Fin.ext_iff, eq_comm]

omit [ExactField K] in
theorem Solution.eq_mk {s : Solution K} {grid : Grid K} {rank : Nat} (hgrid : s.grid = grid)
    (hrank : s.rank = rank) : s = ⟨grid, rank⟩ := by
  subst hgrid hrank
  rfl

/-- Everything goes over the largest entry, and stands where that entry was. -/
theorem divide_column {a : Fin n → K} (ha : a ≠ 0) (hn : n * (ExactField.error : K) < 1) :
    ∃ p, IsLastLargest a p ∧ ∀ {m : Nat} (b : Fin m → K),
      divide (Grid.column b) (Grid.column a) = ⟨Grid.onlyColumn p fun i => b i / a p, 1⟩ := by
  obtain ⟨p, others, hlargest, heliminate⟩ := exists_eliminate_column ha hn
  refine ⟨p, hlargest, fun b => ?_⟩
  have he := heliminate (Grid.column b).entries
  -- the targets are as they were, so that back substitution is one division
  have hentries : (divide (Grid.column b) (Grid.column a)).grid.entries =
      (eliminate 1 (Grid.column a).entries (Grid.column b).entries).targets.map fun target =>
        placeSolution (Grid.column a).rows
          (eliminate 1 (Grid.column a).entries (Grid.column b).entries).pivots
          (backSubstitute target 0
            (eliminate 1 (Grid.column a).entries (Grid.column b).entries).pivots) := rfl
  rw [he, Grid.rows_column, Grid.entries_column, List.map_ofFn] at hentries
  have hplace : (divide (Grid.column b) (Grid.column a)).grid.entries =
      (Grid.onlyColumn p fun i => b i / a p).entries :=
    hentries.trans (congrArg List.ofFn (funext fun i => placeSolution_lone a p (b i / a p)))
  exact Solution.eq_mk (Grid.ext (Grid.rows_column a) hplace)
    (congrArg (fun e => e.pivots.length) he)

theorem Backend.div_column (backend : Backend) (b : Fin m → K) (a : Fin n → K) :
    backend.div (Grid.column b) (Grid.column a) =
      .ok (divide (Grid.column b) (Grid.column a)) := by
  cases backend <;> rfl

/-- A row that is a scalar of type `e` over a single column with units. Its numbers are those of the
division, and what it makes of the column is a lone number of the dimension of the scalar. -/
structure Matrix.IsScalarOver {k : Raw} (q : Matrix k) (e : Index) (x : k.Carrier) (a : Matrix k) :
    Prop where
  column : a.frame.columns.length = 1
  row : q.frame.rows.length = 1 ∧ q.frame.columns.length = a.frame.rows.length
  quotient : ∃ (field : RootField k.Carrier) (s : Solution k.Carrier), k.rootField? = some field ∧
    a.backend.div (.replicate 1 1 x) a.storage = .ok s ∧ q.storage = s.grid
  recovers : ∀ r, q.mul a = .ok r →
    r.frame.rows.length = 1 ∧ r.frame.columns.length = 1 ∧
      (∀ u, r.frame.element? 0 0 = some u → u.dimension = e.dimension) ∧
      a.backend.mul q.storage a.storage = .ok r.storage

/-- The row times the column is measured in what the scalar is measured in. -/
theorem Frame.dimension_of_scalarDiv?_mul? {e u : Index} {f g p : Frame}
    (h : Frame.scalarDiv? e f = some g) (hp : g.mul? f = some p) (hu : p.element? 0 0 = some u) :
    u.dimension = e.dimension := by
  rw [element?_of_mul? hp] at hu
  obtain ⟨s, t, hs, ht, hst⟩ := times?_eq_some_iff.1 hu
  rw [← dimension_add_of_scalarDiv? e h 0 s t hs ht, Index.dimension_of_mul? hst]

theorem isScalarOver_of_scalarDiv {k : Raw} {e : Index} {x : k.Carrier} {a q : Matrix k}
    {record? : Option LogRecord} (h : Matrix.scalarDiv e x a = .ok (q, record?)) :
    q.IsScalarOver e x a := by
  obtain ⟨-, h⟩ := of_require_ok h
  obtain ⟨-, h⟩ := of_require_ok h
  cases hk : k.rootField? with
  | none =>
    rw [hk] at h
    cases h
  | some field =>
    rw [hk] at h
    obtain ⟨f, hf, h⟩ := exists_of_demand_ok h
    obtain ⟨s, hs, h⟩ := exists_of_bind_ok h
    cases h
    rw [Matrix.ofScalar_eq] at hs
    obtain ⟨hcolumns, hrows, hlengths⟩ := Frame.lengths_of_div? hf
    refine ⟨hcolumns.symm, ⟨hrows, hlengths⟩, ⟨field, s, hk, of_lift_ok hs, rfl⟩, fun r hr => ?_⟩
    obtain ⟨-, hr⟩ := of_require_ok hr
    obtain ⟨p, hp, hr⟩ := exists_of_demand_ok hr
    obtain ⟨storage, hstorage, hr⟩ := exists_of_bind_ok hr
    cases hr
    obtain ⟨-, hprows, hpcolumns⟩ := Frame.lengths_of_mul? hp
    exact ⟨hprows.trans hrows, hpcolumns.trans hcolumns.symm,
      fun _ => Frame.dimension_of_scalarDiv?_mul? hf hp, of_lift_ok hstorage⟩

/-- Division by a column that is not zero: everything goes over the last of the largest entries and
stands at its place. A scalar over the column is a row with this one entry, which times the column is
the scalar again. The same division stands behind a scalar over a matrix with units: the matrix has a
single column, the result a single row, and the units of the scalar come back as well. -/
theorem div_column_cases (a : Fin n → K) (ha : a ≠ 0) (hn : n * (ExactField.error : K) < 1)
    (backend : Backend) :
    ∃ p, IsLastLargest a p ∧
      (∀ {m : Nat} (b : Fin m → K), backend.div (Grid.column b) (Grid.column a) =
        .ok ⟨Grid.onlyColumn p fun i => b i / a p, 1⟩) ∧
      (∀ x : K, let row := Grid.onlyColumn p fun _ : Fin 1 => x / a p
        backend.div (.replicate 1 1 x) (Grid.column a) = .ok ⟨row, 1⟩ ∧
          row.Extent 1 n ∧ (∀ j : Fin n, j ≠ p → row.get? 0 j = some 0) ∧
          backend.mul row (Grid.column a) = .ok (.replicate 1 1 x)) ∧
      backend.div (Grid.column a) (Grid.column a) =
        .ok ⟨Grid.onlyColumn p fun i => a i / a p, 1⟩ ∧
      ∀ {k : Raw} {e : Index} {x : k.Carrier} {m q : Matrix k} {record? : Option LogRecord},
        Matrix.scalarDiv e x m = .ok (q, record?) → q.IsScalarOver e x m := by
  obtain ⟨p, hlargest, hdivide⟩ := divide_column ha hn
  have hdiv {m : Nat} (b : Fin m → K) : backend.div (Grid.column b) (Grid.column a) =
      .ok ⟨Grid.onlyColumn p fun i => b i / a p, 1⟩ := by
    rw [backend.div_column, hdivide]
  have hmul (x : K) : backend.mul (Grid.onlyColumn p fun _ : Fin 1 => x / a p) (Grid.column a) =
      .ok (.replicate 1 1 x) := by
    rw [Grid.onlyColumn_mul, div_mul_cancel₀ _ (hlargest.ne_zero ha)]
  refine ⟨p, hlargest, hdiv, fun x => ?_, hdiv a, isScalarOver_of_scalarDiv⟩
  refine ⟨hdiv fun _ : Fin 1 => x, Grid.extent_ofFn _, fun j hj => ?_, hmul x⟩
  exact (Grid.get?_ofFn _ (0 : Fin 1) j).trans (congrArg some (if_neg hj))

/-- Two entries tie, and the one further down is taken. -/
theorem div_column_cases_of_tie :
    letI := ExactField.real (1 / 8) (by norm_num)
    let a : Fin 4 → ℝ := ![2, -3, 3, 1]
    a ≠ 0 ∧ (4 : Nat) * (1 / 8 : ℝ) < 1 ∧
      Backend.dynamic.div (.replicate 1 1 6) (Grid.column a) =
        .ok ⟨Grid.onlyColumn (2 : Fin 4) fun _ : Fin 1 => 6 / 3, 1⟩ ∧
      Backend.dynamic.mul (Grid.onlyColumn (2 : Fin 4) fun _ : Fin 1 => 6 / 3) (Grid.column a) =
        .ok (.replicate 1 1 (6 : ℝ)) ∧
      Backend.dynamic.div (Grid.column a) (Grid.column a) =
        .ok ⟨Grid.onlyColumn (2 : Fin 4) fun i => a i / 3, 1⟩ := by
  let _ : ExactField ℝ := ExactField.real (1 / 8) (by norm_num)
  intro a
  have ha : a ≠ 0 := fun h => absurd (congrFun h 0) (by simp [a])
  have hn : (4 : Nat) * (1 / 8 : ℝ) < 1 := by norm_num
  obtain ⟨p, hlargest, -, hscalar, hself, -⟩ := div_column_cases a ha hn .dynamic
  obtain rfl : p = 2 := by
    fin_cases p
    · exact absurd (hlargest 1).1 (by norm_num [a])
    · exact absurd ((hlargest 2).2 (by decide)) (by simp [a])
    · rfl
    · exact absurd (hlargest 0).1 (by norm_num [a])
  obtain ⟨hdiv, -, -, hmul⟩ := hscalar 6
  exact ⟨ha, hn, hdiv, hmul, hself⟩

end UnitMatrix
