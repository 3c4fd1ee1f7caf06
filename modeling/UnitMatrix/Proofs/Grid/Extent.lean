import UnitMatrix.Grid.Cells
import UnitMatrix.Matrix.Algebra
import UnitMatrix.Proofs.Division.Permutation
import UnitMatrix.Proofs.Outcome

/-! The extents of grids. On operands whose extents fit each other every operation has a result of
the expected extent, or stops because of the numbers: no fault is about shapes. A single position is
outside or it is not, and only then is there a fault that names it. -/

namespace UnitMatrix

/-- Faults that are about shapes and positions, not about numbers. -/
def Fault.IsShape : Fault → Prop
  | .outside .. | .fixedShape | .dividendColumns .. | .innerShape .. | .incompatibleShapes => True
  | .overflow _ | .zeroDivisor | .formatRange => False

def Fault.IsOverflow (e : Fault) : Prop := ∃ operation, e = .overflow operation

theorem Fault.IsOverflow.not_isShape {e : Fault} (h : e.IsOverflow) : ¬ e.IsShape := by
  obtain ⟨operation, rfl⟩ := h
  exact fun h => h

theorem Ranged.ensures_checked {lo hi : Int} (operation : Operation) (n : Int) :
    Ensures (checked operation n : Except Fault (Ranged lo hi)) (fun _ => True)
      Fault.IsOverflow := by
  unfold checked
  cases (ofInt? n : Option (Ranged lo hi)) with
  | none => exact ⟨operation, rfl⟩
  | some x => trivial

namespace Raw

theorem ensures_add : (k : Raw) → (x y : k.Carrier) →
    Ensures (Arithmetic.add x y) (fun _ => True) Fault.IsOverflow
  | .double, _, _ | .single, _, _ => trivial
  | .signed, _, _ | .byte, _, _ => Ranged.ensures_checked ..

theorem ensures_sub : (k : Raw) → (x y : k.Carrier) →
    Ensures (Arithmetic.sub x y) (fun _ => True) Fault.IsOverflow
  | .double, _, _ | .single, _, _ => trivial
  | .signed, _, _ | .byte, _, _ => Ranged.ensures_checked ..

theorem ensures_mul : (k : Raw) → (x y : k.Carrier) →
    Ensures (Arithmetic.mul x y) (fun _ => True) Fault.IsOverflow
  | .double, _, _ | .single, _, _ => trivial
  | .signed, _, _ | .byte, _, _ => Ranged.ensures_checked ..

def IsFloating (k : Raw) : Prop := k = .double ∨ k = .single

instance (k : Raw) : Decidable k.IsFloating := inferInstanceAs (Decidable (_ ∨ _))

theorem isFloating_of_holds {k : Raw} {e : Index} (h : k.holds e = true) : k.IsFloating := by
  cases k with
  | double => exact .inl rfl
  | single => exact .inr rfl
  | signed | byte => cases e <;> cases h

section Floating

variable {k : Raw} {E : Fault → Prop} (hk : k.IsFloating) (x y : k.Carrier)

include hk

theorem IsFloating.ensures_add : Ensures (Arithmetic.add x y) (fun _ => True) E := by
  obtain rfl | rfl := hk <;> trivial

theorem IsFloating.ensures_sub : Ensures (Arithmetic.sub x y) (fun _ => True) E := by
  obtain rfl | rfl := hk <;> trivial

theorem IsFloating.ensures_mul : Ensures (Arithmetic.mul x y) (fun _ => True) E := by
  obtain rfl | rfl := hk <;> trivial

theorem IsFloating.ensures_div : Ensures (Arithmetic.div x y) (fun _ => True) E := by
  obtain rfl | rfl := hk <;> trivial

end Floating

end Raw

class Shapeless (α : Type) [Arithmetic α] : Prop where
  add : ∀ x y : α, Ensures (Arithmetic.add x y) (fun _ => True) fun e => ¬ e.IsShape
  sub : ∀ x y : α, Ensures (Arithmetic.sub x y) (fun _ => True) fun e => ¬ e.IsShape
  mul : ∀ x y : α, Ensures (Arithmetic.mul x y) (fun _ => True) fun e => ¬ e.IsShape
  div : ∀ x y : α, Ensures (Arithmetic.div x y) (fun _ => True) fun e => ¬ e.IsShape

theorem Ranged.ensures_divide {lo hi : Int} (x y : Ranged lo hi) :
    Ensures (divide x y) (fun _ => True) fun e => ¬ e.IsShape := by
  unfold divide
  split
  · exact fun h => h
  · exact (ensures_checked ..).mono (fun _ h => h) fun _ he => he.not_isShape

theorem Raw.ensures_div : (k : Raw) → (x y : k.Carrier) →
    Ensures (Arithmetic.div x y) (fun _ => True) fun e => ¬ e.IsShape
  | .double, _, _ | .single, _, _ => trivial
  | .signed, x, y | .byte, x, y => Ranged.ensures_divide x y

instance (k : Raw) : Shapeless k.Carrier where
  add x y := (k.ensures_add x y).mono (fun _ h => h) fun _ he => he.not_isShape
  sub x y := (k.ensures_sub x y).mono (fun _ h => h) fun _ he => he.not_isShape
  mul x y := (k.ensures_mul x y).mono (fun _ h => h) fun _ he => he.not_isShape
  div := k.ensures_div

namespace Grid

variable {α β : Type} {rows columns : Nat} {E : Fault → Prop}

def Extent (g : Grid α) (rows columns : Nat) : Prop := g.rows = rows ∧ g.columns = columns

def Outside (g : Grid α) (i j : Nat) (e : Fault) : Prop :=
  (g.rows ≤ i ∨ g.columns ≤ j) ∧ e = g.outside i j

theorem ensures_get (g : Grid α) (i j : Nat) :
    Ensures (g.get i j) (fun _ => True) (g.Outside i j) := by
  unfold get
  cases h : g.get? i j with
  | some x => trivial
  | none => exact ⟨get?_eq_none_iff.1 h, rfl⟩

theorem ensures_set (g : Grid α) (i j : Nat) (x : α) :
    Ensures (g.set i j x) (fun h => h.Extent g.rows g.columns) (g.Outside i j) := by
  cases h : g.set i j x with
  | ok g' => exact ⟨rows_of_set h, columns_of_set h⟩
  | error e => exact set_eq_error_iff.1 h

theorem not_outside {g : Grid α} (hg : g.Extent rows columns) {i j : Nat} (hi : i < rows)
    (hj : j < columns) (e : Fault) : ¬ g.Outside i j e := by
  obtain ⟨rfl, rfl⟩ := hg
  rintro ⟨h, _⟩
  omega

theorem Extent.get {g : Grid α} (hg : g.Extent rows columns) {i j : Nat} (hi : i < rows)
    (hj : j < columns) : Ensures (g.get i j) (fun _ => True) E :=
  (g.ensures_get i j).mono (fun _ h => h) fun e he => absurd he (not_outside hg hi hj e)

theorem Extent.set {g : Grid α} (hg : g.Extent rows columns) {i j : Nat} (hi : i < rows)
    (hj : j < columns) (x : α) : Ensures (g.set i j x) (fun h => h.Extent rows columns) E := by
  refine (g.ensures_set i j x).mono (fun h hh => ?_) fun e he => absurd he (not_outside hg hi hj e)
  exact ⟨hh.1.trans hg.1, hh.2.trans hg.2⟩

theorem ensures_modifyM (g : Grid α) (i j : Nat) {f : α → Except Fault α}
    (hf : ∀ x, Ensures (f x) (fun _ => True) E) :
    Ensures (g.modifyM i j f) (fun h => h.Extent g.rows g.columns)
      fun e => g.Outside i j e ∨ E e := by
  refine ((g.ensures_get i j).mono (fun _ h => h) fun e => .inl).bind fun x _ => ?_
  refine ((hf x).mono (fun _ h => h) fun e => .inr).bind fun y _ => ?_
  exact (g.ensures_set i j y).mono (fun _ h => h) fun e => .inl

theorem Extent.modifyM {g : Grid α} (hg : g.Extent rows columns) {i j : Nat} (hi : i < rows)
    (hj : j < columns) {f : α → Except Fault α} (hf : ∀ x, Ensures (f x) (fun _ => True) E) :
    Ensures (g.modifyM i j f) (fun h => h.Extent rows columns) E := by
  refine (g.ensures_modifyM i j hf).mono (fun h hh => ?_) fun e he => ?_
  · exact ⟨hh.1.trans hg.1, hh.2.trans hg.2⟩
  · exact he.resolve_left (not_outside hg hi hj e)

theorem extent_replicate (m n : Nat) (x : α) : (replicate m n x).Extent m n :=
  ⟨rows_replicate m n x, rfl⟩

theorem Extent.transpose {g : Grid α} (hg : g.Extent rows columns) :
    g.transpose.Extent columns rows :=
  ⟨(rows_transpose g).trans hg.2, hg.1⟩

theorem ofRowsM_eq_ok_iff {f : β → Except Fault (List α)} {xs : List β}
    {h : ∀ x row, x ∈ xs → f x = .ok row → row.length = columns} {g : Grid α} :
    ofRowsM columns f xs h = .ok g ↔ g.columns = columns ∧ xs.mapM f = .ok g.entries := by
  unfold ofRowsM
  split
  next ys hys =>
    constructor
    · intro h
      cases h
      exact ⟨rfl, hys⟩
    · rintro ⟨hc, he⟩
      cases hys.symm.trans he
      exact congrArg Except.ok (ext hc.symm rfl)
  next e he => exact ⟨fun h => (nomatch h), fun h => (nomatch he.symm.trans h.2)⟩

theorem ensures_ofRowsM {f : β → Except Fault (List α)} {xs : List β}
    {h : ∀ x row, x ∈ xs → f x = .ok row → row.length = columns}
    (hl : xs.length = rows) (hf : ∀ x ∈ xs, Ensures (f x) (fun _ => True) E) :
    Ensures (ofRowsM columns f xs h) (fun g => g.Extent rows columns) E := by
  have hall := Ensures.mapM hf
  unfold ofRowsM
  split
  next ys hys => exact ⟨(length_of_mapM_ok hys).trans hl, rfl⟩
  next e he => rwa [he] at hall

/-- A walk through a row of cells, with nothing to be known about the cells. -/
theorem ensures_row {f : β → Except Fault α} {xs : List β}
    (hf : ∀ x ∈ xs, Ensures (f x) (fun _ => True) E) :
    Ensures (xs.mapM f) (fun _ => True) E :=
  (Ensures.mapM hf).mono (fun _ _ => trivial) fun _ h => h

theorem Extent.mapM {g : Grid α} (hg : g.Extent rows columns) {f : α → Except Fault β}
    (hf : ∀ x, Ensures (f x) (fun _ => True) E) :
    Ensures (g.mapM f) (fun h => h.Extent rows columns) E := by
  obtain ⟨rfl, rfl⟩ := hg
  exact ensures_ofRowsM rfl fun row _ => ensures_row fun x _ => hf x

theorem ensures_ofFnM {f : Nat → Nat → Except Fault α}
    (hf : ∀ i j, i < rows → j < columns → Ensures (f i j) (fun _ => True) E) :
    Ensures (ofFnM rows columns f) (fun g => g.Extent rows columns) E := by
  refine ensures_ofRowsM List.length_range fun i hi => ensures_row fun j hj => ?_
  exact hf i j (List.mem_range.1 hi) (List.mem_range.1 hj)

section Pairs

variable {op : α → α → Except Fault α}

theorem Extent.length_zip {a b : Grid α} (ha : a.Extent rows columns) (hb : b.Extent rows columns) :
    (a.entries.zip b.entries).length = rows := by
  rw [List.length_zip, ← Nat.min_self rows]
  exact congrArg₂ min ha.1 hb.1

theorem length_zip_of_mem {a b : Grid α} {p : List α × List α} (hp : p ∈ a.entries.zip b.entries) :
    (p.1.zip p.2).length = min a.columns b.columns := by
  have hmem := List.of_mem_zip hp
  rw [List.length_zip, a.rectangular _ hmem.1, b.rectangular _ hmem.2]

theorem Extent.zipM {a b : Grid α} (ha : a.Extent rows columns) (hb : b.Extent rows columns)
    (hop : ∀ x y, Ensures (op x y) (fun _ => True) E) :
    Ensures (Grid.zipM op a b) (fun g => g.Extent rows columns) E := by
  refine (ensures_ofRowsM (ha.length_zip hb) fun p _ => ensures_row fun c _ => hop c.1 c.2).mono
    (fun g hg => ⟨hg.1, hg.2.trans ?_⟩) fun _ h => h
  rw [ha.2, hb.2, Nat.min_self]

theorem along_lt {extent i : Nat} (h : i < extent) : along extent i < extent := by
  unfold along
  split <;> omega

theorem Extent.stretchM {a b : Grid α} (ha : a.Extent rows columns) (hb : b.Extent rows columns)
    (hop : ∀ x y, Ensures (op x y) (fun _ => True) E) :
    Ensures (Grid.stretchM op a b) (fun g => g.Extent rows columns) E := by
  have hsame (n : Nat) : stretch? n n = some n := if_pos rfl
  rw [Grid.stretchM, ha.1, ha.2, hb.1, hb.2, hsame, hsame]
  refine ensures_ofFnM fun i j hi hj => ?_
  refine (ha.get (along_lt hi) (along_lt hj)).bind fun x _ => ?_
  exact (hb.get (along_lt hi) (along_lt hj)).bind fun y _ => hop x y

end Pairs

section Products

variable [Arithmetic α] {inner : Nat}
  (hadd : ∀ x y : α, Ensures (Arithmetic.add x y) (fun _ => True) E)
  (hmul : ∀ x y : α, Ensures (Arithmetic.mul x y) (fun _ => True) E)

include hadd hmul

theorem ensures_rowTimes (row : List α) (b : Grid α) :
    Ensures (rowTimes row b) (fun _ => True) E := by
  refine Ensures.foldlM (fun out t _ _ => ?_) trivial
  exact ensures_row fun c _ => (hmul t.1 c.2).bind fun y _ => hadd c.1 y

theorem Extent.mulKnown {a : Grid α} (ha : a.Extent rows inner) {b : Grid α}
    (hb : b.Extent inner columns) :
    Ensures (a.mulKnown b) (fun g => g.Extent rows columns) E := by
  obtain ⟨_, rfl⟩ := hb
  exact ensures_ofRowsM ha.1 fun row _ => ensures_rowTimes hadd hmul row b

theorem Extent.mulAny {a : Grid α} (ha : a.Extent rows inner) {b : Grid α}
    (hb : b.Extent inner columns) :
    Ensures (a.mulAny b) (fun g => g.Extent rows columns) E := by
  rw [Grid.mulAny, if_pos (ha.2.trans hb.1.symm), ha.1, hb.2]
  refine ensures_ofFnM fun i j hi hj => Ensures.foldlM (fun sum n hn _ => ?_) trivial
  rw [ha.2, List.mem_range] at hn
  refine (ha.get hi hn).bind fun x _ => (hb.get hn hj).bind fun y _ => ?_
  exact (hmul x y).bind fun z _ => hadd sum z

end Products

section Scalars

variable [Arithmetic α] [Shapeless α]

theorem Extent.scale {g : Grid α} (hg : g.Extent rows columns) (factor : α) :
    Ensures (g.scale factor) (fun h => h.Extent rows columns) fun e => ¬ e.IsShape :=
  hg.mapM fun x => Shapeless.mul x factor

theorem Extent.divideBy {g : Grid α} (hg : g.Extent rows columns) (divisor : α) :
    Ensures (g.divideBy divisor) (fun h => h.Extent rows columns) fun e => ¬ e.IsShape :=
  hg.mapM fun x => Shapeless.div x divisor

end Scalars

section Floating

variable {k : Raw} (hk : k.IsFloating) (g : Grid k.Carrier) (x : k.Carrier)

include hk

theorem exists_scale : ∃ h, g.scale x = .ok h ∧ h.Extent g.rows g.columns :=
  (Extent.mapM ⟨rfl, rfl⟩ fun y => hk.ensures_mul y x).exists_ok

theorem exists_divideBy : ∃ h, g.divideBy x = .ok h ∧ h.Extent g.rows g.columns :=
  (Extent.mapM ⟨rfl, rfl⟩ fun y => hk.ensures_div y x).exists_ok

end Floating

end Grid

namespace Backend

variable {α : Type} {rows columns inner : Nat} (backend : Backend)

theorem ensures_combine {E : Fault → Prop} {op : α → α → Except Fault α} {a b : Grid α}
    (ha : a.Extent rows columns) (hb : b.Extent rows columns)
    (hop : ∀ x y, Ensures (op x y) (fun _ => True) E) :
    Ensures (backend.combine op a b) (fun g => g.Extent rows columns) E := by
  cases backend with
  | fixed => exact ha.zipM hb hop
  | dynamic => exact ha.stretchM hb hop

theorem ensures_mul [Arithmetic α] [Shapeless α] {a b : Grid α} (ha : a.Extent rows inner)
    (hb : b.Extent inner columns) :
    Ensures (backend.mul a b) (fun g => g.Extent rows columns) fun e => ¬ e.IsShape := by
  cases backend with
  | fixed => exact ha.mulKnown Shapeless.add Shapeless.mul hb
  | dynamic => exact ha.mulAny Shapeless.add Shapeless.mul hb

/-- A quotient has a row for each row of the dividend and a column for each row of the divisor. -/
theorem ensures_div {K : Type} [RootField K] {E : Fault → Prop} {a b : Grid K}
    (ha : a.Extent rows inner) (hb : b.Extent columns inner) :
    Ensures (backend.div a b) (fun q => q.grid.Extent rows columns) E := by
  have hdivide : (divide a b).grid.Extent rows columns := by
    refine ⟨?_, hb.1⟩
    rw [← ha.1]
    exact (List.length_map _).trans (length_targets_eliminateFrom ..)
  cases backend with
  | fixed => exact hdivide
  | dynamic =>
    rw [Backend.div, if_pos (ha.2.trans hb.2.symm)]
    exact hdivide

end Backend

end UnitMatrix
