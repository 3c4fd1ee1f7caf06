import Mathlib.Tactic.Abel
import UnitMatrix.Matrix.Algebra
import UnitMatrix.Proofs.Outcome
import UnitMatrix.Proofs.Units.Quotient

/-! The element types that an operation declares are those of the expressions by which the elements
are computed. A product looks at the first inner position for its lists, and yet each of the terms
that are added up has the declared type, because the contraction has one type at all positions. -/

namespace UnitMatrix

def Agree (a b : Option Index) : Prop := ∀ s t, a = some s → b = some t → s = t

def times? (a b : Option Index) : Option Index := a.bind fun s => b.bind fun t => s.mul? t

def over? (a b : Option Index) : Option Index := a.bind fun s => b.bind fun t => s.div? t

theorem times?_eq_some_iff {a b : Option Index} {e : Index} :
    times? a b = some e ↔ ∃ s t, a = some s ∧ b = some t ∧ s.mul? t = some e := by
  simp only [times?, Option.bind_eq_some_iff]
  exact ⟨fun ⟨s, hs, t, ht, h⟩ => ⟨s, t, hs, ht, h⟩, fun ⟨s, t, hs, ht, h⟩ => ⟨s, hs, t, ht, h⟩⟩

namespace Frame

/-- The elements have the types of the expressions that compute them. -/
def Gives (p : Frame) (expression : Nat → Nat → Option Index) : Prop :=
  ∀ i j, Agree (expression i j) (p.element? i j)

/-- Every term of a product has the type that is declared for the sum. -/
theorem gives_of_mul? {f g p : Frame} (h : f.mul? g = some p) (n : Nat) :
    p.Gives fun i j => times? (f.element? i n) (g.element? n j) := by
  obtain ⟨u, c, r, hu, hc, hr, hrows, hcolumns⟩ := mul?_eq_some h
  intro i j s t hs ht
  obtain ⟨a, b, ha, hb, hs⟩ := times?_eq_some_iff.1 hs
  obtain ⟨fr, fc, hfr, hfc, ha⟩ := element?_eq_some_iff.1 ha
  obtain ⟨gr, gc, hgr, hgc, hb⟩ := element?_eq_some_iff.1 hb
  obtain ⟨pr, pc, hpr, hpc, ht⟩ := element?_eq_some_iff.1 ht
  obtain ⟨_, hr', hpr⟩ := exists_of_mapM_eq_some hrows hpr
  obtain ⟨_, hc', hpc⟩ := exists_of_mapM_eq_some hcolumns hpc
  cases hfr.symm.trans hr'
  cases hgc.symm.trans hc'
  -- the contraction at `n` and at the first position
  have hn := Index.grade_of_mul? ((contraction?_eq_some hu).2 n fc gr hfc hgr)
  have h0 := Index.grade_of_mul? ((contraction?_eq_some hu).2 0 c r hc hr)
  apply Index.grade_injective
  calc s.grade = fr.grade + fc.grade + (gr.grade + gc.grade) := by
        rw [Index.grade_of_mul? hs, Index.grade_of_mul? ha, Index.grade_of_mul? hb]
    _ = fr.grade + (fc.grade + gr.grade) + gc.grade := by abel
    _ = fr.grade + (c.grade + r.grade) + gc.grade := by rw [← hn, h0]
    _ = fr.grade + c.grade + (r.grade + gc.grade) := by abel
    _ = t.grade := by
        rw [Index.grade_of_mul? ht, Index.grade_of_mul? hpr, Index.grade_of_mul? hpc]

/-- A scalar changes the rows one by one, by an operation `op` that shifts all grades alike. -/
theorem gives_of_rows {f : Frame} {rows : IndexList} {op : Index → Option Index} {shift : Grade}
    (hop : ∀ a b, op a = some b → b.grade = a.grade + shift) (h : f.rows.mapM op = some rows) :
    Gives ⟨rows, f.columns⟩ fun i j => (f.element? i j).bind op := by
  intro i j s t hs ht
  obtain ⟨a, ha, hs⟩ := Option.bind_eq_some_iff.1 hs
  obtain ⟨fr, fc, hfr, hfc, ha⟩ := element?_eq_some_iff.1 ha
  obtain ⟨pr, pc, hpr, hpc, ht⟩ := element?_eq_some_iff.1 ht
  obtain ⟨_, hr', hpr⟩ := exists_of_mapM_eq_some h hpr
  cases hfr.symm.trans hr'
  cases hfc.symm.trans hpc
  apply Index.grade_injective
  calc s.grade = fr.grade + fc.grade + shift := by rw [hop _ _ hs, Index.grade_of_mul? ha]
    _ = fr.grade + shift + fc.grade := by abel
    _ = t.grade := by rw [Index.grade_of_mul? ht, hop _ _ hpr]

theorem gives_of_mulScalar? {f p : Frame} {k : Index} (h : f.mulScalar? k = some p) :
    p.Gives fun i j => times? (f.element? i j) (some k) := by
  obtain ⟨rows, hrows, rfl⟩ := Option.map_eq_some_iff.1 h
  exact gives_of_rows (fun _ _ => Index.grade_of_mul?) hrows

theorem gives_of_scalarMul? {f p : Frame} {k : Index} (h : scalarMul? k f = some p) :
    p.Gives fun i j => times? (some k) (f.element? i j) := by
  obtain ⟨rows, hrows, rfl⟩ := Option.map_eq_some_iff.1 h
  exact gives_of_rows (fun _ _ hab => (Index.grade_of_mul? hab).trans (add_comm ..)) hrows

theorem gives_of_divScalar? {f p : Frame} {k : Index} (h : f.divScalar? k = some p) :
    p.Gives fun i j => over? (f.element? i j) (some k) := by
  obtain ⟨rows, hrows, rfl⟩ := Option.map_eq_some_iff.1 h
  exact gives_of_rows (fun _ _ => Index.grade_of_div?) hrows

theorem gives_transpose (f : Frame) : f.transpose.Gives fun i j => f.element? j i := by
  intro i j s t hs ht
  obtain ⟨r, c, hr, hc, hs⟩ := element?_eq_some_iff.1 hs
  obtain ⟨c', r', hc', hr', ht⟩ := element?_eq_some_iff.1 ht
  cases hr.symm.trans hr'
  cases hc.symm.trans hc'
  rw [Index.mul?_comm, hs] at ht
  exact Option.some.inj ht

/-- A factor that leaves the rows alone leaves every element alone: it has no dimension, and it
stands no higher than the rows do. -/
theorem gives_of_scales {f : Frame} {k : Index} (h : f.Scales k) :
    f.Gives fun i j => times? (f.element? i j) (some k) := by
  have hrows : f.mulScalar? k = some f := by
    rw [mulScalar?, IndexList.mulEach?, mapM_eq_self h]
    rfl
  exact gives_of_mulScalar? hrows

/-- A uniform matrix stays as it is under a factor that leaves its one element type alone. -/
theorem gives_of_uniform? {f : Frame} {e k : Index} (h : f.uniform? = some e)
    (he : e.mul? k = some e) : f.Gives fun i j => times? (f.element? i j) (some k) := by
  intro i j s t hs ht
  obtain ⟨a, _, ha, hk, hs⟩ := times?_eq_some_iff.1 hs
  cases hk
  cases eq_of_uniform? h ha
  rw [eq_of_uniform? h ht]
  exact Option.some.inj (hs.symm.trans he)

end Frame

/-- An operation that the types admit has its lists from `rule`, and `law` holds of them, whether a
result comes about or a fault stops its computation. -/
def Typed (o : Outcome Frame) (rule : Option Frame) (law : Frame → Prop) : Prop :=
  Ensures o (fun p => rule = some p ∧ law p) fun e =>
    e = .illTyped ∨ ∃ p, rule = some p ∧ law p

namespace Typed

variable {α β : Type} {frame : α → Frame} {rule : Option Frame} {law : Frame → Prop}

theorem require {p : Prop} [Decidable p] {f : Unit → Outcome α}
    (h : p → Typed ((f ()).map frame) rule law) :
    Typed ((UnitMatrix.require p >>= f).map frame) rule law := by
  by_cases hp : p
  · rw [UnitMatrix.require, if_pos hp]
    exact h hp
  · rw [UnitMatrix.require, if_neg hp]
    exact .inl rfl

theorem demand {o : Option β} {f : β → Outcome α}
    (h : ∀ y, o = some y → Typed ((f y).map frame) rule law) :
    Typed ((UnitMatrix.demand o >>= f).map frame) rule law := by
  cases o with
  | none => exact .inl rfl
  | some y => exact h y rfl

/-- The lists are settled, and only numbers are left to compute. -/
theorem ofFrame {o : Outcome α} {p : Frame} (hrule : rule = some p) (hlaw : law p)
    (ho : Ensures o (fun m => frame m = p) fun _ => True) : Typed (o.map frame) rule law := by
  refine (Ensures.map (ho.mono ?_ fun _ _ => ?_))
  · rintro m rfl
    exact ⟨hrule, hlaw⟩
  · exact .inr ⟨p, hrule, hlaw⟩

/-- The usual course of an operation: lists by the rule, then numbers, then both together. -/
theorem ofRule {γ : Type} {o : Frame → Outcome γ} {f : Frame → γ → α}
    (hlaw : ∀ p, rule = some p → law p) (hf : ∀ p y, frame (f p y) = p) :
    Typed ((UnitMatrix.demand rule >>= fun p => o p >>= fun y => .ok (f p y)).map frame) rule law :=
  demand fun p hp => ofFrame hp (hlaw p hp) ((Ensures.any (o p)).bind fun y _ => hf p y)

end Typed

section Operations

variable {κ : Raw} (a b : Matrix κ) (k : Index) (x : κ.Carrier)

theorem typed_mul (n : Nat) : Typed ((a.mul b).map Matrix.frame) (a.frame.mul? b.frame) fun p =>
    p.Gives fun i j => times? (a.frame.element? i n) (b.frame.element? n j) :=
  .require fun _ => .ofRule (fun _ hp => Frame.gives_of_mul? hp n) fun _ _ => rfl

theorem typed_mulScalar : Typed ((a.mulScalar k x).map Matrix.frame) (a.frame.mulScalar? k)
    fun p => p.Gives fun i j => times? (a.frame.element? i j) (some k) :=
  .require fun _ => .ofRule (fun _ => Frame.gives_of_mulScalar?) fun _ _ => rfl

theorem typed_scalarMul :
    Typed ((Matrix.scalarMul k x a).map Matrix.frame) (Frame.scalarMul? k a.frame)
      fun p => p.Gives fun i j => times? (some k) (a.frame.element? i j) :=
  .require fun _ => .ofRule (fun _ => Frame.gives_of_scalarMul?) fun _ _ => rfl

theorem typed_divScalar : Typed ((a.divScalar k x).map Matrix.frame) (a.frame.divScalar? k)
    fun p => p.Gives fun i j => over? (a.frame.element? i j) (some k) :=
  .require fun _ => .ofRule (fun _ => Frame.gives_of_divScalar?) fun _ _ => rfl

theorem typed_scale : Typed ((a.scale k x).map Matrix.frame) (some a.frame)
    fun p => p.Gives fun i j => times? (a.frame.element? i j) (some k) := by
  apply Typed.require
  rintro ⟨_, hscales⟩
  refine .ofFrame rfl (Frame.gives_of_scales hscales) ?_
  exact (Ensures.any _).bind fun _ _ => rfl

/-- Scaling one element after the other keeps the lists at every step. -/
theorem typed_scaleUniform : Typed ((a.scaleUniform k x).map Matrix.frame) (some a.frame)
    fun p => p.Gives fun i j => times? (a.frame.element? i j) (some k) := by
  apply Typed.require
  intro _
  apply Typed.demand
  intro e he
  apply Typed.require
  intro hek
  have hu : a.frame.uniform? = some e := (Option.filter_eq_some_iff.1 he).1
  refine .ofFrame rfl (Frame.gives_of_uniform? hu hek) ?_
  refine Ensures.foldlM (fun m i _ hm => ?_) rfl
  refine Ensures.foldlM (fun m j _ hm => ?_) hm
  exact (Ensures.any _).bind fun _ _ => hm

/-- The lists of a scalar over a column are right at every position: there is but one column, and
its shift is its own. -/
theorem dimension_add_of_scalarDiv? {f p : Frame} (h : Frame.scalarDiv? k f = some p) (j : Nat)
    (s t : Index) (hs : p.element? 0 j = some s) (ht : f.element? j 0 = some t) :
    s.dimension + t.dimension = k.dimension := by
  have hk : (Frame.ofScalar k).element? 0 0 = some k := by
    cases k <;> rfl
  exact (Frame.dimension_add_iff h hs ht hk).2 rfl

theorem typed_scalarDiv :
    Typed ((Matrix.scalarDiv k x a).map fun q => q.1.frame) (Frame.scalarDiv? k a.frame) fun p =>
      ∀ j s t, p.element? 0 j = some s → a.frame.element? j 0 = some t →
        s.dimension + t.dimension = k.dimension := by
  apply Typed.require
  intro _
  apply Typed.require
  intro _
  cases κ.rootField? with
  | none => exact .inl rfl
  | some _ => exact .ofRule (fun _ hp => dimension_add_of_scalarDiv? k hp) fun _ _ => rfl

/-- Every operation of the typed algebra gives each element the type of the expression that computes
it, wherever both are defined: a product at each inner position, a scalar operation on either side,
a transpose, and both ways to scale in place. A scalar over a column has the dimensions of a row that
times the column is the scalar. -/
theorem element_types_sound :
    (∀ n, Typed ((a.mul b).map Matrix.frame) (a.frame.mul? b.frame) fun p =>
      p.Gives fun i j => times? (a.frame.element? i n) (b.frame.element? n j)) ∧
    (Typed ((a.mulScalar k x).map Matrix.frame) (a.frame.mulScalar? k) fun p =>
      p.Gives fun i j => times? (a.frame.element? i j) (some k)) ∧
    (Typed ((Matrix.scalarMul k x a).map Matrix.frame) (Frame.scalarMul? k a.frame) fun p =>
      p.Gives fun i j => times? (some k) (a.frame.element? i j)) ∧
    (Typed ((a.divScalar k x).map Matrix.frame) (a.frame.divScalar? k) fun p =>
      p.Gives fun i j => over? (a.frame.element? i j) (some k)) ∧
    a.transpose.frame.Gives (fun i j => a.frame.element? j i) ∧
    (Typed ((a.scale k x).map Matrix.frame) (some a.frame) fun p =>
      p.Gives fun i j => times? (a.frame.element? i j) (some k)) ∧
    (Typed ((a.scaleUniform k x).map Matrix.frame) (some a.frame) fun p =>
      p.Gives fun i j => times? (a.frame.element? i j) (some k)) ∧
    Typed ((Matrix.scalarDiv k x a).map fun q => q.1.frame) (Frame.scalarDiv? k a.frame) fun p =>
      ∀ j s t, p.element? 0 j = some s → a.frame.element? j 0 = some t →
        s.dimension + t.dimension = k.dimension :=
  ⟨typed_mul a b, typed_mulScalar a k x, typed_scalarMul a k x, typed_divScalar a k x,
    Frame.gives_transpose a.frame, typed_scale a k x, typed_scaleUniform a k x,
    typed_scalarDiv a k x⟩

end Operations

end UnitMatrix
