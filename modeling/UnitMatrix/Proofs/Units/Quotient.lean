import UnitMatrix.Proofs.Units.Elements
import UnitMatrix.Proofs.Units.Grading

/-! Units of a quotient. Its lists come from the first columns of dividend and divisor alone, so
they are right for a column exactly if that column of the dividend exceeds the divisor's by the same
dimension as the first columns do. Nothing in the rule asks this of the other columns, and a
quotient can be accepted whose product with the divisor could never have the units of the dividend. -/

namespace UnitMatrix

namespace Frame

/-- By how much the dimension of a column of `f` exceeds that of the same column of `g`. -/
def columnShift? (f g : Frame) (j : Nat) : Option (Int × Int) :=
  f.columns[j]?.bind fun c => g.columns[j]?.map fun c' => c.dimension - c'.dimension

/-- The units of `x` are those of a solution of `x * g = f`: dimensions add up, for every inner
position, wherever all three elements are defined. -/
def Solves (x g f : Frame) : Prop :=
  ∀ (i k j : Nat) (s t u : Index), x.element? i k = some s → g.element? k j = some t →
    f.element? i j = some u → s.dimension + t.dimension = u.dimension

/-- One position at a time, whatever the lists are. -/
theorem dimension_add_iff {f g x : Frame} (h : f.div? g = some x) {i k j : Nat} {s t u : Index}
    (hs : x.element? i k = some s) (ht : g.element? k j = some t) (hu : f.element? i j = some u) :
    s.dimension + t.dimension = u.dimension ↔ f.columnShift? g j = f.columnShift? g 0 := by
  obtain ⟨-, c, c', d, hc, hc', hd, hrows, hcolumns⟩ := div?_eq_some h
  obtain ⟨xr, xc, hxr, hxc, hs⟩ := element?_eq_some_iff.1 hs
  obtain ⟨gr, gc, hgr, hgc, ht⟩ := element?_eq_some_iff.1 ht
  obtain ⟨fr, fc, hfr, hfc, hu⟩ := element?_eq_some_iff.1 hu
  obtain ⟨_, hr, hxr⟩ := exists_of_mapM_eq_some hrows hxr
  obtain ⟨_, hr', hxc⟩ := exists_of_mapM_eq_some hcolumns hxc
  cases hfr.symm.trans hr
  cases hgr.symm.trans hr'
  -- the dimensions of all lists, and with them both sides, are sums of those of the operands
  simp only [columnShift?, hfc, hgc, hc, hc', Option.bind_some, Option.map_some, Option.some.injEq,
    Index.dimension_of_mul? hs, Index.dimension_of_mul? ht, Index.dimension_of_mul? hu,
    Index.dimension_of_mul? hxr, Index.dimension_of_div? hxc, Index.dimension_of_div? hd]
  simp only [Index.dimension, Prod.ext_iff, Prod.fst_add, Prod.snd_add, Prod.fst_sub, Prod.snd_sub]
  omega

/-- The units of an accepted quotient are right at a column if and only if its shift is that of the
first column; where all elements are defined, they are right altogether if and only if all columns
have one shift. -/
theorem solves_iff_columnShift? {f g x : Frame} (h : f.div? g = some x) :
    (∀ (i k j : Nat) (s t u : Index), x.element? i k = some s → g.element? k j = some t →
      f.element? i j = some u →
        (s.dimension + t.dimension = u.dimension ↔ f.columnShift? g j = f.columnShift? g 0)) ∧
    (f.Valid → g.Valid → f.grid?.isSome → g.grid?.isSome → x.grid?.isSome →
      (x.Solves g f ↔ ∀ j < f.columns.length, f.columnShift? g j = f.columnShift? g 0)) := by
  refine ⟨fun i k j s t u hs ht hu => dimension_add_iff h hs ht hu, ?_⟩
  intro hf hg hfd hgd hxd
  obtain ⟨hl, _, _, _, -, -, -, hrows, hcolumns⟩ := div?_eq_some h
  constructor
  · intro hsolves j hj
    have hxr : 0 < x.rows.length := by rw [(mapM_eq_some hrows).1]; exact hf.1.1.1
    have hxc : 0 < x.columns.length := by rw [(mapM_eq_some hcolumns).1]; exact hg.1.1.1
    obtain ⟨s, hs⟩ := exists_element?_of_grid? hxd hxr hxc
    obtain ⟨t, ht⟩ := exists_element?_of_grid? hgd hg.1.1.1 (hl ▸ hj)
    obtain ⟨u, hu⟩ := exists_element?_of_grid? hfd hf.1.1.1 hj
    exact (dimension_add_iff h hs ht hu).1 (hsolves 0 0 j s t u hs ht hu)
  · intro hshift i k j s t u hs ht hu
    obtain ⟨_, _, -, hj, -⟩ := element?_eq_some_iff.1 hu
    exact (dimension_add_iff h hs ht hu).2 (hshift j (List.getElem?_eq_some_iff.1 hj).1)

/-- Identity, plain numbers and quantities mixed, with one shift of a second throughout. -/
theorem solves_of_one_second_shift :
    (Frame.div? ⟨[.quantity 1 0, .quantity 1 (-1)], [.identity, .quantity 0 1]⟩
        ⟨[.quantity 2 0], [.quantity 0 (-1), .double]⟩ =
      some ⟨[.quantity 1 1, .quantity 1 0], [.quantity (-2) 0]⟩) ∧
    Solves ⟨[.quantity 1 1, .quantity 1 0], [.quantity (-2) 0]⟩
      ⟨[.quantity 2 0], [.quantity 0 (-1), .double]⟩
      ⟨[.quantity 1 0, .quantity 1 (-1)], [.identity, .quantity 0 1]⟩ :=
  have h : Frame.div? ⟨[.quantity 1 0, .quantity 1 (-1)], [.identity, .quantity 0 1]⟩
      ⟨[.quantity 2 0], [.quantity 0 (-1), .double]⟩ =
        some ⟨[.quantity 1 1, .quantity 1 0], [.quantity (-2) 0]⟩ := by decide
  ⟨h, ((solves_iff_columnShift? h).2 (by decide) (by decide) (by decide) (by decide)
    (by decide)).2 (by decide)⟩

/-- A row without dimension, of a time and of a squared time over a row of plain numbers is accepted,
and the quotient times the divisor would have no dimension anywhere. -/
theorem not_forall_solves :
    ¬ ∀ f g x : Frame, f.Valid → g.Valid → f.columns.length = g.columns.length →
      f.div? g = some x → x.Solves g f := by
  intro h
  have hsolves := h ⟨[.identity], [.quantity 0 0, .quantity 0 1, .quantity 0 2]⟩
    ⟨[.identity], [.double, .double, .double]⟩ ⟨[.quantity 0 0], [.identity]⟩
    (by decide) (by decide) (by decide) (by decide)
  have hadd := hsolves 0 0 1 (.quantity 0 0) .double (.quantity 0 1)
    (by decide) (by decide) (by decide)
  exact absurd hadd (by decide)

end Frame

end UnitMatrix
