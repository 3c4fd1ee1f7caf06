import UnitMatrix.Proofs.Matrix.Fits
import UnitMatrix.Proofs.Units.ElementTypes

/-! Products by their element types. The lists of a product are the first column of elements of the
left factor and the first row of elements of the right one, so a product depends on the elements of
its factors and not on the lists behind them, and it makes no difference to the elements of a triple
product which of the two products comes first. Whether a product is accepted at all depends on the
lists; where only quantities of small exponents occur, it depends on the elements as well. -/

namespace UnitMatrix

namespace Frame

variable {f f' g g' h p p' : Frame}

theorem rows_of_mul? (hp : f.mul? g = some p) (i : Nat) : p.rows[i]? = f.element? i 0 := by
  obtain ⟨_, c, _, _, hc, _, hrows, _⟩ := mul?_eq_some hp
  rw [(mapM_eq_some hrows).2 i, element?, UnitMatrix.element?, hc]
  rfl

theorem columns_of_mul? (hp : f.mul? g = some p) (j : Nat) : p.columns[j]? = g.element? 0 j := by
  obtain ⟨_, _, r, _, _, hr, _, hcolumns⟩ := mul?_eq_some hp
  rw [(mapM_eq_some hcolumns).2 j, element?, UnitMatrix.element?, hr]
  rfl

theorem element?_of_mul? (hp : f.mul? g = some p) (i j : Nat) :
    p.element? i j = times? (f.element? i 0) (g.element? 0 j) := by
  rw [element?, UnitMatrix.element?, rows_of_mul? hp, columns_of_mul? hp, times?]

theorem Compatible.symm (hf : f.Compatible f') : f'.Compatible f :=
  ⟨hf.2 ▸ hf.1, hf.2.symm⟩

theorem element?_of_compatible (hf : f.Compatible f') (i j : Nat) :
    f.element? i j = f'.element? i j := by
  obtain ⟨grid, hgrid⟩ := Option.isSome_iff_exists.1 hf.1
  rw [element?_eq_of_grid? hgrid, element?_eq_of_grid? (hf.2 ▸ hgrid)]

theorem eq_of_mul? (hf : f.Compatible f') (hg : g.Compatible g') (hp : f.mul? g = some p)
    (hp' : f'.mul? g' = some p') : p = p' := by
  have hrows : p.rows = p'.rows := List.ext_getElem? fun i => by
    rw [rows_of_mul? hp, rows_of_mul? hp', element?_of_compatible hf]
  have hcolumns : p.columns = p'.columns := List.ext_getElem? fun j => by
    rw [columns_of_mul? hp, columns_of_mul? hp', element?_of_compatible hg]
  cases p
  cases p'
  cases hrows
  cases hcolumns
  rfl

theorem length_of_grid? {grid : List IndexList} (h : f.grid? = some grid) {i : Nat}
    {row : IndexList} (hrow : grid[i]? = some row) : row.length = f.columns.length := by
  obtain ⟨r, -, hr⟩ := Option.bind_eq_some_iff.1 (((mapM_eq_some h).2 i).symm.trans hrow)
  exact (mapM_eq_some hr).1

/-- Where all elements are defined it is enough that they agree. -/
theorem compatible_of_agree (hf : f.grid?.isSome) (hg : g.grid?.isSome)
    (hr : f.rows.length = g.rows.length) (hc : f.columns.length = g.columns.length)
    (h : ∀ i j, Agree (f.element? i j) (g.element? i j)) : f.Compatible g := by
  obtain ⟨F, hF⟩ := Option.isSome_iff_exists.1 hf
  obtain ⟨G, hG⟩ := Option.isSome_iff_exists.1 hg
  refine ⟨hf, ?_⟩
  rw [hF, hG, Option.some.injEq]
  refine List.ext_getElem ?_ fun i hi hi' => List.ext_getElem ?_ fun j hj hj' => ?_
  · rw [(mapM_eq_some hF).1, (mapM_eq_some hG).1, hr]
  · rw [length_of_grid? hF (List.getElem?_eq_getElem hi),
      length_of_grid? hG (List.getElem?_eq_getElem hi'), hc]
  · apply h i j
    · rw [element?_eq_of_grid? hF, List.getElem?_eq_getElem hi]
      exact List.getElem?_eq_getElem hj
    · rw [element?_eq_of_grid? hG, List.getElem?_eq_getElem hi']
      exact List.getElem?_eq_getElem hj'

section Triple

variable {fg gh l r : Frame}

/-- The elements of a triple product are made of the same factors, whichever product comes first. -/
theorem agree_of_triple (hfg : f.mul? g = some fg) (hl : fg.mul? h = some l)
    (hgh : g.mul? h = some gh) (hr : f.mul? gh = some r) (i j : Nat) :
    Agree (l.element? i j) (r.element? i j) := by
  intro s t hs ht
  rw [element?_of_mul? hl, element?_of_mul? hfg] at hs
  rw [element?_of_mul? hr, element?_of_mul? hgh] at ht
  obtain ⟨ab, c, hab, hc, hs⟩ := times?_eq_some_iff.1 hs
  obtain ⟨a, b, ha, hb, hab⟩ := times?_eq_some_iff.1 hab
  obtain ⟨a', bc, ha', hbc, ht⟩ := times?_eq_some_iff.1 ht
  obtain ⟨b', c', hb', hc', hbc⟩ := times?_eq_some_iff.1 hbc
  -- both ways, `a` is in row `i` of `f`, `b` in the corner of `g`, and `c` in column `j` of `h`
  cases ha.symm.trans ha'
  cases hb.symm.trans hb'
  cases hc.symm.trans hc'
  exact Index.mul?_regroup hab hs hbc ht

theorem compatible_of_triple (hfg : f.mul? g = some fg) (hl : fg.mul? h = some l)
    (hgh : g.mul? h = some gh) (hr : f.mul? gh = some r) (hld : l.grid?.isSome)
    (hrd : r.grid?.isSome) : l.Compatible r := by
  obtain ⟨-, hrfg, -⟩ := lengths_of_mul? hfg
  obtain ⟨-, hrl, hcl⟩ := lengths_of_mul? hl
  obtain ⟨-, -, hcgh⟩ := lengths_of_mul? hgh
  obtain ⟨-, hrr, hcr⟩ := lengths_of_mul? hr
  exact compatible_of_agree hld hrd (by omega) (by omega) (agree_of_triple hfg hl hgh hr)

end Triple

end Frame

def Index.Within (n : Int) : Index → Prop
  | .quantity l t => (-n ≤ l ∧ l ≤ n) ∧ (-n ≤ t ∧ t ≤ n)
  | _ => False

instance (n : Int) : (i : Index) → Decidable (i.Within n)
  | .quantity l t => inferInstanceAs (Decidable ((-n ≤ l ∧ l ≤ n) ∧ (-n ≤ t ∧ t ≤ n)))
  | .identity => isFalse id
  | .double => isFalse id
  | .single => isFalse id

def Index.ofDimension (d : Int × Int) : Index := .quantity d.1 d.2

@[simp] theorem Index.dimension_ofDimension (d : Int × Int) : (ofDimension d).dimension = d := rfl

theorem Index.mul?_of_within {a b : Index} (ha : a.Within 4) (hb : b.Within 4) :
    a.mul? b = some (.ofDimension (a.dimension + b.dimension)) := by
  cases a with
  | quantity l t =>
    cases b with
    | quantity l' t' =>
      refine if_pos ⟨?_, ?_⟩ <;> simp only [Within, Combinable] at * <;> omega
    | _ => cases hb
  | _ => cases ha

theorem contraction?_ne_nil {columns rows : IndexList} {t : Index}
    (h : contraction? columns rows = some t) : columns ≠ [] := by
  rintro rfl
  cases rows <;> cases h

theorem contraction?_of_forall {columns rows : IndexList} {t : Index} (hne : columns ≠ [])
    (hl : columns.length = rows.length) (h : ∀ (n : Nat) (c r : Index), columns[n]? = some c →
      rows[n]? = some r → c.mul? r = some t) : contraction? columns rows = some t := by
  have hterms : columns.pointwise? Index.mul? rows = some (List.replicate columns.length t) := by
    clear hne
    induction columns generalizing rows with
    | nil =>
      cases List.length_eq_zero_iff.1 hl.symm
      rfl
    | cons c cs ih =>
      cases rows with
      | nil => cases hl
      | cons r rs =>
        have htail := ih (Nat.succ.inj hl) fun n => h (n + 1)
        simp [IndexList.pointwise?, h 0 c r rfl rfl, htail, List.replicate_succ]
  obtain ⟨c, cs, rfl⟩ := List.exists_cons_of_ne_nil hne
  rw [contraction?, hterms]
  simp [IndexList.common?, List.replicate_succ]

namespace Frame

variable {f f' g g' : Frame}

def Within (n : Int) (f : Frame) : Prop :=
  (∀ i ∈ f.rows, i.Within n) ∧ ∀ i ∈ f.columns, i.Within n

instance (n : Int) (f : Frame) : Decidable (f.Within n) := inferInstanceAs (Decidable (_ ∧ _))

/-- Among small quantities nothing but the contraction can fail. -/
theorem isSome_mul?_iff (hf : f.Within 4) (hg : g.Within 4) :
    (f.mul? g).isSome ↔ ∃ t, contraction? f.columns g.rows = some t := by
  constructor
  · intro h
    obtain ⟨p, hp⟩ := Option.isSome_iff_exists.1 h
    obtain ⟨t, _, _, ht, _⟩ := mul?_eq_some hp
    exact ⟨t, ht⟩
  · rintro ⟨t, ht⟩
    have hdefined {a b : Index} (ha : a.Within 4) (hb : b.Within 4) : (a.mul? b).isSome :=
      Option.isSome_of_eq_some (Index.mul?_of_within ha hb)
    obtain ⟨c, cs, hc⟩ := List.exists_cons_of_ne_nil (contraction?_ne_nil ht)
    have hl := (contraction?_eq_some ht).1
    obtain ⟨r, rs, hr⟩ := List.exists_cons_of_length_pos (l := g.rows) (by simp [← hl, hc])
    have hc4 : c.Within 4 := hf.2 c (by simp [hc])
    have hr4 : r.Within 4 := hg.1 r (by simp [hr])
    obtain ⟨rows, hrows⟩ := Option.isSome_iff_exists.1
      (isSome_mapM_iff (f := (·.mul? c)).2 fun i hi => hdefined (hf.1 i hi) hc4)
    obtain ⟨columns, hcolumns⟩ := Option.isSome_iff_exists.1
      (isSome_mapM_iff (f := r.mul?).2 fun j hj => hdefined hr4 (hg.2 j hj))
    rw [mul?, ht, hc, hr]
    simp [IndexList.mulEach?, IndexList.leftMulEach?, hrows, hcolumns]

/-- Of two frames with the same elements, what one has more in its rows it has less in its
columns. -/
theorem dimension_of_compatible (hf : f.Compatible f') (h4 : f.Within 4) (h4' : f'.Within 4)
    {i j : Nat} {r c r' c' : Index} (hr : f.rows[i]? = some r) (hc : f.columns[j]? = some c)
    (hr' : f'.rows[i]? = some r') (hc' : f'.columns[j]? = some c') :
    r.dimension + c.dimension = r'.dimension + c'.dimension := by
  have he := element?_of_compatible hf i j
  rw [element?, element?, UnitMatrix.element?, UnitMatrix.element?, hr, hc, hr', hc'] at he
  simp only [Option.bind_some] at he
  rw [Index.mul?_of_within (h4.1 r (List.mem_of_getElem? hr)) (h4.2 c (List.mem_of_getElem? hc)),
    Index.mul?_of_within (h4'.1 r' (List.mem_of_getElem? hr')) (h4'.2 c' (List.mem_of_getElem? hc')),
    Option.some.injEq, Index.ofDimension, Index.ofDimension, Index.quantity.injEq] at he
  exact Prod.ext he.1 he.2

/-- The shift between the rows of the left factors and the shift between the columns of the right
ones are the same for all terms, so a contraction stays one. -/
theorem exists_contraction?_of_compatible (hf : f.Compatible f') (hg : g.Compatible g')
    (hfr : 1 ≤ f.rows.length) (hgc : 1 ≤ g.columns.length) (hf4 : f.Within 4)
    (hf4' : f'.Within 4) (hg4 : g.Within 4) (hg4' : g'.Within 4)
    (h : ∃ t, contraction? f.columns g.rows = some t) :
    ∃ t, contraction? f'.columns g'.rows = some t := by
  obtain ⟨t, ht⟩ := h
  obtain ⟨hl, hterm⟩ := contraction?_eq_some ht
  have hfc : 1 ≤ f.columns.length := List.length_pos_iff.2 (contraction?_ne_nil ht)
  obtain ⟨hfr', hfc'⟩ := lengths_of_compatible hfr hf
  obtain ⟨hgr', hgc'⟩ := lengths_of_compatible (hl ▸ hfc) hg
  have ha := List.getElem?_eq_getElem hfr
  have ha' := List.getElem?_eq_getElem (hfr' ▸ hfr)
  have hd := List.getElem?_eq_getElem hgc
  have hd' := List.getElem?_eq_getElem (hgc' ▸ hgc)
  -- what the columns of `f'` have more than those of `f`, its rows have less, so the first row
  -- tells it for every term; and the first column of `g'` tells it for the rows of `g'`
  refine ⟨.ofDimension (t.dimension + (f.rows[0].dimension - f'.rows[0].dimension) +
    (g.columns[0].dimension - g'.columns[0].dimension)), ?_⟩
  refine contraction?_of_forall (List.length_pos_iff.1 (hfc' ▸ hfc)) (by omega) ?_
  intro n c' r' hc' hr'
  have hn := (List.getElem?_eq_some_iff.1 hc').1
  have hc := List.getElem?_eq_getElem (l := f.columns) (i := n) (by omega)
  have hr := List.getElem?_eq_getElem (l := g.rows) (i := n) (by omega)
  have hf0 := dimension_of_compatible hf hf4 hf4' ha hc ha' hc'
  have hg0 := dimension_of_compatible hg hg4 hg4' hr hd hr' hd'
  have hn := hterm n _ _ hc hr
  rw [Index.mul?_of_within (hf4.2 _ (List.mem_of_getElem? hc))
    (hg4.1 _ (List.mem_of_getElem? hr))] at hn
  cases hn
  rw [Index.mul?_of_within (hf4'.2 c' (List.mem_of_getElem? hc'))
    (hg4'.1 r' (List.mem_of_getElem? hr'))]
  refine congrArg (fun s => some (Index.ofDimension s)) ?_
  rw [eq_sub_of_add_eq' hf0.symm, eq_sub_of_add_eq hg0.symm]
  rw [Index.dimension_ofDimension]
  abel

/-- Products respect compatibility: frames with the same elements have the same product as soon as
both are accepted, and a product of small quantities is accepted for all frames with these elements
or for none. -/
theorem mul?_respects_compatible (hf : f.Compatible f') (hg : g.Compatible g') :
    (∀ p p', f.mul? g = some p → f'.mul? g' = some p' →
      p = p' ∧ ∀ i j, Agree (p.element? i j) (p'.element? i j)) ∧
    (f.Valid → g.Valid → f.Within 4 → f'.Within 4 → g.Within 4 → g'.Within 4 →
      ((f.mul? g).isSome ↔ (f'.mul? g').isSome)) := by
  constructor
  · intro p p' hp hp'
    cases eq_of_mul? hf hg hp hp'
    exact ⟨rfl, fun i j s t hs ht => Option.some.inj (hs.symm.trans ht)⟩
  · intro hfv hgv hf4 hf4' hg4 hg4'
    obtain ⟨hr, hc⟩ := lengths_of_compatible hfv.1.1.1 hf
    obtain ⟨hr', hc'⟩ := lengths_of_compatible hgv.1.1.1 hg
    rw [isSome_mul?_iff hf4 hg4, isSome_mul?_iff hf4' hg4']
    constructor
    · exact exists_contraction?_of_compatible hf hg hfv.1.1.1 hgv.1.2.1 hf4 hf4' hg4 hg4'
    · exact exists_contraction?_of_compatible hf.symm hg.symm (hr ▸ hfv.1.1.1) (hc' ▸ hgv.1.2.1)
        hf4' hf4 hg4' hg4

/-- A second more in the rows and less in the columns of the left factor, a metre less in the rows
and more in the columns of the right one. -/
theorem product_of_shifted_lists :
    let f : Frame := ⟨[.quantity 1 0, .quantity 1 (-1)], [.quantity 0 0, .quantity 0 1]⟩
    let f' : Frame := ⟨[.quantity 1 1, .quantity 1 0], [.quantity 0 (-1), .quantity 0 0]⟩
    let g : Frame := ⟨[.quantity 1 0, .quantity 1 (-1)], [.quantity 0 0]⟩
    let g' : Frame := ⟨[.quantity 0 0, .quantity 0 (-1)], [.quantity 1 0]⟩
    f.Compatible f' ∧ g.Compatible g' ∧ ∃ p, f.mul? g = some p ∧ f'.mul? g' = some p := by
  intro f f' g g'
  have hf : f.Compatible f' := by decide
  have hg : g.Compatible g' := by decide
  obtain ⟨hsame, haccepted⟩ := mul?_respects_compatible hf hg
  obtain ⟨p, hp⟩ := Option.isSome_iff_exists.1 (show (f.mul? g).isSome by decide)
  obtain ⟨p', hp'⟩ := Option.isSome_iff_exists.1
    ((haccepted (by decide) (by decide) (by decide) (by decide) (by decide) (by decide)).1
      (Option.isSome_of_eq_some hp))
  exact ⟨hf, hg, p, hp, (hsame p p' hp hp').1 ▸ hp'⟩

end Frame

end UnitMatrix
