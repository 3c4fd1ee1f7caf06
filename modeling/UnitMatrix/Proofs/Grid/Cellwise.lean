import UnitMatrix.Proofs.Grid.Extent

/-! Grids that are computed cell by cell. Storage whose shape is known beforehand and storage of any
shape go through the cells in different orders, and a product over known shapes keeps a whole row of
sums at once; but either has a result exactly if every cell has one, and the result is made of these.
So both compute the same from operands whose shapes fit, and a product turned around is the product
of its factors turned around. -/

namespace UnitMatrix

theorem foldlM_congr {ε α β : Type} {f g : β → α → Except ε β} {xs : List α}
    (h : ∀ x ∈ xs, ∀ b, f b x = g b x) (b : β) : xs.foldlM f b = xs.foldlM g b := by
  induction xs generalizing b with
  | nil => rfl
  | cons x xs ih =>
    rw [List.foldlM_cons, List.foldlM_cons, h x (by simp)]
    exact congrArg (g b x >>= ·) (funext fun c => ih (fun y hy => h y (by simp [hy])) c)

theorem zip_eq_map_range {α β : Type} (x : α) (y : β) {xs : List α} {ys : List β}
    (hl : xs.length = ys.length) :
    xs.zip ys = (List.range xs.length).map fun k => (xs.getD k x, ys.getD k y) := by
  refine List.ext_getElem (by simp [hl]) fun k hk _ => ?_
  have hk : k < xs.length := by simp at hk; omega
  simp [hk, hl ▸ hk]

theorem mapM_eq_ok_iff {ε α β : Type} {f : α → Except ε β} {xs : List α} {ys : List β} :
    xs.mapM f = .ok ys ↔ ys.length = xs.length ∧
      ∀ (i : Nat) (x : α), xs[i]? = some x → ∃ y, ys[i]? = some y ∧ f x = .ok y := by
  constructor
  · intro h
    exact ⟨length_of_mapM_ok h, fun i x hx => exists_of_mapM_ok h hx⟩
  · rintro ⟨hl, h⟩
    induction xs generalizing ys with
    | nil => rw [List.length_eq_zero_iff.1 hl]; rfl
    | cons x xs ih =>
      obtain ⟨y, ys, rfl⟩ := List.exists_cons_of_length_eq_add_one hl
      obtain ⟨_, hy, hx⟩ := h 0 x rfl
      cases hy
      have htail := ih (Nat.succ.inj hl) fun i => h (i + 1)
      rw [List.mapM_cons, hx, htail]
      rfl

def HoldsRow {α : Type} (cell : Nat → Except Fault α) (n : Nat) (row : List α) : Prop :=
  row.length = n ∧ ∀ j < n, ∃ x, row[j]? = some x ∧ cell j = .ok x

theorem mapM_eq_ok_iff_holdsRow {α β : Type} {f : β → Except Fault α} {xs : List β} {row : List α}
    (cell : Nat → Except Fault α) (h : ∀ (j : Nat) (x : β), xs[j]? = some x → f x = cell j) :
    xs.mapM f = .ok row ↔ HoldsRow cell xs.length row := by
  rw [mapM_eq_ok_iff, HoldsRow]
  refine and_congr_right fun _ => ⟨fun hrow j hj => ?_, fun hrow j x hx => ?_⟩
  · have hx := List.getElem?_eq_getElem hj
    rw [← h j _ hx]
    exact hrow j _ hx
  · rw [h j x hx]
    exact hrow j (List.getElem?_eq_some_iff.1 hx).1

theorem holdsRow_ok {α : Type} (z : α) {n : Nat} {row row' : List α} (hl : row'.length = n) :
    HoldsRow (fun j => .ok (row'.getD j z)) n row ↔ row' = row := by
  constructor
  · rintro ⟨hrow, h⟩
    refine List.ext_getElem (hl.trans hrow.symm) fun j hj hj' => ?_
    obtain ⟨x, hx, hxj⟩ := h j (hrow ▸ hj')
    have hxj : row'.getD j z = x := Except.ok.inj hxj
    rw [List.getD_eq_getElem _ _ hj] at hxj
    rw [hxj, (List.getElem?_eq_some_iff.1 hx).2]
  · rintro rfl
    exact ⟨hl, fun j hj => ⟨row'.getD j z, by simp [hl, hj], rfl⟩⟩

/-- Two rows computed one after the other, the second from the first, are one row computed in two
steps at each place. -/
theorem holdsRow_bind {α β : Type} (z : α) {first : Nat → Except Fault α}
    {second : Nat → α → Except Fault β} {n : Nat} {row : List β} :
    (∃ next, HoldsRow first n next ∧ HoldsRow (fun j => second j (next.getD j z)) n row) ↔
      HoldsRow (fun j => first j >>= second j) n row := by
  constructor
  · rintro ⟨next, ⟨-, hnext⟩, hl, hrow⟩
    refine ⟨hl, fun j hj => ?_⟩
    obtain ⟨x, hx, hfirst⟩ := hnext j hj
    obtain ⟨y, hy, hsecond⟩ := hrow j hj
    simp only [List.getD_eq_getElem?_getD, hx, Option.getD_some] at hsecond
    exact ⟨y, hy, bind_eq_ok_iff.2 ⟨x, hfirst, hsecond⟩⟩
  · rintro ⟨hl, hrow⟩
    have hplace {j : Nat} (hj : j < n) :
        ((List.range n).map fun j => (first j).toOption.getD z)[j]? =
          some ((first j).toOption.getD z) := by
      rw [List.getElem?_map, List.getElem?_range hj]
      rfl
    refine ⟨(List.range n).map fun j => (first j).toOption.getD z, ⟨by simp, fun j hj => ?_⟩, hl,
      fun j hj => ?_⟩
    all_goals
      obtain ⟨y, hy, hbind⟩ := hrow j hj
      obtain ⟨x, hx, hsecond⟩ := bind_eq_ok_iff.1 hbind
    · exact ⟨x, by rw [hplace hj, hx]; rfl, hx⟩
    · refine ⟨y, hy, ?_⟩
      simp only [List.getD_eq_getElem?_getD, hplace hj, hx]
      exact hsecond

namespace Grid

variable {α : Type} {rows columns : Nat} {cell : Nat → Nat → Except Fault α} {g : Grid α}

/-- The grid has these extents, and in every position the number that `cell` has for it. -/
def Holds (cell : Nat → Nat → Except Fault α) (rows columns : Nat) (g : Grid α) : Prop :=
  g.Extent rows columns ∧
    ∀ i j, i < rows → j < columns → ∃ x, g.get? i j = some x ∧ cell i j = .ok x

theorem holds_congr {cell' : Nat → Nat → Except Fault α}
    (heq : ∀ i j, i < rows → j < columns → cell i j = cell' i j) :
    g.Holds cell rows columns ↔ g.Holds cell' rows columns :=
  and_congr_right fun _ => forall₂_congr fun i j => forall₂_congr fun hi hj => by rw [heq i j hi hj]

theorem holds_transpose (cell : Nat → Nat → Except Fault α) :
    g.transpose.Holds (fun i j => cell j i) columns rows ↔ g.Holds cell rows columns := by
  simp only [Holds, Extent, rows_transpose, columns_transpose, get?_transpose]
  exact ⟨fun h => ⟨h.1.symm, fun i j hi hj => h.2 j i hj hi⟩,
    fun h => ⟨h.1.symm, fun i j hi hj => h.2 j i hj hi⟩⟩

theorem ofRowsM_eq_ok_iff_holds {β : Type} (cell : Nat → Nat → Except Fault α)
    {f : β → Except Fault (List α)} {xs : List β} {h : ∀ x row, x ∈ xs → f x = .ok row → row.length = columns}
    (hf : ∀ (i : Nat) (x : β) (row : List α), xs[i]? = some x →
      (f x = .ok row ↔ HoldsRow (cell i) columns row)) :
    ofRowsM columns f xs h = .ok g ↔ g.Holds cell xs.length columns := by
  rw [ofRowsM_eq_ok_iff, mapM_eq_ok_iff]
  constructor
  · rintro ⟨hc, hl, hrows⟩
    refine ⟨⟨hl, hc⟩, fun i j hi hj => ?_⟩
    have hx := List.getElem?_eq_getElem hi
    obtain ⟨row, hrow, hxrow⟩ := hrows i _ hx
    obtain ⟨y, hy, hcell⟩ := ((hf i _ row hx).1 hxrow).2 j hj
    exact ⟨y, by rw [get?, hrow]; exact hy, hcell⟩
  · rintro ⟨⟨hl, hc⟩, hcell⟩
    refine ⟨hc, hl, fun i x hx => ?_⟩
    have hi := (List.getElem?_eq_some_iff.1 hx).1
    have hrow := List.getElem?_eq_getElem (l := g.entries) (hl.symm ▸ hi)
    refine ⟨_, hrow, (hf i x _ hx).2 ⟨?_, fun j hj => ?_⟩⟩
    · rw [g.rectangular _ (List.mem_of_getElem? hrow), hc]
    · obtain ⟨y, hy, hcell⟩ := hcell i j hi hj
      rw [get?, hrow] at hy
      exact ⟨y, hy, hcell⟩

theorem ofFnM_eq_ok_iff : ofFnM rows columns cell = .ok g ↔ g.Holds cell rows columns := by
  have hrange {n i m : Nat} (h : (List.range n)[i]? = some m) : m = i := by
    obtain ⟨hi, rfl⟩ := List.getElem?_eq_some_iff.1 h
    exact List.getElem_range hi
  rw [ofFnM, ofRowsM_eq_ok_iff_holds cell, List.length_range]
  intro i x row hi
  rw [hrange hi, mapM_eq_ok_iff_holdsRow _ fun j y hy => by rw [hrange hy], List.length_range]

theorem get_eq_ok {row : List α} {i j : Nat} {x : α} (hrow : g.entries[i]? = some row)
    (hx : row[j]? = some x) : g.get i j = .ok x := by
  rw [get, get?, hrow, Option.bind_some, hx]

theorem get_of_lt (hg : g.Extent rows columns) {i j : Nat} (hi : i < rows) (hj : j < columns) :
    ∃ x, g.get i j = .ok x := by
  obtain ⟨rfl, rfl⟩ := hg
  obtain ⟨x, hx⟩ := Option.isSome_iff_exists.1 (get?_isSome_iff.2 ⟨hi, hj⟩)
  exact ⟨x, by rw [get, hx]⟩

theorem get_transpose_of_lt (hg : g.Extent rows columns) {i j : Nat} (hi : i < rows)
    (hj : j < columns) : g.transpose.get j i = g.get i j := by
  obtain ⟨rfl, rfl⟩ := hg
  obtain ⟨x, hx⟩ := Option.isSome_iff_exists.1 (get?_isSome_iff.2 ⟨hi, hj⟩)
  rw [get, get, get?_transpose, hx]

section Pairs

variable {op : α → α → Except Fault α} {a b : Grid α}

def pairAt (op : α → α → Except Fault α) (a b : Grid α) (i j : Nat) : Except Fault α := do
  op (← a.get i j) (← b.get i j)

theorem zipM_eq_ok_iff (ha : a.Extent rows columns) (hb : b.Extent rows columns) :
    zipM op a b = .ok g ↔ g.Holds (pairAt op a b) rows columns := by
  have hcolumns : min a.columns b.columns = columns := by rw [ha.2, hb.2, Nat.min_self]
  rw [zipM, ofRowsM_eq_ok_iff_holds (pairAt op a b), ha.length_zip hb, hcolumns]
  intro i p row hp
  obtain ⟨hpa, hpb⟩ := List.getElem?_zip_eq_some.1 hp
  rw [← length_zip_of_mem (List.mem_of_getElem? hp)]
  refine mapM_eq_ok_iff_holdsRow _ fun j c hc => ?_
  obtain ⟨hx, hy⟩ := List.getElem?_zip_eq_some.1 hc
  rw [pairAt, get_eq_ok hpa hx, get_eq_ok hpb hy]
  rfl

theorem stretchM_eq_ok_iff (ha : a.Extent rows columns) (hb : b.Extent rows columns) :
    stretchM op a b = .ok g ↔ g.Holds (pairAt op a b) rows columns := by
  have hsame (n : Nat) : stretch? n n = some n := if_pos rfl
  have halong {n i : Nat} (hi : i < n) : along n i = i := by
    unfold along
    split <;> omega
  rw [stretchM, ha.1, ha.2, hb.1, hb.2, hsame, hsame]
  dsimp only
  rw [ofFnM_eq_ok_iff]
  refine holds_congr fun i j hi hj => ?_
  rw [halong hi, halong hj]
  rfl

end Pairs

section Products

open Arithmetic

variable [Arithmetic α] {a b : Grid α} {n : Nat}

def termSum (terms : List (α × List α)) (j : Nat) (start : α) : Except Fault α :=
  terms.foldlM (fun sum t => do add sum (← mul t.1 (t.2.getD j zero))) start

theorem addScaled_eq_ok_iff {out row next : List α} {factor : α} (hout : out.length = n)
    (hrow : row.length = n) :
    addScaled out factor row = .ok next ↔
      HoldsRow (fun j => do add (out.getD j zero) (← mul factor (row.getD j zero))) n next := by
  have hlength : (out.zip row).length = n := by rw [List.length_zip, hout, hrow, Nat.min_self]
  rw [addScaled, mapM_eq_ok_iff_holdsRow (fun j =>
    do add (out.getD j zero) (← mul factor (row.getD j zero))), hlength]
  intro j c hc
  obtain ⟨hx, hy⟩ := List.getElem?_zip_eq_some.1 hc
  simp only [List.getD_eq_getElem?_getD, hx, hy, Option.getD_some]

/-- Rows of sums are added up place by place. -/
theorem foldlM_addScaled_eq_ok_iff {terms : List (α × List α)} {out sum : List α}
    (hterms : ∀ t ∈ terms, t.2.length = n) (hout : out.length = n) :
    terms.foldlM (fun out t => addScaled out t.1 t.2) out = .ok sum ↔
      HoldsRow (fun j => termSum terms j (out.getD j zero)) n sum := by
  induction terms generalizing out with
  | nil =>
    refine Iff.trans ?_ (holdsRow_ok zero hout).symm
    exact ⟨fun h => by cases h; rfl, fun h => by rw [h]; rfl⟩
  | cons t ts ih =>
    have ht := hterms t (by simp)
    rw [List.foldlM_cons, bind_eq_ok_iff]
    simp only [termSum, List.foldlM_cons]
    rw [← holdsRow_bind zero]
    refine exists_congr fun next => ?_
    rw [addScaled_eq_ok_iff hout ht]
    exact and_congr_right fun hnext => ih (fun t' ht' => hterms t' (by simp [ht'])) hnext.1

theorem rowTimes_eq_ok_iff {row out : List α} :
    rowTimes row b = .ok out ↔
      HoldsRow (fun j => termSum (row.zip b.entries) j zero) b.columns out := by
  rw [rowTimes, foldlM_addScaled_eq_ok_iff (n := b.columns)
    (fun t ht => b.rectangular _ (List.of_mem_zip ht).2) (by simp)]
  refine and_congr_right fun _ => forall₂_congr fun j hj => ?_
  simp [hj]

/-- A sum of scaled rows has in each place the sum over the inner position. -/
theorem innerSum_eq_termSum (hinner : a.columns = b.rows) {row : List α} {i j : Nat}
    (hrow : a.entries[i]? = some row) (hj : j < b.columns) :
    innerSum a b i j = termSum (row.zip b.entries) j zero := by
  have hl : row.length = a.columns := a.rectangular _ (List.mem_of_getElem? hrow)
  rw [innerSum, termSum, zip_eq_map_range zero [] (hl.trans hinner), List.foldlM_map, hl]
  refine foldlM_congr (fun k hk sum => ?_) zero
  rw [List.mem_range] at hk
  have hx := List.getElem?_eq_getElem (hl ▸ hk)
  obtain ⟨row', hrow'⟩ : ∃ row', b.entries[k]? = some row' :=
    ⟨_, List.getElem?_eq_getElem (show k < b.rows from hinner ▸ hk)⟩
  have hl' := b.rectangular _ (List.mem_of_getElem? hrow')
  have hy := List.getElem?_eq_getElem (hl' ▸ hj)
  rw [get_eq_ok hrow hx, get_eq_ok hrow' hy]
  simp only [List.getD_eq_getElem?_getD, hx, hrow', hy, Option.getD_some]
  rfl

theorem mulKnown_eq_ok_iff (hinner : a.columns = b.rows) :
    a.mulKnown b = .ok g ↔ g.Holds (innerSum a b) a.rows b.columns := by
  rw [mulKnown, ofRowsM_eq_ok_iff_holds (innerSum a b)]
  · rfl
  · intro i row out hrow
    rw [rowTimes_eq_ok_iff]
    refine and_congr_right fun _ => forall₂_congr fun j hj => ?_
    rw [innerSum_eq_termSum hinner hrow hj]

theorem mulAny_eq_ok_iff (hinner : a.columns = b.rows) :
    a.mulAny b = .ok g ↔ g.Holds (innerSum a b) a.rows b.columns := by
  rw [mulAny, if_pos hinner, ofFnM_eq_ok_iff]

/-- The terms of a sum are the same and in the same order, each with its factors exchanged. -/
theorem innerSum_transpose (hmul : ∀ x y : α, mul x y = mul y x) (hinner : a.columns = b.rows)
    {i j : Nat} (hi : i < a.rows) (hj : j < b.columns) :
    innerSum b.transpose a.transpose j i = innerSum a b i j := by
  rw [innerSum, innerSum, columns_transpose, ← hinner]
  refine foldlM_congr (fun k hk sum => ?_) zero
  rw [List.mem_range] at hk
  obtain ⟨x, hx⟩ := get_of_lt ⟨rfl, rfl⟩ hi hk
  obtain ⟨y, hy⟩ := get_of_lt ⟨rfl, rfl⟩ (hinner ▸ hk) hj
  rw [get_transpose_of_lt ⟨rfl, rfl⟩ hi hk, get_transpose_of_lt ⟨rfl, rfl⟩ (hinner ▸ hk) hj, hx, hy]
  exact congrArg (· >>= add sum) (hmul y x)

theorem mulKnown_transpose (hmul : ∀ x y : α, mul x y = mul y x) (hinner : a.columns = b.rows) :
    b.transpose.mulKnown a.transpose = .ok g.transpose ↔ a.mulKnown b = .ok g := by
  rw [mulKnown_eq_ok_iff hinner, mulKnown_eq_ok_iff (by simp [hinner]),
    ← holds_transpose (innerSum a b), rows_transpose, columns_transpose]
  exact holds_congr fun j i hj hi => innerSum_transpose hmul hinner hi hj

end Products

end Grid

end UnitMatrix
