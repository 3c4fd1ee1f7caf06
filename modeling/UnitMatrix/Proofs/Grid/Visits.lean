import Mathlib.Data.List.Nodup
import Mathlib.Data.List.ProdSigma
import UnitMatrix.Proofs.Agreement
import UnitMatrix.Proofs.Grid.Faults

/-! Walks that visit some cells of a grid, each of them once, and replace what they find. Since no cell
is visited twice, what a visit writes may be computed from the grid as it was before the walk. So the
cells visited hold what was computed for them, all others what they held before, and the first visit
for which nothing can be computed is the fault that the walk ends with. -/

namespace UnitMatrix

section Walks

variable {ε α β σ : Type}

theorem foldlM_flatMap {f : α → List β} {step : σ → β → Except ε σ} (xs : List α) (s : σ) :
    (xs.flatMap f).foldlM step s = xs.foldlM (fun s x => (f x).foldlM step s) s := by
  induction xs generalizing s with
  | nil => rfl
  | cons x xs ih =>
    rw [List.flatMap_cons, List.foldlM_append, List.foldlM_cons]
    exact congrArg (_ >>= ·) (funext ih)

theorem foldlM_product {step : σ → α × β → Except ε σ} (ps : List α) (qs : List β) (s : σ) :
    (ps ×ˢ qs).foldlM step s =
      ps.foldlM (fun s p => qs.foldlM (fun s q => step s (p, q)) s) s := by
  refine (foldlM_flatMap ps s).trans ?_
  simp only [List.foldlM_map]

theorem findSome?_product {f : α × β → Option σ} (ps : List α) (qs : List β) :
    (ps ×ˢ qs).findSome? f = ps.findSome? fun p => qs.findSome? fun q => f (p, q) := by
  refine findSome?_flatMap.trans ?_
  simp only [List.findSome?_map, Function.comp_def]

theorem exists_of_failure?_eq_none {x : Except ε α} (h : failure? x = none) : ∃ a, x = .ok a := by
  cases x with
  | ok a => exact ⟨a, rfl⟩
  | error e => cases h

end Walks

namespace Grid

variable {α : Type} {value : Nat × Nat → Except Fault α} {cells : List (Nat × Nat)} {g h : Grid α}
  {step : Grid α → Nat × Nat → Except Fault (Grid α)}

/-- `h` is `g` with these cells replaced by what `value` has for them. -/
structure Replaces (value : Nat × Nat → Except Fault α) (cells : List (Nat × Nat)) (g h : Grid α) :
    Prop where
  extent : h.Extent g.rows g.columns
  replaced : ∀ c ∈ cells, ∃ x, value c = .ok x ∧ h.get? c.1 c.2 = some x
  kept : ∀ i j, (i, j) ∉ cells → h.get? i j = g.get? i j

theorem replaces_of_set {c : Nat × Nat} {x : α} (hx : value c = .ok x) (hs : g.set c.1 c.2 x = .ok h) :
    Replaces value [c] g h where
  extent := ⟨rows_of_set hs, columns_of_set hs⟩
  replaced := by
    intro d hd
    rw [List.mem_singleton.1 hd, get?_of_set hs]
    exact ⟨x, hx, if_pos ⟨rfl, rfl⟩⟩
  kept i j hij := by
    rw [get?_of_set hs, if_neg]
    rintro ⟨rfl, rfl⟩
    exact hij (List.mem_singleton_self _)

theorem Replaces.cons {c : Nat × Nat} {next : Grid α} (hc : c ∉ cells) (hone : Replaces value [c] g next)
    (hrest : Replaces value cells next h) : Replaces value (c :: cells) g h where
  extent := ⟨hrest.extent.1.trans hone.extent.1, hrest.extent.2.trans hone.extent.2⟩
  replaced d hd := by
    rcases List.mem_cons.1 hd with rfl | hd
    · rw [hrest.kept d.1 d.2 hc]
      exact hone.replaced d (List.mem_singleton_self d)
    · exact hrest.replaced d hd
  kept i j hij := by
    rw [List.mem_cons, not_or] at hij
    rw [hrest.kept i j hij.2, hone.kept i j (by simpa using hij.1)]

/-- No cell is visited twice, and a visit replaces the cell by something that depends on the grid only
through what this cell was at first. -/
structure Visits (step : Grid α → Nat × Nat → Except Fault (Grid α))
    (value : Nat × Nat → Except Fault α) (cells : List (Nat × Nat)) (g : Grid α) : Prop where
  nodup : cells.Nodup
  inside : ∀ c ∈ cells, c.1 < g.rows ∧ c.2 < g.columns
  visit : ∀ c ∈ cells, ∀ s : Grid α, s.Extent g.rows g.columns →
    s.get? c.1 c.2 = g.get? c.1 c.2 → step s c = value c >>= s.set c.1 c.2

theorem Visits.tail {c : Nat × Nat} {next : Grid α} (hv : Visits step value (c :: cells) g)
    (hone : Replaces value [c] g next) : Visits step value cells next where
  nodup := (List.nodup_cons.1 hv.nodup).2
  inside d hd := by
    rw [hone.extent.1, hone.extent.2]
    exact hv.inside d (List.mem_cons_of_mem c hd)
  visit d hd s hs hget := by
    rw [hone.extent.1, hone.extent.2] at hs
    refine hv.visit d (List.mem_cons_of_mem c hd) s hs (hget.trans (hone.kept d.1 d.2 fun hmem => ?_))
    exact (List.nodup_cons.1 hv.nodup).1 (List.mem_singleton.1 hmem ▸ hd)

theorem Visits.walk (hv : Visits step value cells g) :
    failure? (cells.foldlM step g) = cells.findSome? (fun c => failure? (value c)) ∧
      ∀ h, cells.foldlM step g = .ok h → Replaces value cells g h := by
  induction cells generalizing g with
  | nil =>
    refine ⟨rfl, fun h hg => ?_⟩
    cases hg
    exact ⟨⟨rfl, rfl⟩, fun c hc => (nomatch hc), fun _ _ _ => rfl⟩
  | cons c cells ih =>
    obtain ⟨hi, hj⟩ := hv.inside c List.mem_cons_self
    rw [List.foldlM_cons, List.findSome?_cons, hv.visit c List.mem_cons_self g ⟨rfl, rfl⟩ rfl]
    cases hx : value c with
    | error e => exact ⟨rfl, fun h hg => (nomatch hg)⟩
    | ok x =>
      obtain ⟨next, hs, -⟩ := (Extent.set ⟨rfl, rfl⟩ hi hj x).exists_ok
      have hone := replaces_of_set hx hs
      obtain ⟨hfault, hrest⟩ := ih (hv.tail hone)
      rw [ok_bind, hs, ok_bind]
      exact ⟨hfault, fun h hg => hone.cons (List.nodup_cons.1 hv.nodup).1 (hrest h hg)⟩

theorem Visits.exists_walk (hv : Visits step value cells g)
    (hvalue : ∀ c ∈ cells, ∃ x, value c = .ok x) :
    ∃ h, cells.foldlM step g = .ok h ∧ Replaces value cells g h := by
  obtain ⟨hfault, hwalk⟩ := hv.walk
  have hnone : cells.findSome? (fun c => failure? (value c)) = none := by
    rw [List.findSome?_eq_none_iff]
    intro c hc
    obtain ⟨x, hx⟩ := hvalue c hc
    rw [hx]
    rfl
  obtain ⟨h, hh⟩ := exists_of_failure?_eq_none (hfault.trans hnone)
  exact ⟨h, hh, hwalk h hh⟩

/-- Cells that go through `f`. -/
theorem visits_modifyM (f : α → Except Fault α) (hcells : cells.Nodup)
    (hin : ∀ c ∈ cells, c.1 < g.rows ∧ c.2 < g.columns) :
    Visits (fun s c => s.modifyM c.1 c.2 f) (fun c => g.get c.1 c.2 >>= f) cells g where
  nodup := hcells
  inside := hin
  visit c hc s hs hget := by
    have hsame : s.get c.1 c.2 = g.get c.1 c.2 := by
      rw [get, get, hget, outside, outside, hs.1, hs.2]
    rw [modifyM, hsame]
    cases g.get c.1 c.2 <;> rfl

theorem visits_copy (other : Grid α) (hcells : cells.Nodup)
    (hin : ∀ c ∈ cells, c.1 < g.rows ∧ c.2 < g.columns) :
    Visits (fun s c => other.get c.1 c.2 >>= s.set c.1 c.2) (fun c => other.get c.1 c.2) cells g where
  nodup := hcells
  inside := hin
  visit _ _ _ _ _ := rfl

theorem mem_rectangle {rows columns i j : Nat} :
    (i, j) ∈ List.range rows ×ˢ List.range columns ↔ i < rows ∧ j < columns := by
  rw [List.mem_product, List.mem_range, List.mem_range]

theorem inside_of_mem_rectangle {rows columns : Nat} (hr : rows ≤ g.rows) (hc : columns ≤ g.columns) :
    ∀ c ∈ List.range rows ×ˢ List.range columns, c.1 < g.rows ∧ c.2 < g.columns := by
  intro c hmem
  obtain ⟨hi, hj⟩ := mem_rectangle.1 hmem
  exact ⟨hi.trans_le hr, hj.trans_le hc⟩

theorem nodup_rectangle (rows columns : Nat) : (List.range rows ×ˢ List.range columns).Nodup :=
  List.nodup_range.product List.nodup_range

theorem Replaces.holds (h' : Replaces value (List.range g.rows ×ˢ List.range g.columns) g h) :
    h.Holds (fun i j => value (i, j)) g.rows g.columns :=
  ⟨h'.extent, fun i j hi hj =>
    let ⟨x, hx, hget⟩ := h'.replaced (i, j) (mem_rectangle.2 ⟨hi, hj⟩)
    ⟨x, hget, hx⟩⟩

theorem Extent.holds_get {rows columns : Nat} (hg : g.Extent rows columns) :
    g.Holds g.get rows columns := by
  refine ⟨hg, fun i j hi hj => ?_⟩
  obtain ⟨x, hx⟩ := Option.isSome_iff_exists.1 (get?_isSome_iff.2 ⟨hg.1 ▸ hi, hg.2 ▸ hj⟩)
  exact ⟨x, hx, by rw [Grid.get, hx]⟩

theorem Holds.unique {rows columns : Nat} {cell : Nat → Nat → Except Fault α}
    (hg : g.Holds cell rows columns) (hh : h.Holds cell rows columns) : g = h := by
  refine ext_get? (hg.1.1.trans hh.1.1.symm) (hg.1.2.trans hh.1.2.symm) fun i j => ?_
  by_cases hin : i < rows ∧ j < columns
  · obtain ⟨x, hx, hcell⟩ := hg.2 i j hin.1 hin.2
    obtain ⟨y, hy, hcell'⟩ := hh.2 i j hin.1 hin.2
    rw [hx, hy, Except.ok.inj (hcell.symm.trans hcell')]
  · rw [get?_eq_none_iff.2 (by rw [hg.1.1, hg.1.2]; omega),
      get?_eq_none_iff.2 (by rw [hh.1.1, hh.1.2]; omega)]

theorem mapM_eq_ok_iff_holds {f : α → Except Fault α} :
    g.mapM f = .ok h ↔ h.Holds (fun i j => g.get i j >>= f) g.rows g.columns := by
  refine ofRowsM_eq_ok_iff_holds _ fun i row out hrow => ?_
  rw [← g.rectangular row (List.mem_of_getElem? hrow)]
  refine mapM_eq_ok_iff_holdsRow _ fun j x hx => ?_
  rw [get_eq_ok hrow hx]
  rfl

theorem failure?_cells {f : α → Except Fault α} :
    failure? (g.mapM f) = (List.range g.rows).findSome? fun i =>
      (List.range g.columns).findSome? fun j => failure? (g.get i j >>= f) := by
  rw [mapM, failure?_ofRowsM]
  refine findSome?_eq_range fun i row hrow => ?_
  rw [failure?_mapM, ← g.rectangular row (List.mem_of_getElem? hrow)]
  refine findSome?_eq_range fun j x hx => ?_
  rw [get_eq_ok hrow hx]
  rfl

end Grid

/-- Rows and columns of a matrix gone through, with nothing but the storage changed on the way: a walk
through its storage. -/
theorem Matrix.foldlM_rectangle {k : Raw} {m : Matrix k} (rows columns : Nat) (inner : Matrix k → Nat)
    (act : Matrix k → Nat → Nat → Outcome (Matrix k))
    (step : Grid k.Carrier → Nat → Nat → Except Fault (Grid k.Carrier))
    (hinner : ∀ s, inner (m.withStorage s) = columns)
    (hact : ∀ s i j, act (m.withStorage s) i j = (step s i j : Outcome _).map m.withStorage)
    (s : Grid k.Carrier) :
    (List.range rows).foldlM (fun m i => (List.range (inner m)).foldlM (fun m j => act m i j) m)
        (m.withStorage s) =
      (((List.range rows ×ˢ List.range columns).foldlM (fun s c => step s c.1 c.2) s :
        Except Fault _) : Outcome _).map m.withStorage := by
  rw [foldlM_product]
  refine foldlM_lift_map (fun s i => ?_) (List.range rows) s
  rw [hinner]
  exact foldlM_lift_map (fun s j => hact s i j) _ s

end UnitMatrix
