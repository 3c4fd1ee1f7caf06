import UnitMatrix.Display.Table
import UnitMatrix.Proofs.Display.UnitSymbols
import UnitMatrix.Proofs.Grid.Cellwise
import UnitMatrix.Proofs.Matrix.Backing

/-! The texts of the elements of a matrix whose storage goes as far as its lists. There are such texts
for the whole matrix exactly if there is one for every element. For an element there is none in two
cases, that the places asked for are too many for any number, and that its unit has a power that cannot
be negated. The table asks for no places, so that it has only the second case. -/

namespace UnitMatrix

theorem checkPrecision_cases (precision : Option Nat) :
    (precision.getD 0 < Nat.pow 2 16 → checkPrecision precision = .ok ()) ∧
      (¬ precision.getD 0 < Nat.pow 2 16 → checkPrecision precision = .error .formatRange) :=
  ⟨fun h => if_pos h, fun h => if_neg h⟩

namespace Index

variable {e : Index} {k : Raw} {precision : Option Nat} {x : k.Carrier}

theorem cellText_of_printable (hrange : precision.getD 0 < Nat.pow 2 16) (he : e.Printable) :
    ∃ unit, e.unitText = .ok unit ∧
      e.cellText k precision x = .ok (String.ofList (k.display precision x ++ unit)) := by
  obtain ⟨unit, hunit⟩ := (unitText_cases e).1 he
  refine ⟨unit, hunit, ?_⟩
  rw [cellText, (checkPrecision_cases precision).1 hrange, hunit]
  rfl

theorem cellText_of_not_inRange (hrange : ¬ precision.getD 0 < Nat.pow 2 16) :
    e.cellText k precision x = .error .formatRange := by
  rw [cellText, (checkPrecision_cases precision).2 hrange]
  rfl

theorem cellText_of_not_printable (hrange : precision.getD 0 < Nat.pow 2 16) (he : ¬ e.Printable) :
    e.cellText k precision x = .error (.overflow .negate) := by
  rw [cellText, (checkPrecision_cases precision).1 hrange, (unitText_cases e).2 he]
  rfl

end Index

namespace Frame

variable {f : Frame} {k : Raw}

def Printable (f : Frame) : Prop := ∀ i j e, f.element? i j = some e → e.Printable

theorem HeldBy.exists_grid (h : f.HeldBy k) : ∃ grid, f.grid? = some grid := by
  rw [HeldBy] at h
  cases hgrid : f.grid? with
  | none =>
    rw [hgrid] at h
    cases h
  | some grid => exact ⟨grid, rfl⟩

end Frame

theorem Grid.get?_of_get {α : Type} {g : Grid α} {i j : Nat} {x : α} (h : g.get i j = .ok x) :
    g.get? i j = some x := by
  rw [get] at h
  split at h
  next y hy =>
    cases h
    exact hy
  next => cases h

namespace Matrix

variable {k : Raw} {m : Matrix k} {precision : Option Nat} {texts : List (List String)}

/-- These are the texts of the elements, one for each listed position. -/
structure Prints (m : Matrix k) (precision : Option Nat) (texts : List (List String)) : Prop where
  rows : texts.length = m.frame.rows.length
  columns : ∀ row ∈ texts, row.length = m.frame.columns.length
  cell : ∀ i j, i < m.frame.rows.length → j < m.frame.columns.length → ∃ e x text,
    m.frame.element? i j = some e ∧ m.storage.get? i j = some x ∧
      texts[i]?.bind (·[j]?) = some text ∧ e.cellText k precision x = .ok text

theorem cells_eq (h : m.frame.HeldBy k) {grid : List IndexList} (hgrid : m.frame.grid? = some grid) :
    m.cells precision = (m.cellTexts grid precision : Outcome _) := by
  rw [cells, require, if_pos h, hgrid]
  rfl

theorem exists_row_of_cellTexts {grid : List IndexList}
    (h : m.cellTexts grid precision = .ok texts) {i : Nat} {types : IndexList}
    (hi : grid[i]? = some types) :
    ∃ row, texts[i]? = some row ∧ row.length = types.length ∧
      ∀ (j : Nat) (e : Index), types[j]? = some e → ∃ x text, m.storage.get? i j = some x ∧
        row[j]? = some text ∧ e.cellText k precision x = .ok text := by
  obtain ⟨row, hrow, hcells⟩ := exists_of_mapM_ok h
    (show grid.zipIdx[i]? = some (types, i) by simp [hi])
  obtain ⟨hl, hcell⟩ := mapM_eq_ok_iff.1 hcells
  refine ⟨row, hrow, by rw [hl, List.length_zipIdx], fun j e hj => ?_⟩
  obtain ⟨text, htext, he⟩ := hcell j (e, j) (by simp [hj])
  obtain ⟨x, hx, hwritten⟩ := exists_of_bind_ok he
  rw [Backend.get_eq] at hx
  exact ⟨x, text, Grid.get?_of_get hx, htext, hwritten⟩

theorem prints_of_cells (h : m.frame.HeldBy k) (hcells : m.cells precision = .ok texts) :
    m.Prints precision texts := by
  obtain ⟨grid, hgrid⟩ := h.exists_grid
  rw [cells_eq h hgrid] at hcells
  have htexts := of_lift_ok hcells
  have hl := (mapM_eq_some hgrid).1
  have hrows : texts.length = m.frame.rows.length := by
    rw [(mapM_eq_ok_iff.1 htexts).1, List.length_zipIdx, hl]
  -- the element types of a row are as many as the columns
  have htypes {i : Nat} (hi : i < m.frame.rows.length) : ∃ types : IndexList,
      grid[i]? = some types ∧ types.length = m.frame.columns.length := by
    have hat := List.getElem?_eq_getElem (hl.symm ▸ hi)
    obtain ⟨r, -, hrow⟩ := exists_of_mapM_eq_some hgrid hat
    exact ⟨_, hat, (mapM_eq_some hrow).1⟩
  refine ⟨hrows, fun row hrow => ?_, fun i j hi hj => ?_⟩
  · obtain ⟨i, hi, rfl⟩ := List.mem_iff_getElem.1 hrow
    obtain ⟨types, hat, hcolumns⟩ := htypes (hrows ▸ hi)
    obtain ⟨row, hrow, hlength, -⟩ := exists_row_of_cellTexts htexts hat
    rw [(List.getElem?_eq_some_iff.1 hrow).2, hlength, hcolumns]
  · obtain ⟨types, hat, hcolumns⟩ := htypes hi
    obtain ⟨row, hrow, -, hcell⟩ := exists_row_of_cellTexts htexts hat
    obtain ⟨x, text, hx, htext, hwritten⟩ :=
      hcell j _ (List.getElem?_eq_getElem (hcolumns.symm ▸ hj))
    refine ⟨_, x, text, ?_, hx, by rw [hrow]; exact htext, hwritten⟩
    rw [Frame.element?_eq_of_grid? hgrid, hat, Option.bind_some, List.getElem?_eq_getElem]

/-- Where the texts cannot be had, one element has none. -/
theorem exists_of_cells_error (hm : m.Backed) (h : m.frame.HeldBy k) {e : Failure}
    (hcells : m.cells precision = .error e) :
    ∃ i j type x fault, i < m.frame.rows.length ∧ j < m.frame.columns.length ∧
      m.frame.element? i j = some type ∧
        type.cellText k precision x = .error fault ∧ e = .fault fault := by
  obtain ⟨grid, hgrid⟩ := h.exists_grid
  have hstops : Ensures (m.cellTexts grid precision) (fun _ => True) fun fault =>
      ∃ i j type x, i < m.frame.rows.length ∧ j < m.frame.columns.length ∧
        m.frame.element? i j = some type ∧ type.cellText k precision x = .error fault := by
    refine Grid.ensures_row fun r hr => Grid.ensures_row fun c hc => ?_
    rw [List.mem_zipIdx_iff_getElem?] at hr hc
    have htype : m.frame.element? r.2 c.2 = some c.1 := by
      rw [Frame.element?_eq_of_grid? hgrid, hr]
      exact hc
    obtain ⟨row, column, hrow, hcolumn, -⟩ := element?_eq_some_iff.1 htype
    have hi := (List.getElem?_eq_some_iff.1 hrow).1
    have hj := (List.getElem?_eq_some_iff.1 hcolumn).1
    obtain ⟨x, hx⟩ := hm.exists_get hi hj
    rw [Backend.get_eq, hx]
    show Ensures (c.1.cellText k precision x) _ _
    cases hcell : c.1.cellText k precision x with
    | ok text => trivial
    | error fault => exact ⟨r.2, c.2, c.1, x, hi, hj, htype, hcell⟩
  rw [cells_eq h hgrid] at hcells
  cases htexts : m.cellTexts grid precision with
  | ok texts =>
    rw [htexts] at hcells
    cases hcells
  | error fault =>
    rw [htexts] at hcells hstops
    cases hcells
    obtain ⟨i, j, type, x, hi, hj, htype, hcell⟩ := hstops
    exact ⟨i, j, type, x, fault, hi, hj, htype, hcell, rfl⟩

section

variable (hm : m.Backed) (hl : m.frame.Listed) (hheld : m.frame.HeldBy k)

include hm hheld

theorem exists_cells (hrange : precision.getD 0 < Nat.pow 2 16) (hprint : m.frame.Printable) :
    ∃ texts, m.cells precision = .ok texts := by
  cases hcells : m.cells precision with
  | ok texts => exact ⟨texts, rfl⟩
  | error e =>
    obtain ⟨i, j, type, x, fault, -, -, htype, hcell, -⟩ := exists_of_cells_error hm hheld hcells
    obtain ⟨unit, -, hok⟩ := Index.cellText_of_printable hrange (hprint i j type htype)
    cases hok.symm.trans hcell

theorem cells_of_not_printable (hrange : precision.getD 0 < Nat.pow 2 16)
    (hprint : ¬ m.frame.Printable) : m.cells precision = .error (.fault (.overflow .negate)) := by
  cases hcells : m.cells precision with
  | ok texts =>
    refine absurd (fun i j e he => ?_) hprint
    obtain ⟨r, c, hr, hc, -⟩ := element?_eq_some_iff.1 he
    obtain ⟨e', x, text, he', -, -, hcell⟩ := (prints_of_cells hheld hcells).cell i j
      (List.getElem?_eq_some_iff.1 hr).1 (List.getElem?_eq_some_iff.1 hc).1
    cases he.symm.trans he'
    by_contra hnot
    cases (Index.cellText_of_not_printable hrange hnot).symm.trans hcell
  | error e =>
    obtain ⟨i, j, type, x, fault, -, -, -, hcell, rfl⟩ := exists_of_cells_error hm hheld hcells
    -- the one that fails is not printable
    have hnot : ¬ type.Printable := fun h => by
      obtain ⟨unit, -, hok⟩ := Index.cellText_of_printable hrange h
      cases hok.symm.trans hcell
    cases (Index.cellText_of_not_printable hrange hnot).symm.trans hcell
    rfl

include hl

theorem cells_of_not_inRange (hrange : ¬ precision.getD 0 < Nat.pow 2 16) :
    m.cells precision = .error (.fault .formatRange) := by
  cases hcells : m.cells precision with
  | ok texts =>
    obtain ⟨e, x, text, -, -, -, hcell⟩ :=
      (prints_of_cells hheld hcells).cell 0 0 hl.1.1 hl.2.1
    cases (Index.cellText_of_not_inRange hrange).symm.trans hcell
  | error e =>
    obtain ⟨i, j, type, x, fault, -, -, -, hcell, rfl⟩ := exists_of_cells_error hm hheld hcells
    cases (Index.cellText_of_not_inRange hrange).symm.trans hcell
    rfl

end

theorem display_eq (hheld : m.frame.HeldBy k) (hrange : precision.getD 0 < Nat.pow 2 16) :
    m.display precision = (m.cells precision).map (layout m.frame) := by
  rw [display, require, if_pos hheld, (checkPrecision_cases precision).1 hrange]
  cases m.cells precision <;> rfl

theorem display_of_not_inRange (hheld : m.frame.HeldBy k)
    (hrange : ¬ precision.getD 0 < Nat.pow 2 16) :
    m.display precision = .error (.fault .formatRange) := by
  rw [display, require, if_pos hheld, (checkPrecision_cases precision).2 hrange]
  rfl

theorem table_eq : m.table = (m.cells none).map (Table.render m.frame.columns.length) := by
  rw [table]
  cases m.cells none <;> rfl

/-- A matrix whose storage goes as far as its lists is written in all three ways if no unit of it has a
power to negate that has no negation, and otherwise in none. So it is with as many places as sixteen
bits can count; with more places there is a fault in any case, and a table has no places. -/
theorem formatting_cases (hm : m.Backed) (hl : m.frame.Listed) (hheld : m.frame.HeldBy k)
    (precision : Option Nat) :
    (precision.getD 0 < Nat.pow 2 16 → m.frame.Printable →
      (∃ texts, m.cells precision = .ok texts) ∧ ∃ text, m.display precision = .ok text) ∧
    (m.frame.Printable → ∃ text, m.table = .ok text) ∧
    (precision.getD 0 < Nat.pow 2 16 → ¬ m.frame.Printable →
      m.cells precision = .error (.fault (.overflow .negate)) ∧
        m.display precision = .error (.fault (.overflow .negate))) ∧
    (¬ m.frame.Printable → m.table = .error (.fault (.overflow .negate))) ∧
    (¬ precision.getD 0 < Nat.pow 2 16 →
      m.cells precision = .error (.fault .formatRange) ∧
        m.display precision = .error (.fault .formatRange)) := by
  have hnone : (none : Option Nat).getD 0 < Nat.pow 2 16 := by decide
  refine ⟨fun hrange hprint => ?_, fun hprint => ?_, fun hrange hprint => ?_, fun hprint => ?_,
    fun hrange => ⟨cells_of_not_inRange hm hl hheld hrange, display_of_not_inRange hheld hrange⟩⟩
  · obtain ⟨texts, htexts⟩ := exists_cells hm hheld hrange hprint
    exact ⟨⟨texts, htexts⟩, _, by rw [display_eq hheld hrange, htexts]; rfl⟩
  · obtain ⟨texts, htexts⟩ := exists_cells hm hheld hnone hprint
    exact ⟨_, by rw [table_eq, htexts]; rfl⟩
  · have hcells := cells_of_not_printable hm hheld hrange hprint
    exact ⟨hcells, by rw [display_eq hheld hrange, hcells]; rfl⟩
  · rw [table_eq, cells_of_not_printable hm hheld hnone hprint]
    rfl

/-- The ends of the signed bytes, with the most places there are; and a power without a negation. -/
theorem formatting_cases_of_ends :
    let m : Matrix .double := ⟨.fixed, ⟨[.identity], [.quantity 127 (-127), .quantity (-128) (-1)]⟩,
      ⟨2, [[1, 2]], by decide⟩⟩
    let unwritten : Matrix .double := ⟨.fixed, ⟨[.identity], [.quantity (-128) 0]⟩,
      ⟨1, [[1]], by decide⟩⟩
    (m.Backed ∧ m.frame.Listed ∧ m.frame.HeldBy .double ∧ m.frame.Printable) ∧
      (unwritten.Backed ∧ unwritten.frame.Listed ∧ unwritten.frame.HeldBy .double ∧
        ¬ unwritten.frame.Printable) ∧
      (∃ text, m.display (some 65535) = .ok text) ∧ (∃ text, m.table = .ok text) ∧
        m.cells (some 65536) = .error (.fault .formatRange) ∧
          unwritten.display none = .error (.fault (.overflow .negate)) := by
  intro m unwritten
  have hlisted : m.frame.Listed ∧ unwritten.frame.Listed := by
    constructor <;> exact ⟨⟨le_rfl, by decide⟩, by decide, by decide⟩
  have hm : m.Backed := by decide
  have hunwritten : unwritten.Backed := by decide
  have hheld : m.frame.HeldBy .double ∧ unwritten.frame.HeldBy .double := by decide
  have hprint : m.frame.Printable := fun i j e he => by
    match i, j, he with
    | 0, 0, he | 0, 1, he =>
      cases he
      decide
  have hnot : ¬ unwritten.frame.Printable := fun h => absurd (h 0 0 _ rfl) (by decide)
  obtain ⟨hwritten, htable, -, -, -⟩ := formatting_cases hm hlisted.1 hheld.1 (some 65535)
  obtain ⟨-, -, -, -, hplaces⟩ := formatting_cases hm hlisted.1 hheld.1 (some 65536)
  obtain ⟨-, -, hfault, -, -⟩ := formatting_cases hunwritten hlisted.2 hheld.2 none
  exact ⟨⟨hm, hlisted.1, hheld.1, hprint⟩, ⟨hunwritten, hlisted.2, hheld.2, hnot⟩,
    (hwritten (by decide) hprint).2, htable hprint, (hplaces (by decide)).1,
    (hfault (by decide) hnot).2⟩

/-- The text of an infinity has no places, and still it is not written with more of them than sixteen
bits can count. -/
theorem not_forall_exists_cells :
    ¬ ∀ (m : Matrix .double) (precision : Option Nat), m.Backed → m.frame.Valid →
      m.frame.HeldBy .double → ∃ texts, m.cells precision = .ok texts := by
  intro h
  let m : Matrix .double := ⟨.fixed, ⟨[.quantity 1 0], [.identity]⟩,
    ⟨1, [[Floating.ofBits 0x7FF0000000000000]], by decide⟩⟩
  have hcells : m.cells (some 65536) = .error (.fault .formatRange) := rfl
  obtain ⟨texts, htexts⟩ := h m (some 65536) (by decide) (by decide) (by decide)
  cases hcells.symm.trans htexts

end Matrix

end UnitMatrix
