import UnitMatrix.Proofs.Csv.RoundTrip
import UnitMatrix.Proofs.Display.Cells
import UnitMatrix.Proofs.Display.Layout

/-! What can be known from the printed form. The text of an element is a number without blanks and a
unit behind a blank, so that number and unit are known from it; the texts of all elements are known from
the text of the matrix. A number that is not cut to some places is known from its text. So two matrices
are printed alike if and only if they have the same shape and, at every position, the same number and
the same powers of metre and second. -/

namespace UnitMatrix

theorem Raw.display_none (k : Raw) (x : k.Carrier) :
    k.display none x = k.text (fun _ => displayStyle) x := by
  have hfloat (f : Binary) (bits : Nat) :
      displayNumber f none bits = displayStyle.text f bits := by
    unfold displayNumber displayMagnitude NumberStyle.text showsMinus
    cases f.isNaN bits <;> cases f.isNegative bits <;> cases f.isFinite bits <;> rfl
  cases k with
  | double => exact hfloat _ _
  | single => exact hfloat _ _
  | signed | byte => rfl

/-- Digits before the point, and digits behind it if there is one. -/
theorem fixedText_cases (f : Binary) (magnitude places : Nat) : ∃ whole fraction : List Char,
    whole ≠ [] ∧ (∀ c ∈ whole ++ fraction, c.isDigit = true) ∧
      (fixedText f magnitude places = whole ∨
        fixedText f magnitude places = whole ++ '.' :: fraction) := by
  let shown := min places f.unitExponent
  let digits := Nat.toDigits 10 (f.fixed magnitude shown)
  let padded := NumberStyle.zeros (shown + 1 - digits.length) ++ digits
  have hlength : shown + 1 ≤ padded.length := by
    simp only [padded, NumberStyle.zeros, List.length_append, List.length_replicate]
    omega
  have hdigits : ∀ c ∈ padded, c.isDigit = true := fun c hc =>
    (List.mem_append.1 hc).elim isDigit_of_mem_zeros isDigit_of_mem_toDigits
  refine ⟨padded.take (padded.length - shown),
    padded.drop (padded.length - shown) ++ NumberStyle.zeros (places - shown), ?_, ?_, ?_⟩
  · rw [← List.length_pos_iff, List.length_take]
    omega
  · intro c hc
    rw [← List.append_assoc, List.take_append_drop] at hc
    exact (List.mem_append.1 hc).elim (hdigits c) isDigit_of_mem_zeros
  · rcases eq_or_ne places 0 with hplaces | hplaces
    · exact .inl (if_pos hplaces)
    · exact .inr (if_neg hplaces)

theorem displayNumber_chars (f : Binary) (places bits : Nat) :
    (∀ c ∈ displayNumber f (some places) bits, NumberChar c) ∧
      displayNumber f (some places) bits ≠ [] := by
  have hmagnitude : (∀ c ∈ displayMagnitude f (some places) bits, NumberChar c) ∧
      displayMagnitude f (some places) bits ≠ [] := by
    unfold displayMagnitude
    split
    · exact ⟨fun c hc => .inr ((by decide : ['N', 'a', 'N'] ⊆ _) hc), by simp⟩
    split
    · exact ⟨fun c hc => .inr ((by decide : ['i', 'n', 'f'] ⊆ _) hc), by simp⟩
    obtain ⟨whole, fraction, hne, hdigits, htext | htext⟩ :=
      fixedText_cases f (f.magnitude bits) places
    · dsimp only
      rw [htext]
      exact ⟨fun c hc => .inl (hdigits c (List.mem_append_left _ hc)), hne⟩
    · dsimp only
      rw [htext]
      refine ⟨fun c hc => ?_, by simp⟩
      rcases List.mem_append.1 hc with hc | hc
      · exact .inl (hdigits c (List.mem_append_left _ hc))
      · rcases List.mem_cons.1 hc with rfl | hc
        · exact .inr (by decide)
        · exact .inl (hdigits c (List.mem_append_right _ hc))
  refine ⟨fun c hc => ?_, List.append_ne_nil_of_right_ne_nil _ hmagnitude.2⟩
  exact (List.mem_append.1 hc).elim numberChar_sign (hmagnitude.1 c)

theorem Raw.display_chars (precision : Option Nat) (k : Raw) (x : k.Carrier) :
    (∀ c ∈ k.display precision x, NumberChar c) ∧ k.display precision x ≠ [] := by
  have hnone : (∀ c ∈ k.display none x, NumberChar c) ∧ k.display none x ≠ [] := by
    rw [k.display_none]
    exact ⟨fun _ => k.numberChar_text _ x, k.text_ne_nil _ x⟩
  cases precision with
  | none => exact hnone
  | some places =>
    cases k with
    | double => exact displayNumber_chars .binary64 places _
    | single => exact displayNumber_chars .binary32 places _
    | signed | byte => exact hnone

theorem Raw.display_none_inj {k : Raw} {x y : k.Carrier} (h : k.display none x = k.display none y) :
    x = y := by
  rw [k.display_none, k.display_none] at h
  have hread := k.read_text (fun _ => displayStyle) x
  rw [h, k.read_text] at hread
  exact (Except.ok.inj hread).symm

theorem not_numberChar : ∀ c ∈ [' ', 'm', 's', '/', ',', '[', ']'], ¬ NumberChar c := by
  intro c hc h
  have hnot : ∀ c ∈ [' ', 'm', 's', '/', ',', '[', ']'],
      c.isDigit = false ∧ c ∉ ['.', 'e', '-', '+', 'N', 'a', 'i', 'n', 'f'] := by
    simp [Char.isDigit]
  exact h.elim (fun hdigit => by simp [(hnot c hc).1] at hdigit) (hnot c hc).2

namespace Index

variable {e e' : Index} {k : Raw} {precision : Option Nat} {x y : k.Carrier} {text : String}

theorem exists_unit_of_cellText (h : e.cellText k precision x = .ok text) :
    ∃ unit, e.unitText = .ok unit ∧ text.toList = k.display precision x ++ unit := by
  obtain ⟨_, -, h⟩ := exists_of_bind_ok h
  obtain ⟨unit, hunit, h⟩ := exists_of_bind_ok h
  cases h
  exact ⟨unit, hunit, String.toList_ofList⟩

theorem unitText_congr (h : e.dimension = e'.dimension) : e.unitText = e'.unitText := by
  have hpowers : ∀ e : Index, e.unitText = (quantity e.dimension.1 e.dimension.2).unitText := by
    intro e
    cases e <;> rfl
  rw [hpowers e, hpowers e', h]

/-- Number and powers are known from the text of an element. -/
theorem cellText_faithful (h : e.cellText k precision x = .ok text) :
    text.toList.takeWhile (· ≠ ' ') = k.display precision x ∧
      Symbol.readPowers text.toList = e.dimension := by
  obtain ⟨unit, hunit, htext⟩ := exists_unit_of_cellText h
  have hnumber {c : Char} (hc : c ∈ [' ', 'm', 's', '/', ',', '[', ']']) :
      c ∉ k.display precision x :=
    fun hin => not_numberChar c hc ((k.display_chars precision x).1 c hin)
  rw [htext]
  refine ⟨takeWhile_append_eq (fun c hc => ?_) fun c hc => ?_, ?_⟩
  · exact decide_eq_true fun hblank => hnumber (by decide) (hblank ▸ hc)
  · simp [head_unitText hunit c hc]
  · exact readPowers_unitText hunit ⟨hnumber (by decide), hnumber (by decide), hnumber (by decide)⟩

theorem plain_of_cellText (h : e.cellText k precision x = .ok text) : Plain text.toList := by
  obtain ⟨unit, hunit, htext⟩ := exists_unit_of_cellText h
  obtain ⟨hchars, hne⟩ := k.display_chars precision x
  rw [htext]
  refine ⟨List.append_ne_nil_of_left_ne_nil hne _, fun c hc => ?_⟩
  have hunitChars : ∀ c ∈ unitChars, c ≠ ',' ∧ c ≠ '[' ∧ c ≠ ']' := by
    simp [unitChars, Symbol.marks]
  rcases List.mem_append.1 hc with hc | hc
  · refine ⟨?_, ?_, ?_⟩ <;> rintro rfl <;> exact not_numberChar _ (by decide) (hchars _ hc)
  · exact hunitChars c (mem_unitText hunit hc)

end Index

namespace Matrix

variable {k : Raw} {a b m : Matrix k} {precision : Option Nat} {texts s t : List (List String)}

theorem Prints.plainRows (h : m.Prints precision texts) (hl : m.frame.Listed) :
    PlainRows m.frame.columns.length texts := by
  refine ⟨?_, hl.2.1, h.columns, fun row hrow text htext => ?_⟩
  · rw [← List.length_pos_iff, h.rows]
    exact hl.1.1
  · obtain ⟨i, hi, rfl⟩ := List.mem_iff_getElem.1 hrow
    obtain ⟨j, hj, rfl⟩ := List.mem_iff_getElem.1 htext
    obtain ⟨e, x, text, -, -, hat, hcell⟩ :=
      h.cell i j (h.rows ▸ hi) (h.columns _ hrow ▸ hj)
    rw [List.getElem?_eq_getElem hi, Option.bind_some, List.getElem?_eq_getElem hj] at hat
    cases hat
    exact Index.plain_of_cellText hcell

/-- The same shape, and at every listed position the same powers of the units and the same number. -/
structure SameElements (a b : Matrix k) : Prop where
  rows : a.frame.rows.length = b.frame.rows.length
  columns : a.frame.columns.length = b.frame.columns.length
  dimension : ∀ i j, i < a.frame.rows.length → j < a.frame.columns.length →
    (a.frame.element? i j).map Index.dimension = (b.frame.element? i j).map Index.dimension
  number : ∀ i j, i < a.frame.rows.length → j < a.frame.columns.length →
    a.storage.get? i j = b.storage.get? i j

theorem Prints.shape_of_eq (ha : a.Prints precision texts) (hb : b.Prints precision texts)
    (hl : a.frame.Listed) : a.frame.rows.length = b.frame.rows.length ∧
      a.frame.columns.length = b.frame.columns.length := by
  obtain ⟨row, hrow⟩ := List.exists_mem_of_ne_nil texts (ha.plainRows hl).ne_nil
  exact ⟨ha.rows.symm.trans hb.rows, (ha.columns row hrow).symm.trans (hb.columns row hrow)⟩

theorem Prints.sameElements_of_eq (ha : a.Prints none texts) (hb : b.Prints none texts)
    (hl : a.frame.Listed) : a.SameElements b := by
  obtain ⟨hrows, hcolumns⟩ := ha.shape_of_eq hb hl
  have hcell {i j : Nat} (hi : i < a.frame.rows.length) (hj : j < a.frame.columns.length) :
      ∃ e e' x, a.frame.element? i j = some e ∧ b.frame.element? i j = some e' ∧
        e.dimension = e'.dimension ∧ a.storage.get? i j = some x ∧
          b.storage.get? i j = some x := by
    obtain ⟨e, x, text, he, hx, hat, htext⟩ := ha.cell i j hi hj
    obtain ⟨e', x', text', he', hx', hat', htext'⟩ := hb.cell i j (hrows ▸ hi) (hcolumns ▸ hj)
    cases hat.symm.trans hat'
    obtain ⟨hnumber, hpowers⟩ := Index.cellText_faithful htext
    obtain ⟨hnumber', hpowers'⟩ := Index.cellText_faithful htext'
    cases Raw.display_none_inj (hnumber.symm.trans hnumber')
    exact ⟨e, e', x, he, he', hpowers.symm.trans hpowers', hx, hx'⟩
  refine ⟨hrows, hcolumns, fun i j hi hj => ?_, fun i j hi hj => ?_⟩
  · obtain ⟨e, e', x, he, he', hdimension, -, -⟩ := hcell hi hj
    rw [he, he', Option.map_some, Option.map_some, hdimension]
  · obtain ⟨e, e', x, -, -, -, hx, hx'⟩ := hcell hi hj
    rw [hx, hx']

theorem Prints.eq_of_sameElements (ha : a.Prints precision s) (hb : b.Prints precision t)
    (h : a.SameElements b) : s = t := by
  refine List.ext_getElem (by rw [ha.rows, hb.rows, h.rows]) fun i hi hi' => ?_
  have hrow := ha.columns _ (List.getElem_mem hi)
  have hrow' := hb.columns _ (List.getElem_mem hi')
  refine List.ext_getElem (by rw [hrow, hrow', h.columns]) fun j hj hj' => ?_
  have hi₀ := ha.rows ▸ hi
  have hj₀ := hrow ▸ hj
  obtain ⟨e, x, text, he, hx, hat, htext⟩ := ha.cell i j hi₀ hj₀
  obtain ⟨e', x', text', he', hx', hat', htext'⟩ := hb.cell i j (hb.rows ▸ hi') (hrow' ▸ hj')
  have hdimension := h.dimension i j hi₀ hj₀
  have hnumber := h.number i j hi₀ hj₀
  rw [he, he', Option.map_some, Option.map_some, Option.some_inj] at hdimension
  rw [hx, hx', Option.some_inj] at hnumber
  -- a text is made of the number and of what the powers make of the unit
  have hsame : text = text' := by
    rw [Index.cellText, ← Index.unitText_congr hdimension, ← hnumber] at htext'
    exact Except.ok.inj (htext.symm.trans htext')
  rw [← hsame, ← hat, List.getElem?_eq_getElem hi, List.getElem?_eq_getElem hi', Option.bind_some,
    Option.bind_some, List.getElem?_eq_getElem hj, List.getElem?_eq_getElem hj'] at hat'
  exact (Option.some_inj.1 hat').symm

theorem layout_congr {f g : Frame} (h : f.columns.length = g.columns.length)
    (rows : List (List String)) : layout f rows = layout g rows := by
  have hcolumn : f.isColumn = g.isColumn := by rw [Frame.isColumn, Frame.isColumn, h]
  unfold layout
  rw [hcolumn]

/-- Two matrices whose storage goes as far as their lists, of any shapes and of any units that can be
written, among them all units with exponents above -128. Printed without a precision they are the same
text if and only if they have the same elements; and printed with any precision that there is, if and
only if they have the same shape and the texts of all their elements are the same. -/
theorem display_faithful (ha : a.Backed) (hb : b.Backed)
    (hl : a.frame.Listed ∧ b.frame.Listed) (hheld : a.frame.HeldBy k ∧ b.frame.HeldBy k)
    (hprint : a.frame.Printable ∧ b.frame.Printable) :
    (∃ s t, a.display none = .ok s ∧ b.display none = .ok t ∧ (s = t ↔ a.SameElements b)) ∧
    ∀ precision : Option Nat, precision.getD 0 < Nat.pow 2 16 →
      ∃ s t texts texts', a.display precision = .ok s ∧ b.display precision = .ok t ∧
        a.cells precision = .ok texts ∧ b.cells precision = .ok texts' ∧
          (s = t ↔ a.frame.rows.length = b.frame.rows.length ∧
            a.frame.columns.length = b.frame.columns.length ∧ texts = texts') := by
  have hcells {precision : Option Nat} (hrange : precision.getD 0 < Nat.pow 2 16) :
      ∃ texts texts', a.cells precision = .ok texts ∧ b.cells precision = .ok texts' ∧
        a.display precision = .ok (layout a.frame texts) ∧
          b.display precision = .ok (layout b.frame texts') ∧
            a.Prints precision texts ∧ b.Prints precision texts' := by
    obtain ⟨texts, htexts⟩ := exists_cells ha hheld.1 hrange hprint.1
    obtain ⟨texts', htexts'⟩ := exists_cells hb hheld.2 hrange hprint.2
    refine ⟨texts, texts', htexts, htexts', ?_, ?_, prints_of_cells hheld.1 htexts,
      prints_of_cells hheld.2 htexts'⟩
    · rw [display_eq hheld.1 hrange, htexts]
      rfl
    · rw [display_eq hheld.2 hrange, htexts']
      rfl
  constructor
  · obtain ⟨texts, texts', -, -, hs, ht, hpa, hpb⟩ := hcells (show (none : Option Nat).getD 0 < Nat.pow 2 16 by decide)
    refine ⟨_, _, hs, ht, fun h => ?_, fun h => ?_⟩
    · cases layout_inj (hpa.plainRows hl.1) (hpb.plainRows hl.2) h
      exact hpa.sameElements_of_eq hpb hl.1
    · rw [hpa.eq_of_sameElements hpb h, layout_congr h.columns]
  · intro precision hrange
    obtain ⟨texts, texts', htexts, htexts', hs, ht, hpa, hpb⟩ := hcells hrange
    refine ⟨_, _, texts, texts', hs, ht, htexts, htexts', fun h => ?_, fun h => ?_⟩
    · cases layout_inj (hpa.plainRows hl.1) (hpb.plainRows hl.2) h
      obtain ⟨hrows, hcolumns⟩ := hpa.shape_of_eq hpb hl.1
      exact ⟨hrows, hcolumns, rfl⟩
    · rw [h.2.2, layout_congr h.2.1]

/-- The same elements under other lists, and a zero of the other sign under the same lists. -/
theorem display_faithful_of_zeros :
    let x : Nat → Raw.Carrier .double := Floating.ofBits
    let a : Matrix .double := ⟨.fixed, ⟨[.identity], [.quantity 16 (-16), .double]⟩,
      ⟨2, [[x 0x7FF8000000000000, x 0]], by decide⟩⟩
    let b : Matrix .double := ⟨.dynamic, ⟨[.double], [.quantity 16 (-16), .quantity 0 0]⟩,
      ⟨2, [[x 0x7FF8000000000000, x 0]], by decide⟩⟩
    let c : Matrix .double := ⟨.fixed, a.frame,
      ⟨2, [[x 0x7FF8000000000000, x 0x8000000000000000]], by decide⟩⟩
    (a.Backed ∧ b.Backed ∧ c.Backed) ∧ (a.frame.Listed ∧ b.frame.Listed) ∧
      (a.frame.HeldBy .double ∧ b.frame.HeldBy .double) ∧
        (a.frame.Printable ∧ b.frame.Printable) ∧
          (∃ s, a.display none = .ok s ∧ b.display none = .ok s) ∧
            ∃ s t, a.display none = .ok s ∧ c.display none = .ok t ∧ s ≠ t := by
  intro x a b c
  have hlisted : a.frame.Listed ∧ b.frame.Listed := by
    constructor <;> exact ⟨⟨le_rfl, by decide⟩, by decide, by decide⟩
  have hheld : a.frame.HeldBy .double ∧ b.frame.HeldBy .double := by decide
  have hprint : a.frame.Printable ∧ b.frame.Printable := by
    constructor <;> intro i j e he <;>
      match i, j, he with
      | 0, 0, he | 0, 1, he =>
        cases he
        decide
  have hbacked : a.Backed ∧ b.Backed ∧ c.Backed := by decide
  obtain ⟨⟨s, t, hs, ht, hst⟩, -⟩ := display_faithful hbacked.1 hbacked.2.1 hlisted hheld hprint
  obtain ⟨⟨s', u, hs', hu, hsu⟩, -⟩ := display_faithful hbacked.1 hbacked.2.2
    ⟨hlisted.1, hlisted.1⟩ ⟨hheld.1, hheld.1⟩ ⟨hprint.1, hprint.1⟩
  have hsame : a.SameElements b := by
    refine ⟨rfl, rfl, fun i j hi hj => ?_, fun i j _ _ => rfl⟩
    match i, j, hi, hj with
    | 0, 0, _, _ | 0, 1, _, _ => rfl
  have hzeros : x 0 ≠ x 0x8000000000000000 := by decide
  refine ⟨hbacked, hlisted, hheld, hprint, ⟨s, hs, by rw [ht, hst.2 hsame]⟩, s', u, hs', hu, ?_⟩
  intro h
  exact hzeros (Option.some_inj.1 ((hsu.1 h).number 0 1 (by decide) (by decide)))

end Matrix

end UnitMatrix
