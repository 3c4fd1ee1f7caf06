import UnitMatrix.Proofs.Matrix.Fits

/-! Making matrices. Where a type asks for storage of the extent of its lists, there are zeros of this
extent at first, and what is written into them is written within it: rows and elements are counted
before they are stored. So no construction stops because of a shape, unless storage is handed over
as it is. -/

namespace UnitMatrix

namespace Matrix

variable {k : Raw} {f : Frame} {m : Matrix k} {E : Fault → Prop}

theorem On.put (h : m.On f) {i j : Nat} (hi : i < f.rows.length) (hj : j < f.columns.length)
    (x : k.Carrier) : Ensures (m.put i j x) (fun m' => m'.On f) E := by
  rw [put_eq]
  exact .map ((h.2.set hi hj x).mono (fun _ hs => ⟨h.1, hs⟩) fun _ he => he)

theorem On.putRow (h : m.On f) {i : Nat} (hi : i < f.rows.length) {row : List k.Carrier}
    (hrow : row.length = f.columns.length) : Ensures (m.putRow i row) (fun m' => m'.On f) E := by
  refine .foldlM (fun m' p hp hm' => hm'.put hi ?_ p.1) h
  have := List.snd_lt_of_mem_zipIdx hp
  omega

theorem On.putRows (h : m.On f) {rows : List (List k.Carrier)} (hl : rows.length = f.rows.length)
    (hrows : ∀ row ∈ rows, row.length = f.columns.length) :
    Ensures (m.putRows rows) (fun m' => m'.On f) E := by
  refine .foldlM (fun m' p hp hm' => hm'.putRow ?_ (hrows p.1 (List.fst_mem_of_mem_zipIdx hp))) h
  have := List.snd_lt_of_mem_zipIdx hp
  omega

/-- In a vector one extent is one, and the product of both counts the elements. -/
theorem flatPosition_lt (hf : f.isVector = true) {n : Nat}
    (hn : n < f.rows.length * f.columns.length) :
    (f.flatPosition n).1 < f.rows.length ∧ (f.flatPosition n).2 < f.columns.length := by
  simp only [Frame.isVector, Frame.isRow, Frame.isColumn, Bool.or_eq_true, beq_iff_eq] at hf
  unfold Frame.flatPosition
  split
  next hc =>
    rw [hc] at hn ⊢
    exact ⟨by omega, Nat.one_pos⟩
  next hc =>
    have hr : f.rows.length = 1 := hf.resolve_right hc
    rw [hr] at hn ⊢
    exact ⟨Nat.one_pos, by omega⟩

theorem On.putVector (h : m.On f) (hf : f.isVector = true) {values : List k.Carrier}
    (hl : values.length = f.rows.length * f.columns.length) :
    Ensures (m.putVector values) (fun m' => m'.On f) E := by
  refine .foldlM (fun m' p hp hm' => ?_) h
  have hn := List.snd_lt_of_mem_zipIdx hp
  obtain ⟨hi, hj⟩ := flatPosition_lt (n := p.2) hf (by omega)
  rw [hm'.1]
  exact hm'.put hi hj p.1

end Matrix

/-- Storage of a fixed shape is asked for in the extent of the lists. -/
def MatrixType.Covers (t : MatrixType) : Prop :=
  match t.store with
  | .fixed rows columns => rows = t.frame.rows.length ∧ columns = t.frame.columns.length
  | .dynamic => True

namespace MatrixType

variable {t : MatrixType} {rows : List (List t.raw.Carrier)} {values : List t.raw.Carrier}

theorem ensures_zeros (ht : t.Covers) {E : Fault → Prop} :
    Ensures t.zeros (fun m => m.On t.frame) E := by
  have hs := Grid.extent_replicate t.frame.rows.length t.frame.columns.length
    (Arithmetic.zero : t.raw.Carrier)
  unfold zeros
  unfold Covers at ht
  cases h : t.store with
  | fixed r c =>
    rw [h] at ht
    dsimp only
    rw [if_pos ⟨ht.1.symm, ht.2.symm⟩]
    exact ⟨rfl, hs⟩
  | dynamic => exact ⟨rfl, hs⟩

theorem shaped_zeros (ht : t.Covers) {fill : Matrix t.raw → Outcome (Matrix t.raw)}
    (hfill : ∀ m, m.On t.frame → Shaped (fill m) fun m' => m'.On t.frame) :
    Shaped ((t.zeros : Outcome (Matrix t.raw)) >>= fill) fun m => m.On t.frame :=
  (Shaped.lift (ensures_zeros ht)).bind hfill

theorem shaped_identity (ht : t.Covers) : Shaped t.identity fun m => m.On t.frame := by
  apply Shaped.require
  intro hsquare
  refine shaped_zeros ht fun m hm => ?_
  refine .foldlM (fun m' i hi hm' => .lift (hm'.put (List.mem_range.1 hi) ?_ _)) hm
  have := List.mem_range.1 hi
  omega

theorem shaped_ofRawRows (ht : t.Covers) : Shaped (t.ofRawRows rows) fun m => m.On t.frame := by
  unfold ofRawRows
  split
  next => exact fun h => h
  next hl =>
    refine shaped_zeros ht fun m hm => .foldlM (fun m' p hp hm' => ?_) hm
    split
    next => exact fun h => h
    next hc =>
      have := List.snd_lt_of_mem_zipIdx hp
      exact .lift (hm'.putRow (by omega) (by omega))

theorem shaped_ofFixedRows (ht : t.Covers) :
    Shaped (t.ofFixedRows rows) fun m => m.On t.frame := by
  apply Shaped.demand
  intro _ _
  apply Shaped.require
  rintro ⟨hl, hrows⟩
  exact shaped_zeros ht fun m hm => .lift (hm.putRows hl hrows)

theorem shaped_ofRows (ht : t.Covers) : Shaped (t.ofRows rows) fun m => m.On t.frame := by
  apply Shaped.demand
  intro _ _
  dsimp only
  split
  next => exact fun h => h
  next hl =>
    split
    next => exact fun h => h
    next hnone =>
      have hrows : ∀ row ∈ rows, row.length = t.frame.columns.length := fun row hrow => by
        obtain ⟨i, hi⟩ := List.getElem?_of_mem hrow
        have := List.find?_eq_none.1 hnone (row, i) (List.mk_mem_zipIdx_iff_getElem?.2 hi)
        simpa using this
      exact shaped_zeros ht fun m hm => .lift (hm.putRows (by omega) hrows)

theorem shaped_ofArray (ht : t.Covers) : Shaped (t.ofArray values) fun m => m.On t.frame := by
  apply Shaped.require
  intro hf
  apply Shaped.demand
  intro _ _
  apply Shaped.require
  intro hl
  exact shaped_zeros ht fun m hm => .lift (hm.putVector hf hl)

theorem shaped_ofValues (ht : t.Covers) : Shaped (t.ofValues values) fun m => m.On t.frame := by
  apply Shaped.require
  intro hf
  apply Shaped.require
  intro _
  apply Shaped.require
  intro hl
  exact shaped_zeros ht fun m hm => .lift (hm.putVector hf hl)

theorem shaped_ofValue (ht : t.Covers) (x : t.raw.Carrier) :
    Shaped (t.ofValue x) fun m => m.On t.frame := by
  refine .require fun h => shaped_zeros ht fun m hm => .lift (hm.put ?_ ?_ x)
  all_goals simp_all [Frame.isSingleton, Frame.isRow, Frame.isColumn]

theorem shaped_ofCompatible (ht : t.Covers) (hl : t.frame.Listed) {other : Matrix t.raw}
    (ho : other.Fits) : Shaped (t.ofCompatible other) fun m => m.On t.frame := by
  apply Shaped.require
  intro h
  refine shaped_zeros ht fun m hm => ?_
  obtain ⟨hr, hc⟩ := Frame.lengths_of_compatible hl.1.1 h
  have hs : other.storage.Extent t.frame.rows.length t.frame.columns.length := by
    rw [hr, hc]
    exact ho.extent
  refine .foldlM (fun m₁ i hi h₁ => .foldlM (fun m₂ j hj h₂ => ?_) h₁) hm
  rw [List.mem_range] at hi hj
  simp only [Backend.get_eq]
  exact (Shaped.lift (hs.get hi hj)).bind fun x _ => .lift (h₂.put hi hj x)

theorem shaped_ofCsv (ht : t.Covers) (bytes : List UInt8) :
    Shaped (t.ofCsv bytes) fun m => m.On t.frame := by
  unfold ofCsv
  split
  next => exact fun h => h
  next => exact fun h => h
  next => exact shaped_ofRawRows ht

theorem shaped_ofJson (ht : t.Covers) (r : Json.Rounding) (text : List Char) :
    Shaped (t.ofJson r text) fun m => m.On t.frame := by
  refine (Shaped.mapError (f := Failure.json) fun _ h => h).bind fun p _ => ?_
  refine Ensures.bind (P := fun m => m.On t.frame) (.mapError ?_) fun m hm => ?_
  · refine Ensures.mono (shaped_ofRawRows ht) (fun _ h => h) fun e he => ?_
    cases e <;> exact he
  · exact (Shaped.mapError (f := Failure.json) fun _ h => h).bind fun _ _ => hm

theorem shaped_ofStorage (hl : t.frame.Listed) (hr : rows.length = t.frame.rows.length)
    (hc : ∀ row ∈ rows, row.length = t.frame.columns.length) :
    Shaped (t.ofStorage rows) fun m => m.On t.frame := by
  have hs {columns : Nat} {storage : Grid t.raw.Carrier}
      (h : Grid.ofRows? columns rows = some storage) :
      storage.Extent t.frame.rows.length t.frame.columns.length := by
    obtain ⟨hrect, hstorage⟩ := Option.dite_none_right_eq_some.1 h
    cases hstorage
    obtain ⟨row, hrow⟩ := List.exists_mem_of_length_pos (l := rows) (by have := hl.1.1; omega)
    exact ⟨hr, (hrect row hrow).symm.trans (hc row hrow)⟩
  unfold ofStorage
  split
  next => exact .require fun _ => .demand fun _ h => ⟨rfl, hs h⟩
  next => exact .demand fun _ h => ⟨rfl, hs h⟩

end MatrixType

end UnitMatrix
