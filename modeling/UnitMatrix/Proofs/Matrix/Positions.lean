import UnitMatrix.Proofs.Matrix.Fits
import UnitMatrix.Program.Session

/-! Single elements of matrices that fit. A place that lies within the lists is within the storage,
and so are all places that a whole matrix is read from. What remains are positions that are known
only when running: outside the storage they are the one reason for a fault of shape. -/

namespace UnitMatrix

namespace Place

def position? (f : Frame) : Place → Option (Nat × Nat)
  | .cell i j => some (i, j)
  | .flat n => some (f.flatPosition n)
  | .listed _ _ | .entry _ | .sole => none

end Place

def Query.position? (f : Frame) : Query → Option (Nat × Nat)
  | .element place => place.position? f
  | .number i j => some (i, j)
  | _ => none

def Update.position? (f : Frame) : Update → Option (Nat × Nat)
  | .write place _ | .increase place _ => place.position? f
  | .rawWrite i j _ => some (i, j)
  | _ => none

namespace Frame

variable {f : Frame} {k : Raw} {site : Site}

theorem lt_of_heldAt? {i j : Nat} (h : f.heldAt? k i j = some site) :
    site.row < f.rows.length ∧ site.column < f.columns.length := by
  obtain ⟨e, he, rfl⟩ := Option.map_eq_some_iff.1 h
  obtain ⟨r, c, hr, hc, _⟩ := element?_eq_some_iff.1 (Option.filter_eq_some_iff.1 he).1
  exact ⟨(List.getElem?_eq_some_iff.1 hr).1, (List.getElem?_eq_some_iff.1 hc).1⟩

theorem position_of_locate? {place : Place} (h : f.locate? k place = some site) :
    place.position? f = some (site.row, site.column) ∨
      site.row < f.rows.length ∧ site.column < f.columns.length := by
  cases place with
  | cell i j =>
    obtain ⟨e, _, rfl⟩ := Option.map_eq_some_iff.1 h
    exact .inl rfl
  | flat n =>
    obtain ⟨_, h⟩ := Option.ite_none_right_eq_some.1 h
    obtain ⟨e, _, rfl⟩ := Option.map_eq_some_iff.1 h
    exact .inl rfl
  | listed i j => exact .inr (lt_of_heldAt? h)
  | entry i => exact .inr (lt_of_heldAt? (Option.ite_none_right_eq_some.1 h).2)
  | sole => exact .inr (lt_of_heldAt? (Option.ite_none_right_eq_some.1 h).2)

end Frame

namespace Matrix

variable {k : Raw} {m : Matrix k}

/-- A failure is not about shapes, or it is for the position that was named, which the storage does
not have. -/
def Excuses (m : Matrix k) (position? : Option (Nat × Nat)) (e : Failure) : Prop :=
  e.IsShape → ∃ i j, position? = some (i, j) ∧ (m.storage.rows ≤ i ∨ m.storage.columns ≤ j) ∧
    e = .fault (.outside i j m.storage.rows m.storage.columns)

theorem excuses_of_not_isShape {position? : Option (Nat × Nat)} {e : Failure} (he : ¬ e.IsShape) :
    m.Excuses position? e := fun h => absurd h he

theorem ensures_of_shaped {α : Type} {o : Outcome α} {P : α → Prop} (h : Shaped o P)
    {position? : Option (Nat × Nat)} : Ensures o P (m.Excuses position?) :=
  h.allow fun _ => excuses_of_not_isShape

theorem excuses_of_outside (hm : m.Fits) {position? : Option (Nat × Nat)} {i j : Nat} {e : Fault}
    (h : position? = some (i, j) ∨ i < m.frame.rows.length ∧ j < m.frame.columns.length)
    (he : m.storage.Outside i j e) : m.Excuses position? (.fault e) := by
  intro _
  rcases h with h | ⟨hi, hj⟩
  · exact ⟨i, j, h, he.1, congrArg _ he.2⟩
  · exact absurd he (Grid.not_outside hm.extent hi hj e)

/-- What is done at a place can only fail there. -/
theorem ensures_locate {β : Type} {Q : β → Prop} (hm : m.Fits) (place : Place)
    {act : Site → Outcome β}
    (hact : ∀ site, (∀ e, m.storage.Outside site.row site.column e →
      m.Excuses (place.position? m.frame) (.fault e)) →
        Ensures (act site) Q (m.Excuses (place.position? m.frame))) :
    Ensures (m.locate place >>= act) Q (m.Excuses (place.position? m.frame)) :=
  .demand (fun h => h.elim) fun site hsite => hact site fun _ =>
    excuses_of_outside hm (Frame.position_of_locate? hsite)

theorem ensures_put (hm : m.Fits) (i j : Nat) (x : k.Carrier) :
    Ensures (m.put i j x) Fits (m.storage.Outside i j) :=
  .map ((m.backend.ensures_set m.storage i j x).mono
    (fun _ hs => hm.withStorage ⟨hs.1.trans hm.extent.1, hs.2.trans hm.extent.2⟩) fun _ h => h)

theorem ensures_read (hm : m.Fits) (place : Place) :
    Ensures (m.read place) (fun _ => True) (m.Excuses (place.position? m.frame)) :=
  ensures_locate hm place fun _ hsite =>
    (Ensures.lift ((m.backend.ensures_get m.storage _ _).mono (fun _ h => h) hsite)).bind fun _ _ => trivial

theorem ensures_write (hm : m.Fits) (place : Place) (x : k.Carrier) :
    Ensures (m.write place x) Fits (m.Excuses (place.position? m.frame)) :=
  ensures_locate hm place fun _ hsite =>
    .lift ((ensures_put hm _ _ x).mono (fun _ h => h) hsite)

theorem ensures_increase (hm : m.Fits) (place : Place) (x : k.Carrier) :
    Ensures (m.increase place x) Fits (m.Excuses (place.position? m.frame)) := by
  refine ensures_locate hm place fun site hsite => ?_
  have hmodify := m.backend.ensures_modifyM m.storage site.row site.column fun y => Shapeless.add y x
  refine (Ensures.lift (hmodify.mono (fun _ h => h) fun e he => ?_)).bind fun _ hs =>
    hm.withStorage ⟨hs.1.trans hm.extent.1, hs.2.trans hm.extent.2⟩
  exact he.elim (hsite e) fun he => excuses_of_not_isShape he

theorem ensures_rawGet (hm : m.Fits) (i j : Nat) :
    Ensures (m.rawGet i j) (fun _ => True) (m.Excuses (some (i, j))) :=
  .lift ((m.backend.ensures_get m.storage i j).mono (fun _ h => h) fun _ =>
    excuses_of_outside hm (.inl rfl))

theorem ensures_rawSet (hm : m.Fits) (i j : Nat) (x : k.Carrier) :
    Ensures (m.rawSet i j x) Fits (m.Excuses (some (i, j))) :=
  .lift ((ensures_put hm i j x).mono (fun _ h => h) fun _ => excuses_of_outside hm (.inl rfl))

theorem ensures_rawRows (hm : m.Fits) {E : Fault → Prop} :
    Ensures m.rawRows (fun _ => True) E := by
  refine Grid.ensures_row fun i hi => Grid.ensures_row fun j hj => ?_
  rw [Backend.get_eq]
  exact hm.extent.get (List.mem_range.1 hi) (List.mem_range.1 hj)

theorem ensures_toCsv (hm : m.Fits) {E : Fault → Prop} : Ensures m.toCsv (fun _ => True) E :=
  .map (ensures_rawRows hm)

theorem ensures_toJson (hm : m.Fits) {E : Fault → Prop} : Ensures m.toJson (fun _ => True) E :=
  .map (ensures_rawRows hm)

theorem ensures_checkPrecision (precision : Option Nat) :
    Ensures (checkPrecision precision) (fun _ => True) fun e => ¬ e.IsShape := by
  unfold checkPrecision checkFormat
  split
  · trivial
  · exact fun h => h

theorem ensures_ofPowers (length time : Int) :
    Ensures (Symbol.ofPowers length time) (fun _ => True) fun e => ¬ e.IsShape := by
  have hnegated (power : Int) :
      Ensures (Symbol.negated power) (fun _ => True) fun e => ¬ e.IsShape := by
    unfold Symbol.negated
    split
    · exact fun h => h
    · trivial
  unfold Symbol.ofPowers
  dsimp only
  split
  next => trivial
  next => exact (hnegated _).bind fun _ _ => trivial
  next => trivial

theorem ensures_cellText (e : Index) (precision : Option Nat) (x : k.Carrier) :
    Ensures (e.cellText k precision x) (fun _ => True) fun e => ¬ e.IsShape := by
  have hunit : Ensures e.unitText (fun _ => True) fun e => ¬ e.IsShape := by
    cases e with
    | quantity length time => exact (ensures_ofPowers length time).bind fun _ _ => trivial
    | identity | double | single => trivial
  exact (ensures_checkPrecision precision).bind fun _ _ => hunit.bind fun _ _ => trivial

/-- Every element type has its position among the cells. -/
theorem shaped_cells (hm : m.Fits) (precision : Option Nat) :
    Shaped (m.cells precision) fun _ => True := by
  apply Shaped.require
  intro _
  apply Shaped.demand
  intro grid hgrid
  apply Shaped.lift
  obtain ⟨hl, hrow⟩ := mapM_eq_some hgrid
  refine Grid.ensures_row fun r hr => Grid.ensures_row fun c hc => ?_
  rw [List.mem_zipIdx_iff_getElem?] at hr hc
  have hi : r.2 < m.frame.rows.length := hl ▸ (List.getElem?_eq_some_iff.1 hr).1
  have hj : c.2 < m.frame.columns.length := by
    obtain ⟨_, _, hcolumns⟩ := exists_of_mapM_eq_some hgrid hr
    exact (mapM_eq_some hcolumns).1 ▸ (List.getElem?_eq_some_iff.1 hc).1
  rw [Backend.get_eq]
  exact (hm.extent.get hi hj).bind fun x _ => ensures_cellText c.1 precision x

theorem shaped_display (hm : m.Fits) (precision : Option Nat) :
    Shaped (m.display precision) fun _ => True := by
  apply Shaped.require
  intro _
  refine (Shaped.lift (ensures_checkPrecision precision)).bind fun _ _ => ?_
  exact (shaped_cells hm precision).bind fun _ _ => trivial

/-- A question changes nothing, and fails on a shape only at a position that it names. -/
theorem ensures_answer (hm : m.Fits) (query : Query) :
    Ensures (m.answer query) (fun _ => True) (m.Excuses (query.position? m.frame)) := by
  cases query with
  | element place => exact (ensures_read hm place).bind fun _ _ => trivial
  | number i j => exact (ensures_rawGet hm i j).bind fun _ _ => trivial
  | display precision =>
    refine ensures_of_shaped ?_
    exact (shaped_display hm precision).bind fun _ _ => trivial
  | cells precision =>
    refine ensures_of_shaped ?_
    exact (shaped_cells hm precision).bind fun _ _ => trivial
  | table =>
    have htable : Shaped m.table fun _ => True := (shaped_cells hm none).bind fun _ _ => trivial
    refine ensures_of_shaped ?_
    exact htable.bind fun _ _ => trivial
  | rawRows =>
    refine ensures_of_shaped ?_
    exact (Shaped.lift (ensures_rawRows hm)).bind fun _ _ => trivial
  | csv =>
    refine ensures_of_shaped ?_
    exact (Shaped.lift (ensures_toCsv hm)).bind fun _ _ => trivial
  | json =>
    refine ensures_of_shaped ?_
    exact (Shaped.lift (ensures_toJson hm)).bind fun _ _ => trivial
  | debug | storage | shape | classify | traits => trivial

theorem ensures_update (hm : m.Fits) (update : Update) :
    Ensures (m.update update) Fits (m.Excuses (update.position? m.frame)) := by
  cases update with
  | write place value => exact ensures_write hm place _
  | increase place value => exact ensures_increase hm place _
  | rawWrite i j value => exact ensures_rawSet hm i j _
  | rawScale value => exact ensures_of_shaped (shaped_rawScale _ hm)
  | rawDivide value => exact ensures_of_shaped (shaped_rawDivide _ hm)
  | scale e value => exact ensures_of_shaped (shaped_scale _ hm)
  | scaleUniform e value => exact ensures_of_shaped (shaped_scaleUniform _ hm)

end Matrix

end UnitMatrix
