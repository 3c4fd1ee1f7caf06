import UnitMatrix.Proofs.Grid.Loops
import UnitMatrix.Proofs.Units.Elements

/-! Matrices whose storage has the extent of their lists. Every operation of the algebra keeps this:
what the rules say about the lengths of the lists is what the storage does with its extents. So no
operation on such matrices stops because of a shape. -/

namespace UnitMatrix

def Failure.IsShape : Failure → Prop
  | .fault f => f.IsShape
  | _ => False

namespace Frame

variable {f g p : Frame}

def Listed (f : Frame) : Prop :=
  (1 ≤ f.rows.length ∧ f.rows.length ≤ 8) ∧ 1 ≤ f.columns.length ∧ f.columns.length ≤ 8

theorem Valid.listed (h : f.Valid) : f.Listed := h.1

theorem Listed.transpose (h : f.Listed) : f.transpose.Listed := ⟨h.2, h.1⟩

theorem lengths_of_mul? (h : f.mul? g = some p) :
    f.columns.length = g.rows.length ∧ p.rows.length = f.rows.length ∧
      p.columns.length = g.columns.length := by
  obtain ⟨_, _, _, ht, _, _, hrows, hcolumns⟩ := mul?_eq_some h
  exact ⟨(contraction?_eq_some ht).1, (mapM_eq_some hrows).1, (mapM_eq_some hcolumns).1⟩

theorem lengths_of_div? (h : f.div? g = some p) :
    f.columns.length = g.columns.length ∧ p.rows.length = f.rows.length ∧
      p.columns.length = g.rows.length := by
  obtain ⟨hl, _, _, _, _, _, _, hrows, hcolumns⟩ := div?_eq_some h
  exact ⟨hl, (mapM_eq_some hrows).1, (mapM_eq_some hcolumns).1⟩

theorem lengths_of_rows {op : Index → Option Index}
    (h : (f.rows.mapM op).map (fun rows => (⟨rows, f.columns⟩ : Frame)) = some p) :
    p.rows.length = f.rows.length ∧ p.columns.length = f.columns.length := by
  obtain ⟨rows, hrows, rfl⟩ := Option.map_eq_some_iff.1 h
  exact ⟨(mapM_eq_some hrows).1, rfl⟩

theorem lengths_of_compatible (hf : 1 ≤ f.rows.length) (h : f.Compatible g) :
    f.rows.length = g.rows.length ∧ f.columns.length = g.columns.length := by
  obtain ⟨grid, hgrid⟩ := Option.isSome_iff_exists.1 h.1
  obtain ⟨hlf, hf'⟩ := mapM_eq_some hgrid
  obtain ⟨hlg, hg'⟩ := mapM_eq_some (h.2.symm.trans hgrid)
  have hrowf := hf' 0
  have hrowg := hg' 0
  rw [List.getElem?_eq_getElem (by omega), List.getElem?_eq_getElem (by omega)] at hrowf hrowg
  exact ⟨hlf.symm.trans hlg,
    (mapM_eq_some hrowf.symm).1.symm.trans (mapM_eq_some hrowg.symm).1⟩

end Frame

namespace Matrix

variable {k : Raw} {f g p : Frame} {a b m : Matrix k}

def On (m : Matrix k) (f : Frame) : Prop :=
  m.frame = f ∧ m.storage.Extent f.rows.length f.columns.length

/-- The storage has the extent of the lists, which are not too long. -/
structure Fits (m : Matrix k) : Prop where
  listed : m.frame.Listed
  extent : m.storage.Extent m.frame.rows.length m.frame.columns.length

theorem On.fits (h : m.On f) (hf : f.Listed) : m.Fits := by
  obtain ⟨rfl, h⟩ := h
  exact ⟨hf, h⟩

theorem Fits.on (h : m.Fits) : m.On m.frame := ⟨rfl, h.extent⟩

theorem Fits.of_lengths {p : Frame} {backend : Backend} {storage : Grid k.Carrier} {rows columns : Nat}
    (hs : storage.Extent rows columns) (hp : p.rows.length = rows ∧ p.columns.length = columns)
    (hl : (1 ≤ rows ∧ rows ≤ 8) ∧ 1 ≤ columns ∧ columns ≤ 8) :
    (⟨backend, p, storage⟩ : Matrix k).Fits := by
  obtain ⟨rfl, rfl⟩ := hp
  exact ⟨hl, hs⟩

theorem Fits.transpose (h : m.Fits) : m.transpose.Fits := by
  rw [Matrix.transpose, Backend.transpose_eq]
  exact ⟨h.listed.transpose, h.extent.transpose⟩

theorem Fits.withStorage (h : m.Fits) {storage : Grid k.Carrier}
    (hs : storage.Extent m.frame.rows.length m.frame.columns.length) :
    (m.withStorage storage).Fits :=
  ⟨h.listed, hs⟩

end Matrix

/-- A result of which `post` holds, or a failure that is not about shapes. -/
def Shaped {α : Type} (o : Outcome α) (post : α → Prop) : Prop :=
  Ensures o post fun e => ¬ e.IsShape

namespace Shaped

variable {α β : Type} {P P' : α → Prop} {Q : β → Prop}

theorem mono {o : Outcome α} (h : Shaped o P) (hP : ∀ a, P a → P' a) : Shaped o P' :=
  Ensures.mono h hP fun _ he => he

theorem allow {o : Outcome α} (h : Shaped o P) {allowed : Failure → Prop}
    (hallowed : ∀ e, ¬ e.IsShape → allowed e) : Ensures o P allowed :=
  Ensures.mono h (fun _ h => h) hallowed

theorem require {p : Prop} [Decidable p] {f : Unit → Outcome β} (hf : p → Shaped (f ()) Q) :
    Shaped (UnitMatrix.require p >>= f) Q :=
  Ensures.require (fun h => h) hf

theorem demand {o : Option α} {f : α → Outcome β} (hf : ∀ a, o = some a → Shaped (f a) Q) :
    Shaped (UnitMatrix.demand o >>= f) Q :=
  Ensures.demand (fun h => h) hf

theorem bind {o : Outcome α} {f : α → Outcome β} (h : Shaped o P) (hf : ∀ a, P a → Shaped (f a) Q) :
    Shaped (o >>= f) Q :=
  Ensures.bind h hf

theorem lift {x : Except Fault α} (h : Ensures x P fun e => ¬ e.IsShape) :
    Shaped (x : Outcome α) P :=
  Ensures.lift h

/-- Failures of another origin, none of which is about shapes. -/
theorem mapError {ε : Type} {x : Except ε α} {f : ε → Failure} (hf : ∀ e, ¬ (f e).IsShape) :
    Shaped (x.mapError f) fun _ => True :=
  Ensures.mapError ((Ensures.any x).mono (fun _ h => h) fun e _ => hf e)

theorem foldlM {step : α → β → Outcome α} {xs : List β}
    (hstep : ∀ a, ∀ b ∈ xs, P a → Shaped (step a b) P) {a : α} (ha : P a) :
    Shaped (xs.foldlM step a) P :=
  Ensures.foldlM hstep ha

theorem compute {x : Except Fault α} (hx : Ensures x P fun e => ¬ e.IsShape)
    {f : α → β} (hf : ∀ a, P a → Q (f a)) :
    Shaped ((x : Outcome α) >>= fun a => .ok (f a)) Q :=
  (lift hx).bind hf

end Shaped

namespace Matrix

variable {k : Raw} {a b m : Matrix k}

/-- Alike matrices have storage of one extent, for their lists have the same lengths. -/
theorem extent_of_alike (ha : a.Fits) (hb : b.Fits) (h : a.Alike b) :
    b.storage.Extent a.frame.rows.length a.frame.columns.length := by
  obtain ⟨hr, hc⟩ := Frame.lengths_of_compatible ha.listed.1.1 h.2.2
  rw [hr, hc]
  exact hb.extent

theorem shaped_cellwise (ha : a.Fits) (hb : b.Fits)
    {op : k.Carrier → k.Carrier → Except Fault k.Carrier}
    (hop : ∀ x y, Ensures (op x y) (fun _ => True) fun e => ¬ e.IsShape) :
    Shaped (require (a.Alike b) >>= fun _ =>
      (a.backend.combine op a.storage b.storage : Outcome _) >>= fun g => .ok (a.withStorage g))
      Fits := by
  apply Shaped.require
  intro h
  have hs := a.backend.ensures_combine ha.extent (extent_of_alike ha hb h) hop
  exact .compute hs fun _ hs => ha.withStorage hs

theorem shaped_add (ha : a.Fits) (hb : b.Fits) : Shaped (a.add b) Fits :=
  shaped_cellwise ha hb Shapeless.add

theorem shaped_sub (ha : a.Fits) (hb : b.Fits) : Shaped (a.sub b) Fits :=
  shaped_cellwise ha hb Shapeless.sub

theorem shaped_mul (ha : a.Fits) (hb : b.Fits) : Shaped (a.mul b) Fits := by
  apply Shaped.require
  intro _
  apply Shaped.demand
  intro p hp
  obtain ⟨hinner, hlengths⟩ := Frame.lengths_of_mul? hp
  have hs := a.backend.ensures_mul (hinner ▸ ha.extent) hb.extent
  exact .compute hs fun _ hs => .of_lengths hs hlengths ⟨ha.listed.1, hb.listed.2⟩

theorem shaped_div (ha : a.Fits) (hb : b.Fits) : Shaped (a.div b) fun q => q.1.Fits := by
  apply Shaped.require
  intro _
  cases k.rootField? with
  | none => exact fun h => h
  | some _ =>
    apply Shaped.demand
    intro p hp
    obtain ⟨hinner, hlengths⟩ := Frame.lengths_of_div? hp
    have hs := a.backend.ensures_div (E := fun e => ¬ e.IsShape) (hinner ▸ ha.extent) hb.extent
    exact .compute hs fun _ hs => .of_lengths hs hlengths ⟨ha.listed.1, hb.listed.1⟩

variable {e : Index} (x : k.Carrier)

/-- A scalar, on either side, gives the rows another type and changes the numbers one by one. -/
theorem shaped_scalar (hm : m.Fits) {p : Prop} [Decidable p] {rule : Option Frame}
    {storage : Except Fault (Grid k.Carrier)}
    (hrule : ∀ q, rule = some q →
      q.rows.length = m.frame.rows.length ∧ q.columns.length = m.frame.columns.length)
    (hs : Ensures storage (fun g => g.Extent m.frame.rows.length m.frame.columns.length)
      fun e => ¬ e.IsShape) :
    Shaped (require p >>= fun _ => demand rule >>= fun q => (storage : Outcome _) >>= fun g =>
      .ok (⟨m.backend, q, g⟩ : Matrix k)) Fits := by
  apply Shaped.require
  intro _
  apply Shaped.demand
  intro q hq
  exact .compute hs fun _ hs => .of_lengths hs (hrule q hq) hm.listed

theorem shaped_mulScalar (hm : m.Fits) : Shaped (m.mulScalar e x) Fits :=
  shaped_scalar hm (fun _ => Frame.lengths_of_rows) (m.backend.ensures_scale hm.extent x)

theorem shaped_scalarMul (hm : m.Fits) : Shaped (scalarMul e x m) Fits :=
  shaped_scalar hm (fun _ => Frame.lengths_of_rows) (m.backend.ensures_scale hm.extent x)

theorem shaped_divScalar (hm : m.Fits) : Shaped (m.divScalar e x) Fits :=
  shaped_scalar hm (fun _ => Frame.lengths_of_rows) (m.backend.ensures_divideBy hm.extent x)

theorem fits_ofScalar (backend : Backend) : (ofScalar backend e x).Fits := by
  rw [ofScalar, Backend.scalar_eq]
  exact .of_lengths (Grid.extent_replicate 1 1 x) ⟨rfl, rfl⟩ (by decide)

theorem shaped_scalarDiv (hm : m.Fits) : Shaped (scalarDiv e x m) fun q => q.1.Fits := by
  apply Shaped.require
  intro _
  exact shaped_div (fits_ofScalar x m.backend) hm

theorem shaped_scale (hm : m.Fits) : Shaped (m.scale e x) Fits := by
  apply Shaped.require
  intro _
  exact .compute (m.backend.ensures_scale hm.extent x) fun _ hs => hm.withStorage hs

theorem shaped_rawScale (hm : m.Fits) : Shaped (m.rawScale x) Fits :=
  .compute (m.backend.ensures_scale hm.extent x) fun _ hs => hm.withStorage hs

theorem shaped_rawDivide (hm : m.Fits) : Shaped (m.rawDivide x) Fits :=
  .compute (m.backend.ensures_divideBy hm.extent x) fun _ hs => hm.withStorage hs

theorem shaped_scaleUniform (hm : m.Fits) : Shaped (m.scaleUniform e x) Fits := by
  apply Shaped.require
  intro _
  apply Shaped.demand
  intro _ _
  apply Shaped.require
  intro _
  -- every step of the walk keeps the lists, so all its positions lie within them
  refine Shaped.mono (P := fun m' => m'.On m.frame) ?_ fun m' h => h.fits hm.listed
  refine .foldlM (fun m₁ i hi h₁ => .foldlM (fun m₂ j hj h₂ => ?_) h₁) hm.on
  rw [h₁.1, List.mem_range] at hj
  rw [List.mem_range] at hi
  have hs := h₂.2.modifyM hi hj fun y => Shapeless.mul y x
  rw [← m₂.backend.modifyM_eq] at hs
  exact .compute hs fun _ hs => ⟨h₂.1, hs⟩

end Matrix

end UnitMatrix
