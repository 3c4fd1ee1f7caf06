import UnitMatrix.Program.Session
import UnitMatrix.Proofs.Grid.Loops

/-! The two kinds of storage compute the same. Whatever a type of a fixed shape admits has shapes that
storage of any shape finds to fit, so the computation over the latter follows the one over the
former: it returns the same cells and reports the same, or both stop. The loops run in different
orders, so an integer may leave its range at another place first, but not in one storage alone. -/

namespace UnitMatrix

namespace Backend

variable {k : Raw} {a b : Grid k.Carrier}

theorem concur_combine {op : k.Carrier → k.Carrier → Except Fault k.Carrier}
    (hop : ∀ x y, Ensures (op x y) (fun _ => True) Fault.IsOverflow)
    (hr : a.rows = b.rows) (hc : a.columns = b.columns) :
    Concur (fixed.combine op a b) (dynamic.combine op a b) := by
  have ha : a.Extent b.rows b.columns := ⟨hr, hc⟩
  have hb : b.Extent b.rows b.columns := ⟨rfl, rfl⟩
  refine concur_of_ok_iff (fun g => ?_) (ha.zipM hb hop) (ha.stretchM hb hop)
  exact (Grid.zipM_eq_ok_iff ha hb).trans (Grid.stretchM_eq_ok_iff ha hb).symm

theorem concur_mul (hinner : a.columns = b.rows) :
    Concur (fixed.mul a b) (dynamic.mul a b) := by
  have ha : a.Extent a.rows b.rows := ⟨rfl, hinner⟩
  have hb : b.Extent b.rows b.columns := ⟨rfl, rfl⟩
  refine concur_of_ok_iff (fun g => ?_) (ha.mulKnown k.ensures_add k.ensures_mul hb)
    (ha.mulAny k.ensures_add k.ensures_mul hb)
  exact (Grid.mulKnown_eq_ok_iff hinner).trans (Grid.mulAny_eq_ok_iff hinner).symm

theorem div_eq {K : Type} [RootField K] {x y : Grid K} (h : x.columns = y.columns) :
    fixed.div x y = dynamic.div x y :=
  (if_pos h).symm

section Cells

variable {α : Type} (b b' : Backend) (g : Grid α)

theorem get_same (i j : Nat) : b.get g i j = b'.get g i j := by
  rw [get_eq, get_eq]

theorem set_same (i j : Nat) (x : α) : b.set g i j x = b'.set g i j x := by
  rw [set_eq, set_eq]

theorem modifyM_same (i j : Nat) (f : α → Except Fault α) :
    b.modifyM g i j f = b'.modifyM g i j f := by
  rw [modifyM_eq, modifyM_eq]

theorem scalar_same (x : α) : b.scalar x = b'.scalar x := by
  rw [scalar_eq, scalar_eq]

variable [Arithmetic α]

theorem transpose_same : b.transpose g = b'.transpose g := by
  rw [transpose_eq, transpose_eq]

theorem scale_same (x : α) : b.scale g x = b'.scale g x := by
  rw [scale_eq, scale_eq]

theorem divideBy_same (x : α) : b.divideBy g x = b'.divideBy g x := by
  rw [divideBy_eq, divideBy_eq]

end Cells

end Backend

@[reducible] def MatrixType.onDynamic (t : MatrixType) : MatrixType := { t with store := .dynamic }

namespace Matrix

variable {k : Raw} {a b m : Matrix k}

@[reducible] def onDynamic (m : Matrix k) : Matrix k := { m with backend := .dynamic }

theorem put_onDynamic (m : Matrix k) (i j : Nat) (x : k.Carrier) :
    m.onDynamic.put i j x = (m.put i j x).map onDynamic := by
  rw [put_eq, put_eq]
  cases m.storage.set i j x <;> rfl

theorem putRow_onDynamic (m : Matrix k) (i : Nat) (row : List k.Carrier) :
    m.onDynamic.putRow i row = (m.putRow i row).map onDynamic :=
  foldlM_map_comm (fun m p => m.put_onDynamic i p.2 p.1) row.zipIdx m

theorem putRows_onDynamic (m : Matrix k) (rows : List (List k.Carrier)) :
    m.onDynamic.putRows rows = (m.putRows rows).map onDynamic :=
  foldlM_map_comm (fun m p => m.putRow_onDynamic p.2 p.1) rows.zipIdx m

theorem putVector_onDynamic (m : Matrix k) (values : List k.Carrier) :
    m.onDynamic.putVector values = (m.putVector values).map onDynamic :=
  foldlM_map_comm (fun m p => m.put_onDynamic _ _ p.1) values.zipIdx m

theorem follows_written {x y : Except Fault (Matrix k)} (h : y = x.map onDynamic) :
    Follows onDynamic (x : Outcome (Matrix k)) (y : Outcome (Matrix k)) :=
  .of_eq (h ▸ lift_map x)

end Matrix

namespace MatrixType

variable {t : MatrixType} {rows : List (List t.raw.Carrier)} {values : List t.raw.Carrier}

theorem follows_zeros :
    Follows (Matrix.onDynamic (k := t.raw)) (t.zeros : Outcome _) (t.onDynamic.zeros : Outcome _) := by
  unfold zeros
  cases h : t.store with
  | fixed r c =>
    dsimp only
    split
    next => rfl
    next => exact .inl (.inr rfl)
  | dynamic => rfl

theorem follows_filled {f g : Matrix t.raw → Outcome (Matrix t.raw)}
    (hfill : ∀ m, Follows Matrix.onDynamic (f m) (g m.onDynamic)) :
    Follows Matrix.onDynamic ((t.zeros : Outcome (Matrix t.raw)) >>= f)
      ((t.onDynamic.zeros : Outcome (Matrix t.raw)) >>= g) :=
  follows_zeros.bind hfill

theorem follows_identity : Follows Matrix.onDynamic t.identity t.onDynamic.identity := by
  refine .require id fun _ => follows_filled fun m => ?_
  exact .foldlM (fun m i => Matrix.follows_written (m.put_onDynamic i i _)) m

theorem length_headD_of_ofRows? {columns : Nat} {g : Grid t.raw.Carrier} (hrows : rows ≠ [])
    (h : Grid.ofRows? columns rows = some g) : (rows.headD []).length = columns := by
  obtain ⟨row, rest, rfl⟩ := List.exists_cons_of_ne_nil hrows
  obtain ⟨hall, -⟩ := Option.dite_none_right_eq_some.1 h
  exact hall row (by simp)

theorem follows_ofStorage (hrows : rows ≠ []) :
    Follows Matrix.onDynamic (t.ofStorage rows) (t.onDynamic.ofStorage rows) := by
  obtain ⟨raw, store, frame⟩ := t
  cases store with
  | fixed r c =>
    refine .check fun _ => .demand fun g hg => ⟨g, ?_, rfl⟩
    rw [length_headD_of_ofRows? hrows hg]
    exact hg
  | dynamic => exact .demand fun g hg => ⟨g, hg, rfl⟩

theorem follows_ofRawRows :
    Follows Matrix.onDynamic (t.ofRawRows rows) (t.onDynamic.ofRawRows rows) := by
  refine .ite (fun _ => .fail _) fun _ => follows_filled fun m => ?_
  refine .foldlM (fun m p => .ite (fun _ => .fail _) fun _ => ?_) m
  exact Matrix.follows_written (m.putRow_onDynamic p.2 p.1)

theorem follows_ofFixedRows :
    Follows Matrix.onDynamic (t.ofFixedRows rows) (t.onDynamic.ofFixedRows rows) := by
  refine .demand fun e he => ⟨e, he, .require id fun _ => follows_filled fun m => ?_⟩
  exact Matrix.follows_written (m.putRows_onDynamic rows)

theorem follows_ofRows : Follows Matrix.onDynamic (t.ofRows rows) (t.onDynamic.ofRows rows) := by
  refine .demand fun e he => ⟨e, he, .ite (fun _ => .fail _) fun _ => ?_⟩
  dsimp only
  generalize rows.zipIdx.find? _ = found
  cases found with
  | some _ => exact .fail _
  | none => exact follows_filled fun m => Matrix.follows_written (m.putRows_onDynamic rows)

theorem follows_ofArray :
    Follows Matrix.onDynamic (t.ofArray values) (t.onDynamic.ofArray values) := by
  refine .require id fun _ => .demand fun e he => ⟨e, he, .require id fun _ => ?_⟩
  exact follows_filled fun m => Matrix.follows_written (m.putVector_onDynamic values)

theorem follows_ofValues :
    Follows Matrix.onDynamic (t.ofValues values) (t.onDynamic.ofValues values) := by
  refine .require id fun _ => .require id fun _ => .require id fun _ => ?_
  exact follows_filled fun m => Matrix.follows_written (m.putVector_onDynamic values)

theorem follows_ofValue (x : t.raw.Carrier) :
    Follows Matrix.onDynamic (t.ofValue x) (t.onDynamic.ofValue x) := by
  refine .require id fun _ => follows_filled fun m => ?_
  exact Matrix.follows_written (m.put_onDynamic 0 0 x)

theorem follows_ofCompatible (other : Matrix t.raw) :
    Follows Matrix.onDynamic (t.ofCompatible other) (t.onDynamic.ofCompatible other.onDynamic) := by
  refine .require id fun _ => follows_filled fun m => ?_
  refine .foldlM (fun m i => ?_) m
  refine .foldlM (fun m j => ?_) m
  exact (Follows.lift (.inl (Backend.get_same ..))).bind fun x => Matrix.follows_written (m.put_onDynamic i j x)

theorem follows_ofCsv (bytes : List UInt8) :
    Follows Matrix.onDynamic (t.ofCsv bytes) (t.onDynamic.ofCsv bytes) := by
  unfold ofCsv
  generalize Csv.readRows t.raw bytes = read
  match read with
  | .error e => exact .fail _
  | .ok [] => exact .fail _
  | .ok (_ :: _) => exact follows_ofRawRows

theorem follows_ofJson (r : Json.Rounding) (text : List Char) :
    Follows Matrix.onDynamic (t.ofJson r text) (t.onDynamic.ofJson r text) := by
  refine (Follows.same _).bind fun p => ?_
  refine (Follows.mapError follows_ofRawRows ?_ fun f => rfl).bind fun m => ?_
  · rintro _ (rfl | rfl)
    exacts [.inl rfl, .inr rfl]
  · exact (Follows.same _).bind fun _ => rfl

end MatrixType

namespace Matrix

variable {k : Raw} {a b m : Matrix k}

theorem alike_onDynamic (h : a.Alike b) : a.onDynamic.Alike b.onDynamic :=
  ⟨rfl, fun h => (nomatch h), h.2.2⟩

theorem follows_cellwise {op : k.Carrier → k.Carrier → Except Fault k.Carrier}
    (hop : ∀ x y, Ensures (op x y) (fun _ => True) Fault.IsOverflow) :
    Follows onDynamic
      (require (a.Alike b) >>= fun _ =>
        (a.backend.combine op a.storage b.storage : Outcome _) >>= fun g => .ok (a.withStorage g))
      (require (a.onDynamic.Alike b.onDynamic) >>= fun _ =>
        (Backend.dynamic.combine op a.storage b.storage : Outcome _) >>= fun g =>
          .ok (a.onDynamic.withStorage g)) := by
  refine .require alike_onDynamic fun h => .compute ?_ fun _ => rfl
  cases ha : a.backend with
  | fixed => exact Backend.concur_combine hop (h.2.1 ha).1 (h.2.1 ha).2
  | dynamic => exact .inl rfl

theorem follows_add : Follows onDynamic (a.add b) (a.onDynamic.add b.onDynamic) :=
  follows_cellwise k.ensures_add

theorem follows_sub : Follows onDynamic (a.sub b) (a.onDynamic.sub b.onDynamic) :=
  follows_cellwise k.ensures_sub

theorem follows_mul : Follows onDynamic (a.mul b) (a.onDynamic.mul b.onDynamic) := by
  refine .require (fun _ => ⟨rfl, fun h => (nomatch h)⟩) fun h => ?_
  refine .demand fun f hf => ⟨f, hf, .compute ?_ fun _ => rfl⟩
  cases ha : a.backend with
  | fixed => exact Backend.concur_mul (h.2 ha)
  | dynamic => exact .inl rfl

@[reducible] def reportedOnDynamic (p : Matrix k × Option LogRecord) : Matrix k × Option LogRecord :=
  (p.1.onDynamic, p.2)

theorem follows_div : Follows reportedOnDynamic (a.div b) (a.onDynamic.div b.onDynamic) := by
  refine .require (fun _ => ⟨rfl, fun h => (nomatch h)⟩) fun h => ?_
  cases k.rootField? with
  | none => exact .refuse _
  | some _ =>
    refine .demand fun f hf => ⟨f, hf, .compute (.inl ?_) fun _ => rfl⟩
    cases ha : a.backend with
    | fixed => exact Backend.div_eq (h.2 ha)
    | dynamic => rfl

/-- Scalars are the business of the lists and of the single numbers. -/
theorem follows_scalar {p : Prop} [Decidable p] {rule : Option Frame}
    {storage storage' : Except Fault (Grid k.Carrier)} (h : storage = storage') :
    Follows onDynamic
      (require p >>= fun _ => demand rule >>= fun f => (storage : Outcome _) >>= fun g =>
        .ok (⟨m.backend, f, g⟩ : Matrix k))
      (require p >>= fun _ => demand rule >>= fun f => (storage' : Outcome _) >>= fun g =>
        .ok (⟨.dynamic, f, g⟩ : Matrix k)) :=
  .require id fun _ => .demand fun f hf => ⟨f, hf, .compute (.inl h) fun _ => rfl⟩

variable {e : Index} (x : k.Carrier)

theorem follows_scalarDiv :
    Follows reportedOnDynamic (scalarDiv e x m) (scalarDiv e x m.onDynamic) := by
  have hscalar : (ofScalar m.backend e x).onDynamic = ofScalar .dynamic e x := by
    rw [onDynamic, ofScalar, Backend.scalar_same m.backend .dynamic]
    rfl
  refine .require id fun _ => ?_
  rw [← hscalar]
  exact follows_div

theorem transpose_onDynamic (m : Matrix k) : m.onDynamic.transpose = m.transpose.onDynamic := by
  rw [transpose, transpose, Backend.transpose_same m.backend .dynamic]

theorem follows_transform (transform : Transform) :
    Follows reportedOnDynamic (m.transform transform) (m.onDynamic.transform transform) := by
  cases transform with
  | transpose => 
    show Except.ok (m.onDynamic.transpose, none) = .ok (m.transpose.onDynamic, none)
    rw [transpose_onDynamic]
  | mulScalar e value => exact .map (follows_scalar (Backend.scale_same ..)) fun _ => rfl
  | scalarMul e value => exact .map (follows_scalar (Backend.scale_same ..)) fun _ => rfl
  | divScalar e value => exact .map (follows_scalar (Backend.divideBy_same ..)) fun _ => rfl
  | scalarDiv e value => exact follows_scalarDiv _

theorem follows_combine (operation : Combination) :
    Follows reportedOnDynamic (a.combine b operation) (a.onDynamic.combine b.onDynamic operation) := by
  cases operation with
  | add => exact .map follows_add fun _ => rfl
  | sub => exact .map follows_sub fun _ => rfl
  | mul => exact .map follows_mul fun _ => rfl
  | div => exact follows_div

/-- Numbers are computed first, and then stored. -/
theorem follows_stored {storage storage' : Except Fault (Grid k.Carrier)} (h : storage = storage') :
    Follows onDynamic ((storage : Outcome _) >>= fun g => .ok (m.withStorage g))
      ((storage' : Outcome _) >>= fun g => .ok (m.onDynamic.withStorage g)) :=
  .compute (.inl h) fun _ => rfl

theorem follows_scaleUniform :
    Follows onDynamic (m.scaleUniform e x) (m.onDynamic.scaleUniform e x) := by
  refine .require id fun _ => .demand fun element he => ⟨element, he, .require id fun _ => ?_⟩
  refine .foldlM (fun m i => ?_) m
  refine .foldlM (fun m j => ?_) m
  exact follows_stored (Backend.modifyM_same ..)

theorem follows_update (update : Update) :
    Follows onDynamic (m.update update) (m.onDynamic.update update) := by
  cases update with
  | write place value =>
    exact .demand fun site hs => ⟨site, hs, follows_written (m.put_onDynamic _ _ _)⟩
  | increase place value => exact .demand fun site hs => ⟨site, hs, follows_stored (Backend.modifyM_same ..)⟩
  | rawWrite i j value => exact follows_written (m.put_onDynamic _ _ _)
  | rawScale value => exact follows_stored (Backend.scale_same ..)
  | rawDivide value => exact follows_stored (Backend.divideBy_same ..)
  | scale e value => exact .require id fun _ => follows_stored (Backend.scale_same ..)
  | scaleUniform e value => exact follows_scaleUniform _

theorem follows_eq : Follows id (a.eq b) (a.onDynamic.eq b.onDynamic) := by
  refine .require (fun h => ?_) fun _ => rfl
  have hframe : a.frame = b.frame := congrArg MatrixType.frame h
  simp [type, store, hframe]

end Matrix

end UnitMatrix
