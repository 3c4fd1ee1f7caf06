import UnitMatrix.Proofs.Grid.Visits
import UnitMatrix.Proofs.Matrix.Transposition
import UnitMatrix.Proofs.Units.Elements

/-! The ways to scale a matrix. Some leave the types of the elements alone and some give the rows new
ones, some go through the storage as a whole and one through the listed elements one by one; each has
its own condition on the types. What they do to the numbers is one and the same: every one of them is
multiplied once. Storage beyond the lists is scaled with the rest, or is left alone where the elements
are gone through. -/

namespace UnitMatrix

namespace Frame

variable {f : Frame} {e : Index}

/-- The elements are of one type, numbers of kind `k` stand for it, and a factor of type `e` does not
change it. -/
def KeptBy (f : Frame) (k : Raw) (e : Index) : Prop :=
  ∃ u, f.uniformIn? k = some u ∧ u.mul? e = some u

/-- The side that the scalar stands on makes no difference to the lists. -/
theorem scalarMul?_eq_mulScalar? (e : Index) (f : Frame) : scalarMul? e f = f.mulScalar? e := by
  rw [scalarMul?, mulScalar?, mulEach?_eq_leftMulEach?]

theorem mulScalar?_of_scales (h : f.Scales e) : f.mulScalar? e = some f := by
  rw [mulScalar?, IndexList.mulEach?, mapM_eq_self h]
  rfl

end Frame

namespace Matrix

variable {k : Raw} {m m' : Matrix k} {e : Index} {x : k.Carrier} {g : Grid k.Carrier}

/-- Each way to scale is accepted under its own condition on the types, and then the storage is `g`. -/
structure ScalesTo (m : Matrix k) (x : k.Carrier) (g : Grid k.Carrier) : Prop where
  raw : m.rawScale x = .ok (m.withStorage g)
  scale : ∀ e m', m.scale e x = .ok m' ↔
    (k.holds e = true ∧ m.frame.Scales e) ∧ m' = m.withStorage g
  scaleUniform : ∀ e m', m.scaleUniform e x = .ok m' ↔
    (k.holds e = true ∧ m.frame.KeptBy k e) ∧ m' = m.withStorage g
  mulScalar : ∀ e m', m.mulScalar e x = .ok m' ↔
    k.holds e = true ∧ ∃ f, m.frame.mulScalar? e = some f ∧ m' = ⟨m.backend, f, g⟩
  scalarMul : ∀ e m', scalarMul e x m = .ok m' ↔
    k.holds e = true ∧ ∃ f, m.frame.mulScalar? e = some f ∧ m' = ⟨m.backend, f, g⟩

/-- The elements one by one are a walk over the listed part of the storage. -/
theorem scaleUniform_eq_ok_iff : m.scaleUniform e x = .ok m' ↔
    (k.holds e = true ∧ m.frame.KeptBy k e) ∧ ∃ g, (List.range m.frame.rows.length ×ˢ
      List.range m.frame.columns.length).foldlM (fun s c => s.modifyM c.1 c.2 (Arithmetic.mul · x))
        m.storage = .ok g ∧ m' = m.withStorage g := by
  rw [scaleUniform, require_bind_eq_ok_iff, demand_bind_eq_ok_iff, and_assoc]
  refine and_congr_right fun _ => ?_
  rw [Frame.KeptBy, ← exists_and_right]
  refine exists_congr fun u => ?_
  rw [and_assoc, require_bind_eq_ok_iff]
  refine and_congr_right fun _ => and_congr_right fun _ => ?_
  have hloop := foldlM_rectangle (m := m) m.frame.rows.length m.frame.columns.length
    (fun m => m.frame.columns.length)
    (fun m i j => do
      let storage ← m.storage.modifyM i j (Arithmetic.mul · x)
      .ok (m.withStorage storage))
    (fun s i j => s.modifyM i j (Arithmetic.mul · x)) (fun _ => rfl) (fun s i j => ?_) m.storage
  · simp only [Backend.modifyM_eq]
    exact (Eq.congr_left hloop).trans map_lift_eq_ok_iff
  show ((s.modifyM i j _ : Outcome _) >>= fun storage => .ok (m.withStorage storage)) = _
  cases s.modifyM i j (Arithmetic.mul · x) <;> rfl

section Floating

variable (hk : k.IsFloating) (x)

include hk

/-- With floating point numbers the walk comes to its end, wherever the storage has the listed cells. -/
theorem exists_scaleUniform_walk (hr : m.frame.rows.length ≤ m.storage.rows)
    (hc : m.frame.columns.length ≤ m.storage.columns) :
    ∃ g, (List.range m.frame.rows.length ×ˢ List.range m.frame.columns.length).foldlM
        (fun s c => s.modifyM c.1 c.2 (Arithmetic.mul · x)) m.storage = .ok g ∧
      Grid.Replaces (fun c => m.storage.get c.1 c.2 >>= (Arithmetic.mul · x))
        (List.range m.frame.rows.length ×ˢ List.range m.frame.columns.length) m.storage g := by
  have hin := Grid.inside_of_mem_rectangle hr hc
  refine (Grid.visits_modifyM _ (Grid.nodup_rectangle _ _) hin).exists_walk fun c hc' => ?_
  obtain ⟨y, hy⟩ := Grid.get_of_lt ⟨rfl, rfl⟩ (hin c hc').1 (hin c hc').2
  obtain ⟨z, hz, -⟩ := (hk.ensures_mul y x).exists_ok
  exact ⟨z, by rw [hy]; exact hz⟩

theorem exists_scalesTo
    (hm : m.storage.Extent m.frame.rows.length m.frame.columns.length) :
    ∃ g, g.Holds (fun i j => m.storage.get i j >>= (Arithmetic.mul · x)) m.frame.rows.length
      m.frame.columns.length ∧ m.ScalesTo x g := by
  obtain ⟨g, hg, -⟩ := Grid.exists_scale hk m.storage x
  obtain ⟨g', hwalk, hreplaces⟩ := exists_scaleUniform_walk x hk hm.1.ge hm.2.ge
  have hholds := Grid.mapM_eq_ok_iff_holds.1 hg
  rw [← hm.1, ← hm.2] at hreplaces
  obtain rfl := hreplaces.holds.unique hholds
  rw [hm.1, hm.2] at hholds
  have hstored {f : Grid k.Carrier → Matrix k} (m') :
      ((m.backend.scale m.storage x : Outcome _) >>= fun s => .ok (f s)) = .ok m' ↔ m' = f g' := by
    rw [Backend.scale_eq, hg]
    exact ⟨fun h => (Except.ok.inj h).symm, fun h => h ▸ rfl⟩
  refine ⟨g', hholds, (hstored _).2 rfl, fun e m' => ?_, fun e m' => ?_, fun e m' => ?_, fun e m' => ?_⟩
  · rw [scale, require_bind_eq_ok_iff, hstored]
  · rw [scaleUniform_eq_ok_iff, hwalk]
    simp
  · rw [mulScalar, require_bind_eq_ok_iff, demand_bind_eq_ok_iff]
    simp only [hstored]
  · rw [Matrix.scalarMul, require_bind_eq_ok_iff, demand_bind_eq_ok_iff,
      Frame.scalarMul?_eq_mulScalar?]
    simp only [hstored]

end Floating

/-- Whatever is scaled in whatever way is multiplied once. With storage in the extent of the lists all
ways that are accepted leave the same numbers; a scalar gives the same lists from either side, and they
are the lists of the matrix where no row changes its type. With larger storage the elements one by one
are the listed cells and no others. -/
theorem scalings_agree (hk : k.IsFloating) (m : Matrix k) (x : k.Carrier) :
    (m.storage.Extent m.frame.rows.length m.frame.columns.length →
      ∃ g, g.Holds (fun i j => m.storage.get i j >>= (Arithmetic.mul · x)) m.frame.rows.length
        m.frame.columns.length ∧ m.ScalesTo x g) ∧
    (∀ e, Frame.scalarMul? e m.frame = m.frame.mulScalar? e ∧
      (m.frame.Scales e → m.frame.mulScalar? e = some m.frame)) ∧
    (m.frame.rows.length ≤ m.storage.rows → m.frame.columns.length ≤ m.storage.columns →
      ∀ e, k.holds e = true → m.frame.KeptBy k e →
        ∃ g, m.scaleUniform e x = .ok (m.withStorage g) ∧
          g.Extent m.storage.rows m.storage.columns ∧
          (∀ i j, i < m.frame.rows.length → j < m.frame.columns.length →
            ∃ y, (m.storage.get i j >>= (Arithmetic.mul · x)) = .ok y ∧ g.get? i j = some y) ∧
          ∀ i j, m.frame.rows.length ≤ i ∨ m.frame.columns.length ≤ j →
            g.get? i j = m.storage.get? i j) := by
  refine ⟨exists_scalesTo x hk, fun e => ⟨Frame.scalarMul?_eq_mulScalar? e m.frame,
    Frame.mulScalar?_of_scales⟩, fun hr hc e he hkept => ?_⟩
  obtain ⟨g, hwalk, hreplaces⟩ := exists_scaleUniform_walk x hk hr hc
  refine ⟨g, scaleUniform_eq_ok_iff.2 ⟨⟨he, hkept⟩, g, hwalk, rfl⟩, hreplaces.extent,
    fun i j hi hj => ?_, fun i j hout => hreplaces.kept i j fun hin => ?_⟩
  · exact hreplaces.replaced (i, j) (Grid.mem_rectangle.2 ⟨hi, hj⟩)
  · have hlisted := Grid.mem_rectangle.1 hin
    omega

def lengths : Matrix .double :=
  ⟨.dynamic, ⟨[.quantity 1 0, .quantity 1 0], [.identity]⟩, ⟨1, [[3], [4]], by simp⟩⟩

/-- The same lists in front of storage with a column and a row to spare. -/
def roomyLengths : Matrix .double :=
  { lengths with storage := ⟨2, [[3, 5], [4, 6], [7, 8]], by simp⟩ }

/-- A plain number is accepted everywhere, and it does not touch the spare cells. -/
theorem scalings_agree_lengths : Raw.double.IsFloating ∧ lengths.storage.Extent 2 1 ∧
    (∃ g, lengths.ScalesTo (2 : Float) g) ∧ lengths.frame.Scales .double ∧
    (2 ≤ roomyLengths.storage.rows ∧ 1 ≤ roomyLengths.storage.columns) ∧
    Raw.double.holds .double = true ∧ roomyLengths.frame.KeptBy .double .double ∧
    ∃ g, roomyLengths.scaleUniform .double (2 : Float) = .ok (roomyLengths.withStorage g) ∧
      ∀ i j, 2 ≤ i ∨ 1 ≤ j → g.get? i j = roomyLengths.storage.get? i j := by
  have hkept : roomyLengths.frame.KeptBy .double .double := ⟨.quantity 1 0, by decide, by decide⟩
  obtain ⟨g, -, hscales⟩ := (scalings_agree (.inl rfl) lengths (2 : Float)).1 ⟨rfl, rfl⟩
  obtain ⟨g', hscaled, -, -, hspare⟩ := (scalings_agree (.inl rfl) roomyLengths (2 : Float)).2.2
    (by decide) (by decide) .double rfl hkept
  exact ⟨.inl rfl, ⟨rfl, rfl⟩, ⟨g, hscales⟩, by decide, by decide, rfl, hkept, g', hscaled, hspare⟩

end Matrix

end UnitMatrix
