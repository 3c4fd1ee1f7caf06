import UnitMatrix.Proofs.Grid.Visits
import UnitMatrix.Proofs.Matrix.Loading
import UnitMatrix.Proofs.Units.Products

/-! Conversion between types with the same elements. The numbers are copied one by one, each to its own
place, and the lists are replaced by others that span the same element types. What can be seen of a
matrix is its numbers and its element types, not the lists that these come from, so a converted matrix
looks the same, a second conversion does what a single one does, and the way back ends where it began. -/

namespace UnitMatrix

namespace MatrixType

variable {t : MatrixType} {other : Matrix t.raw}

/-- Every number is copied once, and zeros do not remain. -/
theorem ofCompatible_eq (ht : t.Covers) (h : t.frame.Compatible other.frame)
    (hs : other.storage.Extent t.frame.rows.length t.frame.columns.length) :
    t.ofCompatible other = .ok ⟨t.store.backend, t.frame, other.storage⟩ := by
  obtain ⟨z, _, hzeros, hz⟩ := exists_zeros ht
  have hin := Grid.inside_of_mem_rectangle hz.on.2.1.ge hz.on.2.2.ge
  have hvisits := Grid.visits_copy other.storage (Grid.nodup_rectangle _ _) hin
  obtain ⟨g, hwalk, hreplaces⟩ := hvisits.exists_walk fun c hc => by
    obtain ⟨hi, hj⟩ := Grid.mem_rectangle.1 hc
    exact Grid.get_of_lt hs hi hj
  have hsame : g = other.storage := by
    rw [← hz.on.2.1, ← hz.on.2.2] at hreplaces hs
    exact hreplaces.holds.unique hs.holds_get
  have hloop := Matrix.foldlM_rectangle (m := z) t.frame.rows.length t.frame.columns.length
    (fun _ => t.frame.columns.length)
    (fun m i j => do
      let x ← other.storage.get i j
      m.put i j x)
    (fun s i j => other.storage.get i j >>= s.set i j) (fun _ => rfl) (fun s i j => ?_) z.storage
  · rw [ofCompatible, require, if_pos h, hzeros]
    simp only [Backend.get_eq]
    refine hloop.trans ?_
    rw [hwalk, hsame, ← hz.backend, ← hz.on.1]
    rfl
  · show ((other.storage.get i j : Outcome _) >>= fun x =>
      ((z.withStorage s).put i j x : Outcome _)) = _
    cases other.storage.get i j with
    | error e => rfl
    | ok x =>
      show ((z.withStorage s).put i j x : Outcome _) = _
      rw [Matrix.put_eq]
      exact lift_map _

/-- What spans other elements is rejected before anything is read. -/
theorem ofCompatible_of_not_compatible (h : ¬ t.frame.Compatible other.frame) :
    t.ofCompatible other = .error .illTyped := by
  rw [ofCompatible, require, if_neg h]
  rfl

end MatrixType

theorem require_congr {p q : Prop} [Decidable p] [Decidable q] (h : p ↔ q) : require p = require q := by
  simp only [require, h]

namespace Matrix

variable {k : Raw} {a b : Matrix k}

/-- Both show the same: the rows of numbers, the texts of the elements in every precision, and the text
forms of the whole. -/
structure LooksLike (a b : Matrix k) : Prop where
  rawRows : a.rawRows = b.rawRows
  cells : ∀ precision, a.cells precision = b.cells precision
  display : ∀ precision, a.display precision = b.display precision
  table : a.table = b.table
  csv : a.toCsv = b.toCsv
  json : a.toJson = b.toJson

/-- What is shown depends on the numbers and on the element types. -/
theorem looksLike_of_compatible (hl : 1 ≤ a.frame.rows.length) (h : a.frame.Compatible b.frame)
    (hs : a.storage = b.storage) : a.LooksLike b := by
  obtain ⟨hrows, hcolumns⟩ := Frame.lengths_of_compatible hl h
  have hheld : a.frame.HeldBy k ↔ b.frame.HeldBy k := by rw [Frame.HeldBy, Frame.HeldBy, h.2]
  have hraw : a.rawRows = b.rawRows := by
    rw [rawRows, rawRows, Backend.readRows_eq, Backend.readRows_eq, hs, hrows, hcolumns]
  have hcells (precision : Option Nat) : a.cells precision = b.cells precision := by
    rw [cells, cells, require_congr hheld, h.2]
    simp only [cellTexts, Backend.get_eq, hs]
  have hlayout : layout a.frame = layout b.frame := by
    funext texts
    unfold layout
    rw [Frame.isColumn, Frame.isColumn, hcolumns]
  refine ⟨hraw, hcells, fun precision => ?_, ?_, ?_, ?_⟩
  · rw [display, display, require_congr hheld, hcells, hlayout]
  · rw [table, table, hcells, hcolumns]
  · rw [toCsv, toCsv, hraw]
  · rw [toJson, toJson, hraw]

/-- Lists of other lengths, or another type of a single element. -/
theorem not_compatible_of_differ {f g : Frame} (hl : 1 ≤ g.rows.length)
    (h : f.rows.length ≠ g.rows.length ∨ f.columns.length ≠ g.columns.length ∨
      ∃ i j, f.element? i j ≠ g.element? i j) : ¬ f.Compatible g := by
  intro hc
  obtain ⟨hrows, hcolumns⟩ := Frame.lengths_of_compatible hl hc.symm
  obtain hr | hc' | ⟨i, j, he⟩ := h
  · exact hr hrows.symm
  · exact hc' hcolumns.symm
  · exact he (Frame.element?_of_compatible hc i j)

end Matrix

namespace Session

variable {s : Session} {k : Raw} {a b m : Matrix k} {left right target : String}

theorem pair?_eq (ha : s.register? left = some ⟨k, a⟩) (hb : s.register? right = some ⟨k, b⟩) :
    s.pair? left right = some ⟨k, a, b⟩ := by
  have hsame : (⟨k, b⟩ : AnyMatrix).as? k = some b := dif_pos rfl
  rw [pair?, ha, hb]
  show (AnyMatrix.as? ⟨k, b⟩ k).bind (fun y => some (⟨k, a, y⟩ : (k : Raw) × Matrix k × Matrix k)) = _
  rw [hsame]
  rfl

/-- The target holds what the conversion gives, and of what it held before only the type counts. -/
theorem step_assign (ha : s.register? left = some ⟨k, a⟩) (hb : s.register? right = some ⟨k, b⟩)
    (hm : a.type.ofCompatible b = .ok m) : s.step (.assign left right target) =
      ⟨.ok (.matrix ⟨k, m⟩ none), [], s.setRegister target ⟨k, m⟩⟩ := by
  simp only [step, pair?_eq ha hb, hm]
  rfl

end Session

namespace Matrix

variable {k : Raw} {m : Matrix k} {store store' : Store} {f f' : Frame}

/-- Storage of the extent of the lists, and other lists with the same elements: a matrix converts to
every such type, whatever kinds of storage the two have. It keeps its numbers and looks the same; it
makes no difference whether a second conversion starts from the matrix or from what the first one gave;
and the way back gives the matrix itself. An assignment does the same to whatever the target held. Lists
of other lengths or with a single other element are rejected. -/
theorem conversion_preserves (hm : m.Fits) (ht : (⟨k, store, f⟩ : MatrixType).Covers)
    (ht' : (⟨k, store', f'⟩ : MatrixType).Covers) (hf : f.Compatible m.frame)
    (hf' : f'.Compatible m.frame) :
    ∃ a b : Matrix k, (⟨k, store, f⟩ : MatrixType).ofCompatible m = .ok a ∧
      a.type = ⟨k, store, f⟩ ∧ a.storage = m.storage ∧ a.rawRows = .ok m.storage.entries ∧
      a.LooksLike m ∧
      (⟨k, store', f'⟩ : MatrixType).ofCompatible a = .ok b ∧
      (⟨k, store', f'⟩ : MatrixType).ofCompatible m = .ok b ∧
      m.type.ofCompatible a = .ok m ∧
      (∀ (s : Session) (old : Matrix k) (left right target : String), old.type = ⟨k, store, f⟩ →
        s.register? left = some ⟨k, old⟩ → s.register? right = some ⟨k, m⟩ →
        s.step (.assign left right target) =
          ⟨.ok (.matrix ⟨k, a⟩ none), [], s.setRegister target ⟨k, a⟩⟩) ∧
      ∀ (s : Store) (g : Frame), (g.rows.length ≠ m.frame.rows.length ∨
        g.columns.length ≠ m.frame.columns.length ∨ ∃ i j, g.element? i j ≠ m.frame.element? i j) →
        (⟨k, s, g⟩ : MatrixType).ofCompatible m = .error .illTyped := by
  have hl := hm.listed.1.1
  have hextent {g : Frame} (hg : g.Compatible m.frame) :
      m.storage.Extent g.rows.length g.columns.length := by
    obtain ⟨hrows, hcolumns⟩ := Frame.lengths_of_compatible hl hg.symm
    rw [← hrows, ← hcolumns]
    exact hm.extent
  have hfirst : (⟨k, store, f⟩ : MatrixType).ofCompatible m = .ok ⟨store.backend, f, m.storage⟩ :=
    MatrixType.ofCompatible_eq ht hf (hextent hf)
  have hback : m.type.ofCompatible (⟨store.backend, f, m.storage⟩ : Matrix k) =
      .ok ⟨m.store.backend, m.frame, m.storage⟩ :=
    MatrixType.ofCompatible_eq (covers_type hm) hf.symm hm.extent
  have hlooks : LooksLike ⟨store.backend, f, m.storage⟩ m :=
    looksLike_of_compatible (by rw [← (Frame.lengths_of_compatible hl hf.symm).1]; exact hl) hf rfl
  refine ⟨⟨store.backend, f, m.storage⟩, ⟨store'.backend, f', m.storage⟩, hfirst,
    MatrixType.type_eq_of_on ht ⟨rfl, hextent hf⟩ rfl, rfl, hlooks.rawRows.trans (rawRows_eq hm), hlooks,
    ?_, ?_, ?_, fun s old left right target htype hleft hright => ?_, fun s g hg => ?_⟩
  · exact MatrixType.ofCompatible_eq ht' ⟨hf'.1, hf'.2.trans hf.2.symm⟩ (hextent hf')
  · exact MatrixType.ofCompatible_eq ht' hf' (hextent hf')
  · rw [hback, m.backend_store]
    rfl
  · refine Session.step_assign hleft hright ?_
    obtain rfl : old.store = store := congrArg MatrixType.store htype
    obtain rfl : old.frame = f := congrArg MatrixType.frame htype
    exact hfirst
  · exact MatrixType.ofCompatible_of_not_compatible (not_compatible_of_differ hl hg)

def rates : Matrix .double :=
  ⟨.fixed, ⟨[.quantity 1 0], [.quantity 0 (-1), .quantity 0 (-2)]⟩, ⟨2, [[3, 4]], by simp⟩⟩

/-- The same elements with the metres along the row, and with nothing in front. -/
theorem conversion_preserves_rates :
    let swapped : Frame := ⟨[.quantity 0 (-1)], [.quantity 1 0, .quantity 1 (-1)]⟩
    let bare : Frame := ⟨[.identity], [.quantity 1 (-1), .quantity 1 (-2)]⟩
    let old : Matrix .double := ⟨.dynamic, swapped, .replicate 1 2 (0 : Float)⟩
    rates.Fits ∧ (⟨.double, .dynamic, swapped⟩ : MatrixType).Covers ∧
      (⟨.double, .fixed 1 2, bare⟩ : MatrixType).Covers ∧ swapped.Compatible rates.frame ∧
      bare.Compatible rates.frame ∧ old.type = ⟨.double, .dynamic, swapped⟩ ∧
      ∃ a b : Matrix .double, (⟨.double, .dynamic, swapped⟩ : MatrixType).ofCompatible rates = .ok a ∧
        a.LooksLike rates ∧
        (⟨.double, .fixed 1 2, bare⟩ : MatrixType).ofCompatible a = .ok b ∧
        rates.type.ofCompatible a = .ok rates ∧
        ((Session.empty.setRegister "rates" ⟨.double, rates⟩).setRegister "old" ⟨.double, old⟩).step
          (.assign "old" "rates" "old") = ⟨.ok (.matrix ⟨.double, a⟩ none), [],
            ((Session.empty.setRegister "rates" ⟨.double, rates⟩).setRegister "old"
              ⟨.double, old⟩).setRegister "old" ⟨.double, a⟩⟩ ∧
        (⟨.double, .dynamic, ⟨[.identity], [.quantity 1 (-1), .quantity 1 0]⟩⟩ :
          MatrixType).ofCompatible rates = .error .illTyped := by
  intro swapped bare old
  have hfits : rates.Fits := ⟨by unfold Frame.Listed; decide, rfl, rfl⟩
  have hdynamic : (⟨.double, .dynamic, swapped⟩ : MatrixType).Covers := trivial
  have hfixed : (⟨.double, .fixed 1 2, bare⟩ : MatrixType).Covers := ⟨rfl, rfl⟩
  have hswapped : swapped.Compatible rates.frame := by decide
  have hbare : bare.Compatible rates.frame := by decide
  obtain ⟨a, b, ha, -, -, -, hlooks, hb, -, hback, hassign, hreject⟩ :=
    conversion_preserves hfits hdynamic hfixed hswapped hbare
  exact ⟨hfits, hdynamic, hfixed, hswapped, hbare, rfl, a, b, ha, hlooks, hb, hback,
    hassign _ old "old" "rates" "old" rfl rfl rfl,
    hreject .dynamic _ (.inr (.inr ⟨0, 1, by decide⟩))⟩

end Matrix

end UnitMatrix
