import UnitMatrix.Json.Writer
import UnitMatrix.Proofs.Division.ZeroDivisor
import UnitMatrix.Proofs.Grid.Cellwise
import UnitMatrix.Proofs.Matrix.Fits
import UnitMatrix.Proofs.Units.ElementTypes

/-! A scalar as a divisor, and the same scalar as a matrix of one cell. A single column may be divided
by either. The lists come about in two ways and give the same element types. The numbers are divided
in the same way too, one by one, unless the square of the scalar is lost: then the singleton counts
as zero, and only the scalar divides. -/

namespace UnitMatrix

open RootField

section Quotient

variable {K : Type}

theorem Grid.exists_cell {x : Grid K} (hx : x.columns = 1) {row : List K} (hr : row ∈ x.entries) :
    ∃ y, row = [y] :=
  List.length_eq_one_iff.1 ((x.rectangular row hr).trans hx)

variable [RootField K]

/-- The one column is the pivot if it is not within its own tolerance, and nothing is reflected. -/
theorem eliminate_singleton {v : K} {targets : List (List K)}
    (hle : ¬ le (normFrom 0 [v]) (mul (mul (normFrom 0 [v]) epsilon) (ofNat 1)) = true) :
    eliminate 1 [[v]] targets = ⟨[⟨0, [v]⟩], [], targets⟩ :=
  if_neg hle

theorem divide_singleton {x : Grid K} (hx : x.columns = 1) {v : K}
    (hle : ¬ le (normFrom 0 [v]) (mul (mul (normFrom 0 [v]) epsilon) (ofNat 1)) = true) :
    (divide x (.replicate 1 1 v)).rank = 1 ∧ (divide x (.replicate 1 1 v)).grid.entries =
      x.entries.map fun row => row.map (div · v) := by
  have he : eliminate 1 [[v]] x.entries = ⟨[⟨0, [v]⟩], [], x.entries⟩ := eliminate_singleton hle
  refine ⟨congrArg (fun e => e.pivots.length) he, ?_⟩
  have hentries : (divide x (.replicate 1 1 v)).grid.entries = x.entries.map fun target =>
      [div (target.getD 0 zero) v] :=
    congrArg (fun e => e.targets.map fun target =>
      placeSolution 1 e.pivots (backSubstitute target 0 e.pivots)) he
  rw [hentries]
  refine List.map_congr_left fun row hr => ?_
  obtain ⟨y, rfl⟩ := Grid.exists_cell hx hr
  rfl

end Quotient

section Square

variable {K : Type} [Floating K] [RootField K]

def LosesSquare (v : K) : Prop :=
  Floating.toBits (mul v v) = 0 ∨ Floating.toBits (mul v v) = (Floating.format K).infinity

variable [FloatField K] {v : K}

theorem indistinct_singleton_iff (hv : IsFinite v) :
    Indistinct (Grid.replicate 1 1 v) ↔ LosesSquare v := by
  obtain ⟨-, hfraction, -⟩ := format_room (K := K)
  have hextent : ¬ 2 ^ (Floating.format K).fractionBits ≤ 1 :=
    Nat.not_le.2 (Nat.one_lt_two_pow (Nat.pos_iff_ne_zero.1 hfraction))
  have hsum : Floating.toBits (squareSum [v]) = Floating.toBits (mul v v) :=
    toBits_add_of_eq_zero toBits_zero (unsigned_mul_self hv)
  simp only [Indistinct, LosesSquare, Grid.replicate, Grid.rows, List.replicate,
    List.mem_singleton, forall_eq, exists_eq_left, hsum, List.length_singleton, max_self, hextent,
    or_false]

theorem divide_singleton_cases (x : Grid K) (hx : x.columns = 1) (hv : IsFinite v) :
    (¬ LosesSquare v → (divide x (.replicate 1 1 v)).rank = 1 ∧
      (divide x (.replicate 1 1 v)).grid.entries = x.entries.map fun row => row.map (div · v)) ∧
    (LosesSquare v → (divide x (.replicate 1 1 v)).rank = 0 ∧
      (divide x (.replicate 1 1 v)).grid = .replicate x.rows 1 zero) := by
  have hfinite : ∀ row ∈ (Grid.replicate 1 1 v).entries, ∀ w ∈ row, IsFinite w := by
    simpa [Grid.replicate] using hv
  have hword : max (Grid.replicate 1 1 v).columns (Grid.replicate 1 1 v).rows < 2 ^ 64 :=
    show 1 < 2 ^ 64 by decide
  rw [← indistinct_singleton_iff hv]
  constructor
  · intro h
    refine divide_singleton hx fun hle => h ?_
    have hvalues : [Column.mk 0 [v]].map Column.values = (Grid.replicate 1 1 v).entries := rfl
    exact (le_tolerance_iff_indistinct hvalues Nat.one_pos hword hfinite rfl).1 hle
  · exact divide_of_indistinct x _ Nat.one_pos Nat.one_pos hword hfinite

end Square

section Numbers

variable {K : Type} [Arithmetic K] [RootField K]

theorem divideBy_eq_ok {x g : Grid K} {v : K} (hdiv : ∀ y, Arithmetic.div y v = .ok (div y v))
    (hc : g.columns = x.columns) (he : g.entries = x.entries.map fun row => row.map (div · v)) :
    x.divideBy v = .ok g := by
  have hrow : (fun row : List K => row.mapM (Arithmetic.div · v)) =
      fun row => (pure (row.map (div · v)) : Except Fault (List K)) := by
    funext row
    rw [← List.mapM_pure]
    exact congrArg (row.mapM ·) (funext hdiv)
  rw [Grid.divideBy, Grid.mapM, Grid.ofRowsM_eq_ok_iff, hrow, List.mapM_pure, he]
  exact ⟨hc, rfl⟩

variable [Floating K] [FloatField K]

theorem exists_quotients (backend : Backend) {x : Grid K} (hx : x.columns = 1) {v : K}
    (hdiv : ∀ y, Arithmetic.div y v = .ok (div y v)) (hv : IsFinite v) :
    ∃ (q : Solution K) (g : Grid K), backend.div x (.replicate 1 1 v) = .ok q ∧
      x.divideBy v = .ok g ∧
      (¬ LosesSquare v → LogRecord.ofRank? q.rank 1 1 = none ∧ q.grid = g) ∧
      (LosesSquare v → LogRecord.ofRank? q.rank 1 1 = some (.zeroDivisor 1 1) ∧
        q.grid = .replicate x.rows 1 zero) := by
  have hbackend : backend.div x (.replicate 1 1 v) = .ok (divide x (.replicate 1 1 v)) := by
    cases backend with
    | fixed => rfl
    | dynamic => exact if_pos hx
  obtain ⟨hexact, hlost⟩ := divide_singleton_cases x hx hv
  have hrows : (x.entries.map fun row => row.map (div · v)).length = x.rows := List.length_map _
  refine ⟨_, ⟨x.columns, x.entries.map fun row => row.map (div · v), ?_⟩, hbackend,
    divideBy_eq_ok hdiv rfl rfl, fun h => ?_, fun h => ?_⟩
  · intro row hr
    obtain ⟨numbers, hnumbers, rfl⟩ := List.mem_map.1 hr
    rw [List.length_map, x.rectangular numbers hnumbers]
  · obtain ⟨hrank, hentries⟩ := hexact h
    rw [hrank]
    exact ⟨rfl, Grid.ext hx.symm hentries⟩
  · obtain ⟨hrank, hgrid⟩ := hlost h
    rw [hrank]
    exact ⟨rfl, hgrid⟩

end Numbers

namespace Frame

variable {f p q : Frame} {e : Index}

/-- Both ways, an element of `f` is multiplied by the inverse of the scalar. -/
theorem agree_of_div?_ofScalar (hp : f.div? (.ofScalar e) = some p)
    (hq : f.divScalar? e = some q) (i j : Nat) : Agree (p.element? i j) (q.element? i j) := by
  intro s t hs ht
  obtain ⟨-, c, c', d, hc, hc', hd, hrows, hcolumns⟩ := div?_eq_some hp
  obtain ⟨rows, hqrows, rfl⟩ := Option.map_eq_some_iff.1 hq
  obtain ⟨pr, pc, hpr, hpc, hst⟩ := element?_eq_some_iff.1 hs
  obtain ⟨qr, qc, hqr, hqc, htt⟩ := element?_eq_some_iff.1 ht
  obtain ⟨r, hr, hrd⟩ := exists_of_mapM_eq_some hrows hpr
  obtain ⟨r', hr', hre⟩ := exists_of_mapM_eq_some hqrows hqr
  obtain ⟨k, hk, hke⟩ := exists_of_mapM_eq_some hcolumns hpc
  cases hr.symm.trans hr'
  cases hc'
  -- the scalar has one row, so the quotient has one column
  obtain ⟨hj, rfl⟩ := List.getElem?_eq_some_iff.1 hk
  obtain rfl : j = 0 := Nat.lt_one_iff.1 hj
  cases hc.symm.trans hqc
  apply Index.grade_injective
  calc s.grade = r.grade + (c.grade + Index.identity.grade.inverse) +
        (Index.identity.grade + e.grade.inverse) := by
        rw [Index.grade_of_mul? hst, Index.grade_of_mul? hrd, Index.grade_of_div? hd,
          Index.grade_of_div? hke]
        rfl
    _ = r.grade + (c.grade + 0) + (0 + e.grade.inverse) := rfl
    _ = r.grade + e.grade.inverse + c.grade := by abel
    _ = t.grade := by rw [Index.grade_of_mul? htt, Index.grade_of_div? hre]

end Frame

def Raw.LosesSquare : (k : Raw) → k.Carrier → Prop
  | .double, v => UnitMatrix.LosesSquare (K := Float) v
  | .single, v => UnitMatrix.LosesSquare (K := Float32) v
  | _, _ => False

namespace Matrix

variable {k : Raw} {a : Matrix k} {e : Index} {v : k.Carrier} {p q : Frame}

theorem div_eq_ok {b : Matrix k} {field : RootField k.Carrier} {s : Solution k.Carrier}
    (hk : k.rootField? = some field) (hb : a.backend = b.backend)
    (hcolumns : a.storage.columns = b.storage.columns) (hp : a.frame.div? b.frame = some p)
    (hs : a.backend.div a.storage b.storage = .ok s) :
    a.div b = .ok (⟨a.backend, p, s.grid⟩,
      LogRecord.ofRank? s.rank b.storage.rows b.storage.columns) := by
  rw [div, require, if_pos ⟨hb, fun _ => hcolumns⟩]
  simp only [hk, hp]
  show (do
    let q ← a.backend.div a.storage b.storage
    .ok (_, _) : Outcome (Matrix k × Option LogRecord)) = _
  rw [hs]
  rfl

theorem divScalar_eq_ok {g : Grid k.Carrier} (he : k.holds e = true)
    (hq : a.frame.divScalar? e = some q) (hg : a.storage.divideBy v = .ok g) :
    a.divScalar e v = .ok ⟨a.backend, q, g⟩ := by
  rw [divScalar, require, if_pos he, hq, Backend.divideBy_eq, hg]
  rfl

/-- A single column over a scalar and over the singleton of the scalar. Both quotients exist, with
the same element types; the numbers are the same and nothing is reported, unless the square of the
scalar is lost, where the singleton leaves the quotient at zero and says so. -/
theorem div_ofScalar_cases (ha : a.Fits) (hc : a.frame.columns.length = 1)
    (he : k.holds e = true) (hv : Json.isFinite k v = true)
    (hp : a.frame.div? (.ofScalar e) = some p) (hq : a.frame.divScalar? e = some q) :
    ∃ (x y : Matrix k) (record? : Option LogRecord),
      a.div (ofScalar a.backend e v) = .ok (x, record?) ∧ a.divScalar e v = .ok y ∧
      x.frame = p ∧ y.frame = q ∧
      (∀ i j, Agree (x.frame.element? i j) (y.frame.element? i j)) ∧
      (¬ k.LosesSquare v → record? = none ∧ x.storage = y.storage) ∧
      (k.LosesSquare v → record? = some (.zeroDivisor 1 1) ∧
        x.storage = .replicate a.storage.rows 1 Arithmetic.zero) := by
  have hcolumns : a.storage.columns = 1 := ha.extent.2.trans hc
  have hagree := Frame.agree_of_div?_ofScalar hp hq
  rw [ofScalar_eq]
  cases k with
  | double =>
    obtain ⟨s, g, hs, hg, hnumbers⟩ :=
      exists_quotients (K := Float) a.backend hcolumns (fun _ => rfl) hv
    exact ⟨_, _, _, div_eq_ok rfl rfl hcolumns hp hs, divScalar_eq_ok he hq hg, rfl, rfl, hagree,
      hnumbers⟩
  | single =>
    obtain ⟨s, g, hs, hg, hnumbers⟩ :=
      exists_quotients (K := Float32) a.backend hcolumns (fun _ => rfl) hv
    exact ⟨_, _, _, div_eq_ok rfl rfl hcolumns hp hs, divScalar_eq_ok he hq hg, rfl, rfl, hagree,
      hnumbers⟩
  | signed => cases he
  | byte => cases he

/-- A length and a velocity over two metres, and over `1e-200` metres. -/
theorem div_ofScalar_of_column :
    let a : Matrix .double := ⟨.fixed, ⟨[.quantity 1 0, .quantity 1 (-1)], [.identity]⟩,
      ⟨1, [[(3 : Float)], [(2 : Float)]], by decide⟩⟩
    let metre : Index := .quantity 1 0
    let tiny : Float := Float.ofBits 0x16687E92154EF7AC
    a.Fits ∧ a.frame.columns.length = 1 ∧ Raw.double.holds metre = true ∧
      Json.isFinite .double (2 : Float) = true ∧ Json.isFinite .double tiny = true ∧
      (∃ p, a.frame.div? (.ofScalar metre) = some p) ∧ (∃ q, a.frame.divScalar? metre = some q) ∧
      (∃ (x y : Matrix .double), a.div (ofScalar .fixed metre (2 : Float)) = .ok (x, none) ∧
        a.divScalar metre (2 : Float) = .ok y ∧ x.storage = y.storage ∧
        ∀ i j, Agree (x.frame.element? i j) (y.frame.element? i j)) ∧
      ∃ (x : Matrix .double), x.storage = .replicate 2 1 (0 : Float) ∧
        a.div (ofScalar .fixed metre tiny) = .ok (x, some (.zeroDivisor 1 1)) := by
  intro a metre tiny
  have ha : a.Fits := ⟨Frame.Valid.listed (by decide), rfl, rfl⟩
  have hp : a.frame.div? (.ofScalar metre) =
      some ⟨[.quantity 1 0, .quantity 1 (-1)], [.quantity (-1) 0]⟩ := by decide
  have hq : a.frame.divScalar? metre = some ⟨[.quantity 0 0, .quantity 0 (-1)], [.identity]⟩ := by
    decide
  have htwo : Json.isFinite .double (2 : Float) = true := by decide +kernel
  have htiny : Json.isFinite .double tiny = true := by decide +kernel
  have hexact : ¬ Raw.double.LosesSquare (2 : Float) := by
    simp only [Raw.LosesSquare, UnitMatrix.LosesSquare]
    decide +kernel
  have hlost : Raw.double.LosesSquare tiny := by
    simp only [Raw.LosesSquare, UnitMatrix.LosesSquare]
    decide +kernel
  obtain ⟨x, y, record?, hx, hy, -, -, hagree, hnumbers, -⟩ :=
    div_ofScalar_cases ha rfl rfl htwo hp hq
  obtain ⟨rfl, hstorage⟩ := hnumbers hexact
  obtain ⟨z, -, record?, hz, -, -, -, -, -, hnumbers⟩ :=
    div_ofScalar_cases ha rfl rfl htiny hp hq
  obtain ⟨rfl, hzero⟩ := hnumbers hlost
  exact ⟨ha, rfl, rfl, htwo, htiny, ⟨_, hp⟩, ⟨_, hq⟩, ⟨x, y, hx, hy, hstorage, hagree⟩, z, hzero,
    hz⟩

/-- One over a scalar that is not zero may differ from one over the singleton. -/
theorem not_forall_div_ofScalar :
    ¬ ∀ (a : Matrix .double) (e : Index) (v : Raw.double.Carrier) (x y : Matrix .double)
      (record? : Option LogRecord), a.Fits → a.frame.columns.length = 1 →
      Raw.double.holds e = true → Json.isFinite .double v = true →
      Binary.binary64.magnitude (Floating.toBits (α := Float) v) ≠ 0 →
      a.div (ofScalar a.backend e v) = .ok (x, record?) → a.divScalar e v = .ok y →
      x.storage = y.storage := by
  intro h
  have hstorage := h ⟨.fixed, ⟨[.double], [.identity]⟩, .replicate 1 1 (1 : Float)⟩ .double
    (Float.ofBits 0x16687E92154EF7AC) _ _ _ ⟨Frame.Valid.listed (by decide), rfl, rfl⟩ rfl rfl
    (by decide +kernel)
    (by decide +kernel) rfl rfl
  have hbits := congrArg (fun g => g.entries.map fun row => row.map (Floating.toBits (α := Float)))
    hstorage
  exact absurd hbits (by decide +kernel)

end Matrix

end UnitMatrix
