import UnitMatrix.Proofs.Matrix.RawRows

/-! Loading rows of any lengths. Rows fill a matrix if they have the shape of its lists, and then they
are read back as they were. Otherwise the number of rows is reported if it is wrong, and else the
first row of another length. It makes no difference whether all rows are checked before anything is
stored or each when its turn comes, for what has the right length is stored without a fault. -/

namespace UnitMatrix

/-- A walk that checks each element and then acts on it ends as if all checks had come first, if no
action fails on what has passed. -/
theorem foldlM_checked {σ α : Type} {bad : α → Prop} [DecidablePred bad] (reason : α → Failure)
    {act : σ → α → Except Fault σ} {P : σ → Prop} {xs : List α}
    (hact : ∀ s, ∀ x ∈ xs, ¬ bad x → P s → ∃ s', act s x = .ok s' ∧ P s') {s : σ} (hs : P s) :
    xs.foldlM (fun s x => if bad x then .error (reason x) else (act s x : Outcome σ)) s =
      match xs.find? (bad ·) with
      | some x => .error (reason x)
      | none => ((xs.foldlM act s : Except Fault σ) : Outcome σ) := by
  induction xs generalizing s with
  | nil => rfl
  | cons x xs ih =>
    rw [List.foldlM_cons, List.find?_cons]
    by_cases hx : bad x
    · rw [if_pos hx, decide_eq_true hx]
      rfl
    · obtain ⟨s', hs', hP⟩ := hact s x List.mem_cons_self hx hs
      rw [if_neg hx, decide_eq_false hx, List.foldlM_cons, hs']
      exact ih (fun s y hy => hact s y (List.mem_cons_of_mem _ hy)) hP

namespace MatrixType

variable {t : MatrixType} {rows : List (List t.raw.Carrier)}

/-- Row `i` is the first whose length is not the number of columns. -/
structure FirstMisfit (t : MatrixType) (rows : List (List t.raw.Carrier)) (i : Nat)
    (row : List t.raw.Carrier) : Prop where
  found : rows[i]? = some row
  misfit : row.length ≠ t.frame.columns.length
  before : ∀ earlier ∈ rows.take i, earlier.length = t.frame.columns.length

def misfit? (t : MatrixType) (rows : List (List t.raw.Carrier)) : Option (List t.raw.Carrier × Nat) :=
  rows.zipIdx.find? fun p => p.1.length ≠ t.frame.columns.length

theorem misfit?_eq_none_iff :
    t.misfit? rows = none ↔ ∀ row ∈ rows, row.length = t.frame.columns.length := by
  rw [misfit?, List.find?_eq_none]
  simp only [decide_eq_true_eq, not_not]
  constructor
  · intro h row hrow
    obtain ⟨i, hi⟩ := List.mem_iff_getElem?.1 hrow
    exact h (row, i) (List.mem_zipIdx_iff_getElem?.2 hi)
  · exact fun h p hp => h p.1 (List.fst_mem_of_mem_zipIdx hp)

theorem misfit?_eq_some_iff {i : Nat} {row : List t.raw.Carrier} :
    t.misfit? rows = some (row, i) ↔ t.FirstMisfit rows i row := by
  rw [misfit?, List.find?_eq_some_iff_getElem]
  simp only [decide_eq_true_eq, List.getElem_zipIdx, List.length_zipIdx, Nat.zero_add,
    Prod.mk.injEq, ← decide_not, not_not]
  constructor
  · rintro ⟨hmisfit, i, hi, ⟨rfl, rfl⟩, hbefore⟩
    refine ⟨List.getElem?_eq_getElem hi, hmisfit, fun earlier h => ?_⟩
    obtain ⟨j, hj, rfl⟩ := List.mem_take_iff_getElem.1 h
    exact hbefore j (by omega)
  · rintro ⟨hfound, hmisfit, hbefore⟩
    obtain ⟨hi, rfl⟩ := List.getElem?_eq_some_iff.1 hfound
    refine ⟨hmisfit, i, hi, ⟨rfl, rfl⟩, fun j hj => hbefore _ ?_⟩
    exact List.mem_take_iff_getElem.2 ⟨j, by omega, rfl⟩

/-- With the right number of rows, the first that does not fit decides. -/
theorem ofRawRows_eq_match (ht : t.Covers) (hl : rows.length = t.frame.rows.length) :
    t.ofRawRows rows =
      match t.misfit? rows with
      | some p => .error (.load (.columnCount p.2 t.frame.columns.length p.1.length))
      | none => ((t.zeros >>= (·.putRows rows) : Except Fault _) : Outcome (Matrix t.raw)) := by
  obtain ⟨m, hzeros, hm⟩ := (ensures_zeros ht).exists_ok
  have hput : ∀ m' : Matrix t.raw, ∀ p ∈ rows.zipIdx, ¬ p.1.length ≠ t.frame.columns.length →
      m'.On t.frame → ∃ m'', m'.putRow p.2 p.1 = .ok m'' ∧ m''.On t.frame := by
    intro m' p hp hlength hm'
    have hlt := List.snd_lt_of_mem_zipIdx hp
    exact (hm'.putRow (by omega) (not_not.1 hlength)).exists_ok
  -- rows of the right length are stored without a fault, so all checks may come first
  have hwalk := foldlM_checked
    (fun p => .load (.columnCount p.2 t.frame.columns.length p.1.length)) hput hm
  unfold ofRawRows
  dsimp only
  rw [if_neg (not_not.2 hl), hzeros]
  refine hwalk.trans ?_
  rw [misfit?]
  cases rows.zipIdx.find? fun p => p.1.length ≠ t.frame.columns.length with
  | some p => rfl
  | none => rfl

theorem ofRawRows_of_length_ne (hl : rows.length ≠ t.frame.rows.length) :
    t.ofRawRows rows = .error (.load (.rowCount t.frame.rows.length rows.length)) :=
  if_pos hl

/-- With the right number of rows, the first that does not fit is reported. -/
theorem exists_firstMisfit (ht : t.Covers) (hl : rows.length = t.frame.rows.length)
    (hrows : ¬ ∀ row ∈ rows, row.length = t.frame.columns.length) :
    ∃ i row, t.FirstMisfit rows i row ∧
      t.ofRawRows rows = .error (.load (.columnCount i t.frame.columns.length row.length)) := by
  obtain ⟨⟨row, i⟩, h⟩ := Option.ne_none_iff_exists'.1 (mt misfit?_eq_none_iff.1 hrows)
  refine ⟨i, row, misfit?_eq_some_iff.1 h, ?_⟩
  rw [ofRawRows_eq_match ht hl, h]

theorem exists_ofRawRows_iff (ht : t.Covers) :
    (∃ m, t.ofRawRows rows = .ok m) ↔ rows.length = t.frame.rows.length ∧
      ∀ row ∈ rows, row.length = t.frame.columns.length := by
  constructor
  · rintro ⟨m, hm⟩
    by_cases hl : rows.length = t.frame.rows.length
    · refine ⟨hl, misfit?_eq_none_iff.1 ?_⟩
      rw [ofRawRows_eq_match ht hl] at hm
      cases h : t.misfit? rows with
      | none => rfl
      | some p =>
        rw [h] at hm
        cases hm
    · rw [ofRawRows_of_length_ne hl] at hm
      cases hm
  · exact fun h => ⟨_, ofRawRows_eq ht h.1 h.2⟩

/-- Checking all rows before anything is stored comes to the same. -/
theorem ofRows_eq_ofRawRows (ht : t.Covers) {e : Index} (he : t.frame.uniformIn? t.raw = some e) :
    t.ofRows rows = t.ofRawRows rows := by
  unfold ofRows
  rw [he]
  by_cases hl : rows.length = t.frame.rows.length
  · obtain ⟨m, hzeros, -⟩ := (ensures_zeros ht).exists_ok
    rw [ofRawRows_eq_match ht hl, hzeros]
    refine (if_neg (not_not.2 hl)).trans ?_
    rw [misfit?]
    cases rows.zipIdx.find? fun p => p.1.length ≠ t.frame.columns.length with
    | some p => rfl
    | none => rfl
  · rw [ofRawRows_of_length_ne hl]
    exact if_pos hl

/-- A matrix on the lists of a type, in storage of the kind that the type asks for, is of this type. -/
theorem type_eq_of_on (ht : t.Covers) {m : Matrix t.raw} (hm : m.On t.frame)
    (hb : m.backend = t.store.backend) : m.type = t := by
  have hstore : m.store = t.store := by
    unfold Covers at ht
    unfold Matrix.store
    rw [hb]
    cases h : t.store with
    | fixed r c =>
      rw [h] at ht
      exact congrArg₂ Store.fixed (hm.2.1.trans ht.1.symm) (hm.2.2.trans ht.2.symm)
    | dynamic => rfl
  show (⟨t.raw, m.store, m.frame⟩ : MatrixType) = t
  rw [hstore, hm.1]

/-- What has been stored is of the type asked for and is read back as it was. -/
theorem rawRows_of_ofRawRows (ht : t.Covers) {m : Matrix t.raw} (hm : t.ofRawRows rows = .ok m) :
    m.type = t ∧ m.rawRows = .ok rows := by
  obtain ⟨hrows, hcolumns⟩ := (exists_ofRawRows_iff ht).1 ⟨m, hm⟩
  rw [ofRawRows_eq ht hrows hcolumns] at hm
  cases hm
  exact ⟨type_eq_of_on ht ⟨rfl, hrows, rfl⟩ rfl,
    (Backend.readRows_eq ..).trans (Grid.readRows_eq ⟨hrows, rfl⟩)⟩

/-- A matrix of the type is made again from the rows that are read from it. -/
theorem ofRawRows_rawRows (ht : t.Covers) {m : Matrix t.raw} (htype : m.type = t)
    (hm : m.storage.Extent t.frame.rows.length t.frame.columns.length) :
    ∃ found, m.rawRows = .ok found ∧ t.ofRawRows found = .ok m := by
  refine ⟨m.storage.entries, ?_, ofRawRows_of_type_eq ht htype hm⟩
  rw [Matrix.rawRows, show m.frame = t.frame from congrArg frame htype, Backend.readRows_eq]
  exact Grid.readRows_eq hm

/-- Rows of any lengths, for storage of the extent `R × C` of the lists. They are loaded if and only
if they are `R` rows of `C` numbers each. Of what is wrong with them the number of rows comes first,
and then the first row that does not fit. What has been loaded reads back as the same rows, and every
matrix of the type comes back from its rows. Where all elements are of one type, checking the rows
beforehand and checking them one by one give the same matrix or the same error. -/
theorem loading_cases (ht : t.Covers) (rows : List (List t.raw.Carrier)) :
    ((∃ m, t.ofRawRows rows = .ok m) ↔ rows.length = t.frame.rows.length ∧
        ∀ row ∈ rows, row.length = t.frame.columns.length) ∧
      (rows.length ≠ t.frame.rows.length →
        t.ofRawRows rows = .error (.load (.rowCount t.frame.rows.length rows.length))) ∧
      (rows.length = t.frame.rows.length →
        (¬ ∀ row ∈ rows, row.length = t.frame.columns.length) →
        ∃ i row, t.FirstMisfit rows i row ∧
          t.ofRawRows rows = .error (.load (.columnCount i t.frame.columns.length row.length))) ∧
      (∀ m, t.ofRawRows rows = .ok m → m.type = t ∧ m.rawRows = .ok rows) ∧
      (∀ m : Matrix t.raw, m.type = t →
        m.storage.Extent t.frame.rows.length t.frame.columns.length →
        ∃ found, m.rawRows = .ok found ∧ t.ofRawRows found = .ok m) ∧
      ∀ e, t.frame.uniformIn? t.raw = some e → t.ofRows rows = t.ofRawRows rows :=
  ⟨exists_ofRawRows_iff ht, ofRawRows_of_length_ne, exists_firstMisfit ht,
    fun _ => rawRows_of_ofRawRows ht, fun _ => ofRawRows_rawRows ht, fun _ => ofRows_eq_ofRawRows ht⟩

/-- Two by two: a row too few, a row too long behind one that fits, and rows that do. -/
theorem loading_cases_of_pair :
    let t : MatrixType := ⟨.double, .fixed 2 2, ⟨[.double, .double], [.double, .double]⟩⟩
    let long : List (List Float) := [[1, 2], [3, 4, 5]]
    let good : List (List Float) := [[1, 2], [3, 4]]
    let m : Matrix t.raw := ⟨.fixed, t.frame, ⟨2, good, by decide⟩⟩
    t.Covers ∧ t.frame.uniformIn? t.raw = some .double ∧
      t.ofRows [[]] = .error (.load (.rowCount 2 1)) ∧
      t.ofRows long = .error (.load (.columnCount 1 2 3)) ∧
      m.type = t ∧ m.storage.Extent 2 2 ∧ t.ofRows good = .ok m ∧ m.rawRows = .ok good := by
  intro t long good m
  have ht : t.Covers := ⟨rfl, rfl⟩
  have huniform : t.frame.uniformIn? t.raw = some .double := by decide
  obtain ⟨-, hshort, -, -, -, hsame⟩ := loading_cases ht [[]]
  refine ⟨ht, huniform, (hsame _ huniform).trans (hshort (by decide)), ?_, rfl, ⟨rfl, rfl⟩, ?_⟩
  · obtain ⟨-, -, hlong, -, -, hsame⟩ := loading_cases ht long
    rw [hsame _ huniform]
    obtain ⟨i, row, hrow, herror⟩ := hlong rfl fun h =>
      absurd (h _ (List.mem_cons_of_mem _ List.mem_cons_self)) (by decide)
    -- the first row fits, and there is no third
    match i with
    | 0 =>
      cases hrow.found
      exact absurd rfl hrow.misfit
    | 1 =>
      cases hrow.found
      exact herror
    | n + 2 => cases hrow.found
  · obtain ⟨-, -, -, hback, hagain, hsame⟩ := loading_cases ht good
    obtain ⟨found, hfound, hm⟩ := hagain m rfl ⟨rfl, rfl⟩
    obtain rfl : found = good := Except.ok.inj (hfound.symm.trans rfl)
    exact ⟨(hsame _ huniform).trans hm, (hback m hm).2⟩

end MatrixType

end UnitMatrix
