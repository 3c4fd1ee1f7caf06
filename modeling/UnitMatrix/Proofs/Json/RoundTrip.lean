import UnitMatrix.Proofs.Json.Closeness
import UnitMatrix.Proofs.Matrix.RawRows

/-! A matrix of finite numbers and its JSON text. A list is read element by element, whatever of an
enclosing list follows it, and so is a matrix: each number becomes what is read from its own text. A
parser that rounds once gives the same matrix. One that rounds after every step gives the same matrix of
singles or integers, and one of neighbours for a matrix of doubles, some of which are not read back as
themselves. -/

namespace UnitMatrix

namespace Json

variable {α β : Type} {element : List Char → Except Fault (β × List Char)} {print : α → List Char}
  {value : α → Except Fault β} {xs : List α} {rest : List Char} {r : Rounding}

def BeginsElement (text : List Char) : Prop := ∃ c ∈ text.head?, isSpace c = false ∧ c ≠ ']'

/-- What `print` writes is read as `value`, in front of a comma or a bracket. -/
structure Reads (element : List Char → Except Fault (β × List Char)) (print : α → List Char)
    (value : α → Except Fault β) (x : α) : Prop where
  begins : BeginsElement (print x)
  reads : ∀ rest, Closes rest → element (print x ++ rest) = (value x).map (·, rest)

def moreText (print : α → List Char) (xs : List α) : List Char :=
  xs.flatMap fun x => ',' :: print x

theorem intercalate_eq (x : α) (xs : List α) :
    List.intercalate [','] ((x :: xs).map print) = print x ++ moreText print xs := by
  induction xs generalizing x with
  | nil => simp [moreText]
  | cons y ys ih =>
    rw [List.map_cons, List.map_cons, List.intercalate_cons_cons, ← List.map_cons, ih]
    simp [moreText]

theorem Reads.eq_cons {x : α} (h : Reads element print value x) (text : List Char) :
    ∃ c cs, print x ++ text = c :: cs ∧ skipSpace (c :: cs) = c :: cs ∧ c ≠ ']' := by
  obtain ⟨c, hc, hspace, hne⟩ := h.begins
  obtain ⟨cs, hcs⟩ := List.head?_eq_some_iff.1 hc
  refine ⟨c, cs ++ text, by rw [hcs]; rfl, skipSpace_eq fun d hd => ?_, hne⟩
  cases hd
  exact hspace

theorem readMore_cons {x : α} (h : Reads element print value x) {text : List Char}
    (htext : Closes text) (limit : Nat) : readMore element (limit + 1) (',' :: (print x ++ text)) =
      value x >>= fun y => (readMore element limit text).map fun more => (y :: more.1, more.2) := by
  obtain ⟨c, cs, hcs, hskip, hne⟩ := h.eq_cons text
  have hread := h.reads text htext
  rw [hcs] at hread ⊢
  rw [readMore]
  simp only [show skipSpace (',' :: c :: cs) = ',' :: c :: cs from rfl, hskip]
  split
  next h => cases h
  next h => exact absurd (List.cons.inj h).1 hne
  next =>
    simp only [hread, bind, Except.bind]
    cases value x <;> rfl

theorem closes_moreText (print : α → List Char) (xs : List α) (rest : List Char) :
    Closes (moreText print xs ++ ']' :: rest) := by
  intro c hc
  cases xs with
  | nil =>
    cases hc
    exact .inr rfl
  | cons x xs =>
    cases hc
    exact .inl rfl

theorem readMore_moreText (hxs : ∀ x ∈ xs, Reads element print value x) (rest : List Char)
    {limit : Nat} (hlimit : xs.length < limit) :
    readMore element limit (moreText print xs ++ ']' :: rest) = (xs.mapM value).map (·, rest) := by
  induction xs generalizing limit with
  | nil =>
    obtain ⟨n, rfl⟩ := Nat.exists_eq_add_of_lt hlimit
    rfl
  | cons x xs ih =>
    obtain ⟨n, rfl⟩ := Nat.exists_eq_add_of_lt hlimit
    have hmore := ih (fun y hy => hxs y (List.mem_cons_of_mem _ hy))
      (show xs.length < xs.length + 1 + n by omega)
    have hcons : moreText print (x :: xs) ++ ']' :: rest =
        ',' :: (print x ++ (moreText print xs ++ ']' :: rest)) := by simp [moreText]
    rw [hcons, readMore_cons (hxs x List.mem_cons_self) (closes_moreText print xs rest),
      List.length_cons, hmore, List.mapM_cons]
    cases value x with
    | error e => rfl
    | ok y =>
      dsimp only [bind, Except.bind]
      cases xs.mapM value <;> rfl

theorem length_le_moreText (print : α → List Char) (xs : List α) :
    xs.length ≤ (moreText print xs).length := by
  induction xs with
  | nil => simp
  | cons x xs ih =>
    simp [moreText] at ih ⊢
    omega

theorem readList_listText (hxs : ∀ x ∈ xs, Reads element print value x) :
    readList r element (listText (xs.map print) ++ rest) = (xs.mapM value).map (·, rest) := by
  cases xs with
  | nil => rfl
  | cons x xs =>
    have hx := hxs x List.mem_cons_self
    obtain ⟨c, cs, hcs, hskip, hne⟩ := hx.eq_cons (moreText print xs ++ ']' :: rest)
    have hread := hx.reads _ (closes_moreText print xs rest)
    -- the limit is the length of what is left, and each element has a comma in front
    have hlimit : xs.length < (moreText print xs ++ ']' :: rest).length + 1 := by
      have := length_le_moreText print xs
      simp
      omega
    have hmore := readMore_moreText (fun y hy => hxs y (List.mem_cons_of_mem _ hy)) rest hlimit
    have htext : listText ((x :: xs).map print) ++ rest = '[' :: (c :: cs) := by
      rw [listText, intercalate_eq, ← hcs]
      simp
    rw [htext]
    unfold readList
    simp only [show skipSpace ('[' :: c :: cs) = '[' :: c :: cs from rfl, hskip]
    rw [hcs] at hread
    split
    next h => cases h
    next h => exact absurd (List.cons.inj h).1 hne
    next =>
      rw [List.mapM_cons]
      simp only [hread, bind, Except.bind]
      cases value x with
      | error e => rfl
      | ok y =>
        simp only [Except.map, hmore]
        cases xs.mapM value <;> rfl

theorem Reads.list {xs : List α} (hxs : ∀ x ∈ xs, Reads element print value x) :
    Reads (readList r element) (fun xs => listText (xs.map print)) (·.mapM value) xs :=
  ⟨⟨'[', rfl, by decide⟩, fun _ _ => readList_listText hxs⟩

/-- What a number becomes when it is written and read. -/
def reread (r : Rounding) (k : Raw) (x : k.Carrier) : Except Fault k.Carrier :=
  (readNumber r k (numberText k x)).map Prod.fst

def rereadRows (r : Rounding) (k : Raw) (rows : List (List k.Carrier)) :
    Except Fault (List (List k.Carrier)) :=
  rows.mapM fun row => row.mapM (reread r k)

section Numbers

variable {k : Raw} {x : k.Carrier} (hx : isFinite k x = true)

include hx

theorem reread_eq : reread r k x = (numeral k x).toRaw r k := by
  have hread := readNumber_numberText (r := r) hx (show Closes [] from fun c hc => by cases hc)
  rw [List.append_nil] at hread
  rw [reread, hread]
  cases (numeral k x).toRaw r k <;> rfl

theorem exists_reread (r : Rounding) : ∃ y, reread r k x = .ok y ∧ IsClose k x y := by
  rw [reread_eq hx]
  exact exists_toRaw hx r

theorem isClose_of_reread {y : k.Carrier} (h : reread r k x = .ok y) : IsClose k x y := by
  obtain ⟨y', hy', hclose⟩ := exists_reread hx r
  cases hy'.symm.trans h
  exact hclose

theorem reads_number : Reads (readNumber r k) (numberText k) (reread r k) x := by
  obtain ⟨c, hc, hbegin⟩ := beginsNumber_numberText hx
  refine ⟨⟨c, hc, ?_⟩, fun rest hrest => ?_⟩
  · rcases Bool.or_eq_true_iff.1 hbegin with h | h
    · rw [beq_iff_eq.1 h]
      decide
    · exact ⟨isSpace_of_isDigit h, by rintro rfl; exact absurd h (by decide)⟩
  · rw [reread_eq hx]
    exact readNumber_numberText hx hrest

end Numbers

theorem readRows_text {k : Raw} {rows : List (List k.Carrier)}
    (hrows : ∀ row ∈ rows, ∀ x ∈ row, isFinite k x = true) :
    readRows r k (text k rows) = (rereadRows r k rows).map (·, []) := by
  have h : readRows r k (text k rows ++ []) = (rereadRows r k rows).map (·, []) :=
    readList_listText fun row hrow => Reads.list fun x hx => reads_number (hrows row hrow x hx)
  rwa [List.append_nil] at h

end Json

theorem exists_of_mapM_error {ε α β : Type} {f : α → Except ε β} {xs : List α} {e : ε}
    (h : xs.mapM f = .error e) : ∃ x ∈ xs, f x = .error e := by
  induction xs with
  | nil => cases h
  | cons x xs ih =>
    rw [List.mapM_cons] at h
    cases hx : f x with
    | error e' =>
      rw [hx] at h
      cases h
      exact ⟨x, List.mem_cons_self, hx⟩
    | ok y =>
      rw [hx] at h
      cases hxs : xs.mapM f with
      | error e' =>
        rw [hxs] at h
        cases h
        obtain ⟨x', hmem, hx'⟩ := ih hxs
        exact ⟨x', List.mem_cons_of_mem _ hmem, hx'⟩
      | ok ys =>
        rw [hxs] at h
        cases h

/-- One grid comes of another cell by cell. -/
theorem Grid.mapM_entries_eq_ok_iff {ε α β : Type} {f : α → Except ε β} {g : Grid α} {h : Grid β}
    (hc : h.columns = g.columns) :
    (g.entries.mapM fun row => row.mapM f) = .ok h.entries ↔ h.rows = g.rows ∧
      ∀ i j x, g.get? i j = some x → ∃ y, h.get? i j = some y ∧ f x = .ok y := by
  rw [mapM_eq_ok_iff]
  refine and_congr_right fun hlength => ⟨fun hrows i j x hx => ?_, fun hcells i row hrow => ?_⟩
  · obtain ⟨row, hrow, hx⟩ := Option.bind_eq_some_iff.1 hx
    obtain ⟨row', hrow', hmap⟩ := hrows i row hrow
    obtain ⟨y, hy, hf⟩ := (mapM_eq_ok_iff.1 hmap).2 j x hx
    exact ⟨y, by rw [get?, hrow']; exact hy, hf⟩
  · have hi : i < h.entries.length := hlength ▸ (List.getElem?_eq_some_iff.1 hrow).1
    have hrow' := List.getElem?_eq_getElem hi
    refine ⟨_, hrow', mapM_eq_ok_iff.2 ⟨?_, fun j x hx => ?_⟩⟩
    · rw [h.rectangular _ (List.getElem_mem hi), hc, g.rectangular _ (List.mem_of_getElem? hrow)]
    · obtain ⟨y, hy, hf⟩ := hcells i j x (by rw [get?, hrow]; exact hx)
      rw [get?, hrow'] at hy
      exact ⟨y, hy, hf⟩

namespace Matrix

variable {k : Raw} {m m' : Matrix k} {r : Json.Rounding}

/-- A matrix of the same type and shape, in which each number is what is read from the text of the old
one, and close to it. -/
structure Rereads (r : Json.Rounding) (m m' : Matrix k) : Prop where
  backend : m'.backend = m.backend
  frame : m'.frame = m.frame
  extent : m'.storage.Extent m.storage.rows m.storage.columns
  cells : ∀ i j x, m.storage.get? i j = some x →
    ∃ y, m'.storage.get? i j = some y ∧ Json.reread r k x = .ok y ∧ Json.IsClose k x y

section Finite

variable (hm : m.Fits)
  (hfinite : ∀ row ∈ m.storage.entries, ∀ x ∈ row, Json.isFinite k x = true)

include hfinite

/-- All numbers are read, and those of a row are as many as before. -/
theorem exists_rereadRows (r : Json.Rounding) : ∃ g : Grid k.Carrier,
    g.columns = m.storage.columns ∧ Json.rereadRows r k m.storage.entries = .ok g.entries := by
  cases hrows : Json.rereadRows r k m.storage.entries with
  | error fault =>
    obtain ⟨row, hrow, hmap⟩ := exists_of_mapM_error hrows
    obtain ⟨x, hx, hfault⟩ := exists_of_mapM_error hmap
    obtain ⟨y, hy, -⟩ := Json.exists_reread (hfinite row hrow x hx) r
    cases hy.symm.trans hfault
  | ok rows =>
    refine ⟨⟨m.storage.columns, rows, fun row hrow => ?_⟩, rfl, rfl⟩
    obtain ⟨old, hold, hmap⟩ := mem_of_mapM_ok hrows hrow
    exact (length_of_mapM_ok hmap).trans (m.storage.rectangular old hold)

theorem rereads_withStorage {g : Grid k.Carrier} (hc : g.columns = m.storage.columns)
    (hg : Json.rereadRows r k m.storage.entries = .ok g.entries) : m.Rereads r (m.withStorage g) := by
  obtain ⟨hr, hcells⟩ := (Grid.mapM_entries_eq_ok_iff hc).1 hg
  refine ⟨rfl, rfl, ⟨hr, hc⟩, fun i j x hx => ?_⟩
  obtain ⟨y, hy, hread⟩ := hcells i j x hx
  obtain ⟨row, hrow, hrest⟩ := Option.bind_eq_some_iff.1 hx
  exact ⟨y, hy, hread, Json.isClose_of_reread
    (hfinite row (List.mem_of_getElem? hrow) x (List.mem_of_getElem? hrest)) hread⟩

include hm

theorem ofJson_text_of_ok {g : Grid k.Carrier} (hc : g.columns = m.storage.columns)
    (h : Json.rereadRows r k m.storage.entries = .ok g.entries) :
    m.type.ofJson r (Json.text k m.storage.entries) = .ok (m.withStorage g) := by
  have hread : Json.readRows r m.type.raw (Json.text k m.storage.entries) = .ok (g.entries, []) :=
    (Json.readRows_text hfinite).trans (by rw [h]; rfl)
  have hr := ((Grid.mapM_entries_eq_ok_iff hc).1 h).1
  have hcolumns : ∀ row ∈ g.entries, row.length = m.frame.columns.length := fun row hrow =>
    (g.rectangular row hrow).trans (hc.trans hm.extent.2)
  have hstorage : (⟨m.frame.columns.length, g.entries, hcolumns⟩ : Grid k.Carrier) = g :=
    Grid.ext (hm.extent.2.symm.trans hc.symm) rfl
  have hmade : m.type.ofRawRows g.entries = .ok (m.withStorage g) := by
    refine (MatrixType.ofRawRows_eq (covers_type hm) (hr.trans hm.extent.1) hcolumns).trans ?_
    show Except.ok (⟨m.store.backend, m.frame, ⟨m.frame.columns.length, g.entries, hcolumns⟩⟩ :
      Matrix k) = .ok (m.withStorage g)
    rw [hstorage, m.backend_store, withStorage]
  rw [MatrixType.ofJson, hread]
  simp only [Except.mapError, bind, Except.bind]
  rw [hmade]
  rfl

theorem ofJson_text_eq_self_iff : m.type.ofJson r (Json.text k m.storage.entries) = .ok m ↔
    ∀ row ∈ m.storage.entries, ∀ x ∈ row, Json.reread r k x = .ok x := by
  obtain ⟨g, hc, hg⟩ := exists_rereadRows hfinite r
  rw [ofJson_text_of_ok hm hfinite hc hg]
  constructor
  · intro h row hrow x hx
    have hsame : m.withStorage g = m := Except.ok.inj h
    obtain ⟨i, hi⟩ := List.mem_iff_getElem?.1 hrow
    obtain ⟨j, hj⟩ := List.mem_iff_getElem?.1 hx
    have hcell : m.storage.get? i j = some x := by rw [Grid.get?, hi]; exact hj
    have hcells := (rereads_withStorage hfinite hc hg).cells i j x hcell
    rw [hsame, hcell] at hcells
    obtain ⟨y, hy, hread, -⟩ := hcells
    cases hy
    exact hread
  · intro h
    have hrows : Json.rereadRows r k m.storage.entries = .ok m.storage.entries :=
      (Grid.mapM_entries_eq_ok_iff rfl).2 ⟨rfl, fun i j x hx => ⟨x, hx, by
        obtain ⟨row, hrow, hx⟩ := Option.bind_eq_some_iff.1 hx
        exact h row (List.mem_of_getElem? hrow) x (List.mem_of_getElem? hx)⟩⟩
    have hgrid : g = m.storage := Grid.ext hc (Except.ok.inj (hg.symm.trans hrows))
    rw [hgrid, withStorage]

/-- A matrix of finite numbers in storage of the extent of its lists has a JSON text, and of this text
a matrix is made again. A parser that rounds once makes the same one. Whatever the parser, each number
becomes what is read from its own text, an integer or a single itself and a double a neighbour at worst;
so the same matrix comes back exactly if every number does, in particular if there are no doubles or
their texts are short. -/
theorem ofJson_toJson_cases :
    ∃ text, m.toJson = .ok text ∧ m.type.ofJson .once text = .ok m ∧
      (∀ r, ∃ m', m.type.ofJson r text = .ok m' ∧ m.Rereads r m') ∧
      (∀ r, m.type.ofJson r text = .ok m ↔
        ∀ row ∈ m.storage.entries, ∀ x ∈ row, Json.reread r k x = .ok x) ∧
      ((∀ row ∈ m.storage.entries, ∀ x ∈ row, Json.IsShort k x) →
        ∀ r, m.type.ofJson r text = .ok m) := by
  refine ⟨Json.text k m.storage.entries, by rw [toJson, rawRows_eq hm]; rfl, ?_, fun r => ?_,
    fun r => ofJson_text_eq_self_iff hm hfinite, fun hshort r => ?_⟩
  · refine (ofJson_text_eq_self_iff hm hfinite).2 fun row hrow x hx => ?_
    have hx := hfinite row hrow x hx
    exact (Json.reread_eq hx).trans (Json.toRaw_once hx)
  · obtain ⟨g, hc, hg⟩ := exists_rereadRows hfinite r
    exact ⟨m.withStorage g, ofJson_text_of_ok hm hfinite hc hg, rereads_withStorage hfinite hc hg⟩
  · refine (ofJson_text_eq_self_iff hm hfinite).2 fun row hrow x hx => ?_
    have hx' := hfinite row hrow x hx
    exact (Json.reread_eq hx').trans (Json.toRaw_of_isShort hx' (hshort row hrow x hx) r)

end Finite

/-- Negative zero, the smallest and the largest positive number, and some numbers with short texts. -/
theorem ofJson_toJson_of_extremes :
    let x : Nat → Raw.Carrier .double := Floating.ofBits
    let f : Frame := ⟨[.identity], [.double, .quantity 1 0, .quantity 0 (-1)]⟩
    let m : Matrix .double :=
      ⟨.fixed, f, ⟨3, [[x 0x8000000000000000, x 1, x 0x7FEFFFFFFFFFFFFF]], by decide⟩⟩
    let short : Matrix .double := ⟨.dynamic, f,
      ⟨3, [[x 0x3FB999999999999A, x 0xC000000000000000, x 0x4480F0CF064DD592]], by decide⟩⟩
    (m.Fits ∧ (∀ row ∈ m.storage.entries, ∀ y ∈ row, Json.isFinite .double y = true) ∧
      ∃ text, m.toJson = .ok text ∧ m.type.ofJson .once text = .ok m ∧
        ∃ m', m.type.ofJson .stepwise text = .ok m' ∧ m.Rereads .stepwise m') ∧
    short.Fits ∧ (∀ row ∈ short.storage.entries, ∀ y ∈ row, Json.isFinite .double y = true) ∧
      (∀ row ∈ short.storage.entries, ∀ y ∈ row, Json.IsShort .double y) ∧
        ∃ text, short.toJson = .ok text ∧ ∀ r, short.type.ofJson r text = .ok short := by
  intro x f m short
  have hm : m.Fits := ⟨⟨by decide, by decide⟩, rfl, rfl⟩
  have hfinite : ∀ row ∈ m.storage.entries, ∀ y ∈ row, Json.isFinite .double y = true := by
    decide
  have hshort : short.Fits := ⟨⟨by decide, by decide⟩, rfl, rfl⟩
  have hfinite' : ∀ row ∈ short.storage.entries, ∀ y ∈ row, Json.isFinite .double y = true := by
    decide
  have htexts : ∀ row ∈ short.storage.entries, ∀ y ∈ row, (Json.numeral .double y).IsShort := by
    decide +kernel
  obtain ⟨text, htext, honce, hany, -⟩ := ofJson_toJson_cases hm hfinite
  obtain ⟨text', htext', -, -, -, hsame⟩ := ofJson_toJson_cases hshort hfinite'
  exact ⟨⟨hm, hfinite, text, htext, honce, hany .stepwise⟩, hshort, hfinite', htexts, text', htext',
    hsame htexts⟩

/-- The double `51.248178375505404` is read as its neighbour, `51.24817837550541`. -/
theorem not_forall_ofJson_toJson :
    ¬ ∀ (k : Raw) (m : Matrix k), m.Fits →
      (∀ row ∈ m.storage.entries, ∀ x ∈ row, Json.isFinite k x = true) →
        ∃ text, m.toJson = .ok text ∧ m.type.ofJson .stepwise text = .ok m := by
  intro h
  let x : Raw.Carrier .double := Floating.ofBits 0x40499FC44F1B2F60
  let m : Matrix .double := ⟨.fixed, ⟨[.identity], [.double]⟩, ⟨1, [[x]], by decide⟩⟩
  have hm : m.Fits := ⟨⟨by decide, by decide⟩, rfl, rfl⟩
  have hfinite : ∀ row ∈ m.storage.entries, ∀ y ∈ row, Json.isFinite .double y = true := by decide
  have hneighbour : (Json.reread .stepwise .double x).map Floating.toBits = .ok 0x40499FC44F1B2F61 := by
    decide +kernel
  obtain ⟨text, htext, hread⟩ := h .double m hm hfinite
  rw [toJson, rawRows_eq hm] at htext
  cases htext
  have hsame := (ofJson_text_eq_self_iff hm hfinite).1 hread _ List.mem_cons_self x List.mem_cons_self
  rw [hsame] at hneighbour
  revert hneighbour
  decide +kernel

end Matrix

end UnitMatrix
