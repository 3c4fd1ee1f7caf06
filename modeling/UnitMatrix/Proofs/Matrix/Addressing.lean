import UnitMatrix.Proofs.Matrix.Filling
import UnitMatrix.Proofs.Matrix.Positions

/-! One addressing for all accesses. However an element is named, the name stands for one cell, and
what the types admit at this cell is one element type. So what has been written under one name is read
under every other name of the same cell, no other cell changes, and a cell that the storage does not
have is reported in the same words under all its names. -/

namespace UnitMatrix

def Place.cellIn (f : Frame) : Place → Nat × Nat
  | .cell i j | .listed i j => (i, j)
  | .flat n => if f.columns.length = 1 then (n, 0) else (0, n)
  | .entry i => (i, 0)
  | .sole => (0, 0)

namespace Frame

variable {f : Frame} {k : Raw} {p q : Place} {site site' : Site} {i j : Nat}

/-- What the types admit at a site: its element type is the one of a uniform matrix or that of the very
cell, and numbers of kind `k` stand for it. -/
def Admits (f : Frame) (k : Raw) (site : Site) : Prop :=
  (f.uniform? = some site.element ∨ f.element? site.row site.column = some site.element) ∧
    k.holds site.element = true

theorem of_heldAt? (h : f.heldAt? k i j = some site) :
    f.Admits k site ∧ (site.row, site.column) = (i, j) := by
  obtain ⟨e, he, rfl⟩ := Option.map_eq_some_iff.1 h
  obtain ⟨he, hk⟩ := Option.filter_eq_some_iff.1 he
  exact ⟨⟨.inr he, hk⟩, rfl⟩

theorem of_uniformIn? (h : (f.uniformIn? k).map (fun e => (⟨e, i, j⟩ : Site)) = some site) :
    f.Admits k site ∧ (site.row, site.column) = (i, j) := by
  obtain ⟨e, he, rfl⟩ := Option.map_eq_some_iff.1 h
  obtain ⟨he, hk⟩ := Option.filter_eq_some_iff.1 he
  exact ⟨⟨.inl he, hk⟩, rfl⟩

/-- A place that the types admit is where its name says. -/
theorem of_locate? (h : f.locate? k p = some site) :
    f.Admits k site ∧ (site.row, site.column) = p.cellIn f := by
  cases p with
  | cell i j => exact of_uniformIn? h
  | flat n => exact of_uniformIn? (Option.ite_none_right_eq_some.1 h).2
  | listed i j => exact of_heldAt? h
  | entry i => exact of_heldAt? (Option.ite_none_right_eq_some.1 h).2
  | sole => exact of_heldAt? (Option.ite_none_right_eq_some.1 h).2

theorem site_unique (h : f.locate? k p = some site) (h' : f.locate? k q = some site')
    (hcell : q.cellIn f = p.cellIn f) : site' = site := by
  obtain ⟨⟨helement, -⟩, hp⟩ := of_locate? h
  obtain ⟨⟨helement', -⟩, hq⟩ := of_locate? h'
  obtain ⟨e, i, j⟩ := site
  obtain ⟨e', i', j'⟩ := site'
  obtain ⟨rfl, rfl⟩ := Prod.mk.inj (hq.trans (hcell.trans hp.symm))
  have hsame : e' = e := by
    rcases helement with hu | he <;> rcases helement' with hu' | he'
    · exact Option.some.inj (hu'.symm.trans hu)
    · exact eq_of_uniform? hu he'
    · exact (eq_of_uniform? hu' he).symm
    · exact Option.some.inj (he'.symm.trans he)
  rw [hsame]

end Frame

namespace Matrix

variable {k : Raw} {m m' : Matrix k} {p q : Place} {site : Site} {i j : Nat} {x y : k.Carrier}

theorem read_eq (h : m.frame.locate? k p = some site) :
    m.read p = (m.rawGet site.row site.column).map (site.element, ·) := by
  rw [read, locate, h]
  show (m.rawGet site.row site.column >>= fun x => .ok (site.element, x)) = _
  cases m.rawGet site.row site.column <;> rfl

theorem read_of_not_admitted (h : m.frame.locate? k p = none) : m.read p = .error .illTyped := by
  rw [read, locate, h]
  rfl

theorem write_eq (h : m.frame.locate? k p = some site) (x : k.Carrier) :
    m.write p x = m.rawSet site.row site.column x := by
  rw [write, locate, h]
  rfl

theorem rawGet_eq (m : Matrix k) (i j : Nat) :
    m.rawGet i j = ((m.storage.get i j : Except Fault _) : Outcome _) := by
  rw [rawGet, Backend.get_eq]

theorem rawSet_eq (m : Matrix k) (i j : Nat) (x : k.Carrier) :
    m.rawSet i j x = (((m.storage.set i j x).map m.withStorage : Except Fault _) : Outcome _) := by
  rw [rawSet, put_eq]

theorem modifyM_eq (h : m.frame.locate? k p = some site) {f : k.Carrier → Except Fault k.Carrier}
    {z : k.Carrier} (hy : m.storage.get site.row site.column = .ok y) (hz : f y = .ok z) :
    m.modifyM p f = m.write p z := by
  rw [write_eq h, modifyM, locate, h]
  show (((m.backend.modifyM _ _ _ f : Except Fault _) : Outcome _) >>= _) = _
  rw [Backend.modifyM_eq, Grid.modifyM, hy, ok_bind, hz, ok_bind, rawSet_eq, lift_map]
  cases m.storage.set site.row site.column z <;> rfl

/-- The extent of the storage is all that the type knows of it. -/
theorem type_withStorage (m : Matrix k) {g : Grid k.Carrier}
    (hg : g.Extent m.storage.rows m.storage.columns) : (m.withStorage g).type = m.type := by
  have hstore : (m.withStorage g).store = m.store := by
    unfold store
    rw [← hg.1, ← hg.2]
    rfl
  rw [type, type, hstore]
  rfl

/-- `m'` is `m` with `x` in the cell `c`: every name of this cell reads `x`, and every other name reads
what it read before. -/
structure Overwrites (m : Matrix k) (c : Nat × Nat) (x : k.Carrier) (m' : Matrix k) : Prop where
  type : m'.type = m.type
  here : ∀ q site, m.frame.locate? k q = some site → q.cellIn m.frame = c →
    m'.read q = .ok (site.element, x)
  there : ∀ q, q.cellIn m.frame ≠ c → m'.read q = m.read q
  raw : ∀ i j, m'.rawGet i j = if (i, j) = c then .ok x else m.rawGet i j

theorem rawGet_eq_ok (hin : i < m.storage.rows ∧ j < m.storage.columns) :
    ∃ y, m.storage.get i j = .ok y ∧ m.rawGet i j = .ok y := by
  obtain ⟨y, hy⟩ := Grid.get_of_lt ⟨rfl, rfl⟩ hin.1 hin.2
  exact ⟨y, hy, by rw [rawGet_eq, hy]; rfl⟩

/-- Within the storage a number can always be replaced, and this changes nothing else. -/
theorem exists_rawSet (hin : i < m.storage.rows ∧ j < m.storage.columns) (x : k.Carrier) :
    ∃ m', m.rawSet i j x = .ok m' ∧ m.Overwrites (i, j) x m' := by
  obtain ⟨g, hg, -⟩ := (Grid.Extent.set ⟨rfl, rfl⟩ hin.1 hin.2 x).exists_ok
  have hset : m.rawSet i j x = .ok (m.withStorage g) := by
    rw [rawSet_eq, hg]
    rfl
  have hraw (p q : Nat) :
      (m.withStorage g).rawGet p q = if (p, q) = (i, j) then .ok x else m.rawGet p q := by
    have hget : (m.withStorage g).storage.get p q = if p = i ∧ q = j then .ok x else m.storage.get p q :=
      Grid.get_of_set hg
    simp only [rawGet_eq, hget, Prod.mk.injEq]
    split
    next => rfl
    next => rfl
  have htype := m.type_withStorage ⟨Grid.rows_of_set hg, Grid.columns_of_set hg⟩
  refine ⟨m.withStorage g, hset, htype, fun q site hq hcell => ?_, fun q hcell => ?_, hraw⟩
  · obtain ⟨-, hsite⟩ := Frame.of_locate? hq
    have hq : (m.withStorage g).frame.locate? k q = some site := hq
    rw [read_eq hq, hraw, if_pos (hsite.trans hcell)]
    rfl
  · cases hq : m.frame.locate? k q with
    | none =>
      have hq' : (m.withStorage g).frame.locate? k q = none := hq
      rw [read_of_not_admitted hq, read_of_not_admitted hq']
    | some site =>
      have hq' : (m.withStorage g).frame.locate? k q = some site := hq
      obtain ⟨-, hsite⟩ := Frame.of_locate? hq
      rw [read_eq hq, read_eq hq', hraw, if_neg]
      exact fun h => hcell (hsite.symm.trans h)

/-- The element can be read, also by its raw position. It can be overwritten, and to increase or to
decrease it is to overwrite it with the sum or the difference. -/
def Accessible (m : Matrix k) (p : Place) (site : Site) : Prop :=
  ∃ y, m.read p = .ok (site.element, y) ∧ m.rawGet site.row site.column = .ok y ∧ ∀ x,
    (∃ m', m.write p x = .ok m' ∧ m.rawSet site.row site.column x = .ok m' ∧
      m.Overwrites (site.row, site.column) x m') ∧
    (∃ z, Arithmetic.add y x = .ok z ∧ m.increase p x = m.write p z) ∧
    ∃ z, Arithmetic.sub y x = .ok z ∧ m.decrease p x = m.write p z

theorem accessible_of_inside (h : m.frame.locate? k p = some site)
    (hin : site.row < m.storage.rows ∧ site.column < m.storage.columns) : m.Accessible p site := by
  obtain ⟨⟨-, hholds⟩, -⟩ := Frame.of_locate? h
  have hk := Raw.isFloating_of_holds hholds
  obtain ⟨y, hy, hraw⟩ := rawGet_eq_ok hin
  refine ⟨y, by rw [read_eq h, hraw]; rfl, hraw, fun x => ⟨?_, ?_, ?_⟩⟩
  · obtain ⟨m', hset, hover⟩ := exists_rawSet hin x
    exact ⟨m', (write_eq h x).trans hset, hset, hover⟩
  · obtain ⟨z, hz, -⟩ := (hk.ensures_add y x).exists_ok
    exact ⟨z, hz, modifyM_eq h hy hz⟩
  · obtain ⟨z, hz, -⟩ := (hk.ensures_sub y x).exists_ok
    exact ⟨z, hz, modifyM_eq h hy hz⟩

structure Inaccessible (m : Matrix k) (p : Place) (e : Failure) : Prop where
  read : m.read p = .error e
  write : ∀ x, m.write p x = .error e
  increase : ∀ x, m.increase p x = .error e
  decrease : ∀ x, m.decrease p x = .error e

theorem raw_of_outside (hout : m.storage.rows ≤ i ∨ m.storage.columns ≤ j) :
    m.rawGet i j = .error (.fault (.outside i j m.storage.rows m.storage.columns)) ∧
      ∀ x, m.rawSet i j x = .error (.fault (.outside i j m.storage.rows m.storage.columns)) := by
  refine ⟨?_, fun x => ?_⟩
  · rw [rawGet_eq, Grid.get, Grid.get?_eq_none_iff.2 hout]
    rfl
  · rw [rawSet_eq, Grid.set_eq_error_iff.2 ⟨hout, rfl⟩]
    rfl

theorem inaccessible_of_outside (h : m.frame.locate? k p = some site)
    (hout : m.storage.rows ≤ site.row ∨ m.storage.columns ≤ site.column) :
    m.Inaccessible p
      (.fault (.outside site.row site.column m.storage.rows m.storage.columns)) := by
  obtain ⟨hget, hset⟩ := raw_of_outside hout
  have hmodify (f : k.Carrier → Except Fault k.Carrier) : m.modifyM p f =
      .error (.fault (.outside site.row site.column m.storage.rows m.storage.columns)) := by
    rw [modifyM, locate, h]
    show (((m.backend.modifyM _ _ _ f : Except Fault _) : Outcome _) >>= _) = _
    rw [Backend.modifyM_eq, Grid.modifyM, Grid.get, Grid.get?_eq_none_iff.2 hout]
    rfl
  refine ⟨?_, fun x => (write_eq h x).trans (hset x), fun _ => hmodify _, fun _ => hmodify _⟩
  rw [read_eq h, hget]
  rfl

end Matrix

/-- Numbers that are listed row by row make one and the same matrix in every way that the type admits.
In a matrix every admitted name of an element stands for the cell that it says, and one cell has one
element type. What is written in a cell is what all its names read from then on, while the other cells
keep their numbers; and a cell that the storage does not have is reported as that cell, together with
the shape of the storage, whatever the access. -/
theorem addressing_agrees :
    (∀ (t : MatrixType) (rows : List (List t.raw.Carrier)), t.Covers →
      rows.length = t.frame.rows.length → (∀ row ∈ rows, row.length = t.frame.columns.length) →
      ∃ m, t.Makes rows m ∧ m.type = t ∧ m.rawRows = .ok rows) ∧
    ∀ (k : Raw) (m : Matrix k),
      (∀ (p : Place) (site : Site), m.frame.locate? k p = some site →
        (site.row, site.column) = p.cellIn m.frame ∧
        (∀ (q : Place) (site' : Site), m.frame.locate? k q = some site' →
          q.cellIn m.frame = p.cellIn m.frame → site' = site) ∧
        (site.row < m.storage.rows ∧ site.column < m.storage.columns → m.Accessible p site) ∧
        (m.storage.rows ≤ site.row ∨ m.storage.columns ≤ site.column → m.Inaccessible p
          (.fault (.outside site.row site.column m.storage.rows m.storage.columns)))) ∧
      ∀ i j, m.storage.rows ≤ i ∨ m.storage.columns ≤ j →
        m.rawGet i j = .error (.fault (.outside i j m.storage.rows m.storage.columns)) ∧
          ∀ x, m.rawSet i j x = .error (.fault (.outside i j m.storage.rows m.storage.columns)) := by
  refine ⟨fun t rows ht hrows hcolumns => MatrixType.exists_makes ht hrows hcolumns,
    fun k m => ⟨fun p site h => ?_, fun i j => Matrix.raw_of_outside⟩⟩
  exact ⟨(Frame.of_locate? h).2, fun q site' h' => Frame.site_unique h h',
    Matrix.accessible_of_inside h, Matrix.inaccessible_of_outside h⟩

def velocities : Matrix .double :=
  ⟨.dynamic, ⟨[.quantity 1 (-1), .quantity 1 (-1), .quantity 1 (-1)], [.identity]⟩,
    ⟨1, [[1], [2], [3]], by simp⟩⟩

/-- They are made in four ways, and changed by the position in the vector they are read by the row and
by row and column. The storage has no second column. -/
theorem addressing_agrees_velocities :
    velocities.type.Covers ∧ velocities.frame.uniformIn? .double = some (.quantity 1 (-1)) ∧
      velocities.frame.isVector = true ∧ velocities.frame.HeldBy .double ∧
      velocities.type.ofRawRows [[(1 : Float)], [(2 : Float)], [(3 : Float)]] = .ok velocities ∧
      velocities.type.ofRows [[(1 : Float)], [(2 : Float)], [(3 : Float)]] = .ok velocities ∧
      velocities.type.ofArray [(1 : Float), (2 : Float), (3 : Float)] = .ok velocities ∧
      velocities.type.ofValues [(1 : Float), (2 : Float), (3 : Float)] = .ok velocities ∧
      velocities.frame.locate? .double (.flat 1) = some ⟨.quantity 1 (-1), 1, 0⟩ ∧
      velocities.frame.locate? .double (.cell 1 1) = some ⟨.quantity 1 (-1), 1, 1⟩ ∧
      (∃ m, velocities.write (.flat 1) (5 : Float) = .ok m ∧
        m.read (.entry 1) = .ok (.quantity 1 (-1), (5 : Float)) ∧
        m.read (.listed 2 0) = velocities.read (.listed 2 0)) ∧
      velocities.read (.cell 1 1) = .error (.fault (.outside 1 1 3 1)) := by
  have hcovers : velocities.type.Covers := trivial
  have huniform : velocities.frame.uniformIn? .double = some (.quantity 1 (-1)) := by decide
  have hvector : velocities.frame.isVector = true := rfl
  have hheld : velocities.frame.HeldBy .double := by decide
  have hcolumns : ∀ row ∈ [[(1 : Float)], [(2 : Float)], [(3 : Float)]], row.length = 1 := by simp
  obtain ⟨m, hmakes, -, -⟩ := addressing_agrees.1 velocities.type _ hcovers rfl hcolumns
  obtain rfl : m = velocities :=
    Except.ok.inj (hmakes.ofRawRows.symm.trans (MatrixType.ofRawRows_eq hcovers rfl hcolumns))
  have hplaces := (addressing_agrees.2 .double velocities).1
  have hflat : velocities.frame.locate? .double (.flat 1) = some ⟨.quantity 1 (-1), 1, 0⟩ := rfl
  have hcell : velocities.frame.locate? .double (.cell 1 1) = some ⟨.quantity 1 (-1), 1, 1⟩ := rfl
  have hentry : velocities.frame.locate? .double (.entry 1) = some ⟨.quantity 1 (-1), 1, 0⟩ := rfl
  obtain ⟨-, -, haccess, -⟩ := hplaces _ _ hflat
  obtain ⟨-, -, -, hmissing⟩ := hplaces _ _ hcell
  obtain ⟨_, -, -, hwrite⟩ := haccess (by decide)
  obtain ⟨⟨m, hm, -, hover⟩, -⟩ := hwrite (5 : Float)
  exact ⟨hcovers, huniform, hvector, hheld, hmakes.ofRawRows, hmakes.ofRows _ huniform,
    hmakes.ofArray _ huniform hvector, hmakes.ofValues hheld hvector, hflat, hcell,
    ⟨m, hm, hover.here _ _ hentry rfl, hover.there _ (by decide)⟩, (hmissing (by decide)).read⟩

end UnitMatrix
