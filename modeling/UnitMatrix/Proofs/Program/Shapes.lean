import UnitMatrix.Proofs.Matrix.Construction
import UnitMatrix.Proofs.Matrix.Positions

/-! Shapes over whole programs. If every type that a program builds asks for storage of the extent of
its lists, and storage is only handed over in that extent, then every matrix in every session that
the program reaches has storage of the extent of its lists. Faults of shape are left to steps that
name a position when running, and there only for a position that the storage does not have. -/

namespace UnitMatrix

namespace Matrix

variable {k : Raw} {a b m : Matrix k}

theorem shaped_transform (hm : m.Fits) (transform : Transform) :
    Shaped (m.transform transform) fun q => q.1.Fits := by
  cases transform with
  | transpose => exact hm.transpose
  | mulScalar e value => exact .map (shaped_mulScalar _ hm)
  | scalarMul e value => exact .map (shaped_scalarMul _ hm)
  | divScalar e value => exact .map (shaped_divScalar _ hm)
  | scalarDiv e value => exact shaped_scalarDiv _ hm

theorem shaped_combine (ha : a.Fits) (hb : b.Fits) (operation : Combination) :
    Shaped (a.combine b operation) fun q => q.1.Fits := by
  cases operation with
  | add => exact .map (shaped_add ha hb)
  | sub => exact .map (shaped_sub ha hb)
  | mul => exact .map (shaped_mul ha hb)
  | div => exact shaped_div ha hb

theorem covers_type (hm : m.Fits) : m.type.Covers := by
  unfold type store MatrixType.Covers
  cases m.backend with
  | fixed => exact hm.extent
  | dynamic => trivial

theorem shaped_display? (hm : m.Fits) : Shaped m.display? fun _ => True := by
  have h := shaped_display hm none
  unfold display?
  split
  next => trivial
  next => trivial
  next e he =>
    rw [he] at h
    exact h

end Matrix

theorem AnyMatrix.fits_of_as? {m : AnyMatrix} {k : Raw} {a : Matrix k} (hm : m.matrix.Fits)
    (h : m.as? k = some a) : a.Fits := by
  obtain ⟨rfl, ha⟩ := Option.dite_none_right_eq_some.1 h
  cases ha
  exact hm

def Source.Exact (f : Frame) : Source → Prop
  | .storage given =>
    given.length = f.rows.length ∧ ∀ row ∈ given, row.length = f.columns.length
  | _ => True

def Step.WellShaped : Step → Prop
  | .build type source _ => type.Covers ∧ source.Exact type.frame
  | _ => True

namespace Session

variable {s : Session}

def Fits (s : Session) : Prop := ∀ p ∈ s.registers, p.2.matrix.Fits

theorem Fits.register (hs : s.Fits) {name : String} {m : AnyMatrix}
    (h : s.register? name = some m) : m.matrix.Fits := by
  obtain ⟨l₁, l₂, hl, _⟩ := List.lookup_eq_some_iff.1 h
  exact hs (name, m) (by simp [hl])

theorem Fits.pair (hs : s.Fits) {left right : String} {q : (k : Raw) × Matrix k × Matrix k}
    (h : s.pair? left right = some q) : q.2.1.Fits ∧ q.2.2.Fits := by
  obtain ⟨x, hx, h⟩ := Option.bind_eq_some_iff.1 h
  obtain ⟨y, hy, h⟩ := Option.bind_eq_some_iff.1 h
  obtain ⟨y', hy', h⟩ := Option.bind_eq_some_iff.1 h
  cases h
  exact ⟨hs.register hx, AnyMatrix.fits_of_as? (hs.register hy) hy'⟩

theorem Fits.setRegister (hs : s.Fits) (name : String) {m : AnyMatrix} (hm : m.matrix.Fits) :
    (s.setRegister name m).Fits := by
  intro p hp
  rcases List.mem_cons.1 hp with rfl | hp
  · exact hm
  · exact hs p hp

theorem shaped_buildFrom (hs : s.Fits) {t : MatrixType} (ht : t.Covers) (hl : t.frame.Listed)
    {source : Source} (hsource : source.Exact t.frame) :
    Shaped (s.buildFrom t source) fun m => m.On t.frame := by
  cases source with
  | zeros => exact .lift (MatrixType.ensures_zeros ht)
  | identity => exact MatrixType.shaped_identity ht
  | storage rows =>
    refine MatrixType.shaped_ofStorage hl (by simpa using hsource.1) fun row hrow => ?_
    obtain ⟨literals, hmem, rfl⟩ := List.mem_map.1 hrow
    rw [List.length_map]
    exact hsource.2 literals hmem
  | rawRows rows => exact MatrixType.shaped_ofRawRows ht
  | fixedRows rows => exact MatrixType.shaped_ofFixedRows ht
  | rows rows => exact MatrixType.shaped_ofRows ht
  | array values => exact MatrixType.shaped_ofArray ht
  | values values => exact MatrixType.shaped_ofValues ht
  | value value => exact MatrixType.shaped_ofValue ht _
  | csv bytes => exact MatrixType.shaped_ofCsv ht bytes
  | file name =>
    unfold buildFrom
    dsimp only
    split
    next => exact MatrixType.shaped_ofCsv ht _
    next => exact fun h => h
  | json text => exact MatrixType.shaped_ofJson ht ..
  | compatible name =>
    apply Shaped.demand
    intro m hm
    apply Shaped.demand
    intro other hother
    exact MatrixType.shaped_ofCompatible ht hl (AnyMatrix.fits_of_as? (hs.register hm) hother)

/-- The response keeps the registers in shape and fails only as `allowed` says. -/
def Keeps (r : Response) (allowed : Failure → Prop) : Prop :=
  r.session.Fits ∧ ∀ e, r.result = .error e → allowed e

theorem keeps_reply (hs : s.Fits) {allowed : Failure → Prop} {result : Outcome Answer}
    (h : Ensures result (fun _ => True) allowed) : Keeps (s.reply result) allowed := by
  refine ⟨hs, fun e he => ?_⟩
  have he : result = .error e := he
  rwa [he] at h

theorem store_of_display? (s : Session) (target : String) {k : Raw} {m : Matrix k}
    (record? : Option LogRecord) {text? : Option String} (h : m.display? = .ok text?) :
    s.store target true (.ok (m, record?)) =
      ⟨.ok (.matrix ⟨k, m⟩ text?), record?.toList, s.setRegister target ⟨k, m⟩⟩ := by
  simp only [store, bind, Except.bind, if_true, h]
  rfl

theorem store_of_display?_error (s : Session) (target : String) {k : Raw} {m : Matrix k}
    (record? : Option LogRecord) {e : Failure} (h : m.display? = .error e) :
    s.store target true (.ok (m, record?)) = ⟨.error e, record?.toList, s⟩ := by
  simp only [store, bind, Except.bind, if_true, h]

theorem keeps_store (hs : s.Fits) (target : String) {k : Raw} (showsText : Bool)
    {allowed : Failure → Prop} (hallowed : ∀ e, ¬ e.IsShape → allowed e)
    {result : Outcome (Matrix k × Option LogRecord)}
    (h : Ensures result (fun q => q.1.Fits) allowed) :
    Keeps (s.store target showsText result) allowed := by
  cases result with
  | error e => exact ⟨hs, fun e' he => by cases he; exact h⟩
  | ok q =>
    obtain ⟨m, record?⟩ := q
    have hstored := hs.setRegister target (m := ⟨k, m⟩) h
    cases showsText with
    | false => exact ⟨hstored, fun e he => nomatch he⟩
    | true =>
      have htext := Matrix.shaped_display? h
      cases hdisplay : m.display? with
      | ok text =>
        rw [store_of_display? s target record? hdisplay]
        exact ⟨hstored, fun e he => nomatch he⟩
      | error e =>
        rw [hdisplay] at htext
        rw [store_of_display?_error s target record? hdisplay]
        exact ⟨hs, fun e' he => by cases he; exact hallowed e htext⟩

theorem keeps_writeFile (hs : s.Fits) (name : String) {k : Raw} {m : Matrix k} (hm : m.Fits)
    (device : Device) : Keeps (s.writeFile name m device) fun e => ¬ e.IsShape := by
  have htext := m.ensures_toCsv hm (E := fun e => ¬ e.IsShape)
  unfold writeFile
  dsimp only
  split
  next => exact ⟨hs, fun e he => by cases he; exact fun h => h⟩
  next =>
    split
    next fault hfault =>
      rw [hfault] at htext
      exact ⟨hs, fun e he => by cases he; exact htext⟩
    next =>
      split
      next => exact ⟨hs, fun e he => nomatch he⟩
      next => exact ⟨hs, fun e he => by cases he; exact fun h => h⟩

end Session

/-- The step names the position `(i, j)` of the matrix `m` when running. -/
inductive Step.Names (s : Session) : Step → AnyMatrix → Nat → Nat → Prop where
  | query {register : String} {query : Query} {m : AnyMatrix} {i j : Nat}
    (hm : s.register? register = some m) (hp : query.position? m.matrix.frame = some (i, j)) :
    Names s (.query register query) m i j
  | update {register target : String} {update : Update} {m : AnyMatrix} {i j : Nat}
    (hm : s.register? register = some m) (hp : update.position? m.matrix.frame = some (i, j)) :
    Names s (.update register update target) m i j

/-- A failure is not about shapes, or it is for a position that the step names and that the storage
of the matrix does not have. -/
def Step.Excuses (s : Session) (step : Step) (e : Failure) : Prop :=
  e.IsShape → ∃ m i j, step.Names s m i j ∧
    (m.matrix.storage.rows ≤ i ∨ m.matrix.storage.columns ≤ j) ∧
      e = .fault (.outside i j m.matrix.storage.rows m.matrix.storage.columns)

namespace Session

variable {s : Session}

theorem excuses_of_not_isShape {step : Step} (e : Failure) (he : ¬ e.IsShape) :
    step.Excuses s e := fun h => absurd h he

variable {step : Step}

theorem keeps_illTyped (hs : s.Fits) : Keeps (s.reply (.error .illTyped)) (step.Excuses s) :=
  keeps_reply hs (excuses_of_not_isShape _ fun h => h)

theorem keeps_register (hs : s.Fits) {name : String} {respond : AnyMatrix → Response}
    (h : ∀ m, s.register? name = some m → m.matrix.Fits → Keeps (respond m) (step.Excuses s)) :
    Keeps (match s.register? name with
      | some m => respond m
      | none => s.reply (.error .illTyped)) (step.Excuses s) := by
  cases hm : s.register? name with
  | some m => exact h m hm (hs.register hm)
  | none => exact keeps_illTyped hs

theorem keeps_pair (hs : s.Fits) {left right : String}
    {respond : (k : Raw) → Matrix k → Matrix k → Response}
    (h : ∀ k a b, a.Fits → b.Fits → Keeps (respond k a b) (step.Excuses s)) :
    Keeps (match s.pair? left right with
      | some ⟨k, a, b⟩ => respond k a b
      | none => s.reply (.error .illTyped)) (step.Excuses s) := by
  cases hq : s.pair? left right with
  | some q => exact h q.1 q.2.1 q.2.2 (hs.pair hq).1 (hs.pair hq).2
  | none => exact keeps_illTyped hs

theorem keeps_shaped (hs : s.Fits) {k : Raw} {o : Outcome (Matrix k × Option LogRecord)}
    (target : String) (showsText : Bool) (h : Shaped o fun q => q.1.Fits) :
    Keeps (s.store target showsText o) (step.Excuses s) :=
  keeps_store hs target showsText excuses_of_not_isShape (h.allow excuses_of_not_isShape)

theorem keeps_query (hs : s.Fits) (register : String) (query : Query) :
    Keeps (s.step (.query register query)) ((Step.query register query).Excuses s) := by
  refine keeps_register hs fun m hm hfits => keeps_reply hs ?_
  refine (Matrix.ensures_answer hfits query).mono (fun _ h => h) fun e he hshape => ?_
  obtain ⟨i, j, hp, hout, rfl⟩ := he hshape
  exact ⟨m, i, j, .query hm hp, hout, rfl⟩

theorem keeps_update (hs : s.Fits) (register : String) (update : Update) (target : String) :
    Keeps (s.step (.update register update target))
      ((Step.update register update target).Excuses s) := by
  refine keeps_register hs fun m hm hfits => ?_
  refine keeps_store hs target false excuses_of_not_isShape (.map ?_)
  refine (Matrix.ensures_update hfits update).mono (fun _ h => h) fun e he hshape => ?_
  obtain ⟨i, j, hp, hout, rfl⟩ := he hshape
  exact ⟨m, i, j, .update hm hp, hout, rfl⟩

theorem keeps_compare (hs : s.Fits) (left right : String) (comparison : Comparison) :
    Keeps (s.step (.compare left right comparison))
      ((Step.compare left right comparison).Excuses s) := by
  cases comparison with
  | equal =>
    refine keeps_pair hs fun k a b _ _ => keeps_reply hs (.map ?_)
    have heq : Shaped (a.eq b) fun _ => True := .require fun _ => trivial
    exact heq.allow excuses_of_not_isShape
  | sameShape =>
    unfold Session.step
    dsimp only
    split
    next => exact keeps_reply hs trivial
    next => exact keeps_illTyped hs

theorem keeps_step (hs : s.Fits) (hstep : step.WellShaped) (device : Device) :
    Keeps (s.step step device) (step.Excuses s) := by
  cases step with
  | build type source target =>
    unfold Session.step
    dsimp only
    split
    next hvalid =>
      have h := shaped_buildFrom hs hstep.1 hvalid.listed hstep.2
      exact keeps_shaped hs target false (.map (h.mono fun m hm => hm.fits hvalid.listed))
    next => exact keeps_illTyped hs
  | query register query => exact keeps_query hs register query
  | update register update target => exact keeps_update hs register update target
  | transform register transform target showsText =>
    exact keeps_register hs fun m _ hm =>
      keeps_shaped hs target showsText (Matrix.shaped_transform hm transform)
  | combine left right operation target showsText =>
    exact keeps_pair hs fun k a b ha hb =>
      keeps_shaped hs target showsText (Matrix.shaped_combine ha hb operation)
  | assign left right target =>
    refine keeps_pair hs fun k a b ha hb => ?_
    have h := MatrixType.shaped_ofCompatible (Matrix.covers_type ha) ha.listed hb
    exact keeps_shaped hs target false (.map (h.mono fun m hm => hm.fits ha.listed))
  | compare left right comparison => exact keeps_compare hs left right comparison
  | writeFile register name =>
    refine keeps_register hs fun m _ hm => ?_
    obtain ⟨hfits, hfails⟩ := keeps_writeFile hs name hm device
    exact ⟨hfits, fun e he => excuses_of_not_isShape e (hfails e he)⟩

def after (s : Session) (steps : List Step) : Session :=
  steps.foldl (fun s step => (s.step step).session) s

/-- What a run answers to a step is the answer of the session that the steps before have left. -/
theorem getElem?_run (s : Session) (steps : List Step) (n : Nat) :
    (s.run steps)[n]? = steps[n]?.map ((s.after (steps.take n)).step) := by
  induction steps generalizing s n with
  | nil => rfl
  | cons step steps ih =>
    cases n with
    | zero => rfl
    | succ n => exact ih (s.step step).session n

theorem fits_after (hs : s.Fits) {steps : List Step} (h : ∀ step ∈ steps, step.WellShaped) :
    (s.after steps).Fits := by
  induction steps generalizing s with
  | nil => exact hs
  | cons step steps ih =>
    have hkeeps := keeps_step hs (h step (by simp)) .sound
    exact ih hkeeps.1 fun step' h' => h step' (by simp [h'])

/-- Whatever the files hold at first, all matrices are in shape before and after every step of a
program of well-shaped steps, and no step fails because of a shape, but for a position that it names
and that is outside the storage. -/
theorem run_fits (files : Files) {program : List Step}
    (h : ∀ step ∈ program, step.WellShaped) (n : Nat) :
    let start : Session := ⟨[], files⟩
    let before := start.after (program.take n)
    before.Fits ∧ ∀ step, program[n]? = some step →
      ∃ r, (start.run program)[n]? = some r ∧ r.session.Fits ∧
        ∀ e, r.result = .error e → step.Excuses before e := by
  intro start before
  have hbefore : before.Fits := fits_after (fun _ hp => absurd hp List.not_mem_nil)
    fun step hstep => h step (List.mem_of_mem_take hstep)
  refine ⟨hbefore, fun step hstep => ⟨before.step step, ?_, ?_⟩⟩
  · rw [getElem?_run, hstep]
    rfl
  · exact keeps_step hbefore (h step (List.mem_of_getElem? hstep)) .sound

/-- Two rows of storage, their sum, and a number of it from a column that it does not have. -/
theorem run_fits_of_sum :
    let t : MatrixType := ⟨.double, .fixed 1 2, ⟨[.identity], [.double, .quantity 1 0]⟩⟩
    let program : List Step :=
      [.build t (.storage [[.decimal 1 0, .decimal 2 0]]) "a", .combine "a" "a" .add "b" true,
        .query "b" (.number 0 2)]
    (∀ step ∈ program, step.WellShaped) ∧ program[2]? = some (.query "b" (.number 0 2)) ∧
      ∃ r, (empty.run program)[2]? = some r ∧ r.session.Fits ∧ ∀ e, r.result = .error e →
        Step.Excuses (empty.after (program.take 2)) (.query "b" (.number 0 2)) e := by
  intro t program
  have h : ∀ step ∈ program, step.WellShaped := by
    simp [program, t, Step.WellShaped, MatrixType.Covers, Source.Exact]
  exact ⟨h, rfl, (run_fits .empty h 2).2 _ rfl⟩

end Session

end UnitMatrix
