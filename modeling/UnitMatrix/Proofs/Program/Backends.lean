import UnitMatrix.Proofs.Matrix.Backends
import UnitMatrix.Proofs.Program.Shapes

/-! Programs over both kinds of storage. A program whose matrices are in storage of a fixed shape can
be run with all its types asking for storage of any shape. As long as the first run is not rejected,
the second one answers the same and reports the same, step by step, and stops where the first one
does. -/

namespace UnitMatrix

def AnyMatrix.onDynamic (m : AnyMatrix) : AnyMatrix := ⟨m.raw, m.matrix.onDynamic⟩

def Answer.onDynamic : Answer → Answer
  | .matrix m shown => .matrix m.onDynamic shown
  | answer => answer

/-- The same step, building its matrix in storage of any shape. -/
def Step.onDynamic : Step → Step
  | .build type source target => .build type.onDynamic source target
  | step => step

def Session.onDynamic (s : Session) : Session :=
  ⟨s.registers.map fun p => (p.1, p.2.onDynamic), s.files⟩

def Response.Refused (r : Response) : Prop :=
  match r.result with
  | .ok _ => False
  | .error e => e.Refuses

structure Response.Mirrors (r r' : Response) : Prop where
  result : (∃ a, r.result = .ok a ∧ r'.result = .ok a.onDynamic) ∨
    ∃ e e', r.result = .error e ∧ r'.result = .error e' ∧ e.Alike e'
  log : r'.log = r.log
  session : r'.session = r.session.onDynamic

/-- The step means the same in both kinds of storage: storage that is handed over has a row, numbers
that are multiplied are whole, and the storage is not shown as it is. -/
def Step.Shared (s : Session) : Step → Prop
  | .build _ (.storage rows) _ => rows ≠ []
  | .query _ .debug => False
  | .combine left right .mul _ _ =>
    ∀ k a b, s.pair? left right = some ⟨k, a, b⟩ → k = .signed ∨ k = .byte
  | _ => True

theorem AnyMatrix.as?_onDynamic (m : AnyMatrix) (k : Raw) :
    m.onDynamic.as? k = (m.as? k).map Matrix.onDynamic := by
  obtain ⟨raw, m⟩ := m
  unfold as?
  by_cases h : raw = k
  · subst h
    simp [onDynamic]
  · simp [onDynamic, h]

namespace Matrix

variable {k : Raw}

theorem read_onDynamic (m : Matrix k) (place : Place) : m.onDynamic.read place = m.read place := by
  simp only [read, Backend.get_eq]
  rfl

theorem rawRows_onDynamic (m : Matrix k) : m.onDynamic.rawRows = m.rawRows := by
  simp only [rawRows, Backend.readRows_eq]

theorem toCsv_onDynamic (m : Matrix k) : m.onDynamic.toCsv = m.toCsv := by
  rw [toCsv, toCsv, rawRows_onDynamic]

theorem toJson_onDynamic (m : Matrix k) : m.onDynamic.toJson = m.toJson := by
  rw [toJson, toJson, rawRows_onDynamic]

theorem cells_onDynamic (m : Matrix k) (precision : Option Nat) :
    m.onDynamic.cells precision = m.cells precision := by
  simp only [cells, cellTexts, Backend.get_eq]

theorem display_onDynamic (m : Matrix k) (precision : Option Nat) :
    m.onDynamic.display precision = m.display precision := by
  rw [display, display, cells_onDynamic]

theorem table_onDynamic (m : Matrix k) : m.onDynamic.table = m.table := by
  rw [table, table, cells_onDynamic]

theorem answer_onDynamic (m : Matrix k) (query : Query) :
    m.onDynamic.answer query = m.answer query := by
  cases query
  case element place => rw [answer, answer, read_onDynamic]
  case number i j => simp only [answer, rawGet, Backend.get_eq]
  case display precision => rw [answer, answer, display_onDynamic]
  case cells precision => rw [answer, answer, cells_onDynamic]
  case table => rw [answer, answer, table_onDynamic]
  case rawRows => rw [answer, answer, rawRows_onDynamic]
  case csv => rw [answer, answer, toCsv_onDynamic]
  case json => rw [answer, answer, toJson_onDynamic]
  all_goals rfl

theorem onDynamic_of_answer (m : Matrix k) (query : Query) :
    Ensures (m.answer query) (fun a => a.onDynamic = a) fun _ => True := by
  cases query
  case element place => exact (Ensures.any (m.read place)).bind fun _ _ => rfl
  case number i j => exact (Ensures.any (m.rawGet i j)).bind fun _ _ => rfl
  case display precision => exact (Ensures.any (m.display precision)).bind fun _ _ => rfl
  case cells precision => exact (Ensures.any (m.cells precision)).bind fun _ _ => rfl
  case table => exact (Ensures.any m.table).bind fun _ _ => rfl
  case rawRows => exact (Ensures.any (m.rawRows : Outcome _)).bind fun _ _ => rfl
  case csv => exact (Ensures.any (m.toCsv : Outcome _)).bind fun _ _ => rfl
  case json => exact (Ensures.any (m.toJson : Outcome _)).bind fun _ _ => rfl
  all_goals rfl

theorem follows_answer (m : Matrix k) (query : Query) :
    Follows Answer.onDynamic (m.answer query) (m.onDynamic.answer query) := by
  have h := m.onDynamic_of_answer query
  rw [answer_onDynamic]
  cases ha : m.answer query with
  | ok a =>
    rw [ha] at h
    exact congrArg Except.ok h.symm
  | error e => exact .fail e

end Matrix

namespace Session

variable {s : Session}

theorem lookup_map_snd {α β : Type} (f : α → β) (name : String) (l : List (String × α)) :
    (l.map fun p => (p.1, f p.2)).lookup name = (l.lookup name).map f := by
  induction l with
  | nil => rfl
  | cons p l ih =>
    rw [List.map_cons, List.lookup_cons, List.lookup_cons]
    cases name == p.1 with
    | true => rfl
    | false => exact ih

theorem register?_onDynamic (s : Session) (name : String) :
    s.onDynamic.register? name = (s.register? name).map AnyMatrix.onDynamic :=
  lookup_map_snd ..

theorem pair?_onDynamic (s : Session) (left right : String) :
    s.onDynamic.pair? left right =
      (s.pair? left right).map fun q => ⟨q.1, q.2.1.onDynamic, q.2.2.onDynamic⟩ := by
  unfold pair?
  rw [register?_onDynamic, register?_onDynamic]
  cases s.register? left with
  | none => rfl
  | some x =>
    cases s.register? right with
    | none => rfl
    | some y =>
      have hy := y.as?_onDynamic x.raw
      simp only [Option.map_some, Option.bind_eq_bind, Option.bind_some, AnyMatrix.onDynamic] at hy ⊢
      rw [hy]
      cases y.as? x.raw <;> rfl

theorem mirrors_reply {x y : Outcome Answer} (h : Follows Answer.onDynamic x y)
    (hr : ¬ (s.reply x).Refused) : (s.reply x).Mirrors (s.onDynamic.reply y) := by
  refine ⟨?_, rfl, rfl⟩
  cases x with
  | ok a => exact .inl ⟨a, rfl, h⟩
  | error e =>
    obtain ⟨e', rfl, he⟩ := h.resolve_left hr
    exact .inr ⟨e, e', rfl, rfl, he⟩

theorem mirrors_store {k : Raw} {x y : Outcome (Matrix k × Option LogRecord)}
    (h : Follows Matrix.reportedOnDynamic x y) (target : String) (showsText : Bool)
    (hr : ¬ (s.store target showsText x).Refused) :
    (s.store target showsText x).Mirrors (s.onDynamic.store target showsText y) := by
  cases x with
  | error e =>
    obtain ⟨e', rfl, he⟩ := h.resolve_left hr
    exact ⟨.inr ⟨e, e', rfl, rfl, he⟩, rfl, rfl⟩
  | ok p =>
    have h : y = .ok (Matrix.reportedOnDynamic p) := h
    subst h
    obtain ⟨m, record?⟩ := p
    cases showsText with
    | false => exact ⟨.inl ⟨_, rfl, rfl⟩, rfl, rfl⟩
    | true =>
      have hsame : m.onDynamic.display? = m.display? := by
        rw [Matrix.display?, Matrix.display?, Matrix.display_onDynamic]
      cases hdisplay : m.display? with
      | ok text =>
        rw [store_of_display? s target record? hdisplay,
          store_of_display? _ target record? (hsame.trans hdisplay)]
        exact ⟨.inl ⟨_, rfl, rfl⟩, rfl, rfl⟩
      | error e =>
        rw [store_of_display?_error s target record? hdisplay,
          store_of_display?_error _ target record? (hsame.trans hdisplay)]
        exact ⟨.inr ⟨e, e, rfl, rfl, .inl rfl⟩, rfl, rfl⟩

theorem follows_buildFrom (t : MatrixType) (source : Source)
    (hsource : ∀ rows, source = .storage rows → rows ≠ []) :
    Follows Matrix.onDynamic (s.buildFrom t source) (s.onDynamic.buildFrom t.onDynamic source) := by
  cases source with
  | zeros => exact MatrixType.follows_zeros
  | identity => exact MatrixType.follows_identity
  | storage rows =>
    have hrows := hsource rows rfl
    exact MatrixType.follows_ofStorage (by simpa using hrows)
  | rawRows rows => exact MatrixType.follows_ofRawRows
  | fixedRows rows => exact MatrixType.follows_ofFixedRows
  | rows rows => exact MatrixType.follows_ofRows
  | array values => exact MatrixType.follows_ofArray
  | values values => exact MatrixType.follows_ofValues
  | value value => exact MatrixType.follows_ofValue _
  | csv bytes => exact MatrixType.follows_ofCsv bytes
  | file name =>
    have hfiles : s.onDynamic.files = s.files := rfl
    simp only [buildFrom, hfiles]
    cases s.files.read name with
    | ok bytes => exact MatrixType.follows_ofCsv bytes
    | error fault => exact .fail _
  | json text => exact MatrixType.follows_ofJson ..
  | compatible name =>
    refine .demand fun m hm => ⟨m.onDynamic, by rw [register?_onDynamic, hm]; rfl, ?_⟩
    refine .demand fun other hother => ⟨other.onDynamic, ?_, MatrixType.follows_ofCompatible other⟩
    rw [AnyMatrix.as?_onDynamic, hother]
    rfl

theorem mirrors_illTyped {r : Response} (hr : ¬ (s.reply (.error .illTyped)).Refused) :
    (s.reply (.error .illTyped)).Mirrors r :=
  absurd (.inl rfl) hr

theorem mirrors_register {name : String} {respond respond' : AnyMatrix → Response}
    (h : ∀ m, ¬ (respond m).Refused → (respond m).Mirrors (respond' m.onDynamic))
    (hr : ¬ (match s.register? name with
      | some m => respond m
      | none => s.reply (.error .illTyped)).Refused) :
    (match s.register? name with
      | some m => respond m
      | none => s.reply (.error .illTyped)).Mirrors
    (match s.onDynamic.register? name with
      | some m => respond' m
      | none => s.onDynamic.reply (.error .illTyped)) := by
  rw [register?_onDynamic]
  cases hm : s.register? name with
  | some m =>
    rw [hm] at hr
    exact h m hr
  | none =>
    rw [hm] at hr
    exact mirrors_illTyped hr

theorem mirrors_pair {left right : String}
    {respond respond' : (k : Raw) → Matrix k → Matrix k → Response}
    (h : ∀ k a b, ¬ (respond k a b).Refused →
      (respond k a b).Mirrors (respond' k a.onDynamic b.onDynamic))
    (hr : ¬ (match s.pair? left right with
      | some ⟨k, a, b⟩ => respond k a b
      | none => s.reply (.error .illTyped)).Refused) :
    (match s.pair? left right with
      | some ⟨k, a, b⟩ => respond k a b
      | none => s.reply (.error .illTyped)).Mirrors
    (match s.onDynamic.pair? left right with
      | some ⟨k, a, b⟩ => respond' k a b
      | none => s.onDynamic.reply (.error .illTyped)) := by
  rw [pair?_onDynamic]
  cases hq : s.pair? left right with
  | some q =>
    rw [hq] at hr
    exact h q.1 q.2.1 q.2.2 hr
  | none =>
    rw [hq] at hr
    exact mirrors_illTyped hr

theorem mirrors_compare (left right : String) (comparison : Comparison)
    (hr : ¬ (s.step (.compare left right comparison)).Refused) :
    (s.step (.compare left right comparison)).Mirrors
      (s.onDynamic.step (.compare left right comparison)) := by
  cases comparison with
  | equal =>
    refine mirrors_pair (fun k a b hr => mirrors_reply ?_ hr) hr
    exact .map Matrix.follows_eq fun _ => rfl
  | sameShape =>
    unfold step at hr ⊢
    simp only [register?_onDynamic] at hr ⊢
    cases hl : s.register? left with
    | none =>
      rw [hl] at hr
      exact mirrors_illTyped hr
    | some a =>
      cases hright : s.register? right with
      | none =>
        rw [hl, hright] at hr
        exact mirrors_illTyped hr
      | some b =>
        rw [hl, hright] at hr
        exact mirrors_reply rfl hr

theorem mirrors_writeFile {k : Raw} (m : Matrix k) (name : String) (device : Device) :
    (s.writeFile name m device).Mirrors (s.onDynamic.writeFile name m.onDynamic device) := by
  have hfiles : s.onDynamic.files = s.files := rfl
  unfold writeFile
  rw [hfiles, Matrix.toCsv_onDynamic]
  cases device.openFile s.files name with
  | error fault => exact ⟨.inr ⟨_, _, rfl, rfl, .inl rfl⟩, rfl, rfl⟩
  | ok file =>
    cases m.toCsv with
    | error fault => exact ⟨.inr ⟨_, _, rfl, rfl, .inl rfl⟩, rfl, rfl⟩
    | ok text =>
      dsimp only
      obtain ⟨kept, _ | error⟩ := Csv.deliver device.allowances (Utf8.encode text)
      · exact ⟨.inl ⟨_, rfl, rfl⟩, rfl, rfl⟩
      · exact ⟨.inr ⟨_, _, rfl, rfl, .inl rfl⟩, rfl, rfl⟩

theorem mirrors_build (type : MatrixType) (source : Source) (target : String)
    (hstep : Step.Shared s (.build type source target))
    (hr : ¬ (s.step (.build type source target)).Refused) :
    (s.step (.build type source target)).Mirrors
      (s.onDynamic.step (.build type.onDynamic source target)) := by
  have hsource : ∀ rows, source = .storage rows → rows ≠ [] := by
    rintro rows rfl
    exact hstep
  unfold step at hr ⊢
  dsimp only at hr ⊢
  by_cases hvalid : type.frame.Valid
  · rw [if_pos hvalid] at hr
    rw [if_pos hvalid, if_pos hvalid]
    have hbuilt : Follows Matrix.reportedOnDynamic ((s.buildFrom type source).map (·, none))
        ((s.onDynamic.buildFrom type.onDynamic source).map (·, none)) :=
      .map (follows_buildFrom type source hsource) fun _ => rfl
    have h := mirrors_store hbuilt target false hr
    exact ⟨h.result, congrArg (sourceLog type source ++ ·) h.log, h.session⟩
  · rw [if_neg hvalid] at hr
    rw [if_neg hvalid]
    exact mirrors_illTyped hr

variable {step : Step}

/-- What a step does over storage of any shape if storage of a fixed shape admits it. -/
theorem mirrors_step (hstep : step.Shared s) (hr : ¬ (s.step step).Refused) :
    (s.step step).Mirrors (s.onDynamic.step step.onDynamic) := by
  cases step with
  | build type source target =>
    exact mirrors_build type source target hstep hr
  | query register query =>
    exact mirrors_register (fun m hr => mirrors_reply (m.matrix.follows_answer query) hr) hr
  | update register update target =>
    refine mirrors_register (fun m hr => mirrors_store ?_ target false hr) hr
    exact .map (Matrix.follows_update update) fun _ => rfl
  | transform register transform target showsText =>
    exact mirrors_register
      (fun m hr => mirrors_store (Matrix.follows_transform transform) target showsText hr) hr
  | combine left right operation target showsText =>
    exact mirrors_pair
      (fun k a b hr => mirrors_store (Matrix.follows_combine operation) target showsText hr) hr
  | assign left right target =>
    refine mirrors_pair (fun k a b hr => mirrors_store ?_ target false hr) hr
    exact .map (MatrixType.follows_ofCompatible (t := a.type) b) fun _ => rfl
  | compare left right comparison => exact mirrors_compare left right comparison hr
  | writeFile register name =>
    exact mirrors_register (fun m _ => mirrors_writeFile m.matrix name .sound) hr

/-- No step of the program is rejected, and every step means the same in both kinds of storage. -/
def Admits (s : Session) : List Step → Prop
  | [] => True
  | step :: steps => step.Shared s ∧ ¬ (s.step step).Refused ∧ (s.step step).session.Admits steps

theorem mirrors_run {program : List Step} (h : s.Admits program) :
    List.Forall₂ Response.Mirrors (s.run program) (s.onDynamic.run (program.map Step.onDynamic)) := by
  induction program generalizing s with
  | nil => exact .nil
  | cons step steps ih =>
    obtain ⟨hstep, hr, hrest⟩ := h
    have hmirrors := mirrors_step hstep hr
    refine .cons hmirrors ?_
    rw [hmirrors.session]
    exact ih hrest

/-- The two kinds of storage agree. On one grid they read and write the same cells, transpose it, scale
it and divide it alike, and they make one grid of a scalar. On operands whose shapes fit, sums,
differences and products of whole numbers end in the same way, and so do quotients; and a program over
storage of a fixed shape, run again over storage of any shape, answers and reports the same in every
step, with the same numbers in all registers, and stops where it stopped before. -/
theorem backends_agree :
    (∀ (k : Raw) (g : Grid k.Carrier) (x : k.Carrier),
      (∀ i j, Backend.fixed.get g i j = Backend.dynamic.get g i j ∧
        Backend.fixed.set g i j x = Backend.dynamic.set g i j x) ∧
      Backend.fixed.transpose g = Backend.dynamic.transpose g ∧
      Backend.fixed.scale g x = Backend.dynamic.scale g x ∧
      Backend.fixed.divideBy g x = Backend.dynamic.divideBy g x ∧
      Backend.fixed.scalar x = Backend.dynamic.scalar x) ∧
    (∀ (k : Raw) (a b : Grid k.Carrier), a.rows = b.rows → a.columns = b.columns →
      Concur (Backend.fixed.combine Arithmetic.add a b)
        (Backend.dynamic.combine Arithmetic.add a b) ∧
      Concur (Backend.fixed.combine Arithmetic.sub a b)
        (Backend.dynamic.combine Arithmetic.sub a b)) ∧
    (∀ (k : Raw) (a b : Grid k.Carrier), k = .signed ∨ k = .byte → a.columns = b.rows →
      Concur (Backend.fixed.mul a b) (Backend.dynamic.mul a b)) ∧
    (∀ (K : Type) [RootField K] (a b : Grid K), a.columns = b.columns →
      Backend.fixed.div a b = Backend.dynamic.div a b) ∧
    ∀ (s : Session) (program : List Step), s.Admits program →
      List.Forall₂ Response.Mirrors (s.run program)
        (s.onDynamic.run (program.map Step.onDynamic)) :=
  ⟨fun _ _ _ => ⟨fun _ _ => ⟨Backend.get_same .., Backend.set_same ..⟩, Backend.transpose_same ..,
      Backend.scale_same .., Backend.divideBy_same .., Backend.scalar_same ..⟩,
    fun k _ _ hr hc => ⟨Backend.concur_combine k.ensures_add hr hc,
      Backend.concur_combine k.ensures_sub hr hc⟩,
    fun _ _ _ _ hinner => Backend.concur_mul hinner, fun _ _ _ _ h => Backend.div_eq h,
    fun _ _ h => mirrors_run h⟩

/-- Bytes whose sum leaves their range, and their transpose. -/
theorem backends_agree_of_bytes :
    let t : MatrixType := ⟨.byte, .fixed 1 2, ⟨[.identity], [.double, .quantity 1 0]⟩⟩
    let program : List Step :=
      [.build t (.storage [[.decimal 100 0, .decimal 200 0]]) "a", .combine "a" "a" .add "b" false,
        .transform "a" .transpose "c" false]
    empty.Admits program ∧ List.Forall₂ Response.Mirrors (empty.run program)
      (empty.onDynamic.run (program.map Step.onDynamic)) := by
  intro t program
  have h : empty.Admits program := by
    refine ⟨by simp [Step.Shared], fun h => h, trivial, ?_, trivial, fun h => h, trivial⟩
    rintro (h | h) <;> cases h
  exact ⟨h, backends_agree.2.2.2.2 empty program h⟩

end Session

end UnitMatrix
