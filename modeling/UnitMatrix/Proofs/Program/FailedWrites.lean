import UnitMatrix.Proofs.Matrix.Backing
import UnitMatrix.Proofs.Matrix.Loading
import UnitMatrix.Proofs.Program.Files

/-! What a write that fails leaves in the files. A file is emptied when it is opened, and it is opened
before the matrix is read: so a write that cannot open its file changes nothing, one that stops at a
position that the storage does not have leaves its file empty, and one whose bytes are refused leaves in
it what was kept of them. Every other file stays as it was. What was written to a file is therefore
there until the file is opened for the next write, whether this completes or not. -/

namespace UnitMatrix

/-- The text of a matrix, whatever lies behind its listed part, is read as a matrix with this part. -/
theorem Matrix.exists_ofCsv_of_toCsv {k : Raw} {m : Matrix k} {store : Store}
    (hl : m.frame.Listed) (ht : (⟨k, store, m.frame⟩ : MatrixType).Covers) {text : List Char}
    (h : m.toCsv = .ok text) :
    ∃ found : Matrix k, MatrixType.ofCsv ⟨k, store, m.frame⟩ (Utf8.encode text) = .ok found ∧
      found.type = ⟨k, store, m.frame⟩ ∧ found.rawRows = m.rawRows ∧
        (m.Fits → store = m.store → found = m) := by
  obtain ⟨rows, hrows, rfl⟩ : ∃ rows, m.rawRows = .ok rows ∧ Csv.text k rows = text := by
    rw [toCsv] at h
    cases hrows : m.rawRows with
    | ok rows =>
      rw [hrows] at h
      exact ⟨rows, rfl, Except.ok.inj h⟩
    | error e =>
      rw [hrows] at h
      cases h
  obtain ⟨hlength, hwidth⟩ := lengths_of_rawRows hrows
  obtain ⟨found, hfound⟩ := (MatrixType.exists_ofRawRows_iff ht).2 ⟨hlength, hwidth⟩
  obtain ⟨htype, hback⟩ := MatrixType.rawRows_of_ofRawRows ht hfound
  have hne : rows ≠ [] := by
    rw [← List.length_pos_iff, hlength]
    exact hl.1.1
  have hread : Csv.readRows k (Utf8.encode (Csv.text k rows)) = .ok rows := by
    refine Csv.readRows_text fun row hrow => ?_
    rw [← List.length_pos_iff, hwidth row hrow]
    exact hl.2.1
  refine ⟨found, ?_, htype, hback.trans hrows.symm, fun hm hstore => ?_⟩
  · unfold MatrixType.ofCsv
    rw [hread]
    split
    next h => cases h
    next h => exact absurd (Except.ok.inj h) hne
    next h =>
      cases h
      exact hfound
  · subst hstore
    have hentries : rows = m.storage.entries :=
      Except.ok.inj (hrows.symm.trans (rawRows_eq hm))
    rw [hentries] at hfound
    exact Except.ok.inj (hfound.symm.trans (ofRawRows_entries hm))

namespace Csv

/-- The writing of the bytes ends with the error, and `kept` of them are in the file: all in front of a
place in the buffer that begins at `start`, and behind them what is kept of this buffer once more. -/
def Stops (bytes kept : List UInt8) (fault : FileFault) (error : LoadError) : Prop :=
  ∃ start taken again, capacity ∣ start ∧ taken < capacity ∧ again ≤ capacity ∧
    start + taken < bytes.length ∧
      kept = bytes.take (start + taken) ++ (bytes.drop start).take again ∧
        error = if start + capacity < bytes.length then .unreadable fault else .file fault

variable {bytes kept : List UInt8} {fault : FileFault} {error : LoadError}

theorem exists_giveUp_eq (bytes : List UInt8) (rest : List Allowance) :
    ∃ again ≤ capacity, giveUp (bytes.take capacity) rest = bytes.take again := by
  cases rest with
  | nil => exact ⟨capacity, le_rfl, rfl⟩
  | cons a rest => exact ⟨min a.kept capacity, min_le_right .., List.take_take⟩

theorem Stops.behind (h : Stops (bytes.drop capacity) kept fault error)
    (hlong : capacity < bytes.length) : Stops bytes (bytes.take capacity ++ kept) fault error := by
  obtain ⟨start, taken, again, hstart, htaken, hagain, hlt, rfl, rfl⟩ := h
  rw [List.length_drop] at hlt ⊢
  refine ⟨capacity + start, taken, again, (Nat.dvd_add_self_left).2 hstart, htaken, hagain, by omega,
    ?_, ?_⟩
  · rw [List.drop_drop, ← List.append_assoc, Nat.add_assoc, ← List.take_add]
  · simp only [show start + capacity < bytes.length - capacity ↔
      capacity + start + capacity < bytes.length by omega]

/-- Either all bytes are kept, or the device refuses some of them at one of the attempts. -/
theorem deliver_cases (allowances : List Allowance) (bytes : List UInt8) :
    deliver allowances bytes = (bytes, none) ∨ ∃ a ∈ allowances, ∃ kept error,
      deliver allowances bytes = (kept, some error) ∧ Stops bytes kept a.fault error := by
  induction allowances generalizing bytes with
  | nil => exact .inl rfl
  | cons a rest ih =>
    unfold deliver
    dsimp only
    split
    next hrefused =>
      -- the first buffer is cut off
      rw [List.length_take] at hrefused
      obtain ⟨again, hagain, heq⟩ := exists_giveUp_eq bytes rest
      refine .inr ⟨a, List.mem_cons_self .., _, _, rfl, 0, a.kept, again, Nat.dvd_zero _, by omega, hagain,
        by omega, ?_, by rw [Nat.zero_add]⟩
      rw [heq, List.take_take, Nat.zero_add, List.drop_zero, min_eq_left (by omega)]
    next =>
      split
      next hlong =>
        obtain hall | ⟨a', ha', kept, error, hdeliver, hstops⟩ := ih (bytes.drop capacity)
        · rw [hall, List.take_append_drop]
          exact .inl rfl
        · rw [hdeliver]
          exact .inr ⟨a', List.mem_cons_of_mem _ ha', _, _, rfl, hstops.behind hlong⟩
      next => exact .inl rfl

end Csv

namespace Session

variable {s : Session} {register path file : String} {step : Step} {device : Device}

def Opens (s : Session) (file : String) (step : Step) (device : Device) : Prop :=
  ∃ register path, step = .writeFile register path ∧ (s.register? register).isSome ∧
    device.openFile s.files path = .ok file

def afterOn (s : Session) (steps : List (Step × Device)) : Session :=
  steps.foldl (fun s p => (s.step p.1 p.2).session) s

def Spares (file : String) : Session → List (Step × Device) → Prop
  | _, [] => True
  | s, p :: steps => ¬ s.Opens file p.1 p.2 ∧ Spares file (s.step p.1 p.2).session steps

/-- How a write ends that has opened the file. -/
inductive Ends (s : Session) (file : String) (m : AnyMatrix) (device : Device) (r : Response) :
    Prop where
  | complete {text : List Char} (htext : m.matrix.toCsv = .ok text)
    (hresult : r.result = .ok (.text (String.ofList text)))
    (hsession : r.session = s.setFile file (Utf8.encode text))
  /-- At a position that is not stored. -/
  | stopped {fault : Fault} (htext : m.matrix.toCsv = .error fault)
    (hresult : r.result = .error (.fault fault)) (hsession : r.session = s.setFile file [])
  /-- With bytes that the device does not keep. -/
  | refused {text : List Char} {kept : List UInt8} {a : Allowance} {error : LoadError}
    (htext : m.matrix.toCsv = .ok text) (ha : a ∈ device.allowances)
    (hstops : Csv.Stops (Utf8.encode text) kept a.fault error)
    (hresult : r.result = .error (.load error)) (hsession : r.session = s.setFile file kept)

theorem ends_writeFile (m : AnyMatrix) (hopen : device.openFile s.files path = .ok file) :
    s.Ends file m device (s.writeFile path m.matrix device) := by
  cases htext : m.matrix.toCsv with
  | error fault => exact .stopped htext (by simp only [writeFile, hopen, htext]) (by simp only [writeFile, hopen, htext])
  | ok text =>
    obtain hall | ⟨a, ha, kept, error, hdeliver, hstops⟩ :=
      Csv.deliver_cases device.allowances (Utf8.encode text)
    · exact .complete htext (by simp only [writeFile, hopen, htext, hall])
        (by simp only [writeFile, hopen, htext, hall])
    · exact .refused htext ha hstops (by simp only [writeFile, hopen, htext, hdeliver])
        (by simp only [writeFile, hopen, htext, hdeliver])

/-- A write opens no file and changes nothing, or it opens one and ends in one of three ways. -/
theorem step_writeFile_cases (s : Session) (register path : String) (device : Device) :
    let r := s.step (.writeFile register path) device
    ((∀ file, ¬ s.Opens file (.writeFile register path) device) ∧ (∃ e, r.result = .error e) ∧
        r.session = s) ∨
      ∃ (m : AnyMatrix) (file : String), s.register? register = some m ∧
        device.openFile s.files path = .ok file ∧ s.Ends file m device r := by
  intro r
  cases hm : s.register? register with
  | none =>
    have hr : r = s.reply (.error .illTyped) := by simp only [r, step, hm]
    refine .inl ⟨?_, ⟨.illTyped, by rw [hr, reply]⟩, by rw [hr, reply]⟩
    rintro file ⟨register', path', hstep, hregister, -⟩
    cases hstep
    rw [hm] at hregister
    cases hregister
  | some m =>
    have hr : r = s.writeFile path m.matrix device := by simp only [r, step, hm]
    cases hopen : device.openFile s.files path with
    | error fault =>
      rw [writeFile, hopen] at hr
      refine .inl ⟨?_, ⟨.load (.file fault), by rw [hr]⟩, by rw [hr]⟩
      rintro file ⟨register', path', hstep, -, hopen'⟩
      cases hstep
      cases hopen.symm.trans hopen'
    | ok file => exact .inr ⟨m, file, rfl, rfl, hr ▸ ends_writeFile m hopen⟩

theorem Ends.exists_session {m : AnyMatrix} {r : Response} (h : s.Ends file m device r) :
    ∃ bytes, r.session = s.setFile file bytes := by
  cases h with
  | complete _ _ hsession => exact ⟨_, hsession⟩
  | stopped _ _ hsession => exact ⟨_, hsession⟩
  | refused _ _ _ _ hsession => exact ⟨_, hsession⟩

theorem get?_setFile (bytes : List UInt8) (name : String) :
    (s.setFile name bytes).files.get? file = if file = name then some bytes else s.files.get? file :=
  Files.get?_put bytes name

theorem get?_step_of_not_opens (h : ¬ s.Opens file step device) :
    (s.step step device).session.files.get? file = s.files.get? file := by
  by_cases hwrite : ∃ register path, step = .writeFile register path
  · obtain ⟨register, path, rfl⟩ := hwrite
    obtain ⟨-, -, hs⟩ | ⟨m, name, hm, hopen, hends⟩ := step_writeFile_cases s register path device
    · rw [hs]
    · -- the file that is opened is another one
      have hne : file ≠ name := fun hfile =>
        h ⟨register, path, rfl, Option.isSome_iff_exists.2 ⟨m, hm⟩, hfile ▸ hopen⟩
      obtain ⟨bytes, hs⟩ := hends.exists_session
      rw [hs, get?_setFile, if_neg hne]
  · rw [files_step fun register path hstep => hwrite ⟨register, path, hstep⟩]

/-- Steps that spare a file leave in it what they find. -/
theorem get?_afterOn {steps : List (Step × Device)} (h : Spares file s steps) :
    (s.afterOn steps).files.get? file = s.files.get? file := by
  induction steps generalizing s with
  | nil => rfl
  | cons p steps ih => exact (ih h.2).trans (get?_step_of_not_opens h.1)

theorem buildFrom_file {bytes : List UInt8} (hpath : s.files.resolve path = .ok file)
    (hbytes : s.files.get? file = some bytes) (t : MatrixType) :
    s.buildFrom t (.file path) = t.ofCsv bytes := by
  unfold buildFrom
  dsimp only
  rw [Files.read_eq_ok hpath hbytes]

/-- Reading the file under the lists of the matrix, into storage of either kind, gives a matrix with
the listed numbers of it; and the same matrix, if its storage has the extent of the lists. -/
def Stores (s : Session) (file : String) {k : Raw} (m : Matrix k) : Prop :=
  ∀ path store, s.files.resolve path = .ok file → (⟨k, store, m.frame⟩ : MatrixType).Covers →
    ∃ found : Matrix k, s.buildFrom ⟨k, store, m.frame⟩ (.file path) = .ok found ∧
      found.type = ⟨k, store, m.frame⟩ ∧ found.rawRows = m.rawRows ∧
        (m.Fits → store = m.store → found = m)

/-- The matrix was written to the file, to its end, and no step since has opened the file to write. -/
def LastWritten (s : Session) (file : String) (m : AnyMatrix) : Prop :=
  ∃ (s₀ : Session) (register path : String) (device : Device) (answer : Answer)
      (steps : List (Step × Device)),
    s₀.register? register = some m ∧ device.openFile s₀.files path = .ok file ∧
      (s₀.step (.writeFile register path) device).result = .ok answer ∧
        Spares file (s₀.step (.writeFile register path) device).session steps ∧
          s = (s₀.step (.writeFile register path) device).session.afterOn steps

theorem stores_of_get? {k : Raw} {m : Matrix k} (hl : m.frame.Listed) {text : List Char}
    (htext : m.toCsv = .ok text) (hbytes : s.files.get? file = some (Utf8.encode text)) :
    s.Stores file m := by
  intro path store hpath ht
  obtain ⟨found, hread, htype, hrows, hsame⟩ := Matrix.exists_ofCsv_of_toCsv hl ht htext
  exact ⟨found, (buildFrom_file hpath hbytes _).trans hread, htype, hrows, hsame⟩

theorem LastWritten.stores {m : AnyMatrix} (h : s.LastWritten file m)
    (hl : m.matrix.frame.Listed) : s.Stores file m.matrix := by
  obtain ⟨s₀, register, path, device, answer, steps, hm, hopen, hok, hsteps, rfl⟩ := h
  obtain ⟨-, ⟨e, herror⟩, -⟩ | ⟨m', file', hm', hopen', hends⟩ :=
    step_writeFile_cases s₀ register path device
  · cases herror.symm.trans hok
  · cases hm.symm.trans hm'
    cases hopen.symm.trans hopen'
    cases hends with
    | complete htext _ hs =>
      refine stores_of_get? hl htext ?_
      rw [get?_afterOn hsteps, hs, get?_setFile, if_pos rfl]
    | stopped _ herror _ => cases herror.symm.trans hok
    | refused _ _ _ herror _ => cases herror.symm.trans hok

theorem spares_append {steps later : List (Step × Device)} (h : Spares file s steps)
    (hlater : Spares file (s.afterOn steps) later) : Spares file s (steps ++ later) := by
  induction steps generalizing s with
  | nil => exact hlater
  | cons p steps ih => exact ⟨h.1, ih h.2 hlater⟩

theorem LastWritten.afterOn {m : AnyMatrix} (h : s.LastWritten file m)
    {steps : List (Step × Device)} (hsteps : Spares file s steps) :
    (s.afterOn steps).LastWritten file m := by
  obtain ⟨s₀, register, path, device, answer, before, hm, hopen, hok, hbefore, rfl⟩ := h
  refine ⟨s₀, register, path, device, answer, before ++ steps, hm, hopen, hok,
    spares_append hbefore hsteps, ?_⟩
  rw [Session.afterOn, Session.afterOn, Session.afterOn, List.foldl_append]

/-- A write that fails, on whatever device. If it opens no file, nothing has changed. If it opens one,
then the registers and all other files are as they were, and there are two ways: a listed position is
not in the storage, and the file is empty and read as such until it is opened to be written again; or
the device refuses bytes of the text, and until then the file holds the kept ones. In every file that is
not opened there is still the matrix that was last written to it. -/
theorem failed_write_cases {e : Failure}
    (h : (s.step (.writeFile register path) device).result = .error e) :
    let s' := (s.step (.writeFile register path) device).session
    ((∀ file, ¬ s.Opens file (.writeFile register path) device) → s' = s) ∧
    (∀ file, s.Opens file (.writeFile register path) device → ∃ m, s.register? register = some m ∧
      s'.registers = s.registers ∧
        (∀ other, other ≠ file → s'.files.get? other = s.files.get? other) ∧
          ((∃ fault i j, e = .fault fault ∧ m.matrix.Lacks fault i j ∧
              ∀ steps, Spares file s' steps → (s'.afterOn steps).files.get? file = some [] ∧
                ∀ path', s.files.resolve path' = .ok file → ∀ t,
                  (s'.afterOn steps).buildFrom t (.file path') = .error (.load .empty)) ∨
            ∃ a ∈ device.allowances, ∃ text kept error, m.matrix.toCsv = .ok text ∧
              e = .load error ∧ Csv.Stops (Utf8.encode text) kept a.fault error ∧
                ∀ steps, Spares file s' steps → (s'.afterOn steps).files.get? file = some kept)) ∧
    ∀ file m, s.LastWritten file m → m.matrix.frame.Listed →
      ¬ s.Opens file (.writeFile register path) device →
        ∀ steps, Spares file s' steps → (s'.afterOn steps).Stores file m.matrix := by
  intro s'
  refine ⟨fun hnone => ?_, fun file hopens => ?_, fun file m hm hl hother steps hsteps => ?_⟩
  · obtain ⟨-, -, hs⟩ | ⟨m, file, hm, hopen, -⟩ := step_writeFile_cases s register path device
    · exact hs
    · exact absurd ⟨register, path, rfl, Option.isSome_iff_exists.2 ⟨m, hm⟩, hopen⟩ (hnone file)
  · obtain ⟨hnone, -, -⟩ | ⟨m, file', hm, hopen, hends⟩ := step_writeFile_cases s register path device
    · exact absurd hopens (hnone file)
    obtain ⟨register', path', hstep, -, hopen'⟩ := hopens
    cases hstep
    cases hopen.symm.trans hopen'
    obtain ⟨bytes, hs⟩ := hends.exists_session
    have hs : s' = s.setFile file bytes := hs
    refine ⟨m, hm, by rw [hs]; rfl, fun other hne => by rw [hs, get?_setFile, if_neg hne], ?_⟩
    have hkept {bytes' : List UInt8} (hs' : s' = s.setFile file bytes') (steps)
        (hsteps : Spares file s' steps) : (s'.afterOn steps).files.get? file = some bytes' := by
      rw [get?_afterOn hsteps, hs', get?_setFile, if_pos rfl]
    cases hends with
    | complete _ hresult _ => cases hresult.symm.trans h
    | @stopped fault htext hresult hs' =>
      obtain ⟨i, j, hlacks⟩ := Matrix.exists_lacks_of_toCsv htext
      refine .inl ⟨fault, i, j, Except.error.inj (h.symm.trans hresult), hlacks,
        fun steps hsteps => ⟨hkept hs' steps hsteps, fun path' hpath' t => ?_⟩⟩
      exact (buildFrom_file (Files.resolve_eq_ok _ hpath') (hkept hs' steps hsteps) t).trans rfl
    | @refused text kept a error htext ha hstops hresult hs' =>
      exact .inr ⟨a, ha, text, kept, error, htext, Except.error.inj (h.symm.trans hresult), hstops,
        hkept hs'⟩
  · have hall : Spares file s ((.writeFile register path, device) :: steps) := ⟨hother, hsteps⟩
    exact (hm.afterOn hall).stores hl

def shortProgram : List Step :=
  [.build ⟨.double, .dynamic, ⟨[.identity], [.double]⟩⟩ (.storage [[.decimal 7 0]]) "a",
    .writeFile "a" "m.csv",
    .build ⟨.double, .dynamic, ⟨[.identity], [.double, .double]⟩⟩ (.storage [[.decimal 7 0]]) "b"]

/-- A write of the other matrix to the file, one to a directory that does not exist, and one whose device
keeps a single byte at first; then all bytes are behind it. -/
theorem failed_write_cases_of_short :
    let s := empty.after shortProgram
    let full : Device := ⟨none, [⟨1, .device "No space left on device (os error 28)"⟩]⟩
    let stopped := s.step (.writeFile "b" "m.csv")
    let unopened := s.step (.writeFile "b" "none/m.csv")
    let refused := s.step (.writeFile "a" "m.csv") full
    let t : MatrixType := ⟨.double, .dynamic, ⟨[.identity], [.double]⟩⟩
    stopped.result = .error (.fault (.outside 0 1 1 1)) ∧
      stopped.session.buildFrom t (.file "m.csv") = .error (.load .empty) ∧
        unopened.result = .error (.load (.file .missing)) ∧ unopened.session = s ∧
          (∃ m found : Matrix .double, s.register? "a" = some ⟨_, m⟩ ∧
            unopened.session.buildFrom t (.file "m.csv") = .ok found ∧
              found.rawRows = m.rawRows) ∧
          refused.result = .error (.load (.file (.device "No space left on device (os error 28)"))) ∧
            refused.session.registers = s.registers ∧
              refused.session.files.get? "m.csv" = some (Utf8.encode "77.0\n".toList) := by
  intro s full stopped unopened refused t
  have hstopped : stopped.result = .error (.fault (.outside 0 1 1 1)) := rfl
  have hunopened : unopened.result = .error (.load (.file .missing)) := rfl
  have hrefused : refused.result =
      .error (.load (.file (.device "No space left on device (os error 28)"))) :=
    failure?_eq_some_iff.1 (by decide +kernel)
  obtain ⟨-, hstops, -⟩ := failed_write_cases hstopped
  obtain ⟨m, -, -, -, ⟨fault, i, j, -, -, hread⟩ | ⟨a, ha, -⟩⟩ :=
    hstops "m.csv" ⟨"b", "m.csv", rfl, rfl, rfl⟩
  case inr => cases ha
  have hnone : ∀ file, ¬ s.Opens file (.writeFile "b" "none/m.csv") .sound := by
    rintro file ⟨register, path, hstep, -, hopen⟩
    cases hstep
    cases hopen
  obtain ⟨hsame, -, hkept⟩ := failed_write_cases hunopened
  obtain ⟨-, -, hregisters, -⟩ := (failed_write_cases hrefused).2.1 "m.csv" ⟨"a", "m.csv", rfl, rfl, rfl⟩
  obtain ⟨m, hregister, hframe, hlast⟩ : ∃ m : Matrix .double, s.register? "a" = some ⟨_, m⟩ ∧
      m.frame = t.frame ∧ s.LastWritten "m.csv" ⟨_, m⟩ := by
    refine ⟨_, rfl, rfl, empty.after (shortProgram.take 1), "a", "m.csv", .sound, _,
      [(shortProgram[2], .sound)], rfl, rfl, rfl, ⟨?_, trivial⟩, rfl⟩
    rintro ⟨_, _, h, -⟩
    cases h
  have hlisted : m.frame.Listed := by
    rw [hframe]
    exact ⟨⟨le_rfl, by decide⟩, le_rfl, by decide⟩
  obtain ⟨found, hfound, -, hrows, -⟩ := hkept "m.csv" _ hlast hlisted (hnone "m.csv") [] trivial
    "m.csv" .dynamic rfl trivial
  rw [hframe] at hfound
  exact ⟨hstopped, (hread [] trivial).2 "m.csv" rfl t, hunopened, hsame hnone,
    ⟨m, found, hregister, hfound, hrows⟩, hrefused, by simpa only [refused] using hregisters, by decide +kernel⟩

/-- The write that stops is a write that fails, and the file does not stay as it was. -/
theorem not_forall_failed_write_leaves_files :
    ¬ ∀ (program : List Step) (register path file : String) (bytes : List UInt8) (e : Failure),
      let s := empty.after program
      (s.step (.writeFile register path)).result = .error e → s.files.get? file = some bytes →
        (s.step (.writeFile register path)).session.files.get? file = some bytes := by
  intro h
  have hbytes := h shortProgram "b" "m.csv" "m.csv" (Utf8.encode "7.0\n".toList) _ rfl
    (by decide +kernel)
  revert hbytes
  decide +kernel

end Session

end UnitMatrix
