import UnitMatrix.Proofs.Csv.RoundTrip

/-! Files over whole programs. What is written to a file is there until the file is written again, and no
other step touches it; so a matrix that was written to a file can be read from it whenever that was the
last time that the file was written. -/

namespace UnitMatrix

namespace Files

variable {files : Files} {path file : String}

theorem resolve_eq_ok (files' : Files) (h : files.resolve path = .ok file) :
    files'.resolve path = .ok file := by
  unfold resolve at h ⊢
  dsimp only at h ⊢
  split
  next hnil =>
    rw [hnil] at h
    cases h
  next name names hnames =>
    rw [hnames] at h
    dsimp only at h
    split_ifs at h ⊢
    exact h

theorem get?_put (bytes : List UInt8) (name : String) :
    (files.put name bytes).get? file = if file = name then some bytes else files.get? file := by
  by_cases h : file = name
  · simp [get?, put, h]
  · simp [get?, put, h, List.lookup_cons, beq_false_of_ne h]

theorem read_eq_ok {bytes : List UInt8} (hpath : files.resolve path = .ok file)
    (hbytes : files.get? file = some bytes) : files.read path = .ok bytes := by
  simp [read, hpath, hbytes, bind, Except.bind]

end Files

def Step.Spares (files : Files) (file : String) (step : Step) : Prop :=
  ∀ register path, step = .writeFile register path → files.resolve path ≠ .ok file

theorem Step.Spares.mono {files files' : Files} {file : String} {step : Step}
    (h : step.Spares files file) : step.Spares files' file :=
  fun register path hstep hpath => h register path hstep (Files.resolve_eq_ok files hpath)

namespace Session

variable {s : Session} {path file : String}

theorem files_store (s : Session) (target : String) {k : Raw} (showsText : Bool)
    (result : Outcome (Matrix k × Option LogRecord)) :
    (s.store target showsText result).session.files = s.files := by
  unfold store
  dsimp only
  split <;> rfl

/-- Writing a file is the only step that touches files. -/
theorem files_step {step : Step} {device : Device}
    (h : ∀ register path, step ≠ .writeFile register path) :
    (s.step step device).session.files = s.files := by
  cases step with
  | writeFile register path => exact absurd rfl (h register path)
  | build type source target =>
    unfold Session.step
    dsimp only
    split
    next => exact files_store ..
    next => rfl
  | compare left right comparison =>
    unfold Session.step
    dsimp only
    split <;> split <;> rfl
  | _ =>
    unfold Session.step
    dsimp only
    split <;> first | rfl | exact files_store ..

theorem get?_writeFile {k : Raw} (m : Matrix k) (h : s.files.resolve path ≠ .ok file) :
    (s.writeFile path m).session.files.get? file = s.files.get? file := by
  unfold writeFile
  dsimp only
  split
  next => rfl
  next file' hfile' =>
    have hne : file ≠ file' := fun h' => h (h' ▸ hfile')
    split <;> exact (Files.get?_put _ _).trans (if_neg hne)

theorem get?_step {step : Step} (h : step.Spares s.files file) :
    (s.step step).session.files.get? file = s.files.get? file := by
  by_cases hwrite : ∃ register path, step = .writeFile register path
  · obtain ⟨register, path, rfl⟩ := hwrite
    unfold Session.step
    dsimp only
    split
    next m _ => exact get?_writeFile m.matrix (h register path rfl)
    next => rfl
  · rw [files_step fun register path hstep => hwrite ⟨register, path, hstep⟩]

theorem get?_after {steps : List Step} (h : ∀ step ∈ steps, step.Spares s.files file) :
    (s.after steps).files.get? file = s.files.get? file := by
  induction steps generalizing s with
  | nil => rfl
  | cons step steps ih =>
    simp only [List.forall_mem_cons] at h
    have hafter := ih (s := (s.step step).session) fun step' hstep' => (h.2 step' hstep').mono
    exact hafter.trans (get?_step h.1)

/-- A matrix in storage of the extent of its lists is read back from its comma separated text, and
from the file that it was written to, as long as no later step has written to this file. -/
theorem csv_round_trip {k : Raw} {m : Matrix k} (hm : m.Fits) :
    (∃ text, m.toCsv = .ok text ∧ m.type.ofCsv (Utf8.encode text) = .ok m) ∧
    ∀ (s : Session) (path file : String), s.files.resolve path = .ok file →
      (∃ text, (s.writeFile path m).result = .ok (.text text)) ∧
      ∀ steps, (∀ step ∈ steps, Step.Spares s.files file step) →
        ∀ path', s.files.resolve path' = .ok file →
          ((s.writeFile path m).session.after steps).buildFrom m.type (.file path') = .ok m := by
  obtain ⟨text, htext, hread⟩ := Matrix.ofCsv_toCsv hm
  refine ⟨⟨text, htext, hread⟩, fun s path file hpath => ?_⟩
  have hwrite : (s.writeFile path m).result = .ok (.text (String.ofList text)) ∧
      (s.writeFile path m).session.files = s.files.put file (Utf8.encode text) := by
    have hopen : Device.sound.openFile s.files path = .ok file := hpath
    simp only [writeFile, hopen, htext]
    exact ⟨rfl, rfl⟩
  refine ⟨⟨_, hwrite.1⟩, fun steps hsteps path' hpath' => ?_⟩
  -- paths lead to the same files before and after the steps
  have hbytes : ((s.writeFile path m).session.after steps).files.get? file =
      some (Utf8.encode text) := by
    rw [get?_after fun step hstep => (hsteps step hstep).mono, hwrite.2, Files.get?_put, if_pos rfl]
  have hfile := Files.read_eq_ok (Files.resolve_eq_ok _ hpath') hbytes
  unfold buildFrom
  dsimp only
  rw [hfile]
  exact hread

/-- Negative zero, infinity, what is not a number and the smallest positive number, read under another
path than the one they were written under, after another file was written. -/
theorem csv_round_trip_of_specials :
    let x : Nat → Raw.Carrier .single := Floating.ofBits
    let m : Matrix .single := ⟨.dynamic, ⟨[.identity, .identity], [.single, .single]⟩,
      ⟨2, [[x 0x80000000, x 0x7F800000], [x 0x7FC00000, x 1]], by decide⟩⟩
    let steps : List Step := [.build m.type .zeros "b", .writeFile "b" "other.csv"]
    m.Fits ∧ empty.files.resolve "m.csv" = .ok "m.csv" ∧
      (∀ step ∈ steps, step.Spares empty.files "m.csv") ∧
        empty.files.resolve "./m.csv" = .ok "m.csv" ∧
          ((empty.writeFile "m.csv" m).session.after steps).buildFrom m.type (.file "./m.csv") = .ok m := by
  intro x m steps
  have hm : m.Fits := ⟨⟨by decide, by decide⟩, rfl, rfl⟩
  have hpath : empty.files.resolve "m.csv" = .ok "m.csv" := by decide
  have hpath' : empty.files.resolve "./m.csv" = .ok "m.csv" := by decide
  have hsteps : ∀ step ∈ steps, step.Spares empty.files "m.csv" := by
    simp only [steps, List.forall_mem_cons]
    refine ⟨fun _ _ h => (by cases h), fun _ _ h => ?_, fun _ h => (by cases h)⟩
    cases h
    decide
  exact ⟨hm, hpath, hsteps, hpath',
    ((csv_round_trip hm).2 empty "m.csv" "m.csv" hpath).2 steps hsteps "./m.csv" hpath'⟩

end Session

end UnitMatrix
