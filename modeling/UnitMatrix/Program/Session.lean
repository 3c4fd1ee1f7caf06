import UnitMatrix.Csv.Sink
import UnitMatrix.Csv.Writer
import UnitMatrix.Json.Writer
import UnitMatrix.Program.Step

/-! Running programs. A session holds registers and files. A step that fails leaves the registers as
they were; a file is made empty before the matrix is read for it, so there a failing step can leave
its trace. -/

namespace UnitMatrix

namespace Matrix

variable {k : Raw}

/-- The listed part as comma separated text. -/
def toCsv (m : Matrix k) : Except Fault (List Char) :=
  m.rawRows.map (Csv.text k)

def toJson (m : Matrix k) : Except Fault (List Char) :=
  m.rawRows.map (Json.text k)

def answer (m : Matrix k) : Query → Outcome Answer
  | .element place => do
    let (e, x) ← m.read place
    .ok (.element e k x)
  | .number i j => do
    let x ← m.rawGet i j
    .ok (.number k x)
  | .display precision => do
    let text ← m.display precision
    .ok (.text text)
  | .cells precision => do
    let texts ← m.cells precision
    .ok (.cells texts)
  | .table => do
    let text ← m.table
    .ok (.text text)
  | .debug => .ok (.text m.debug)
  | .rawRows => do
    let rows ← m.rawRows
    .ok (.rows k rows)
  | .storage => .ok (.rows k m.storage.entries)
  | .csv => do
    let text ← m.toCsv
    .ok (.text (String.ofList text))
  | .json => do
    let text ← m.toJson
    .ok (.text (String.ofList text))
  | .shape =>
    .ok (.shape (m.frame.rows.length, m.frame.columns.length) (m.storage.rows, m.storage.columns))
  | .classify => .ok (.classes (.ofFrame m.frame))
  | .traits => .ok (.traits (.ofFrame m.frame) m.frame.uniform?)

def update (m : Matrix k) : Update → Outcome (Matrix k)
  | .write place value => m.write place (value.toRaw k)
  | .increase place value => m.increase place (value.toRaw k)
  | .rawWrite i j value => m.rawSet i j (value.toRaw k)
  | .rawScale value => m.rawScale (value.toRaw k)
  | .rawDivide value => m.rawDivide (value.toRaw k)
  | .scale e value => m.scale e (value.toRaw k)
  | .scaleUniform e value => m.scaleUniform e (value.toRaw k)

def transform (m : Matrix k) : Transform → Outcome (Matrix k × Option LogRecord)
  | .transpose => .ok (m.transpose, none)
  | .mulScalar e value => (m.mulScalar e (value.toRaw k)).map (·, none)
  | .scalarMul e value => (scalarMul e (value.toRaw k) m).map (·, none)
  | .divScalar e value => (m.divScalar e (value.toRaw k)).map (·, none)
  | .scalarDiv e value => scalarDiv e (value.toRaw k) m

def combine (a b : Matrix k) : Combination → Outcome (Matrix k × Option LogRecord)
  | .add => (a.add b).map (·, none)
  | .sub => (a.sub b).map (·, none)
  | .mul => (a.mul b).map (·, none)
  | .div => a.div b

def display? (m : Matrix k) : Outcome (Option String) :=
  match m.display none with
  | .ok text => .ok (some text)
  | .error .illTyped => .ok none
  | .error failure => .error failure

end Matrix

structure Session where
  registers : List (String × AnyMatrix)
  files : Files

namespace Session

def empty : Session := ⟨[], .empty⟩

def register? (s : Session) (name : String) : Option AnyMatrix := s.registers.lookup name

def setRegister (s : Session) (name : String) (m : AnyMatrix) : Session :=
  { s with registers := (name, m) :: s.registers }

def setFile (s : Session) (name : String) (content : List UInt8) : Session :=
  { s with files := s.files.put name content }

/-- The kinds of numbers that `a` and `b` hold must be the same. -/
def pair? (s : Session) (a b : String) : Option ((k : Raw) × Matrix k × Matrix k) := do
  let x ← s.register? a
  let y ← s.register? b
  let y ← y.as? x.raw
  some ⟨x.raw, x.matrix, y⟩

def buildFrom (s : Session) (t : MatrixType) : Source → Outcome (Matrix t.raw)
  | .zeros => t.zeros
  | .identity => t.identity
  | .storage rows => t.ofStorage (rows.map (·.map (·.toRaw t.raw)))
  | .rawRows rows => t.ofRawRows (rows.map (·.map (·.toRaw t.raw)))
  | .fixedRows rows => t.ofFixedRows (rows.map (·.map (·.toRaw t.raw)))
  | .rows rows => t.ofRows (rows.map (·.map (·.toRaw t.raw)))
  | .array values => t.ofArray (values.map (·.toRaw t.raw))
  | .values values => t.ofValues (values.map (·.toRaw t.raw))
  | .value value => t.ofValue (value.toRaw t.raw)
  | .csv bytes => t.ofCsv bytes
  | .file name =>
    match s.files.read name with
    | .ok bytes => t.ofCsv bytes
    | .error fault => .error (.load (.ofReading fault))
  | .json text => t.ofJson .once text.toList
  | .compatible name => do
    let other ← demand (s.register? name)
    let other ← demand (other.as? t.raw)
    t.ofCompatible other

/-- The records of a step, whether it succeeds or not. -/
def sourceLog (t : MatrixType) : Source → List LogRecord
  | .file name => [.reading t.frame.rows.length t.frame.columns.length name]
  | _ => []

end Session

structure Response where
  result : Outcome Answer
  log : List LogRecord
  session : Session

namespace Session

/-- The answer of a question, which changes nothing. -/
def reply (s : Session) (result : Outcome Answer) : Response := ⟨result, [], s⟩

def store (s : Session) (target : String) {k : Raw} (showsText : Bool)
    (result : Outcome (Matrix k × Option LogRecord)) : Response :=
  let shown := do
    let (m, record?) ← result
    let text ← if showsText then m.display? else .ok none
    return (m, record?, text)
  match shown with
  | .ok (m, record?, text) =>
    let m : AnyMatrix := ⟨k, m⟩
    ⟨.ok (.matrix m text), record?.toList, s.setRegister target m⟩
  | .error failure =>
    ⟨.error failure, match result with
      | .ok (_, record?) => record?.toList
      | .error _ => [], s⟩

/-- The file is empty before the matrix is read, and written at the end as far as the device goes. -/
def writeFile (s : Session) (name : String) {k : Raw} (m : Matrix k)
    (device : Device := .sound) : Response :=
  let log : List LogRecord := [.writing m.frame.rows.length m.frame.columns.length name]
  match device.openFile s.files name with
  | .error fault => ⟨.error (.load (.file fault)), log, s⟩
  | .ok file =>
    match m.toCsv with
    | .error fault => ⟨.error (.fault fault), log, s.setFile file []⟩
    | .ok text =>
      match Csv.deliver device.allowances (Utf8.encode text) with
      | (kept, none) => ⟨.ok (.text (String.ofList text)), log, s.setFile file kept⟩
      | (kept, some error) => ⟨.error (.load error), log, s.setFile file kept⟩

/-- One step. Only writing files depends on the device. -/
def step (s : Session) (step : Step) (device : Device := .sound) : Response :=
  match step with
  | .build type source target =>
    if type.frame.Valid then
      let r := s.store target false ((s.buildFrom type source).map (·, none))
      { r with log := sourceLog type source ++ r.log }
    else s.reply (.error .illTyped)
  | .query register query =>
    match s.register? register with
    | some m => s.reply (m.matrix.answer query)
    | none => s.reply (.error .illTyped)
  | .update register update target =>
    match s.register? register with
    | some m => s.store target false ((m.matrix.update update).map (·, none))
    | none => s.reply (.error .illTyped)
  | .transform register transform target showsText =>
    match s.register? register with
    | some m => s.store target showsText (m.matrix.transform transform)
    | none => s.reply (.error .illTyped)
  | .combine left right operation target showsText =>
    match s.pair? left right with
    | some ⟨_, a, b⟩ => s.store target showsText (a.combine b operation)
    | none => s.reply (.error .illTyped)
  | .assign left right target =>
    match s.pair? left right with
    | some ⟨_, a, b⟩ => s.store target false ((a.type.ofCompatible b).map (·, none))
    | none => s.reply (.error .illTyped)
  | .compare left right comparison =>
    match comparison with
    | .equal =>
      match s.pair? left right with
      | some ⟨_, a, b⟩ => s.reply ((a.eq b).map .truth)
      | none => s.reply (.error .illTyped)
    | .sameShape =>
      match s.register? left, s.register? right with
      | some a, some b => s.reply (.ok (.truth (a.matrix.frame.sameShape b.matrix.frame)))
      | _, _ => s.reply (.error .illTyped)
  | .writeFile register name =>
    match s.register? register with
    | some m => s.writeFile name m.matrix device
    | none => s.reply (.error .illTyped)

def run (s : Session) : List Step → List Response
  | [] => []
  | step :: steps =>
    let r := s.step step
    r :: r.session.run steps

end Session

end UnitMatrix
