import UnitMatrix.Grid.Slice
import UnitMatrix.Matrix.Algebra

/-! Programs over bare arrays of any shape, without units, and over views of them. -/

namespace UnitMatrix

inductive ViewAction (α : Type) where
  | element (i j : Nat)
  | set (i j : Nat) (value : α)
  | scale (factor : α)
  | divideBy (divisor : α)
  | transpose (target : String)
  | divide (divisor target : String)

inductive ArrayStep (α : Type) where
  /-- The column count is for an array without rows. -/
  | rows (columns : Nat) (rows : List (List α)) (target : String)
  | zeros (rows columns : Nat) (target : String)
  | scalar (value : α) (target : String)
  | element (array : String) (i j : Nat)
  | set (array : String) (i j : Nat) (value : α) (target : String)
  | mul (left right target : String)
  | transpose (array target : String)
  | divide (dividend divisor target : String)
  | scale (array : String) (factor : α) (target : String)
  | divideBy (array : String) (divisor : α) (target : String)
  | view (array : String) (rows columns : Slice) (action : ViewAction α)

inductive ArrayAnswer (α : Type) where
  | number (value : α)
  | array (array : Grid α)

/-- The arrays by name, the latest first. -/
abbrev Arrays (α : Type) := List (String × Grid α)

structure ArrayResponse (α : Type) where
  result : Outcome (ArrayAnswer α)
  log : List LogRecord
  arrays : Arrays α

namespace Arrays

variable {α : Type}

def get (s : Arrays α) (name : String) : Outcome (Grid α) :=
  demand (s.lookup name)

def reply (s : Arrays α) (result : Outcome α) : ArrayResponse α :=
  ⟨result.map .number, [], s⟩

def keep (s : Arrays α) (target : String) (result : Outcome (Grid α × Option LogRecord)) :
    ArrayResponse α :=
  match result with
  | .ok (array, record?) => ⟨.ok (.array array), record?.toList, (target, array) :: s⟩
  | .error failure => ⟨.error failure, [], s⟩

variable [Arithmetic α] [RootField α]

def quotient (dividend divisor : Grid α) : Outcome (Grid α × Option LogRecord) := do
  let q ← Backend.dynamic.div dividend divisor
  .ok (q.grid, LogRecord.ofRank? q.rank divisor.rows divisor.columns)

def act (s : Arrays α) (name : String) (v : View α) : ViewAction α → ArrayResponse α
  | .element i j => s.reply (v.get i j)
  | .set i j value => s.keep name ((v.set i j value : Outcome _).map (·, none))
  | .scale factor => s.keep name ((v.scale factor : Outcome _).map (·, none))
  | .divideBy divisor => s.keep name ((v.divideBy divisor : Outcome _).map (·, none))
  | .transpose target => s.keep target ((v.transpose : Outcome _).map (·, none))
  | .divide divisor target => s.keep target do
    let divisor ← s.get divisor
    let dividend ← v.copy
    quotient dividend divisor

def step (s : Arrays α) : ArrayStep α → ArrayResponse α
  | .rows columns rows target => s.keep target
    ((demand (Grid.ofRows? (rows.head?.elim columns List.length) rows)).map (·, none))
  | .zeros rows columns target =>
    s.keep target (.ok (.replicate rows columns Arithmetic.zero, none))
  | .scalar value target => s.keep target (.ok (Backend.dynamic.scalar value, none))
  | .element array i j => s.reply do
    let g ← s.get array
    Backend.dynamic.get g i j
  | .set array i j value target => s.keep target do
    let g ← s.get array
    let g ← Backend.dynamic.set g i j value
    .ok (g, none)
  | .mul left right target => s.keep target do
    let a ← s.get left
    let b ← s.get right
    let g ← Backend.dynamic.mul a b
    .ok (g, none)
  | .transpose array target => s.keep target do
    let g ← s.get array
    .ok (Backend.dynamic.transpose g, none)
  | .divide dividend divisor target => s.keep target do
    let a ← s.get dividend
    let b ← s.get divisor
    quotient a b
  | .scale array factor target => s.keep target do
    let g ← s.get array
    let g ← Backend.dynamic.scale g factor
    .ok (g, none)
  | .divideBy array divisor target => s.keep target do
    let g ← s.get array
    let g ← Backend.dynamic.divideBy g divisor
    .ok (g, none)
  | .view array rows columns action =>
    match s.get array with
    | .ok g => s.act array (.ofSlices g rows columns) action
    | .error failure => ⟨.error failure, [], s⟩

def run (s : Arrays α) : List (ArrayStep α) → List (ArrayResponse α)
  | [] => []
  | step :: steps =>
    let r := s.step step
    r :: Arrays.run r.arrays steps

end Arrays

end UnitMatrix
