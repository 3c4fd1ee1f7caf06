import UnitMatrix.Matrix.Build
import UnitMatrix.Symbol

/-! The printed form of matrices: the texts of the elements, each a number and its unit, and the
brackets around them, of which there are none, one pair, or one for each row and one outside. The
units are those of the frame, whatever the numbers. -/

namespace UnitMatrix

/-- Numbers for reading: never an exponent, no point in whole numbers. -/
def displayStyle : NumberStyle := ⟨none, false, false, .up⟩

/-- Numbers as they are in storage: always a point or an exponent. -/
def debugStyle : NumberStyle := ⟨some (-4, 15), true, false, .up⟩

def displayMagnitude (f : Binary) (precision : Option Nat) (bits : Nat) : List Char :=
  if f.isNaN bits then ['N', 'a', 'N']
  else if !f.isFinite bits then ['i', 'n', 'f']
  else match precision with
    | none => displayStyle.magnitudeText f (f.magnitude bits)
    | some places => fixedText f (f.magnitude bits) places

/-- What is not a number has no sign. -/
def showsMinus (f : Binary) (bits : Nat) : Bool :=
  f.isNegative bits && !f.isNaN bits

def displayNumber (f : Binary) (precision : Option Nat) (bits : Nat) : List Char :=
  (if showsMinus f bits then ['-'] else []) ++ displayMagnitude f precision bits

def Raw.display (precision : Option Nat) : (k : Raw) → k.Carrier → List Char
  | .double, x => displayNumber .binary64 precision (Floating.toBits x)
  | .single, x => displayNumber .binary32 precision (Floating.toBits x)
  | .signed, x => Raw.text.integerText x.val
  | .byte, x => Raw.text.integerText x.val

/-- Widths and precisions have sixteen bits. -/
def checkFormat (size : Nat) : Except Fault Unit :=
  if size < Nat.pow 2 16 then .ok () else .error .formatRange

def checkPrecision (precision : Option Nat) : Except Fault Unit :=
  checkFormat (precision.getD 0)

def Index.cellText (e : Index) (k : Raw) (precision : Option Nat) (x : k.Carrier) :
    Except Fault String := do
  checkPrecision precision
  let unit ← e.unitText
  .ok (String.ofList (k.display precision x ++ unit))

namespace Matrix

variable {k : Raw}

def cellTexts (m : Matrix k) (grid : List IndexList) (precision : Option Nat) :
    Except Fault (List (List String)) :=
  grid.zipIdx.mapM fun r => r.1.zipIdx.mapM fun c => do
    let x ← m.backend.get m.storage r.2 c.2
    c.1.cellText k precision x

def cells (m : Matrix k) (precision : Option Nat) : Outcome (List (List String)) := do
  require (m.frame.HeldBy k)
  let grid ← demand m.frame.grid?
  m.cellTexts grid precision

def bracketed (texts : List String) : String :=
  "[" ++ String.intercalate ", " texts ++ "]"

def layout (f : Frame) (cells : List (List String)) : String :=
  match cells with
  | [row] => if f.isColumn then String.join row else bracketed row
  | rows => bracketed (rows.map bracketed)

/-- The printed form. A precision out of range is a fault before any cell is read. -/
def display (m : Matrix k) (precision : Option Nat) : Outcome String := do
  require (m.frame.HeldBy k)
  checkPrecision precision
  let cells ← m.cells precision
  .ok (layout m.frame cells)

def debug (m : Matrix k) : String :=
  let rows := m.storage.entries.map fun row =>
    bracketed (row.map fun x => String.ofList (k.text (fun _ => debugStyle) x))
  s!"TypedMatrix \x7b storage: Mat \x7b data: {bracketed rows} \x7d \x7d"

end Matrix

end UnitMatrix
