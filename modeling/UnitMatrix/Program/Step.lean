import UnitMatrix.Display.Table
import UnitMatrix.Matrix.Access
import UnitMatrix.Matrix.Algebra

/-! The steps of a program over named registers and files. Numbers are literals, for their kind is
that of the register they meet. -/

namespace UnitMatrix

inductive Source where
  | zeros
  | identity
  | storage (rows : List (List Literal))
  | rawRows (rows : List (List Literal))
  | fixedRows (rows : List (List Literal))
  | rows (rows : List (List Literal))
  | array (values : List Literal)
  | values (values : List Literal)
  | value (value : Literal)
  | csv (bytes : List UInt8)
  | file (name : String)
  | json (text : String)
  | compatible (register : String)

inductive Query where
  | element (place : Place)
  | number (i j : Nat)
  | display (precision : Option Nat)
  | cells (precision : Option Nat)
  | table
  | debug
  | rawRows
  | storage
  | csv
  | json
  | shape
  | classify
  | traits

inductive Update where
  | write (place : Place) (value : Literal)
  | increase (place : Place) (value : Literal)
  | rawWrite (i j : Nat) (value : Literal)
  | rawScale (value : Literal)
  | rawDivide (value : Literal)
  | scale (k : Index) (value : Literal)
  | scaleUniform (k : Index) (value : Literal)

inductive Transform where
  | transpose
  | mulScalar (k : Index) (value : Literal)
  | scalarMul (k : Index) (value : Literal)
  | divScalar (k : Index) (value : Literal)
  | scalarDiv (k : Index) (value : Literal)

inductive Combination where
  | add
  | sub
  | mul
  | div

inductive Comparison where
  | equal
  | sameShape

inductive Step where
  | build (type : MatrixType) (source : Source) (target : String)
  | query (register : String) (query : Query)
  | update (register : String) (update : Update) (target : String)
  | transform (register : String) (transform : Transform) (target : String) (showsText : Bool)
  | combine (left right : String) (operation : Combination) (target : String) (showsText : Bool)
  | assign (left right : String) (target : String)
  | compare (left right : String) (comparison : Comparison)
  | writeFile (register : String) (name : String)

structure Classes where
  row : Bool
  column : Bool
  vector : Bool
  singleton : Bool

def Classes.ofFrame (f : Frame) : Classes :=
  ⟨f.isRow, f.isColumn, f.isVector, f.isSingleton⟩

inductive Answer where
  | element (type : Index) (raw : Raw) (value : raw.Carrier)
  | number (raw : Raw) (value : raw.Carrier)
  | truth (value : Bool)
  | text (text : String)
  | cells (texts : List (List String))
  | rows (raw : Raw) (rows : List (List raw.Carrier))
  /-- The extents of the lists and of the storage. -/
  | shape (lists storage : Nat × Nat)
  | classes (classes : Classes)
  | traits (classes : Classes) (uniform : Option Index)
  | matrix (matrix : AnyMatrix) (text : Option String)

end UnitMatrix
