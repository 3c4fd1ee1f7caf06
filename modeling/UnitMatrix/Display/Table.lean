import UnitMatrix.Display.Cell

/-! Matrices as boxed tables, with row and column numbers. A column is as wide as its widest text
and a blank on both sides. -/

namespace UnitMatrix

namespace Table

def blanks (n : Nat) : String := String.ofList (List.replicate n ' ')

def fillLeft (width : Nat) (text : String) : String :=
  blanks (width - text.length) ++ text

def fillRight (width : Nat) (text : String) : String :=
  text ++ blanks (width - text.length)

/-- A spare blank goes to the left. -/
def center (width : Nat) (text : String) : String :=
  let spare := width - text.length
  blanks (spare - spare / 2) ++ text ++ blanks (spare / 2)

/-- The lines and corners of one horizontal rule. -/
structure Rule where
  left : String
  line : Char
  cross : String
  right : String

def Rule.text (r : Rule) (widths : List Nat) : String :=
  r.left ++ String.intercalate r.cross
    (widths.map fun w => String.ofList (List.replicate (w + 2) r.line)) ++ r.right

def top : Rule := ⟨"╭", '─', "┬", "╮"⟩
def underHeader : Rule := ⟨"╞", '═', "╪", "╡"⟩
def between : Rule := ⟨"├", '╌', "┼", "┤"⟩
def bottom : Rule := ⟨"╰", '─', "┴", "╯"⟩

/-- One line of texts that are already filled to their widths. -/
def line (texts : List String) : String :=
  "│" ++ String.intercalate "┆" (texts.map fun t => " " ++ t ++ " ") ++ "│"

def widths (rows : List (List String)) (count : Nat) : List Nat :=
  (List.range count).map fun j =>
    rows.foldl (fun w row => max w (row.getD j "").length) 0

/-- A table of texts; the columns are numbered from zero, and so are the rows. -/
def render (columns : Nat) (cells : List (List String)) : String :=
  let header := "" :: (List.range columns).map toString
  let rows := cells.mapIdx fun i row => toString i :: row
  let widths := widths (header :: rows) (columns + 1)
  let filled (first rest : Nat → String → String) (texts : List String) : String :=
    line ((widths.zip texts).mapIdx fun j p => if j = 0 then first p.1 p.2 else rest p.1 p.2)
  let body := List.intercalate [between.text widths]
    (rows.map fun row => [filled fillRight fillLeft row])
  String.intercalate "\n"
    ([top.text widths, filled fillRight center header, underHeader.text widths] ++ body ++
      [bottom.text widths])

end Table

def Matrix.table {k : Raw} (m : Matrix k) : Outcome String := do
  let cells ← m.cells none
  .ok (Table.render m.frame.columns.length cells)

end UnitMatrix
