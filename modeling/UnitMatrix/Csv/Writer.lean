import UnitMatrix.Number.Raw

/-! Rows of numbers as comma separated text: one line for each row, each ended by a line feed. -/

namespace UnitMatrix

namespace Csv

/-- A number has at least one decimal, and an exponent where many zeros would stand. -/
def style (f : Binary) : NumberStyle where
  positional := some (if f.precision ≤ 24 then (-6, 12) else (-5, 15))
  keepsPoint := true
  signsExponent := false
  tie := .even

def numberText (k : Raw) (x : k.Carrier) : List Char :=
  k.text style x

def rowText (k : Raw) (row : List k.Carrier) : List Char :=
  List.intercalate [','] (row.map (numberText k)) ++ ['\n']

def text (k : Raw) (rows : List (List k.Carrier)) : List Char :=
  rows.flatMap (rowText k)

end Csv

end UnitMatrix
