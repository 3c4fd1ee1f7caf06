import UnitMatrix.Number.Raw

/-! Rows of numbers as JSON text, without white space. What is not a finite number is `null`. -/

namespace UnitMatrix

namespace Json

/-- A number has at least one decimal, and an exponent where many zeros would stand. -/
def style (f : Binary) : NumberStyle where
  positional := some (if f.precision ≤ 24 then (-6, 12) else (-5, 15))
  keepsPoint := true
  signsExponent := true
  tie := .even

/-- Whether a number is finite; integers are. -/
def isFinite : (k : Raw) → k.Carrier → Bool
  | .double, x => Binary.binary64.isFinite (Floating.toBits x)
  | .single, x => Binary.binary32.isFinite (Floating.toBits x)
  | _, _ => true

def numberText (k : Raw) (x : k.Carrier) : List Char :=
  if isFinite k x then k.text style x else ['n', 'u', 'l', 'l']

def listText (elements : List (List Char)) : List Char :=
  '[' :: List.intercalate [','] elements ++ [']']

def text (k : Raw) (rows : List (List k.Carrier)) : List Char :=
  listText (rows.map fun row => listText (row.map (numberText k)))

end Json

end UnitMatrix
