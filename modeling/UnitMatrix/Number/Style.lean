import UnitMatrix.Number.Decimal

/-! How numbers are written. A style says which powers of ten are written out, whether a whole
number keeps a point, and what an exponent looks like; the digits are always the fewest that read
back. A fixed number of places is written from the exact value. -/

namespace UnitMatrix

structure NumberStyle where
  /-- Powers of ten of the leading digit that are written without an exponent; all if `none`. -/
  positional : Option (Int × Int)
  /-- Whole numbers end in `.0` when they have no exponent. -/
  keepsPoint : Bool
  /-- Positive exponents have a sign. -/
  signsExponent : Bool
  tie : Tie

namespace NumberStyle

def zeros (n : Nat) : List Char := List.replicate n '0'

def positionalText (keepsPoint : Bool) (d : Decimal) : List Char :=
  if d.point ≤ 0 then
    '0' :: '.' :: (zeros (-d.point).toNat ++ d.digits)
  else if d.digits.length ≤ d.point then
    d.digits ++ zeros (d.point.toNat - d.digits.length) ++ if keepsPoint then ['.', '0'] else []
  else
    d.digits.take d.point.toNat ++ '.' :: d.digits.drop d.point.toNat

def scientificText (signsExponent : Bool) (d : Decimal) : List Char :=
  let power := d.point - 1
  d.digits.take 1 ++ (if d.digits.length ≤ 1 then [] else '.' :: d.digits.drop 1) ++
    'e' :: ((if power < 0 then ['-'] else if signsExponent then ['+'] else []) ++
      Nat.toDigits 10 power.natAbs)

def isPositional (s : NumberStyle) (d : Decimal) : Bool :=
  match s.positional with
  | none => true
  | some (low, high) => low ≤ d.point - 1 && d.point - 1 ≤ high

def magnitudeText (s : NumberStyle) (f : Binary) (magnitude : Nat) : List Char :=
  let d := if magnitude = 0 then ⟨['0'], 1⟩ else f.shortest s.tie magnitude
  if s.isPositional d then positionalText s.keepsPoint d else scientificText s.signsExponent d

end NumberStyle

/-- A finite magnitude with `places` digits after the point. Its expansion ends with the places of
the unit, from where on there are zeros only. -/
def fixedText (f : Binary) (magnitude places : Nat) : List Char :=
  let shown := min places f.unitExponent
  let digits := Nat.toDigits 10 (f.fixed magnitude shown)
  let padded := NumberStyle.zeros (shown + 1 - digits.length) ++ digits
  let whole := padded.take (padded.length - shown)
  if places = 0 then whole
  else
    whole ++ '.' :: (padded.drop (padded.length - shown) ++ NumberStyle.zeros (places - shown))

namespace Binary

variable (f : Binary)

def isNegative (bits : Nat) : Bool := f.signBit ≤ bits

def magnitude (bits : Nat) : Nat := bits % f.signBit

def isNaN (bits : Nat) : Bool := f.infinity < f.magnitude bits

def isFinite (bits : Nat) : Bool := f.magnitude bits < f.infinity

def withSign (negative : Bool) (magnitude : Nat) : Nat :=
  if negative then f.signBit + magnitude else magnitude

end Binary

/-- Any number: not a number has no sign, infinity has one. -/
def NumberStyle.text (s : NumberStyle) (f : Binary) (bits : Nat) : List Char :=
  if f.isNaN bits then ['N', 'a', 'N']
  else
    (if f.isNegative bits then ['-'] else []) ++
      if f.isFinite bits then s.magnitudeText f (f.magnitude bits) else ['i', 'n', 'f']

end UnitMatrix
