/-! Index types and their arithmetic. The element at a row and a column is measured in the product
of the two index types, so every rule about units is a rule about `Index.mul?` and `Index.div?`.
Both are partial: numbers of different width do not mix, and exponents take part only within
`Index.Combinable`. Where they are defined, exponents add and subtract. -/

namespace UnitMatrix

/-- What a row or a column is measured in. -/
inductive Index where
  /-- Nothing at all, the neutral element. -/
  | identity
  /-- A plain number in double precision. -/
  | double
  /-- A plain number in single precision. -/
  | single
  /-- Metres to the power `length`, seconds to the power `time`. -/
  | quantity (length time : Int)
  deriving DecidableEq

namespace Index

/-- Exponents that take part in products and quotients of quantities. -/
def Combinable (length time : Int) : Prop :=
  (-8 ≤ length ∧ length ≤ 8) ∧ (-8 ≤ time ∧ time ≤ 8)

instance (length time : Int) : Decidable (Combinable length time) :=
  inferInstanceAs (Decidable (_ ∧ _))

def dimension : Index → Int × Int
  | .quantity length time => (length, time)
  | _ => (0, 0)

def mul? : Index → Index → Option Index
  | .identity, b => some b
  | a, .identity => some a
  | .double, .double => some .double
  | .single, .single => some .single
  | .double, .quantity l t => some (.quantity l t)
  | .quantity l t, .double => some (.quantity l t)
  | .quantity l t, .quantity l' t' =>
    if Combinable l t ∧ Combinable l' t' then some (.quantity (l + l') (t + t')) else none
  | _, _ => none

/-- Division of anything but the identity; the identity divides without effect. -/
def ratio? : Index → Index → Option Index
  | a, .identity => some a
  | .double, .double => some .double
  | .single, .single => some .single
  | .double, .quantity l t => if Combinable l t then some (.quantity (-l) (-t)) else none
  | .quantity l t, .double => some (.quantity l t)
  | .quantity l t, .quantity l' t' =>
    if Combinable l t ∧ Combinable l' t' then some (.quantity (l - l') (t - t')) else none
  | _, _ => none

/-- The identity has no division of its own, so `identity / b` is `(b / b) / b`. -/
def div? : Index → Index → Option Index
  | .identity, b => (ratio? b b).bind (ratio? · b)
  | a, b => ratio? a b

/-- Exponents are signed bytes. -/
def Valid : Index → Prop
  | .quantity l t => (-128 ≤ l ∧ l ≤ 127) ∧ (-128 ≤ t ∧ t ≤ 127)
  | _ => True

instance : (i : Index) → Decidable i.Valid
  | .identity => isTrue trivial
  | .double => isTrue trivial
  | .single => isTrue trivial
  | .quantity l t =>
    inferInstanceAs (Decidable ((-128 ≤ l ∧ l ≤ 127) ∧ (-128 ≤ t ∧ t ≤ 127)))

end Index

end UnitMatrix
