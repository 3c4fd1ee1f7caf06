import UnitMatrix.Fault

/-! The numbers that storage holds. Floats compute without faults; integers lie in a range that is
part of their type, and an operation whose exact result lies outside it is a fault. -/

namespace UnitMatrix

class Arithmetic (α : Type) where
  zero : α
  one : α
  add : α → α → Except Fault α
  sub : α → α → Except Fault α
  mul : α → α → Except Fault α
  div : α → α → Except Fault α

instance : Arithmetic Float where
  zero := 0
  one := 1
  add a b := .ok (a + b)
  sub a b := .ok (a - b)
  mul a b := .ok (a * b)
  div a b := .ok (a / b)

instance : Arithmetic Float32 where
  zero := 0
  one := 1
  add a b := .ok (a + b)
  sub a b := .ok (a - b)
  mul a b := .ok (a * b)
  div a b := .ok (a / b)

structure Ranged (lo hi : Int) where
  val : Int
  lo_le : lo ≤ val
  le_hi : val ≤ hi
  deriving DecidableEq

namespace Ranged

variable {lo hi : Int}

def ofInt? (n : Int) : Option (Ranged lo hi) :=
  if h : lo ≤ n ∧ n ≤ hi then some ⟨n, h.1, h.2⟩ else none

@[ext] theorem ext {a b : Ranged lo hi} (h : a.val = b.val) : a = b := by
  cases a; cases b; cases h; rfl

@[simp] theorem ofInt?_val (a : Ranged lo hi) : ofInt? a.val = some a :=
  dif_pos ⟨a.lo_le, a.le_hi⟩

/-- The exact result `n` of `operation`, if it is in range. -/
def checked (operation : Operation) (n : Int) : Except Fault (Ranged lo hi) :=
  match ofInt? n with
  | some x => .ok x
  | none => .error (.overflow operation)

/-- The quotient is cut off toward zero. -/
def divide (a b : Ranged lo hi) : Except Fault (Ranged lo hi) :=
  if b.val = 0 then .error .zeroDivisor else checked .divide (a.val.tdiv b.val)

@[reducible] def arithmetic (h : lo ≤ 0 ∧ 1 ≤ hi) : Arithmetic (Ranged lo hi) where
  zero := ⟨0, h.1, by omega⟩
  one := ⟨1, by omega, h.2⟩
  add a b := checked .add (a.val + b.val)
  sub a b := checked .subtract (a.val - b.val)
  mul a b := checked .multiply (a.val * b.val)
  div := divide

end Ranged

abbrev Signed64 := Ranged (-9223372036854775808) 9223372036854775807

abbrev Byte := Ranged 0 255

instance : Arithmetic Signed64 := Ranged.arithmetic (by decide)

instance : Arithmetic Byte := Ranged.arithmetic (by decide)

end UnitMatrix
