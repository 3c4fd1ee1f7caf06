import UnitMatrix.Number.Raw

/-! Numbers read from a whole text. Floats are decimal numbers with an optional fraction and
exponent, or the words for infinity and not a number in any case; whatever is out of range reads as
infinity. Integers are decimal, or hexadecimal after `0x`, and are refused out of range at the first
digit that leads there. -/

namespace UnitMatrix

inductive NumberFault where
  | emptyFloat
  | invalidFloat
  | emptyInteger
  | invalidDigit
  | tooLarge
  | tooSmall
  deriving DecidableEq

def NumberFault.message : NumberFault → String
  | .emptyFloat => "cannot parse float from empty string"
  | .invalidFloat => "invalid float literal"
  | .emptyInteger => "cannot parse integer from empty string"
  | .invalidDigit => "invalid digit found in string"
  | .tooLarge => "number too large to fit in target type"
  | .tooSmall => "number too small to fit in target type"

def digitValue (c : Char) : Nat := c.toNat - '0'.toNat

def digitsValue (digits : List Char) : Nat :=
  digits.foldl (fun n c => 10 * n + digitValue c) 0

def splitSign : List Char → Bool × List Char
  | '-' :: rest => (true, rest)
  | '+' :: rest => (false, rest)
  | rest => (false, rest)

/-- The value of an exponent part, `e` included; nothing at all is exponent zero. -/
def exponentValue? : List Char → Option Int
  | [] => some 0
  | c :: rest =>
    let (negative, digits) := splitSign rest
    if (c = 'e' ∨ c = 'E') ∧ digits ≠ [] ∧ digits.all Char.isDigit then
      some (if negative then -digitsValue digits else digitsValue digits)
    else none

def decimalMagnitude? (f : Binary) (text : List Char) : Option Nat :=
  let (whole, rest) := text.span Char.isDigit
  let (fraction, rest) := match rest with
    | '.' :: rest => rest.span Char.isDigit
    | rest => ([], rest)
  if whole = [] ∧ fraction = [] then none
  else (exponentValue? rest).map fun exponent =>
    f.ofDecimal (digitsValue (whole ++ fraction)) (exponent - fraction.length)

def readFloat (f : Binary) (text : List Char) : Except NumberFault Nat :=
  if text = [] then .error .emptyFloat
  else
    let (negative, unsigned) := splitSign text
    let word := String.ofList (unsigned.map Char.toLower)
    if word = "inf" ∨ word = "infinity" then .ok (f.withSign negative f.infinity)
    else if word = "nan" then .ok (f.withSign negative f.nan)
    else match decimalMagnitude? f unsigned with
      | some magnitude => .ok (f.withSign negative magnitude)
      | none => .error .invalidFloat

def radixDigit? (radix : Nat) (c : Char) : Option Nat :=
  let n :=
    if c.isDigit then some (c.toNat - '0'.toNat)
    else if 'a' ≤ c ∧ c ≤ 'z' then some (c.toNat - 'a'.toNat + 10)
    else if 'A' ≤ c ∧ c ≤ 'Z' then some (c.toNat - 'A'.toNat + 10)
    else none
  n.filter (· < radix)

/-- Digits read one by one, counting down after a minus. -/
def readDigits {lo hi : Int} (radix : Nat) (negative : Bool) :
    Ranged lo hi → List Char → Except NumberFault (Ranged lo hi)
  | value, [] => .ok value
  | value, c :: rest =>
    match radixDigit? radix c with
    | none => .error .invalidDigit
    | some d =>
      match Ranged.ofInt? (value.val * radix + if negative then -(d : Int) else d) with
      | none => .error (if negative then .tooSmall else .tooLarge)
      | some next => readDigits radix negative next rest

/-- A sign and digits; a minus counts as a digit where nothing is below zero. -/
def readRadix {lo hi : Int} (zero : Ranged lo hi) (radix : Nat) (text : List Char) :
    Except NumberFault (Ranged lo hi) :=
  match text with
  | [] => .error .emptyInteger
  | ['+'] => .error .invalidDigit
  | ['-'] => .error .invalidDigit
  | '+' :: digits => readDigits radix false zero digits
  | '-' :: digits =>
    if lo < 0 then readDigits radix true zero digits else .error .invalidDigit
  | digits => readDigits radix false zero digits

def readInteger {lo hi : Int} (zero : Ranged lo hi) (text : List Char) :
    Except NumberFault (Ranged lo hi) :=
  match text with
  | '0' :: 'x' :: digits => readRadix zero 16 digits
  | _ => readRadix zero 10 text

def Raw.read : (k : Raw) → List Char → Except NumberFault k.Carrier
  | .double, text => (readFloat .binary64 text).map Floating.ofBits
  | .single, text => (readFloat .binary32 text).map Floating.ofBits
  | .signed, text => readInteger Arithmetic.zero text
  | .byte, text => readInteger Arithmetic.zero text

end UnitMatrix
