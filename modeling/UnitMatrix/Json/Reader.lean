import UnitMatrix.Number.Reading

/-! Rows of numbers from JSON text, read from the front: what is wrong is reported as soon as it is
met, as input that ends too early, as text that is no JSON, or as a value of the wrong type. A decimal
becomes a float in one of two ways. By default the digits and the power of ten are rounded first, and
then their product or quotient is. A parser that is built to keep all floats rounds once, from as many
digits as the exact midpoint of two neighbours can have; the digits behind those count as a little more
than nothing. -/

namespace UnitMatrix

namespace Json

inductive Fault where
  /-- The text ends within a value. -/
  | ending
  /-- No JSON, or a number beyond the range of floats. -/
  | malformed
  /-- A value of another type than the one expected. -/
  | mistyped
  deriving DecidableEq

/-- How a decimal is rounded to a float. -/
inductive Rounding where
  /-- The default: after every step. -/
  | stepwise
  /-- With the option that keeps floats through a text and back: at the end. -/
  | once
  deriving DecidableEq

def isSpace (c : Char) : Bool := c == ' ' || c == '\n' || c == '\t' || c == '\r'

def skipSpace (text : List Char) : List Char := text.dropWhile isSpace

structure Numeral where
  negative : Bool
  /-- The digits before the point. -/
  whole : List Char
  /-- The digits after the point, if there is one. -/
  fraction : List Char
  exponent? : Option Int

def requireDigits (text : List Char) : Except Fault (List Char × List Char) :=
  match text.span Char.isDigit with
  | ([], []) => .error .ending
  | ([], _) => .error .malformed
  | found => .ok found

/-- The digits before the point, a zero standing alone. -/
def scanWhole : List Char → Except Fault (List Char × List Char)
  | [] => .error .ending
  | '0' :: c :: rest => if c.isDigit then .error .malformed else .ok (['0'], c :: rest)
  | text => requireDigits text

/-- The digits after a point, none if there is no point. -/
def scanFraction : List Char → Except Fault (List Char × List Char)
  | '.' :: rest => requireDigits rest
  | text => .ok ([], text)

def scanExponent : List Char → Except Fault (Option Int × List Char)
  | [] => .ok (none, [])
  | c :: rest =>
    if c = 'e' ∨ c = 'E' then do
      let (negative, rest) := splitSign rest
      let (digits, rest) ← requireDigits rest
      .ok (some (if negative then -digitsValue digits else digitsValue digits), rest)
    else .ok (none, c :: rest)

def scanNumeral (text : List Char) : Except Fault (Numeral × List Char) := do
  let (negative, text) := match text with
    | '-' :: rest => (true, rest)
    | _ => (false, text)
  let (whole, text) ← scanWhole text
  let (fraction, text) ← scanFraction text
  let (exponent?, text) ← scanExponent text
  .ok (⟨negative, whole, fraction, exponent?⟩, text)

namespace Numeral

def isWhole (n : Numeral) : Bool := n.fraction.isEmpty && n.exponent?.isNone

/-- The significant digits as a whole number, and the power of ten that belongs to it. Zeros at the
end of a fraction are no digits. A one stands for all digits behind those of a midpoint, be they zeros
or not. A midpoint has more digits than the format has bits, which settles most numbers at once. -/
def scaled (f : Binary) (n : Numeral) : Nat × Int :=
  let fraction := (n.fraction.reverse.dropWhile (· = '0')).reverse
  let digits := (n.whole ++ fraction).dropWhile (· = '0')
  let exponent := n.exponent?.getD 0 - fraction.length
  if digits.length ≤ f.precision || digits.length ≤ f.midpointDigits then
    (digitsValue digits, exponent)
  else
    (10 * digitsValue (digits.take f.midpointDigits) + 1,
      exponent + (digits.length - f.midpointDigits - 1 : Nat))

/-- The bits of the nearest float; there is no infinity in JSON. -/
def nearestBits (f : Binary) (n : Numeral) : Except Fault Nat :=
  let (digits, exponent) := n.scaled f
  let magnitude := f.ofDecimal digits exponent
  if magnitude = f.infinity then .error .malformed
  else .ok (f.withSign n.negative magnitude)

/-- Digits are appended to `value` as long as it fits sixty-four bits; the others are left. -/
def gather (value : Nat) : List Char → Nat × List Char
  | [] => (value, [])
  | c :: digits =>
    if 10 * value + digitValue c < Nat.pow 2 64 then gather (10 * value + digitValue c) digits
    else (value, c :: digits)

/-- The digits as a whole number of sixty-four bits, and the power of ten that belongs to it. What is
left of the whole part raises the power, what is left of the fraction is nothing. -/
def gathered (n : Numeral) : Nat × Int :=
  let (value, dropped) := gather 0 n.whole
  let (value, ignored) := gather value n.fraction
  (value, n.exponent?.getD 0 + dropped.length - (n.fraction.length - ignored.length : Nat))

/-- A double over the largest power of ten, so many times. -/
def divideDown : Nat → Nat → Nat
  | 0, magnitude => magnitude
  | count + 1, magnitude =>
    if magnitude = 0 then 0
    else divideDown count
      (Binary.binary64.quotient magnitude (Binary.binary64.ofDecimal 1 308))

/-- A double times a power of ten, each power being a double. -/
def timesPower (magnitude : Nat) (exponent : Int) : Nat :=
  let f := Binary.binary64
  if 308 < exponent then if magnitude = 0 then 0 else f.infinity
  else if 0 ≤ exponent then f.product magnitude (f.ofDecimal 1 exponent)
  else
    let n := (-exponent).toNat - 1
    f.quotient (divideDown (n / 308) magnitude) (f.ofDecimal 1 (n % 308 + 1 : Nat))

/-- The bits of the double that comes of rounding after every step. -/
def stepwiseBits (n : Numeral) : Except Fault Nat :=
  let f := Binary.binary64
  let (digits, exponent) := n.gathered
  let magnitude := timesPower (f.ofDecimal digits 0) exponent
  if magnitude = f.infinity then .error .malformed
  else .ok (f.withSign n.negative magnitude)

def toDoubleBits (r : Rounding) (n : Numeral) : Except Fault Nat :=
  match r with
  | .stepwise => n.stepwiseBits
  | .once => n.nearestBits .binary64

/-- A whole number is an integer if it fits sixty-four bits; `-0` is none. -/
def integer? (n : Numeral) : Option Int :=
  let value := digitsValue n.whole
  if !n.isWhole then none
  else if n.negative then
    if 0 < value ∧ value ≤ Nat.pow 2 63 then some (-value) else none
  else if value < Nat.pow 2 64 then some value else none

/-- A negative number too small for an integer, but not for one without a sign, is a double first,
also for a parser that rounds once. -/
def isRoundedTwice (n : Numeral) : Bool :=
  n.isWhole && n.negative && Nat.pow 2 63 < digitsValue n.whole &&
    digitsValue n.whole < Nat.pow 2 64

/-- The double as a single, infinite if it is beyond the range. -/
def narrowed (r : Rounding) (n : Numeral) : Except Fault Nat := do
  let bits ← n.toDoubleBits r
  let f := Binary.binary64
  .ok (Binary.binary32.withSign n.negative (f.convert .binary32 (f.magnitude bits)))

/-- By default only integers are rounded to singles at once. -/
def toSingleBits (r : Rounding) (n : Numeral) : Except Fault Nat :=
  let isNarrowed := match r with
    | .stepwise => n.integer?.isNone
    | .once => n.isRoundedTwice
  if isNarrowed then n.narrowed r else n.nearestBits .binary32

def toRanged (r : Rounding) {lo hi : Int} (n : Numeral) : Except Fault (Ranged lo hi) :=
  match n.integer? with
  | some i =>
    match Ranged.ofInt? i with
    | some x => .ok x
    | none => .error .mistyped
  | none => do
    let _ ← n.toDoubleBits r
    .error .mistyped

def toRaw (r : Rounding) (n : Numeral) : (k : Raw) → Except Fault k.Carrier
  | .double => (n.toDoubleBits r).map Floating.ofBits
  | .single => (n.toSingleBits r).map Floating.ofBits
  | .signed => n.toRanged r
  | .byte => n.toRanged r

end Numeral

def startsNumeral : List Char → Bool
  | c :: _ => c == '-' || c.isDigit
  | [] => false

/-- What is wrong when `word` was begun where no word belongs. -/
def wordFault : (word text : List Char) → Fault
  | [], _ => .mistyped
  | _ :: _, [] => .ending
  | w :: ws, c :: cs => if w = c then wordFault ws cs else .malformed

def hexValue? (digits : List Char) : Option Nat :=
  digits.foldlM (fun n c => (radixDigit? 16 c).map (16 * n + ·)) 0

def endsWithinFour (text : List Char) : Bool :=
  text.foldl (fun size c => size + c.utf8Size) 0 < 4

/-- What is wrong when a string was begun where none belongs. `paired` is true between the two
halves of a character beyond the first plane. -/
def stringFault (paired : Bool) : List Char → Fault
  | [] => .ending
  | '\\' :: [] => .ending
  | '\\' :: 'u' :: a :: b :: c :: d :: rest =>
    match hexValue? [a, b, c, d] with
    | none => .malformed
    | some n =>
      if paired then
        if 0xDC00 ≤ n ∧ n ≤ 0xDFFF then stringFault false rest else .malformed
      else if 0xDC00 ≤ n ∧ n ≤ 0xDFFF then .malformed
      else stringFault (0xD800 ≤ n && n ≤ 0xDBFF) rest
  | '\\' :: 'u' :: rest => if endsWithinFour rest then .ending else .malformed
  | '\\' :: c :: rest =>
    if paired then .malformed
    else if c ∈ ['"', '\\', '/', 'b', 'f', 'n', 'r', 't'] then stringFault false rest
    else .malformed
  | c :: rest =>
    if paired then .malformed
    else if c = '"' then .mistyped
    else if c.toNat < 0x20 then .malformed
    else stringFault false rest

/-- What is wrong with a value that is none of those expected. -/
def valueFault (r : Rounding) : List Char → Fault
  | [] => .ending
  | 'n' :: rest => wordFault ['u', 'l', 'l'] rest
  | 't' :: rest => wordFault ['r', 'u', 'e'] rest
  | 'f' :: rest => wordFault ['a', 'l', 's', 'e'] rest
  | '"' :: rest => stringFault false rest
  | '[' :: _ => .mistyped
  | '{' :: _ => .mistyped
  | text =>
    if startsNumeral text then
      match scanNumeral text with
      | .error fault => fault
      | .ok (n, _) =>
        match n.toDoubleBits r with
        | .error fault => fault
        | .ok _ => .mistyped
    else .malformed

def readNumber (r : Rounding) (k : Raw) (text : List Char) : Except Fault (k.Carrier × List Char) :=
  let text := skipSpace text
  if startsNumeral text then do
    let (n, rest) ← scanNumeral text
    .ok (← n.toRaw r k, rest)
  else .error (valueFault r text)

/-- The elements of a list after its first, each behind a comma, up to the closing bracket. At most
`limit` elements are read; the length of the text is limit enough. -/
def readMore {α : Type} (element : List Char → Except Fault (α × List Char)) :
    (limit : Nat) → List Char → Except Fault (List α × List Char)
  | 0, _ => .error .ending
  | limit + 1, text =>
    match skipSpace text with
    | [] => .error .ending
    | ']' :: rest => .ok ([], rest)
    | ',' :: rest =>
      match skipSpace rest with
      | [] => .error .ending
      | ']' :: _ => .error .malformed
      | rest => do
        let (x, rest) ← element rest
        let (xs, rest) ← readMore element limit rest
        .ok (x :: xs, rest)
    | _ => .error .malformed

def readList {α : Type} (r : Rounding) (element : List Char → Except Fault (α × List Char))
    (text : List Char) : Except Fault (List α × List Char) :=
  match skipSpace text with
  | '[' :: rest =>
    match skipSpace rest with
    | [] => .error .ending
    | ']' :: rest => .ok ([], rest)
    | rest => do
      let (x, rest) ← element rest
      let (xs, rest) ← readMore element (rest.length + 1) rest
      .ok (x :: xs, rest)
  | text => .error (valueFault r text)

def readRows (r : Rounding) (k : Raw) (text : List Char) :
    Except Fault (List (List k.Carrier) × List Char) :=
  readList r (readList r (readNumber r k)) text

/-- Nothing but white space may follow a document. -/
def requireEnd (text : List Char) : Except Fault Unit :=
  if skipSpace text = [] then .ok () else .error .malformed

end Json

end UnitMatrix
