/-! Records of comma separated fields, over bytes. A record ends at a line feed or a carriage return
and further line ends before the next record are skipped, so no record is empty. A quote at the
start of a field opens a quoted part, in which a doubled quote stands for one and line ends are
ordinary; what follows the closing quote is appended. -/

namespace UnitMatrix

namespace Csv

/-- How far reading has come: the number of the line, from one, and of the byte, from zero. -/
structure Position where
  line : Nat
  byte : Nat
  deriving DecidableEq

def lineFeed : UInt8 := 10
def carriageReturn : UInt8 := 13
def quote : UInt8 := 34
def comma : UInt8 := 44

def isLineEnd (b : UInt8) : Bool := b == lineFeed || b == carriageReturn

/-- Only line feeds count as lines. -/
def Position.after (p : Position) (b : UInt8) : Position :=
  ⟨if b = lineFeed then p.line + 1 else p.line, p.byte + 1⟩

/-- The fields of a record, and the position at which its reading began. -/
structure Record where
  start : Position
  fields : List (List UInt8)

inductive Mode where
  /-- Before a record. -/
  | between
  /-- Before the first byte of a field. -/
  | opening
  | plain
  | quoted
  /-- After a quote in a quoted part, which may close it or be half of a doubled one. -/
  | closing
  deriving DecidableEq

/-- A record in the making, its fields and the bytes of the current field last first. -/
structure Scanner where
  start : Position
  fields : List (List UInt8)
  field : List UInt8
  mode : Mode

namespace Scanner

/-- Before the first byte of a record that begins at `p`. -/
def fresh (p : Position) : Scanner := ⟨p, [], [], .between⟩

def push (s : Scanner) (mode : Mode) (b : UInt8) : Scanner :=
  { s with field := b :: s.field, mode := mode }

def endField (s : Scanner) : Scanner :=
  { s with fields := s.field.reverse :: s.fields, field := [], mode := .opening }

def record (s : Scanner) : Record :=
  ⟨s.start, (s.field.reverse :: s.fields).reverse⟩

/-- A byte outside quotes: the end of a field, of the record, or more of the field. -/
def unquoted (s : Scanner) (after : Position) (b : UInt8) : Option Record × Scanner :=
  if b = comma then (none, s.endField)
  else if isLineEnd b then (some s.record, fresh after)
  else (none, s.push .plain b)

/-- One byte, after which the position is `after`. -/
def step (s : Scanner) (after : Position) (b : UInt8) : Option Record × Scanner :=
  match s.mode with
  | .between =>
    if isLineEnd b then (none, s)
    else if b = quote then (none, { s with mode := .quoted })
    else s.unquoted after b
  | .opening =>
    if b = quote then (none, { s with mode := .quoted }) else s.unquoted after b
  | .plain => s.unquoted after b
  | .quoted =>
    if b = quote then (none, { s with mode := .closing }) else (none, s.push .quoted b)
  | .closing =>
    if b = quote then (none, s.push .quoted b) else s.unquoted after b

end Scanner

def scan (s : Scanner) (p : Position) : List UInt8 → List Record
  | [] => if s.mode = .between then [] else [s.record]
  | b :: rest =>
    let (record?, next) := s.step (p.after b) b
    record?.toList ++ scan next (p.after b) rest

/-- All records. A byte order mark at the start is no part of the first field. -/
def records (bytes : List UInt8) : List Record :=
  let start : Position := ⟨1, 0⟩
  match bytes with
  | 0xEF :: 0xBB :: 0xBF :: rest => scan (.fresh start) ⟨1, 3⟩ rest
  | _ => scan (.fresh start) start bytes

end Csv

end UnitMatrix
