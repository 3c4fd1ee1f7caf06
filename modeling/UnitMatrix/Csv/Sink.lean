import UnitMatrix.Failure

/-! Text on its way to a file. The bytes gather in a buffer, which goes to the device when it is full and
more is to come, and in the end with what is left. A device may keep a part of what it gets and refuse
the rest. Then the writing is over, and the buffer goes to the device once more while it is given up,
whatever comes of that. -/

namespace UnitMatrix

/-- What a device does with a buffer: it keeps at most so many bytes and says why it keeps no more. -/
structure Allowance where
  kept : Nat
  fault : FileFault

structure Device where
  /-- Why no file is opened. -/
  refusal : Option FileFault
  /-- One for each buffer in turn. Behind the last of them all bytes are kept. -/
  allowances : List Allowance

namespace Device

/-- Opens every file that a path leads to and keeps all bytes. -/
def sound : Device := ⟨none, []⟩

def openFile (d : Device) (files : Files) (path : String) : Except FileFault String :=
  match d.refusal with
  | some fault => .error fault
  | none => files.resolve path

end Device

namespace Csv

/-- The bytes of a full buffer. -/
def capacity : Nat := 8192

/-- The part of the buffer that is kept while it is given up. -/
def giveUp (buffer : List UInt8) : List Allowance → List UInt8
  | [] => buffer
  | a :: _ => buffer.take a.kept

/-- What is kept of the bytes, and why this is not all. A full buffer stops the writing of a record, the
last buffer stops the flushing. -/
def deliver : List Allowance → List UInt8 → List UInt8 × Option LoadError
  | [], bytes => (bytes, none)
  | a :: rest, bytes =>
    let buffer := bytes.take capacity
    if a.kept < buffer.length then
      (buffer.take a.kept ++ giveUp buffer rest,
        some (if capacity < bytes.length then .unreadable a.fault else .file a.fault))
    else if capacity < bytes.length then
      let later := deliver rest (bytes.drop capacity)
      (buffer ++ later.1, later.2)
    else (bytes, none)

end Csv

end UnitMatrix
