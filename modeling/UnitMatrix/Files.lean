/-! Files in a directory of their own. A name is a path from there: single dots and doubled strokes
change nothing, and since there are no other directories, a path of more than one step leads
nowhere. -/

namespace UnitMatrix

inductive FileFault where
  | missing
  /-- The path ends at a directory. -/
  | directory
  /-- The path goes on behind a file. -/
  | notDirectory
  /-- Anything else that a device reports, in its words. -/
  | device (report : String)
  deriving DecidableEq

def FileFault.message : FileFault → String
  | .missing => "No such file or directory (os error 2)"
  | .directory => "Is a directory (os error 21)"
  | .notDirectory => "Not a directory (os error 20)"
  | .device report => report

def pathSteps : List Char → List (List Char)
  | [] => [[]]
  | c :: rest =>
    if c = '/' then [] :: pathSteps rest
    else match pathSteps rest with
      | step :: steps => (c :: step) :: steps
      | [] => [[c]]

/-- Contents by name, the latest first. -/
structure Files where
  contents : List (String × List UInt8)

namespace Files

def empty : Files := ⟨[]⟩

def get? (files : Files) (name : String) : Option (List UInt8) := files.contents.lookup name

def put (files : Files) (name : String) (bytes : List UInt8) : Files :=
  ⟨(name, bytes) :: files.contents⟩

def resolve (files : Files) (path : String) : Except FileFault String :=
  let steps := pathSteps path.toList
  let proper := steps.filter fun step => step ≠ [] ∧ step ≠ ['.']
  match proper.map String.ofList with
  | [] => .error (if steps.head? = some [] then .missing else .directory)
  | name :: _ =>
    if steps.head? = some [] ∨ name = ".." then .error .missing
    else if proper.length = 1 ∧ steps.getLast? = proper.getLast? then .ok name
    else if (files.get? name).isSome then .error .notDirectory
    else .error .missing

def read (files : Files) (path : String) : Except FileFault (List UInt8) := do
  let name ← files.resolve path
  match files.get? name with
  | some bytes => .ok bytes
  | none => .error .missing

end Files

end UnitMatrix
