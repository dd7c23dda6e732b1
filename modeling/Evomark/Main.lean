import Evomark.CommandLine
/-!
# The program

Runs `CommandLine.run` on the arguments of the process with the files of the system.
-/

namespace Evomark.CommandLine

/-- The reason of an error of the system. -/
def fileErrorOf (e : IO.Error) : FileError :=
  match e with
  | .noFileOrDirectory .. => .notFound
  | .inappropriateType _ _ details =>
    if details.toLower = "is a directory" then .isDirectory else .notDirectory
  | e => .other (toString e)

/-- The result of an action, or the reason why it failed. -/
def attempt {α : Type} (action : IO α) : IO (Except FileError α) := do
  try return .ok (← action)
  catch e => return .error (fileErrorOf e)

/-- Access to the files of the system. -/
def systemFiles : Files IO where
  read path := attempt (IO.FS.readFile path)
  write path text := attempt (IO.FS.writeFile path text)
  isPresent path := do
    match ← attempt (IO.FS.readFile path) with
    | .error .notFound | .error .notDirectory => return false
    | _ => return true

end Evomark.CommandLine

open Evomark.CommandLine in
/-- Runs the command line: what it prints goes to the standard streams. -/
def main (args : List String) : IO UInt32 := do
  let report ← run systemFiles args
  IO.print report.output
  for note in report.notes do
    IO.eprintln note
  return report.code.toUInt32
