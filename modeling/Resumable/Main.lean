import Resumable.Directory

/-!
# The program

Carries out the plan of a command: reads and writes files, measures time, and prints.
-/

open Resumable

/-- The text of an error of the operating system. -/
def describeError (e : IO.Error) : String :=
  match e with
  | .noFileOrDirectory _ _ _ => FileError.notFound.message
  | .permissionDenied _ _ _ => FileError.denied.message
  | .inappropriateType _ _ _ => FileError.isDirectory.message
  | e => toString e

/-- An action with its error as a text. -/
def attempt {α : Type} (action : IO α) : IO (Except String α) := do
  try
    return .ok (← action)
  catch e =>
    return .error (describeError e)

/-- Prints a report and returns the exit code. -/
def printReport (r : Report) (started : Nat) : IO UInt32 := do
  let elapsed := durationText ((← IO.monoNanosNow) - started)
  IO.eprint (r.stderr elapsed)
  IO.print r.stdout
  return if r.success then 0 else 1

/-- Runs the program and writes out what it says; the exit code is what it returns. -/
def main (args : List String) : IO UInt32 := do
  match Command.plan args with
  | .print r => printReport r (← IO.monoNanosNow)
  | .read path next =>
    let file ← attempt do return (← IO.FS.readBinFile path).toList
    let started ← IO.monoNanosNow
    printReport (next file) started
  | .write path bytes next =>
    let written ← attempt (IO.FS.writeBinFile path ⟨bytes.toArray⟩)
    printReport (next written) (← IO.monoNanosNow)
