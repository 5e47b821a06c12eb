import Abacus.CommandLine.Run

/-!
# The program

A run on the arguments of the process, among the files of the system.
-/
namespace Abacus

/-- The bytes of a file, if it can be read. -/
def readFile (name : String) : IO (Option ByteArray) := do
  try
    return some (← IO.FS.readBinFile name)
  catch _ =>
    return none

/-- A run among the real files. -/
def execute (arguments : List String) : IO UInt32 := do
  let file ← match Options.ofArguments arguments with
    | .ok o => if o.file then readFile o.contents else pure none
    | .error _ => pure none
  let outcome := run arguments fun _ => file
  IO.print outcome.output
  IO.eprint outcome.complaint
  return outcome.status.toUInt32

end Abacus

def main (arguments : List String) : IO UInt32 := Abacus.execute arguments
