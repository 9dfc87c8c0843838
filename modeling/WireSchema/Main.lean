import WireSchema.CommandLine

/-!
# The program

Reads the file that the arguments name, prints the text of the outcome and ends with its exit code.
-/

open WireSchema

/-- The content of a file, if it can be read. -/
def readContent (path : String) : IO (Option Bytes) := do
  try
    return some (← IO.FS.readBinFile path).toList
  catch _ => return none

/-- Does what the arguments ask for. -/
def main (arguments : List String) : IO UInt32 := do
  let request := Request.ofArguments arguments
  let content ←
    match request with
    | .run path _ => readContent path
    | _ => pure none
  let outcome := request.outcome fun _ => content
  IO.print outcome.output
  return UInt32.ofNat outcome.exitCode
