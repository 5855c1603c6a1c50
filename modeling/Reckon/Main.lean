import Reckon.CommandLine

/-! The program itself: its arguments, files, streams and exit status. -/

/-- The bytes of a file, if it can be read. -/
def Reckon.readFile (path : String) : IO (Option ByteArray) := do
  try
    return some (← IO.FS.readBinFile path)
  catch _ =>
    return none

def main (arguments : List String) : IO UInt32 := do
  let outcome ← Reckon.CommandLine.run Reckon.readFile arguments
  IO.print outcome.output
  IO.eprint outcome.diagnostics
  return outcome.status
