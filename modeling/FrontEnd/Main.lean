import FrontEnd.Command.Line

/-!
# The program

Reads the files that the arguments name, runs the command, and writes what it says.
-/

namespace FrontEnd

/-- Reads a file. -/
def readContent (path : String) : IO FileContent := do
  try
    let bytes ← IO.FS.readBinFile path
    return match String.fromUTF8? bytes with
      | some s => .text s
      | none => .malformed
  catch e =>
    return match e with
      | .noFileOrDirectory .. => .missing
      | .permissionDenied .. => .denied
      | e => .failed (toString e)

end FrontEnd

/-- The program. -/
def main (args : List String) : IO UInt32 := do
  let terminal ← (← IO.getStderr).isTty
  let invocation := FrontEnd.Invocation.ofArgs args terminal
  let contents ← invocation.paths.mapM fun path => do
    return (path, ← FrontEnd.readContent path)
  let result := invocation.run fun path => (contents.lookup path).getD .missing
  IO.print result.out
  IO.eprint result.err
  return result.code.toUInt32
