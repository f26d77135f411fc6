import MuProc.Command.Run

/-!
# The program

Reads the model file that the command line names, prints what the command prints, and
reports its error.
-/

namespace MuProc

def readPath (path : String) : IO (Except ReadFault String) := do
  try
    return .ok (← IO.FS.readFile path)
  catch e =>
    match e with
    | .noFileOrDirectory .. => return .error .missing
    | .inappropriateType _ code _ =>
      return .error (if code = 21 then .isDirectory else .notDirectory)
    | .invalidArgument _ code _ => return .error (if code = 36 then .tooLong else .invalid)
    | e => return .error (.other (toString e))

end MuProc

open MuProc in
def main (args : List String) : IO UInt32 := do
  let content ← match Command.pathOf? args with
    | some path => readPath path
    | none => pure (.error .missing)
  let outcome := Command.run args fun _ => content
  IO.print outcome.out
  if let some e := outcome.error then IO.eprintln ("Error: " ++ e)
  return if outcome.ok then 0 else 1
