import WikiMarkup.CommandLine

/-!
# The program

The outer layer of the command line: it reads files, prints, and sets the exit code.
-/

namespace WikiMarkup.CommandLine

/-- The cause of a system error, told by its number where its class leaves it open. -/
def fileError : IO.Error → FileError
  | .noFileOrDirectory _ _ _ => .missing
  | .permissionDenied _ _ _ => .denied
  | .inappropriateType _ code _ =>
    if code = 20 ∨ code = -20 then .notDirectory else .directory
  | .invalidArgument path code reason =>
    if code = 36 ∨ code = -36 then .nameTooLong
    else .other (toString (IO.Error.invalidArgument path code reason))
  | failure => .other (toString failure)

/-- The bytes of a file, or why they cannot be had. -/
def readFile (path : String) : IO (Except FileError ByteArray) := do
  try
    return .ok (← IO.FS.readBinFile path)
  catch failure =>
    return .error (fileError failure)

end WikiMarkup.CommandLine

/-- Runs the command line on the arguments of the program. -/
def main (arguments : List String) : IO UInt32 := do
  let outcome ← WikiMarkup.CommandLine.run WikiMarkup.CommandLine.readFile arguments
  (← IO.getStderr).putStr outcome.stderr
  (← IO.getStdout).putStr outcome.stdout
  return outcome.code
