/-
The command line on the files of the machine.
-/
import PegCompiler.Cli.Run

namespace PegCompiler.Cli

/-- What went wrong with a file, as the machine tells it. -/
def fileError : IO.Error → FileError
  | .noFileOrDirectory .. => .missing
  | .inappropriateType _ 21 _ | .illegalOperation 21 _ => .isDirectory
  | .inappropriateType _ 20 _ => .notDirectory
  | .invalidArgument _ 36 _ => .tooLong
  | .userError _ => .notText
  | e => .other (toString e)

/-- The files of the machine. -/
def machineFiles : FileAccess IO where
  read path := do
    match ← (IO.FS.readFile path).toBaseIO with
    | .ok text => return .ok text
    | .error e => return .error (fileError e)
  write path text := do
    match ← (IO.FS.writeFile path text).toBaseIO with
    | .ok _ => return .ok ⟨⟩
    | .error e => return .error (fileError e)

end PegCompiler.Cli

/-- Prints what a run printed, and tells by the exit code whether all went well. -/
def main (args : List String) : IO UInt32 := do
  let (printed, well) ← PegCompiler.Cli.run PegCompiler.Cli.machineFiles args
  (← IO.getStdout).putStr printed.out
  (← IO.getStderr).putStr printed.err
  return if well then 0 else 1
