import DocLint.Lint
import DocLint.Tree.Manifest

/-!
# The program

Lints the file system whose manifest is given on standard input. The input is not read when the
arguments start no run.
-/

namespace DocLint

/-- The lines of a stream, without their terminators. -/
partial def readLines (input : IO.FS.Stream) : IO (List String) := do
  let line ← input.getLine
  if line.isEmpty then return []
  return (line.dropEndWhile '\n').toString :: (← readLines input)

/-- Writes what an outcome tells, and answers its exit status. -/
def Outcome.tell (outcome : Outcome) : IO UInt32 := do
  (← IO.getStdout).putStr (String.ofList (outcome.stdout (Text.encode Command.programName)))
  (← IO.getStderr).write outcome.stderr.toByteArray
  return UInt32.ofNat outcome.status

/-- Runs the linter with the arguments after its name. -/
def runFromInput (arguments : List Bytes) : IO UInt32 := do
  if let .error reply := Command.parse arguments then
    return ← (Outcome.reply reply).tell
  match FileSystem.ofManifest? (← readLines (← IO.getStdin)) with
  | some system => (run system 0 arguments).tell
  | none =>
      (← IO.getStderr).putStr "Error: the manifest cannot be read\n"
      return 2

end DocLint

/-- The entry point of the program. -/
def main (arguments : List String) : IO UInt32 :=
  DocLint.runFromInput (arguments.map DocLint.Command.word)
