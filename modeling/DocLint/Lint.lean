import DocLint.Command.Help
import DocLint.Document
import DocLint.Report.Sink
import DocLint.Tree.Files

/-!
# Linting a tree

The documents below a directory are the files with the extension of AsciiDoc. They are checked
at the same time, and what is wrong with them is reported in the order in which they are
visited. If some cannot be read, nothing is reported but one of them.
-/

namespace DocLint

/-- The extension of the files that are documents. -/
def documentExtension : Text :=
  "adoc".toList

/-! ## Attempts made at the same time -/

section Together

variable {ε α : Type}

/-- The failures among some attempts. -/
def failures (attempts : List (Except ε α)) : List ε :=
  attempts.filterMap fun
    | .error failure => some failure
    | .ok _ => none

/-- The results among some attempts. -/
def results (attempts : List (Except ε α)) : List α :=
  attempts.filterMap fun
    | .error _ => none
    | .ok result => some result

/-- What attempts made at the same time come to: all results, or the failure that is met first.
Which one that is, nothing determines but the `turn` that the attempts take. -/
def together (turn : Nat) (attempts : List (Except ε α)) : Except ε (List α) :=
  match (failures attempts)[turn % (failures attempts).length]? with
  | some failure => .error failure
  | none => .ok (results attempts)

end Together

/-! ## Documents below a directory -/

namespace FileSystem

/-- The document at a path, named as its findings are to name it. -/
def document (system : FileSystem) (path : Path) : Except Failure Document :=
  (system.read path).map fun content => ⟨path.displayName, content⟩

/-- What is wrong with the file at a path. -/
def lintFile (system : FileSystem) (path : Path) : Except Failure (List Finding) :=
  (system.document path).map Document.findings

/-- What is wrong with the documents below a path. -/
def lint (system : FileSystem) (turn : Nat) (root : Path) : Except Failure (List Finding) :=
  (system.scan documentExtension root).bind fun paths =>
    (together turn (paths.map system.lintFile)).map List.flatten

end FileSystem

/-! ## A run -/

/-- How a call of the linter ends. -/
inductive Outcome where
  /-- No run: the arguments asked for something else, or were wrong. -/
  | reply (reply : Command.Reply)
  /-- The run could not be finished. -/
  | failed (failure : Failure)
  /-- The run came to its end. -/
  | linted (findings : List Finding)
  deriving DecidableEq, Repr

/-- The standard error stream, which takes whatever is written to it. -/
def standardError : Sink :=
  ⟨none, none, .stall, []⟩

namespace Outcome

/-- How a run ends that has some findings: they are delivered, if there are any. -/
def ofFindings (findings : List Finding) : Outcome :=
  if findings = [] then .linted []
  else
    match (standardError.deliver findings).result with
    | .error failure => .failed failure
    | .ok () => .linted findings

/-- The exit status: zero if nothing is wrong, one if there are findings, two if there
was no run or it could not be finished. -/
def status : Outcome → Nat
  | .reply (.info _) => 0
  | .reply (.usage _) => 2
  | .failed _ => 2
  | .linted [] => 0
  | .linted (_ :: _) => 1

/-- What is written to standard output by a program called by a path. -/
def stdout (program : Path) : Outcome → Text
  | .reply (.info info) => info.text .stream program
  | _ => []

/-- What is written to standard error. -/
def stderr : Outcome → Bytes
  | .reply (.info _) => []
  | .reply (.usage error) => Text.encode (error.headline .stream ++ ['\n'])
  | .failed failure => Text.encode ("Error: ".toList ++ failure.message ++ ['\n'])
  | .linted [] => []
  | .linted (finding :: rest) => (standardError.deliver (finding :: rest)).received

end Outcome

/-- Runs the linter in a file system with the arguments after its name. Only when several
documents cannot be read does the outcome depend on the `turn` that they take. -/
def run (system : FileSystem) (turn : Nat) (arguments : List Bytes) : Outcome :=
  match Command.parse arguments with
  | .error reply => .reply reply
  | .ok directory =>
      match system.lint turn directory with
      | .error failure => .failed failure
      | .ok findings => .ofFindings findings

end DocLint
