import DocLint.Path

/-!
# Failures

What can keep the linter from finishing. None of them is a finding.
-/

namespace DocLint

/-- The causes of failure. -/
inductive Failure where
  /-- The file at a path cannot be read. -/
  | fileRead (path : Path)
  /-- The tree below a path cannot be walked. -/
  | walk (path : Path)
  /-- A sink failed with a text of its own. -/
  | io (cause : Text)
  deriving DecidableEq, Repr

namespace Failure

/-- The message that a failure is reported with. -/
def message : Failure → Text
  | .fileRead path => "Failed to read file: ".toList ++ path.lossy
  | .walk path => "Failed to scan directory: ".toList ++ path.lossy
  | .io cause => "IO error: ".toList ++ cause

/-- The name of the kind of a failure. -/
def label : Failure → Text
  | .fileRead _ => "FileRead".toList
  | .walk _ => "Walk".toList
  | .io _ => "Io".toList

end Failure

end DocLint
