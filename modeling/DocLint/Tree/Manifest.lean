import DocLint.Text.Hex
import DocLint.Tree.Build

/-!
# Tree manifests

A manifest describes what a working directory holds in lines, one for each entry: `dir` and a
path, `file`, a path and the content, or `link`, a path and the target. The parts of a line are
separated by one space, and everything after the first word is in hexadecimal digits.
-/

namespace DocLint.FileSystem

/-- Adds the entry that a line of a manifest describes. -/
def addLine? (system : FileSystem) (line : String) : Option FileSystem :=
  match line.splitOn " " with
  | ["dir", path] => do
      return system.add (← Bytes.ofHex? path.toList) .empty
  | ["file", path, content] => do
      return system.add (← Bytes.ofHex? path.toList) (.plain (← Bytes.ofHex? content.toList))
  | ["link", path, target] => do
      return system.add (← Bytes.ofHex? path.toList) (.link (← Bytes.ofHex? target.toList))
  | _ => none

/-- The file system that the lines of a manifest describe. -/
def ofManifest? (lines : List String) : Option FileSystem :=
  lines.foldlM addLine? .fresh

end DocLint.FileSystem
