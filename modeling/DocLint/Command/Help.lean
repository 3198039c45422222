import DocLint.Command
import DocLint.Path

/-!
# What the command line tells about itself
-/

namespace DocLint.Command

/-- The name of the program. -/
def programName : Text :=
  "adoc-guard".toList

/-- The name in the usage line: that of the file the program was called as, if the path
it was called by has one and that is text. -/
def calledAs (program : Path) : Text :=
  (program.fileName?.bind Bytes.decode?).getD programName

/-- The line that shows how the program is used. -/
def usageLine (medium : Terminal.Medium) (program : Path) : Text :=
  "Usage: ".toList ++ (calledAs program).visible medium ++ " --input <DIR>\n".toList

/-- The short help text. -/
def briefHelpText (medium : Terminal.Medium) (program : Path) : Text :=
  "AsciiDoc style guard - report formatting violations\n\n".toList ++
  usageLine medium program ++
  "
Options:
  -i, --input <DIR>  Input AsciiDoc directory path
  -h, --help         Print help (see more with '--help')
  -V, --version      Print version
".toList

/-- The long help text. -/
def fullHelpText (medium : Terminal.Medium) (program : Path) : Text :=
  "Checks every .adoc file under a directory for encoding, line-ending,
full-width character, whitespace and blank-line violations.

Findings are printed to stderr as `<file> <line> <message>`.

Exit codes:
  0 - No findings
  1 - Findings reported
  2 - Usage or I/O error

".toList ++
  usageLine medium program ++
  "
Options:
  -i, --input <DIR>
          Input AsciiDoc directory path

  -h, --help
          Print help (see a summary with '-h')

  -V, --version
          Print version
".toList

/-- The version text. -/
def versionText : Text :=
  programName ++ " 0.1.0\n".toList

/-- The text of an information on a medium, for a program called by a path. -/
def Info.text (medium : Terminal.Medium) (program : Path) : Info → Text
  | .briefHelp => briefHelpText medium program
  | .fullHelp => fullHelpText medium program
  | .version => versionText

end DocLint.Command
