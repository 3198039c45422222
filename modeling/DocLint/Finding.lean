import DocLint.Text.FullWidth

/-!
# Findings

A finding says which rule a file breaks, and on which line. Lines are counted from one;
line zero stands for the file as a whole.
-/

namespace DocLint

/-- The ways in which a document can break the rules. -/
inductive Violation where
  | notUtf8
  | lineEndingNotLf
  | fullWidth (kind : FullWidth)
  | repeatedSpaces
  | repeatedBlankLines
  | missingFinalNewline
  deriving DecidableEq, Repr

/-- The message that a violation is reported with. -/
def Violation.message : Violation → Text
  | .notUtf8 => "File encoding is not UTF-8".toList
  | .lineEndingNotLf => "File line endings are not LF".toList
  | .fullWidth kind => "Contains invalid char(full width ".toList ++ kind.name ++ [')']
  | .repeatedSpaces => "Multiple consecutive whitespaces".toList
  | .repeatedBlankLines => "Multiple consecutive empty lines".toList
  | .missingFinalNewline => "File does not end with a newline".toList

/-- A violation at a line of a file. -/
structure Finding where
  file : Text
  line : Nat
  violation : Violation
  deriving DecidableEq, Repr

namespace Finding

/-- A finding about a file as a whole. -/
def wholeFile (file : Text) (violation : Violation) : Finding :=
  ⟨file, 0, violation⟩

/-- The file, the line in decimal and the message, with one space between them. -/
def text (finding : Finding) : Text :=
  finding.file ++ ' ' :: Nat.toDigits 10 finding.line ++ ' ' :: finding.violation.message

end Finding

end DocLint
