import DocLint.Finding

/-!
# The rules for lines

Each rule looks at the lines of one file, with their terminators, and reports findings in
ascending order of line. A list of lines need not come from splitting a text: a line may
be empty or hold line ends inside.
-/

namespace DocLint

namespace Text

/-- Whether a line ends in LF. -/
def endsInLf (line : Text) : Bool :=
  line.getLast? = some '\n'

/-- Whether a line ends in CR LF. -/
def endsInCrLf (line : Text) : Bool :=
  ['\r', '\n'].isSuffixOf line

/-- Whether a line ends in LF alone. -/
def endsInLoneLf (line : Text) : Bool :=
  line.endsInLf && !line.endsInCrLf

/-- Whether two spaces stand side by side. A tab or a wider space is not a space here. -/
def hasRepeatedSpace : Text → Bool
  | [] => false
  | char :: rest => (char = ' ' && rest.head? = some ' ') || hasRepeatedSpace rest

end Text

/-- The rules that lines are held to. -/
inductive Rule where
  /-- The first line that does not end in LF alone. -/
  | lineEnding
  /-- Every line that holds full-width characters of a kind, once for each kind. -/
  | fullWidth
  /-- Every line with two spaces side by side. -/
  | repeatedSpaces
  /-- Every blank line that follows a blank line. -/
  | blankLines
  /-- The last line, when it does not end in LF. -/
  | finalNewline
  deriving DecidableEq, Repr

namespace Rule

/-- The rules in the order in which they report. -/
def all : List Rule :=
  [.lineEnding, .fullWidth, .repeatedSpaces, .blankLines, .finalNewline]

/-- The first line that does not end in LF alone. -/
def checkLineEnding (file : Text) (lines : List Text) : List Finding :=
  match lines.findIdx? (fun line => !line.endsInLoneLf) with
  | none => []
  | some index => [⟨file, index + 1, .lineEndingNotLf⟩]

/-- A violation at every line that passes a test. -/
def findingsWhere (file : Text) (violation : Violation) (test : Text → Bool)
    (lines : List Text) : List Finding :=
  ((lines.zipIdx 1).filter fun (line, _) => test line).map fun (_, number) =>
    ⟨file, number, violation⟩

/-- For every line, the kinds of full-width character that it holds. They are looked for
kind by kind and then put in the order of the lines; the findings for one line stay in the
order of the kinds. -/
def checkFullWidth (file : Text) (lines : List Text) : List Finding :=
  (FullWidth.all.flatMap fun kind =>
    findingsWhere file (.fullWidth kind) kind.chars.occursIn lines).mergeSort
      fun left right => left.line ≤ right.line

/-- The lines with two spaces side by side. -/
def checkRepeatedSpaces (file : Text) (lines : List Text) : List Finding :=
  findingsWhere file .repeatedSpaces Text.hasRepeatedSpace lines

/-- The blank lines after a blank line, last first: `run` blank lines stand right before
the line numbered `number`, which is the next. -/
def blankLinesFrom (file : Text) (run number : Nat) (done : List Finding) :
    List Text → List Finding
  | [] => done
  | line :: rest =>
      if line.isBlank then
        let done := if run = 0 then done else ⟨file, number, .repeatedBlankLines⟩ :: done
        blankLinesFrom file (run + 1) (number + 1) done rest
      else blankLinesFrom file 0 (number + 1) done rest

/-- The findings made already stand behind those made later. -/
theorem blankLinesFrom_eq_append (file : Text) (run number : Nat) (done : List Finding)
    (lines : List Text) :
    blankLinesFrom file run number done lines =
      blankLinesFrom file run number [] lines ++ done := by
  induction lines generalizing run number done with
  | nil => rfl
  | cons line rest ih =>
      by_cases blank : line.isBlank
      · by_cases first : run = 0
        · simp only [blankLinesFrom, blank, first, ↓reduceIte]
          exact ih _ _ done
        · simp only [blankLinesFrom, blank, first, ↓reduceIte]
          rw [ih _ _ (_ :: done), ih _ _ [_]]
          simp
      · simp only [blankLinesFrom, blank, Bool.false_eq_true, ↓reduceIte]
        exact ih _ _ done

/-- The blank lines that follow a blank line. -/
def checkBlankLines (file : Text) (lines : List Text) : List Finding :=
  (blankLinesFrom file 0 1 [] lines).reverse

/-- The last line, when it does not end in LF. Where there is no line, nothing is
missing. -/
def checkFinalNewline (file : Text) (lines : List Text) : List Finding :=
  match lines.getLast? with
  | none => []
  | some line => if line.endsInLf then [] else [⟨file, lines.length, .missingFinalNewline⟩]

/-- What a rule finds in the lines of a file. -/
def check : Rule → Text → List Text → List Finding
  | .lineEnding => checkLineEnding
  | .fullWidth => checkFullWidth
  | .repeatedSpaces => checkRepeatedSpaces
  | .blankLines => checkBlankLines
  | .finalNewline => checkFinalNewline

end Rule

/-- What all rules find in the lines of a file, rule by rule. -/
def checkLines (file : Text) (lines : List Text) : List Finding :=
  Rule.all.flatMap fun rule => rule.check file lines

end DocLint
