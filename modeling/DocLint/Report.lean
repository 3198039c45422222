import DocLint.Finding

/-!
# The report

One line for each finding, in the order of the findings.
-/

namespace DocLint

/-- The report on a list of findings. -/
def report (findings : List Finding) : Text :=
  findings.flatMap fun finding => finding.text ++ ['\n']

@[simp]
theorem report_nil : report [] = [] := rfl

/-- A report on two lists of findings is made of the reports on each. -/
@[simp]
theorem report_append (first second : List Finding) :
    report (first ++ second) = report first ++ report second := by
  simp [report]

end DocLint
