import DocLint.Report

/-!
# Reading a report back

Nothing in a report is quoted, and a file name may hold spaces, numbers or the words of a
message. A finding can be read back from its text all the same: no message ends in another one
(`Violation.eq_of_message_suffix`), and a number holds no space. Lines are told apart by the LF
at their ends as long as no file name holds one. Main statement: `report_eq_iff`.
-/

namespace DocLint

/-! ## The last and the first separator -/

section Separator

variable {α : Type} {separator : α} {first second before after : List α}

/-- A list is cut at its first separator in one way only. -/
theorem append_cons_inj_of_first (noneFirst : separator ∉ first) (noneSecond : separator ∉ second)
    (same : first ++ separator :: before = second ++ separator :: after) :
    first = second ∧ before = after := by
  induction first generalizing second with
  | nil =>
      cases second with
      | nil => exact ⟨rfl, (List.cons.inj same).2⟩
      | cons item second => simp_all
  | cons item first ih =>
      rw [List.mem_cons, not_or] at noneFirst
      cases second with
      | nil => exact absurd (List.cons.inj same).1.symm noneFirst.1
      | cons other second =>
          rw [List.mem_cons, not_or] at noneSecond
          obtain ⟨rfl, onward⟩ := List.cons.inj same
          obtain ⟨rfl, rest⟩ := ih noneFirst.2 noneSecond.2 onward
          exact ⟨rfl, rest⟩

/-- A list is cut at its last separator in one way only. -/
theorem append_cons_inj_of_last (noneFirst : separator ∉ first) (noneSecond : separator ∉ second)
    (same : before ++ separator :: first = after ++ separator :: second) :
    before = after ∧ first = second := by
  have reversed := congrArg List.reverse same
  simp only [List.reverse_append, List.reverse_cons, List.append_assoc,
    List.singleton_append] at reversed
  obtain ⟨ends, starts⟩ := append_cons_inj_of_first
    (by rwa [List.mem_reverse]) (by rwa [List.mem_reverse]) reversed
  exact ⟨List.reverse_inj.1 starts, List.reverse_inj.1 ends⟩

end Separator

/-! ## Messages -/

namespace Violation

/-- All violations. -/
def all : List Violation :=
  [.notUtf8, .lineEndingNotLf] ++ FullWidth.all.map .fullWidth ++
    [.repeatedSpaces, .repeatedBlankLines, .missingFinalNewline]

theorem mem_all (violation : Violation) : violation ∈ all := by
  cases violation with
  | fullWidth kind => cases kind <;> decide
  | _ => decide

/-- No message ends in the message of another violation. -/
theorem eq_of_message_suffix {first second : Violation}
    (suffix : first.message <:+ second.message) : first = second := by
  have apart : ∀ left ∈ all, ∀ right ∈ all, left.message <:+ right.message → left = right := by
    decide
  exact apart first first.mem_all second second.mem_all suffix

theorem lf_not_mem_message (violation : Violation) : '\n' ∉ violation.message := by
  have plain : ∀ other ∈ all, '\n' ∉ other.message := by decide
  exact plain violation violation.mem_all

end Violation

/-! ## Numbers -/

theorem not_mem_toDigits {char : Char} (other : char.isDigit = false) (number : Nat) :
    char ∉ Nat.toDigits 10 number := by
  intro member
  have digit := Nat.isDigit_of_mem_toDigits (by decide) (by decide) member
  exact absurd (other.symm.trans digit) (by decide)

theorem toDigits_inj {first second : Nat} (same : Nat.toDigits 10 first = Nat.toDigits 10 second) :
    first = second := by
  have read := @Nat.ofDigitChars_ten_toDigits first
  rwa [same, Nat.ofDigitChars_ten_toDigits, eq_comm] at read

/-! ## Findings -/

namespace Finding

/-- The text of a finding ends in its message, and in no other. -/
theorem violation_of_message_suffix {finding : Finding} {violation : Violation}
    (suffix : violation.message <:+ finding.text) : finding.violation = violation := by
  have own : finding.violation.message <:+ finding.text :=
    ⟨finding.file ++ ' ' :: Nat.toDigits 10 finding.line ++ [' '], by simp [text]⟩
  rcases List.suffix_or_suffix_of_suffix own suffix with shorter | longer
  · exact Violation.eq_of_message_suffix shorter
  · exact (Violation.eq_of_message_suffix longer).symm

/-- A finding can be read back from its text, whatever its file is called. -/
theorem text_inj {first second : Finding} (same : first.text = second.text) : first = second := by
  obtain ⟨file, line, violation⟩ := first
  obtain ⟨otherFile, otherLine, otherViolation⟩ := second
  obtain rfl : violation = otherViolation := by
    refine @violation_of_message_suffix ⟨file, line, violation⟩ _ ?_
    rw [same]
    exact ⟨otherFile ++ ' ' :: Nat.toDigits 10 otherLine ++ [' '], by simp [text]⟩
  have numbered : file ++ ' ' :: Nat.toDigits 10 line =
      otherFile ++ ' ' :: Nat.toDigits 10 otherLine :=
    List.append_cancel_right same
  obtain ⟨rfl, digits⟩ := append_cons_inj_of_last (not_mem_toDigits (by decide) line)
    (not_mem_toDigits (by decide) otherLine) numbered
  rw [toDigits_inj digits]

theorem lf_not_mem_text {finding : Finding} (plain : '\n' ∉ finding.file) :
    '\n' ∉ finding.text := by
  have number := @not_mem_toDigits '\n' (by decide) finding.line
  have message := finding.violation.lf_not_mem_message
  simp [text, plain, number, message]

end Finding

/-! ## Reports -/

theorem report_cons (finding : Finding) (rest : List Finding) :
    report (finding :: rest) = finding.text ++ '\n' :: report rest := by
  simp [report]

/-- **A report tells what was found.** Unless a file name holds LF, two lists of findings with one
report are the same list: file, line and violation of each finding, and their number and order, can
be read back from the printed text. -/
theorem report_eq_iff {first second : List Finding}
    (plain : ∀ finding ∈ first, '\n' ∉ finding.file)
    (plainOther : ∀ finding ∈ second, '\n' ∉ finding.file) :
    report first = report second ↔ first = second := by
  refine ⟨fun same => ?_, fun same => congrArg report same⟩
  induction first generalizing second with
  | nil =>
      cases second with
      | nil => rfl
      | cons finding rest => simp [report_cons] at same
  | cons finding rest ih =>
      rw [List.forall_mem_cons] at plain
      cases second with
      | nil => simp [report_cons] at same
      | cons other others =>
          rw [List.forall_mem_cons] at plainOther
          rw [report_cons, report_cons] at same
          obtain ⟨line, onward⟩ := append_cons_inj_of_first (Finding.lf_not_mem_text plain.1)
            (Finding.lf_not_mem_text plainOther.1) same
          rw [Finding.text_inj line, ih plain.2 plainOther.2 onward]

/-- A file can be called like the beginning of a line about another file. -/
theorem report_eq_iff_lookalike :
    let message := Violation.lineEndingNotLf.message
    let first : List Finding := [⟨"x 3 ".toList ++ message, 4, .lineEndingNotLf⟩, ⟨[], 3, .notUtf8⟩]
    let second : List Finding := [⟨"x".toList, 3, .lineEndingNotLf⟩, ⟨message, 4, .lineEndingNotLf⟩]
    (∀ finding ∈ first, '\n' ∉ finding.file) ∧ (∀ finding ∈ second, '\n' ∉ finding.file) ∧
      report first ≠ report second := by
  intro message first second
  have plain : ∀ finding ∈ first, '\n' ∉ finding.file := by decide
  have plainOther : ∀ finding ∈ second, '\n' ∉ finding.file := by decide
  refine ⟨plain, plainOther, fun same => ?_⟩
  exact absurd ((report_eq_iff plain plainOther).1 same) (by decide)

end DocLint
