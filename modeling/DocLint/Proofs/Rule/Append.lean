import DocLint.Proofs.Rule.Each

/-!
# Lines put together

What is found in two lists of lines, one after the other, is what is found in each of them, with
the numbers of the second moved on. A rule that looks at each line by itself has nothing to add;
the other ones meet where the lists meet. The first line that ends wrongly hides those of the
second list, a blank line there can follow one of the first list, and only the last line of all
can lack its end. Main statement: `checkLines_append`.
-/

namespace DocLint

theorem Finding.map_shift_zero (findings : List Finding) : findings.map (shift 0) = findings :=
  List.map_id findings

/-! ## Items side by side -/

section Adjacent

variable {α : Type}

theorem length_adjacent_concat (before : List α) (last : α) :
    (adjacent (before ++ [last])).length = before.length := by
  simp [adjacent]

/-- Where two lists meet, one more pair stands side by side. -/
theorem adjacent_append (before rest : List α) (last first : α) :
    adjacent (before ++ last :: first :: rest) =
      adjacent (before ++ [last]) ++ (last, first) :: adjacent (first :: rest) := by
  induction before with
  | nil => rfl
  | cons item before ih =>
      cases before with
      | nil => rfl
      | cons next before => exact congrArg ((item, next) :: ·) ih

end Adjacent

namespace Rule

variable (file : Text) (first second : List Text)

/-- A line that ends wrongly hides all that follow. -/
theorem checkLineEnding_append :
    checkLineEnding file (first ++ second) =
      if checkLineEnding file first = [] then
        (checkLineEnding file second).map (Finding.shift first.length)
      else checkLineEnding file first := by
  unfold checkLineEnding
  rw [List.findIdx?_append]
  cases first.findIdx? (fun line => !line.endsInLoneLf) with
  | some index => simp
  | none =>
      cases second.findIdx? (fun line => !line.endsInLoneLf) with
      | none => simp
      | some index => simp [Finding.shift, Nat.add_right_comm]

private theorem findEach_one_append (found : Text → List Violation) :
    findEach file found 1 (first ++ second) =
      findEach file found 1 first ++
        (findEach file found 1 second).map (Finding.shift first.length) := by
  rw [findEach_append, findEach_add]

theorem checkFullWidth_append :
    checkFullWidth file (first ++ second) =
      checkFullWidth file first ++
        (checkFullWidth file second).map (Finding.shift first.length) := by
  simp only [checkFullWidth_eq_findEach]
  exact findEach_one_append file first second fullWidthIn

theorem checkRepeatedSpaces_append :
    checkRepeatedSpaces file (first ++ second) =
      checkRepeatedSpaces file first ++
        (checkRepeatedSpaces file second).map (Finding.shift first.length) := by
  simp only [checkRepeatedSpaces_eq_findEach]
  exact findEach_one_append file first second _

/-- The first line of the second list can be a blank line after a blank line. -/
theorem checkBlankLines_append :
    checkBlankLines file (first ++ second) =
      checkBlankLines file first ++
        (if first.getLast?.any Text.isBlank && second.head?.any Text.isBlank then
          [⟨file, first.length + 1, .repeatedBlankLines⟩] else []) ++
        (checkBlankLines file second).map (Finding.shift first.length) := by
  rcases List.eq_nil_or_concat' first with rfl | ⟨before, last, rfl⟩
  · rw [List.length_nil, Finding.map_shift_zero]
    rfl
  · cases second with
    | nil => simp [checkBlankLines, blankLinesFrom]
    | cons line rest =>
        have onward : 2 + before.length + 1 = 2 + (before ++ [last]).length := by simp; omega
        have here : 2 + before.length = (before ++ [last]).length + 1 := by simp; omega
        rw [List.append_assoc, List.singleton_append]
        simp only [checkBlankLines_eq_findEach]
        rw [adjacent_append, findEach_append, length_adjacent_concat, findEach, onward,
          findEach_add, here]
        by_cases blank : last.isBlank && line.isBlank
        · simp [blank]
        · simp [blank]

/-- Only the last line of all can lack its end. -/
theorem checkFinalNewline_append :
    checkFinalNewline file (first ++ second) =
      if second = [] then checkFinalNewline file first
      else (checkFinalNewline file second).map (Finding.shift first.length) := by
  by_cases empty : second = []
  · rw [if_pos empty, empty, List.append_nil]
  · rw [if_neg empty, checkFinalNewline, checkFinalNewline, List.getLast?_append_of_ne_nil _ empty,
      List.getLast?_eq_some_getLast empty]
    by_cases ends : (second.getLast empty).endsInLf
    · simp [ends]
    · simp [ends, Finding.shift, Nat.add_comm]

end Rule

/-- **What is found in lines put together.** The findings in the second list keep their order and
have their line numbers moved on by the length of the first, and rule by rule they follow those in
the first list. One finding is added if the first list ends and the second begins with a blank
line. Nothing about line ends is found in the second list if something is in the first, and nothing
is missing at the end of the first list if there is a second. -/
theorem checkLines_append (file : Text) (first second : List Text) :
    let before (rule : Rule) := rule.check file first
    let after (rule : Rule) := (rule.check file second).map (Finding.shift first.length)
    checkLines file (first ++ second) =
      (if before .lineEnding = [] then after .lineEnding else before .lineEnding) ++
      (before .fullWidth ++ after .fullWidth) ++
      (before .repeatedSpaces ++ after .repeatedSpaces) ++
      (before .blankLines ++
        (if first.getLast?.any Text.isBlank && second.head?.any Text.isBlank then
          [⟨file, first.length + 1, .repeatedBlankLines⟩] else []) ++
        after .blankLines) ++
      (if second = [] then before .finalNewline else after .finalNewline) := by
  intro before after
  rw [checkLines_eq_stages, Rule.checkLineEnding_append, Rule.checkFullWidth_append,
    Rule.checkRepeatedSpaces_append, Rule.checkBlankLines_append, Rule.checkFinalNewline_append]
  rfl

end DocLint
