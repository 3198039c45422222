import DocLint.Rule
import Mathlib.Logic.Basic

/-!
# Where the rules find something

Each rule is described by the lines that it reports, without the way in which it goes through
them: the first line of a kind, every line of a kind, every line of a kind after another such
line, or the last line. `mem_checkLines_iff` puts these descriptions together.
-/

namespace DocLint

/-- Whether a violation is there at the line with an index, which is counted from zero. -/
def Violation.At (lines : List Text) (index : Nat) : Violation → Prop
  | .notUtf8 => False
  | .lineEndingNotLf =>
      (∃ line, lines[index]? = some line ∧ (¬ ['\n'] <:+ line ∨ ['\r', '\n'] <:+ line)) ∧
        ∀ earlier < index, ∀ line, lines[earlier]? = some line →
          ['\n'] <:+ line ∧ ¬ ['\r', '\n'] <:+ line
  | .fullWidth kind => ∃ line, lines[index]? = some line ∧ ∃ char ∈ line, kind.chars.contains char
  | .repeatedSpaces => ∃ line, lines[index]? = some line ∧ [' ', ' '] <:+: line
  | .repeatedBlankLines =>
      ∃ before previous line, index = before + 1 ∧ lines[before]? = some previous ∧
        lines[index]? = some line ∧ (∀ char ∈ previous, whiteSpace.contains char) ∧
          ∀ char ∈ line, whiteSpace.contains char
  | .missingFinalNewline =>
      ∃ line, lines[index]? = some line ∧ lines.length = index + 1 ∧ ¬ ['\n'] <:+ line

theorem Violation.At.lt_length {violation : Violation} {lines : List Text} {index : Nat}
    (there : violation.At lines index) : index < lines.length := by
  cases violation with
  | notUtf8 => exact there.elim
  | lineEndingNotLf =>
      obtain ⟨⟨line, found, _⟩, _⟩ := there
      exact (List.getElem?_eq_some_iff.1 found).1
  | fullWidth kind =>
      obtain ⟨line, found, _⟩ := there
      exact (List.getElem?_eq_some_iff.1 found).1
  | repeatedSpaces =>
      obtain ⟨line, found, _⟩ := there
      exact (List.getElem?_eq_some_iff.1 found).1
  | repeatedBlankLines =>
      obtain ⟨before, previous, line, _, _, found, _⟩ := there
      exact (List.getElem?_eq_some_iff.1 found).1
  | missingFinalNewline =>
      obtain ⟨line, found, _⟩ := there
      exact (List.getElem?_eq_some_iff.1 found).1

namespace Text

theorem endsInLf_iff (line : Text) : line.endsInLf ↔ ['\n'] <:+ line := by
  simp [endsInLf, List.singleton_suffix_iff_getLast?_eq_some]

theorem endsInLoneLf_iff (line : Text) :
    line.endsInLoneLf ↔ ['\n'] <:+ line ∧ ¬ ['\r', '\n'] <:+ line := by
  rw [endsInLoneLf, Bool.and_eq_true, Bool.not_eq_true', ← Bool.not_eq_true, endsInLf_iff,
    endsInCrLf, List.isSuffixOf_iff_suffix]

theorem hasRepeatedSpace_iff (line : Text) : line.hasRepeatedSpace ↔ [' ', ' '] <:+: line := by
  induction line with
  | nil => simp [hasRepeatedSpace]
  | cons char rest ih =>
      have begins : [' ', ' '] <+: char :: rest ↔ char = ' ' ∧ rest.head? = some ' ' := by
        rw [List.cons_prefix_cons, List.singleton_prefix_iff_head?_eq_some, eq_comm]
      rw [hasRepeatedSpace, List.infix_cons_iff, begins, ← ih]
      simp

theorem isBlank_iff (line : Text) : line.isBlank ↔ ∀ char ∈ line, whiteSpace.contains char := by
  simp [isBlank]

end Text

theorem CharClass.occursIn_iff (cls : CharClass) (text : Text) :
    cls.occursIn text ↔ ∃ char ∈ text, cls.contains char := by
  simp [occursIn]

namespace Rule

variable {file : Text} {lines : List Text} {finding : Finding}

theorem mem_findingsWhere_iff {violation : Violation} {test : Text → Bool} :
    finding ∈ findingsWhere file violation test lines ↔
      ∃ index line, lines[index]? = some line ∧ test line ∧
        finding = ⟨file, index + 1, violation⟩ := by
  unfold findingsWhere
  simp only [List.mem_map, List.mem_filter, Prod.exists]
  constructor
  · intro there
    obtain ⟨line, number, ⟨member, passed⟩, rfl⟩ := there
    obtain ⟨least, found⟩ := List.mk_mem_zipIdx_iff_le_and_getElem?_sub.1 member
    exact ⟨number - 1, line, found, passed, by simp [Nat.sub_add_cancel least]⟩
  · intro there
    obtain ⟨index, line, found, passed, rfl⟩ := there
    refine ⟨line, index + 1, ⟨?_, passed⟩, rfl⟩
    exact List.mk_mem_zipIdx_iff_le_and_getElem?_sub.2 ⟨by omega, by simpa using found⟩

theorem findIdx?_lineEnding_iff (index : Nat) :
    lines.findIdx? (fun line => !line.endsInLoneLf) = some index ↔
      Violation.lineEndingNotLf.At lines index := by
  have wrong (line : Text) : (!line.endsInLoneLf) = true ↔
      ¬ ['\n'] <:+ line ∨ ['\r', '\n'] <:+ line := by
    rw [Bool.not_eq_true', ← Bool.not_eq_true, Text.endsInLoneLf_iff, not_and_or, not_not]
  rw [List.findIdx?_eq_some_iff_getElem]
  constructor
  · intro there
    obtain ⟨inside, found, least⟩ := there
    refine ⟨⟨lines[index], List.getElem?_eq_getElem inside, (wrong _).1 found⟩, ?_⟩
    intro earlier before line stands
    obtain ⟨_, rfl⟩ := List.getElem?_eq_some_iff.1 stands
    have right := least earlier before
    rwa [Bool.not_eq_true, Bool.not_eq_false', Text.endsInLoneLf_iff] at right
  · intro there
    obtain ⟨⟨line, found, ends⟩, least⟩ := there
    obtain ⟨inside, rfl⟩ := List.getElem?_eq_some_iff.1 found
    refine ⟨inside, (wrong _).2 ends, ?_⟩
    intro earlier before
    rw [Bool.not_eq_true, Bool.not_eq_false', Text.endsInLoneLf_iff]
    exact least earlier before _ (List.getElem?_eq_getElem _)

theorem mem_checkLineEnding_iff : finding ∈ checkLineEnding file lines ↔
    ∃ index, Violation.lineEndingNotLf.At lines index ∧
      finding = ⟨file, index + 1, .lineEndingNotLf⟩ := by
  unfold checkLineEnding
  cases found : lines.findIdx? (fun line => !line.endsInLoneLf) with
  | none => simp [← findIdx?_lineEnding_iff, found]
  | some index => simp [← findIdx?_lineEnding_iff, found]

theorem mem_checkFullWidth_iff : finding ∈ checkFullWidth file lines ↔
    ∃ kind index, (Violation.fullWidth kind).At lines index ∧
      finding = ⟨file, index + 1, .fullWidth kind⟩ := by
  have complete (kind : FullWidth) : kind ∈ FullWidth.all := by cases kind <;> decide
  simp only [checkFullWidth, List.mem_mergeSort, List.mem_flatMap, complete, true_and,
    mem_findingsWhere_iff, CharClass.occursIn_iff, Violation.At]
  constructor
  · intro there
    obtain ⟨kind, index, line, found, holds, rfl⟩ := there
    exact ⟨kind, index, ⟨line, found, holds⟩, rfl⟩
  · intro there
    obtain ⟨kind, index, ⟨line, found, holds⟩, rfl⟩ := there
    exact ⟨kind, index, line, found, holds, rfl⟩

theorem mem_checkRepeatedSpaces_iff : finding ∈ checkRepeatedSpaces file lines ↔
    ∃ index, Violation.repeatedSpaces.At lines index ∧
      finding = ⟨file, index + 1, .repeatedSpaces⟩ := by
  simp only [checkRepeatedSpaces, mem_findingsWhere_iff, Text.hasRepeatedSpace_iff, Violation.At]
  constructor
  · intro there
    obtain ⟨index, line, found, holds, rfl⟩ := there
    exact ⟨index, ⟨line, found, holds⟩, rfl⟩
  · intro there
    obtain ⟨index, ⟨line, found, holds⟩, rfl⟩ := there
    exact ⟨index, line, found, holds, rfl⟩

/-- The run of blank lines that is counted matters only in being empty or not, which the line
before tells. -/
theorem reverse_blankLinesFrom {run : Nat} {previous : Text} (counted : run ≠ 0 ↔ previous.isBlank)
    (number : Nat) :
    (blankLinesFrom file run number [] lines).reverse =
      ((((previous :: lines).zip lines).zipIdx number).filter fun pair =>
        pair.1.1.isBlank && pair.1.2.isBlank).map fun pair =>
          ⟨file, pair.2, .repeatedBlankLines⟩ := by
  induction lines generalizing run number previous with
  | nil => rfl
  | cons line rest ih =>
      rw [List.zip_cons_cons, List.zipIdx_cons, List.filter_cons]
      by_cases blank : line.isBlank
      · have onward := @ih (run + 1) line (by simp [blank]) (number + 1)
        by_cases empty : run = 0
        · have fresh : previous.isBlank = false := by simpa [empty] using counted
          simp [blankLinesFrom, blank, empty, fresh, ← onward]
        · have going : previous.isBlank := counted.1 empty
          rw [blankLinesFrom, if_pos blank, blankLinesFrom_eq_append]
          simp [blank, empty, going, onward]
      · have onward := @ih 0 line (by simp [blank]) (number + 1)
        simp [blankLinesFrom, blank, onward]

theorem checkBlankLines_eq (file : Text) (lines : List Text) :
    checkBlankLines file lines =
      (((lines.zip lines.tail).zipIdx 2).filter fun pair =>
        pair.1.1.isBlank && pair.1.2.isBlank).map fun pair =>
          ⟨file, pair.2, .repeatedBlankLines⟩ := by
  unfold checkBlankLines
  cases lines with
  | nil => rfl
  | cons line rest =>
      by_cases blank : line.isBlank
      · simpa [blankLinesFrom, blank] using reverse_blankLinesFrom (by simp [blank]) 2
      · simpa [blankLinesFrom, blank] using reverse_blankLinesFrom (by simp [blank]) 2

theorem mem_checkBlankLines_iff : finding ∈ checkBlankLines file lines ↔
    ∃ index, Violation.repeatedBlankLines.At lines index ∧
      finding = ⟨file, index + 1, .repeatedBlankLines⟩ := by
  simp only [checkBlankLines_eq, List.mem_map, List.mem_filter, Prod.exists, Bool.and_eq_true,
    Text.isBlank_iff, Violation.At]
  constructor
  · intro there
    obtain ⟨previous, line, number, ⟨member, blank⟩, rfl⟩ := there
    obtain ⟨least, found⟩ := List.mk_mem_zipIdx_iff_le_and_getElem?_sub.1 member
    obtain ⟨before, after⟩ := List.getElem?_zip_eq_some.1 found
    refine ⟨number - 1, ⟨number - 2, previous, line, by omega, before, ?_, blank⟩, ?_⟩
    · rw [← after, List.getElem?_tail]
      congr 1
      omega
    · congr 1
      omega
  · intro there
    obtain ⟨index, ⟨before, previous, line, rfl, found, after, blank⟩, rfl⟩ := there
    refine ⟨previous, line, before + 2, ⟨?_, blank⟩, rfl⟩
    refine List.mk_mem_zipIdx_iff_le_and_getElem?_sub.2 ⟨by omega, ?_⟩
    rw [Nat.add_sub_cancel, List.getElem?_zip_eq_some, List.getElem?_tail]
    exact ⟨found, after⟩

theorem mem_checkFinalNewline_iff : finding ∈ checkFinalNewline file lines ↔
    ∃ index, Violation.missingFinalNewline.At lines index ∧
      finding = ⟨file, index + 1, .missingFinalNewline⟩ := by
  unfold checkFinalNewline
  cases last : lines.getLast? with
  | none =>
      obtain rfl := List.getLast?_eq_none_iff.1 last
      simp [Violation.At]
  | some line =>
      obtain ⟨earlier, rfl⟩ := List.getLast?_eq_some_iff.1 last
      have atLast (index : Nat) : Violation.missingFinalNewline.At (earlier ++ [line]) index ↔
          index = earlier.length ∧ ¬ ['\n'] <:+ line := by
        constructor
        · intro there
          obtain ⟨other, found, length, wrong⟩ := there
          obtain rfl : index = earlier.length := by simpa [eq_comm] using length
          obtain rfl : line = other := by simpa using found
          exact ⟨rfl, wrong⟩
        · intro there
          obtain ⟨rfl, wrong⟩ := there
          exact ⟨line, by simp, by simp, wrong⟩
      by_cases ends : line.endsInLf
      · simp [atLast, ends, (Text.endsInLf_iff line).1 ends]
      · simp [atLast, ends, mt (Text.endsInLf_iff line).2 ends]

end Rule

/-- The rules find exactly the violations that are there. -/
theorem mem_checkLines_iff {file : Text} {lines : List Text} {finding : Finding} :
    finding ∈ checkLines file lines ↔
      finding.file = file ∧ ∃ index, finding.line = index + 1 ∧
        finding.violation.At lines index := by
  obtain ⟨name, number, violation⟩ := finding
  simp only [checkLines, Rule.all, List.flatMap_cons, List.flatMap_nil, List.mem_append,
    List.not_mem_nil, or_false, Rule.check, Rule.mem_checkLineEnding_iff,
    Rule.mem_checkFullWidth_iff, Rule.mem_checkRepeatedSpaces_iff, Rule.mem_checkBlankLines_iff,
    Rule.mem_checkFinalNewline_iff, Finding.mk.injEq]
  cases violation with
  | notUtf8 => simp [Violation.At]
  | _ => grind

end DocLint
