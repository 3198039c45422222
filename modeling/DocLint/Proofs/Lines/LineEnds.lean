import DocLint.Proofs.Lines.Numbers
import DocLint.Proofs.Lines.UnixEnds
import Mathlib.Data.List.TakeWhile

/-!
# Line ends that are wrong or missing

What the two rules about line ends find in the lines of a text can be told from the text. Before
its first CR all lines end in LF, so that the first line that does not is found by the LFs up to
there (`Text.findIdx?_lines`), and the last line ends as the text does. How many lines there are is
told by the terminators (`Text.length_lines`). Main statement: `filter_checkLines_splitLines`.
-/

namespace DocLint

namespace Text

variable {text : Text}

/-- A line ends in LF alone if LF is the whole of its ending. -/
theorem HasEnding.endsInLoneLf_iff {line ending : Text} (among : ending ∈ endings)
    (ends : line.HasEnding ending) : line.endsInLoneLf ↔ ending = ['\n'] := by
  obtain ⟨body, rfl, noLf, noCr⟩ := ends
  rw [Text.endsInLoneLf_iff]
  simp only [endings, List.mem_cons, List.not_mem_nil, or_false] at among
  rcases among with rfl | rfl | rfl | rfl
  · refine iff_of_true ⟨List.suffix_append _ _, fun pair => noCr ?_⟩ rfl
    obtain ⟨front, split⟩ := pair
    have whole : (front ++ ['\r']) ++ ['\n'] = body ++ ['\n'] := by simpa using split
    rw [← List.append_cancel_right whole]
    simp
  · exact iff_of_false (fun there => there.2 (List.suffix_append _ _)) (by decide)
  · exact iff_of_false (fun there => by simp [List.singleton_suffix_iff_getLast?_eq_some] at there)
      (by decide)
  · refine iff_of_false (fun there => noLf ?_) (by decide)
    rw [List.append_nil] at there
    exact there.1.subset (List.mem_singleton_self _)

/-- Of lines, those before the first that does not end in LF alone have one LF each, and then a
CR comes before the next LF. -/
theorem eq_count_of_findIdx? {lines : List Text} (areLines : AreLines lines) {index : Nat}
    (found : lines.findIdx? (fun line => !line.endsInLoneLf) = some index) :
    index = (lines.flatten.takeWhile (· ≠ '\r')).count '\n' := by
  induction lines generalizing index with
  | nil => simp at found
  | cons line rest ih =>
      obtain ⟨ending, among, ends⟩ := areLines.ended line (by simp)
      have lone := ends.endsInLoneLf_iff among
      have same := (hasEnding_iff among).1 ends
      obtain ⟨body, rfl, noLf, noCr⟩ := ends
      have passed (later : Text) : ((body ++ later).takeWhile (· ≠ '\r')).count '\n' =
          (later.takeWhile (· ≠ '\r')).count '\n' := by
        rw [List.takeWhile_append_of_pos (by grind), List.count_append,
          List.count_eq_zero_of_not_mem noLf, Nat.zero_add]
      rw [List.flatten_cons, List.append_assoc, passed]
      by_cases right : ending = ['\n']
      · rw [List.findIdx?_cons, lone.2 right, if_neg (by decide)] at found
        obtain ⟨earlier, onward, rfl⟩ := Option.map_eq_some_iff.1 found
        rw [ih areLines.tail onward, right]
        simp
      · rw [List.findIdx?_cons, Bool.eq_false_iff.2 (mt lone.1 right), if_pos (by decide)] at found
        rw [← Option.some.inj found]
        simp only [endings, List.mem_cons, List.not_mem_nil, or_false] at among
        rcases among with rfl | rfl | rfl | rfl
        · exact absurd rfl right
        · simp
        · simp
        · simp [areLines.standsBefore.closed same]

theorem findIdx?_lines (text : Text) :
    text.lines.findIdx? (fun line => !line.endsInLoneLf) =
      if '\r' ∈ text ∨ text ≠ [] ∧ text.getLast? ≠ some '\n' then
        some ((text.takeWhile (· ≠ '\r')).count '\n') else none := by
  have clean : (∀ line ∈ text.lines, (!line.endsInLoneLf) = false) ↔
      ¬ ('\r' ∈ text ∨ text ≠ [] ∧ text.getLast? ≠ some '\n') := by
    simp only [Bool.not_eq_false', endsInLoneLf_iff]
    refine forall_lines_endsInLoneLf_iff.trans ?_
    rw [not_or, not_and_or, not_not, not_not]
  cases found : text.lines.findIdx? (fun line => !line.endsInLoneLf) with
  | none => rw [if_neg (clean.1 (List.findIdx?_eq_none_iff.1 found))]
  | some index =>
      have wrong : '\r' ∈ text ∨ text ≠ [] ∧ text.getLast? ≠ some '\n' := by
        apply Decidable.byContradiction
        intro right
        rw [List.findIdx?_eq_none_iff.2 (clean.2 right)] at found
        exact absurd found (by simp)
      have place := eq_count_of_findIdx? (areLines_lines text) found
      rw [flatten_lines] at place
      rw [if_pos wrong, place]

theorem count_lt_length_lines (wrong : '\r' ∈ text ∨ text ≠ [] ∧ text.getLast? ≠ some '\n') :
    (text.takeWhile (· ≠ '\r')).count '\n' < text.lines.length := by
  have found := findIdx?_lines text
  rw [if_pos wrong] at found
  obtain ⟨inside, _⟩ := List.findIdx?_eq_some_iff_getElem.1 found
  exact inside

/-- There is a line for each terminator, and one more if the text goes on after the last. -/
theorem length_lines (text : Text) :
    text.lines.length =
      (text.terminatorsUpTo text.length).card + if text.EndsOpen then 1 else 0 := by
  rw [card_terminatorsUpTo]
  induction text with
  | nil => rfl
  | cons char rest ih =>
      rw [List.length_cons, count_lineEnd_cons]
      rcases lines_cons_cases char rest with
        ⟨ends, split⟩ | ⟨goesOn, ⟨rfl, split⟩ | ⟨line, others, found, _, split⟩⟩
      · have same : EndsOpen (char :: rest) ↔ EndsOpen rest := by
          by_cases filled : rest = []
          · subst filled
            have closed : ¬ EndsOpen [char] := fun opened => endsOpen_singleton_iff.1 opened ends
            exact iff_of_false closed (by simp [EndsOpen])
          · exact endsOpen_cons_iff filled
        simp only [same, if_pos ends]
        rw [split, List.length_cons, ih, Nat.add_right_comm]
      · rw [split, if_neg goesOn, if_pos (endsOpen_singleton_iff.2 goesOn)]
        rfl
      · have filled := ne_nil_of_lines_eq_cons found
        simp only [endsOpen_cons_iff filled, if_neg goesOn, Nat.add_zero]
        rw [← ih, split, found, List.length_cons, List.length_cons]

end Text

namespace Rule

theorem checkLineEnding_lines (file text : Text) :
    checkLineEnding file text.lines =
      if '\r' ∈ text ∨ text ≠ [] ∧ text.getLast? ≠ some '\n' then
        [⟨file, (text.takeWhile (· ≠ '\r')).count '\n' + 1, .lineEndingNotLf⟩] else [] := by
  rw [checkLineEnding, Text.findIdx?_lines]
  by_cases wrong : '\r' ∈ text ∨ text ≠ [] ∧ text.getLast? ≠ some '\n'
  · rw [if_pos wrong, if_pos wrong]
  · rw [if_neg wrong, if_neg wrong]

theorem checkFinalNewline_lines (file text : Text) :
    checkFinalNewline file text.lines =
      if text ≠ [] ∧ text.getLast? ≠ some '\n' then
        [⟨file, text.lines.length, .missingFinalNewline⟩] else [] := by
  rcases List.eq_nil_or_concat' text.lines with none | ⟨before, last, split⟩
  · obtain rfl := Text.lines_eq_nil_iff.1 none
    rfl
  · have present : text ≠ [] := by
      rintro rfl
      simp [Text.lines] at split
    rw [split, checkFinalNewline_concat, Text.endsInLf, Text.getLast?_of_lines_eq_concat split]
    simp [present]

end Rule

/-- **What is wrong with the line ends of a text.** That a line does not end in LF alone is found
exactly if the text holds a CR or goes on after its last LF, once, and at the line after as many
LFs as stand before the first CR or, without CR, in the text. That the end of the last line is
missing is found exactly if the text goes on after its last LF, once, and at the last of its lines,
of which there is one for each terminator and one for what follows the last. Then the other finding
is there too, at no later line. -/
theorem filter_checkLines_splitLines (name text : Text) :
    let lines := splitLines text
    let wrong := (checkLines name lines).filter fun finding =>
      finding.violation = .lineEndingNotLf
    let missing := (checkLines name lines).filter fun finding =>
      finding.violation = .missingFinalNewline
    wrong = (if '\r' ∈ text ∨ text ≠ [] ∧ text.getLast? ≠ some '\n' then
        [⟨name, 1 + (if '\r' ∈ text then (text.takeWhile (· ≠ '\r')).count '\n'
          else text.count '\n'), .lineEndingNotLf⟩] else []) ∧
      missing = (if text ≠ [] ∧ text.getLast? ≠ some '\n' then
        [⟨name, lines.length, .missingFinalNewline⟩] else []) ∧
      lines.length =
        (text.terminatorsUpTo text.length).card + (if text.EndsOpen then 1 else 0) ∧
      ∀ last ∈ missing, ∃ first ∈ wrong, first.line ≤ last.line := by
  intro lines wrong missing
  have whole : lines = text.lines := splitLines_eq_lines text
  have first : wrong = Rule.checkLineEnding name text.lines := by
    rw [← whole]
    simp only [wrong, Violation.eq_lineEndingNotLf_iff]
    exact Rule.filter_stage .lineEnding name lines
  have last : missing = Rule.checkFinalNewline name text.lines := by
    rw [← whole]
    simp only [missing, Violation.eq_missingFinalNewline_iff]
    exact Rule.filter_stage .finalNewline name lines
  have count : (if '\r' ∈ text then (text.takeWhile (· ≠ '\r')).count '\n'
      else text.count '\n') = (text.takeWhile (· ≠ '\r')).count '\n' := by
    by_cases cr : '\r' ∈ text
    · rw [if_pos cr]
    · have all : text.takeWhile (· ≠ '\r') = text := by
        rw [List.takeWhile_eq_self_iff]
        intro char member
        exact decide_eq_true fun same => cr (same ▸ member)
      rw [if_neg cr, all]
  refine ⟨?_, ?_, ?_, ?_⟩
  · rw [first, Rule.checkLineEnding_lines, count, Nat.add_comm]
  · rw [last, Rule.checkFinalNewline_lines, whole]
  · rw [whole, Text.length_lines]
  · intro final member
    rw [last, Rule.checkFinalNewline_lines] at member
    by_cases opened : text ≠ [] ∧ text.getLast? ≠ some '\n'
    · rw [if_pos opened, List.mem_singleton] at member
      subst member
      rw [first, Rule.checkLineEnding_lines, if_pos (Or.inr opened)]
      exact ⟨_, List.mem_singleton_self _, Text.count_lt_length_lines (Or.inr opened)⟩
    · rw [if_neg opened] at member
      exact absurd member List.not_mem_nil

end DocLint
