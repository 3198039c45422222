import DocLint.Proofs.Lines.Seam
import Mathlib.Data.List.Basic
import Mathlib.Data.List.TakeWhile

/-!
# The lines of a text are the only ones

Texts can be the lines of one text if each of them holds no line end but its own, only the last is
without one, and none that ends in CR stands before one that begins with LF (`AreLines`). These
conditions leave no choice: among all lists of texts that make a given text when put together,
exactly one meets them, and splitting finds it. Main statement: `splitLines_eq_iff`.
-/

namespace DocLint

namespace Text

variable {line : Text}

/-- What can stand at the end of a line: a line end, or nothing. -/
def endings : List Text :=
  [['\n'], ['\r', '\n'], ['\r'], []]

/-- Whether a line is a body without LF and CR, followed by an ending. -/
def HasEnding (line ending : Text) : Prop :=
  ∃ body, line = body ++ ending ∧ '\n' ∉ body ∧ '\r' ∉ body

/-- The part of a line from its first LF or CR on. -/
def ending (line : Text) : Text :=
  line.dropWhile fun char => char ≠ '\n' ∧ char ≠ '\r'

theorem ending_cons {char : Char} (notLf : char ≠ '\n') (notCr : char ≠ '\r') (line : Text) :
    ending (char :: line) = line.ending := by
  simp [ending, notLf, notCr]

theorem ending_append {body : Text} (noLf : '\n' ∉ body) (noCr : '\r' ∉ body) (line : Text) :
    ending (body ++ line) = line.ending := by
  induction body with
  | nil => rfl
  | cons char body ih =>
      rw [List.mem_cons, not_or] at noLf noCr
      rw [List.cons_append, ending_cons (Ne.symm noLf.1) (Ne.symm noCr.1), ih noLf.2 noCr.2]

/-- The ending of a line is found by its first LF or CR. -/
theorem hasEnding_iff {ending : Text} (among : ending ∈ endings) :
    line.HasEnding ending ↔ line.ending = ending := by
  constructor
  · intro given
    obtain ⟨body, rfl, noLf, noCr⟩ := given
    rw [ending_append noLf noCr]
    have whole : ∀ ending ∈ endings, Text.ending ending = ending := by decide
    exact whole ending among
  · intro same
    refine ⟨line.takeWhile fun char => char ≠ '\n' ∧ char ≠ '\r', ?_, ?_, ?_⟩
    · rw [← same, Text.ending, List.takeWhile_append_dropWhile]
    · exact fun member => by simpa using List.mem_takeWhile_imp member
    · exact fun member => by simpa using List.mem_takeWhile_imp member

end Text

/-- Whether texts can be the lines of one text, in their order. -/
structure AreLines (lines : List Text) : Prop where
  /-- No line is empty. -/
  filled : ∀ line ∈ lines, line ≠ []
  /-- A line is a body and an ending. -/
  ended : ∀ line ∈ lines, ∃ ending ∈ Text.endings, line.HasEnding ending
  /-- Only the last line is without a line end. -/
  closed : ∀ line ∈ lines.dropLast, ¬ line.HasEnding []
  /-- After a line that ends in CR alone no line begins with LF. -/
  apart : ∀ line next, [line, next] <:+: lines → line.HasEnding ['\r'] → next.head? ≠ some '\n'

/-- Whether a line can be in front of others: it has an ending, which is left out only if there
are no others, and which the first of them does not complete. -/
structure StandsBefore (rest : List Text) (line : Text) : Prop where
  filled : line ≠ []
  ended : line.ending ∈ Text.endings
  closed : line.ending = [] → rest = []
  apart : line.ending = ['\r'] → ∀ next, rest.head? = some next → next.head? ≠ some '\n'

namespace AreLines

variable {line : Text} {lines rest : List Text}

theorem nil : AreLines [] where
  filled := by simp
  ended := by simp
  closed := by simp
  apart := by simp

theorem tail (given : AreLines (line :: rest)) : AreLines rest where
  filled later member := given.filled later (List.mem_cons_of_mem _ member)
  ended later member := given.ended later (List.mem_cons_of_mem _ member)
  closed later member := by
    apply given.closed later
    rw [List.dropLast_cons_of_ne_nil (by rintro rfl; simp at member)]
    exact List.mem_cons_of_mem _ member
  apart later next pair := given.apart later next (List.infix_cons pair)

theorem standsBefore (given : AreLines (line :: rest)) : StandsBefore rest line where
  filled := given.filled line (by simp)
  ended := by
    obtain ⟨ending, among, ends⟩ := given.ended line (by simp)
    rwa [(Text.hasEnding_iff among).1 ends]
  closed opened := by
    cases rest with
    | nil => rfl
    | cons next rest =>
        have ends := (Text.hasEnding_iff (by decide)).2 opened
        exact absurd ends (given.closed line (by simp))
  apart cr next follows := by
    obtain ⟨others, rfl⟩ := List.head?_eq_some_iff.1 follows
    exact given.apart line next ⟨[], others, rfl⟩ ((Text.hasEnding_iff (by decide)).2 cr)

theorem cons (stands : StandsBefore rest line) (onward : AreLines rest) :
    AreLines (line :: rest) where
  filled := List.forall_mem_cons.2 ⟨stands.filled, onward.filled⟩
  ended := by
    rw [List.forall_mem_cons]
    exact ⟨⟨line.ending, stands.ended, (Text.hasEnding_iff stands.ended).2 rfl⟩, onward.ended⟩
  closed := by
    by_cases last : rest = []
    · simp [last]
    · rw [List.dropLast_cons_of_ne_nil last, List.forall_mem_cons, Text.hasEnding_iff (by decide)]
      exact ⟨mt stands.closed last, onward.closed⟩
  apart first next pair lone := by
    rw [List.infix_cons_iff, List.cons_prefix_cons, List.singleton_prefix_iff_head?_eq_some] at pair
    rcases pair with ⟨rfl, follows⟩ | later
    · exact stands.apart ((Text.hasEnding_iff (by decide)).1 lone) next follows
    · exact onward.apart first next later lone

end AreLines

namespace Text

variable {text line : Text}

theorem lines_eq_singleton (filled : line ≠ []) (ended : line.ending ∈ endings) :
    line.lines = [line] := by
  induction line with
  | nil => exact absurd rfl filled
  | cons char rest ih =>
      by_cases inside : char ≠ '\n' ∧ char ≠ '\r'
      · have goesOn : ¬ endsLine char rest := by simp [endsLine_iff, inside]
        by_cases last : rest = []
        · rw [last, lines_singleton]
        · rw [ending_cons inside.1 inside.2] at ended
          rw [lines, if_neg goesOn, ih last ended]
          rfl
      · have whole : ending (char :: rest) = char :: rest := by simp [ending, inside]
        have single : ∀ ending ∈ endings, ending ≠ [] → ending.lines = [ending] := by decide
        rw [whole] at ended
        exact single _ ended filled

theorem getLast?_of_ending (present : line.ending ≠ []) :
    line.getLast? = line.ending.getLast? := by
  have whole := List.takeWhile_append_dropWhile
    (p := fun char : Char => char ≠ '\n' ∧ char ≠ '\r') (l := line)
  exact (congrArg List.getLast? whole).symm.trans (List.getLast?_append_of_ne_nil _ present)

/-- A line that can stand before others ends there. -/
theorem endsBetween_of_standsBefore {rest : List Text} (stands : StandsBefore rest line)
    (onward : AreLines rest) : line.EndsBetween rest.flatten := by
  have ended := stands.ended
  simp only [endings, List.mem_cons, List.not_mem_nil, or_false] at ended
  rcases ended with lf | crLf | cr | opened
  · refine Or.inr (Or.inr (Or.inl ?_))
    rw [getLast?_of_ending (by simp [lf]), lf, List.getLast?_singleton]
  · refine Or.inr (Or.inr (Or.inl ?_))
    rw [getLast?_of_ending (by simp [crLf]), crLf, List.getLast?_cons_cons,
      List.getLast?_singleton]
  · cases rest with
    | nil => exact Or.inr (Or.inl rfl)
    | cons next rest =>
        have other := stands.apart cr next rfl
        have filled := onward.filled next (by simp)
        refine Or.inr (Or.inr (Or.inr ⟨?_, ?_⟩))
        · rw [getLast?_of_ending (by simp [cr]), cr, List.getLast?_singleton]
        · rw [List.head?_eq_some_head filled] at other
          rwa [List.flatten_cons, List.head?_append, List.head?_eq_some_head filled,
            Option.some_or]
  · rw [stands.closed opened]
    exact Or.inr (Or.inl rfl)

/-- A character that ends a line stands before the lines of the text that follows. -/
theorem standsBefore_singleton {char : Char} (ends : endsLine char text) :
    StandsBefore text.lines [char] := by
  have whole : ending [char] = [char] ∧ [char] ∈ endings := by
    rcases endsLine_iff.1 ends with rfl | ⟨rfl, _⟩
    · decide
    · decide
  refine ⟨by simp, whole.1.symm ▸ whole.2, by simp [whole.1], ?_⟩
  intro cr next follows
  obtain ⟨others, found⟩ := List.head?_eq_some_iff.1 follows
  rw [head?_of_lines_eq_cons found]
  rcases endsLine_iff.1 ends with rfl | ⟨_, other⟩
  · exact absurd (whole.1.symm.trans cr) (by decide)
  · exact other

theorem standsBefore_nil {char : Char} (goesOn : ¬ endsLine char []) :
    StandsBefore [] [char] := by
  simp only [endsLine_iff, List.head?_nil, ne_eq, reduceCtorEq, not_false_eq_true, and_true,
    not_or] at goesOn
  have opened : ending [char] = [] := ending_cons goesOn.1 goesOn.2 []
  exact ⟨by simp, by simp [opened, endings], fun _ => rfl, by simp [opened]⟩

/-- A character that does not end a line can be in front of the first. -/
theorem standsBefore_cons {char : Char} {line : Text} {others : List Text}
    (goesOn : ¬ endsLine char text) (found : text.lines = line :: others)
    (stands : StandsBefore others line) : StandsBefore others (char :: line) := by
  by_cases cr : char = '\r'
  · subst cr
    obtain rfl := eq_lf_of_cr_goesOn goesOn found
    have whole : ending ['\r', '\n'] = ['\r', '\n'] := rfl
    exact ⟨by simp, by decide, by simp [whole], by simp [whole]⟩
  · have same := ending_cons (ne_lf_of_goesOn goesOn) cr line
    exact ⟨by simp, same ▸ stands.ended, same ▸ stands.closed, same ▸ stands.apart⟩

theorem areLines_lines (text : Text) : AreLines text.lines := by
  induction text with
  | nil => exact AreLines.nil
  | cons char rest ih =>
      rcases lines_cons_cases char rest with
        ⟨ends, split⟩ | ⟨goesOn, ⟨rfl, split⟩ | ⟨line, others, found, heads, split⟩⟩
      · rw [split]
        exact AreLines.cons (standsBefore_singleton ends) ih
      · rw [split]
        exact AreLines.cons (standsBefore_nil goesOn) AreLines.nil
      · rw [found] at ih
        rw [split]
        exact AreLines.cons (standsBefore_cons goesOn found ih.standsBefore) ih.tail

/-- Lines are the lines of the text that they make when they are put together. -/
theorem lines_flatten {lines : List Text} (given : AreLines lines) :
    Text.lines lines.flatten = lines := by
  induction lines with
  | nil => rfl
  | cons line rest ih =>
      have stands := given.standsBefore
      have ends := endsBetween_of_standsBefore stands given.tail
      rcases lines_append_cases line rest.flatten with ⟨_, whole⟩ | ⟨goesOn, _⟩
      · rw [List.flatten_cons, whole, lines_eq_singleton stands.filled stands.ended, ih given.tail]
        rfl
      · exact absurd ends goesOn

end Text

/-- **Splitting finds the one way to cut a text into lines.** What it finds are lines, which put
together are the text, and no other lines are the text when they are put together. -/
theorem splitLines_eq_iff (text : Text) (lines : List Text) :
    splitLines text = lines ↔ AreLines lines ∧ lines.flatten = text := by
  rw [splitLines_eq_lines]
  constructor
  · intro found
    subst found
    exact ⟨text.areLines_lines, text.flatten_lines⟩
  · intro given
    obtain ⟨areLines, whole⟩ := given
    rw [← whole, Text.lines_flatten areLines]

end DocLint
