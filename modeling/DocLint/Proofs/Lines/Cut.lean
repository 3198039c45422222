import DocLint.Lines.Universal

/-!
# What the lines of a text hold

The lines of a text, put together, are the text (`Text.flatten_lines`), so that every character
of it is in a line. A pair of characters that stand side by side is in one line as well, unless
the first of them ends a line (`Text.exists_pair_in_lines_iff`). All lines end in LF alone
exactly when the text has no CR and ends in LF (`Text.forall_lines_endsInLoneLf_iff`), and then they
are what cutting after each LF yields (`Text.lines_eq_cutAfterLf`).
-/

namespace DocLint

namespace Text

/-- A text cut after each LF. -/
def cutAfterLf : Text → List Text
  | [] => []
  | char :: rest =>
      if char = '\n' then [char] :: cutAfterLf rest
      else
        match cutAfterLf rest with
        | [] => [[char]]
        | line :: others => (char :: line) :: others

variable {text : Text}

theorem lines_eq_nil_iff : text.lines = [] ↔ text = [] := by
  constructor
  · intro none
    rw [← flatten_lines text, none, List.flatten_nil]
  · rintro rfl
    rfl

theorem ne_nil_of_lines_eq_cons {line : Text} {others : List Text}
    (found : text.lines = line :: others) : text ≠ [] := by
  intro empty
  rw [lines_eq_nil_iff.2 empty] at found
  exact List.cons_ne_nil _ _ found.symm

theorem ne_nil_of_mem_lines {line : Text} (member : line ∈ text.lines) : line ≠ [] := by
  induction text generalizing line with
  | nil => simp [lines] at member
  | cons char rest ih =>
      unfold lines at member
      split at member
      · rcases List.mem_cons.1 member with rfl | later
        · simp
        · exact ih later
      · cases found : lines rest with
        | nil => simp_all [prependLine]
        | cons first others =>
            rw [found] at member
            rcases List.mem_cons.1 member with rfl | later
            · simp
            · exact ih (by simp [found, later])

theorem head?_of_lines_eq_cons {line : Text} {others : List Text}
    (found : text.lines = line :: others) : line.head? = text.head? := by
  have present : line ≠ [] := ne_nil_of_mem_lines (by rw [found]; simp)
  have whole := flatten_lines text
  rw [found, List.flatten_cons] at whole
  rw [← whole, List.head?_append]
  cases line with
  | nil => exact absurd rfl present
  | cons char line => rfl

theorem getLast?_of_lines_eq_concat {before : List Text} {last : Text}
    (split : text.lines = before ++ [last]) : last.getLast? = text.getLast? := by
  have filled : last ≠ [] := @ne_nil_of_mem_lines text _ (by simp [split])
  have whole := flatten_lines text
  rw [split, List.flatten_append, List.flatten_singleton] at whole
  rw [← whole, List.getLast?_append, List.getLast?_eq_some_getLast filled, Option.some_or]

/-- A character in front of a text is a line, or is alone, or is in front of the first line. -/
theorem lines_cons_cases (char : Char) (rest : Text) :
    endsLine char rest ∧ lines (char :: rest) = [char] :: lines rest ∨
      ¬ endsLine char rest ∧ (rest = [] ∧ lines (char :: rest) = [[char]] ∨
        ∃ line others, lines rest = line :: others ∧ line.head? = rest.head? ∧
          lines (char :: rest) = (char :: line) :: others) := by
  by_cases ends : endsLine char rest
  · exact Or.inl ⟨ends, by simp [lines, ends]⟩
  · refine Or.inr ⟨ends, ?_⟩
    cases found : lines rest with
    | nil => exact Or.inl ⟨lines_eq_nil_iff.1 found, by simp [lines, ends, found, prependLine]⟩
    | cons line others =>
        exact Or.inr ⟨line, others, rfl, head?_of_lines_eq_cons found,
          by simp [lines, ends, found, prependLine]⟩

theorem exists_char_in_lines_iff {holds : Char → Prop} :
    (∃ line ∈ text.lines, ∃ char ∈ line, holds char) ↔ ∃ char ∈ text, holds char := by
  constructor
  · intro there
    obtain ⟨line, member, char, inside, held⟩ := there
    rw [← flatten_lines text]
    exact ⟨char, List.mem_flatten.2 ⟨line, member, inside⟩, held⟩
  · intro there
    obtain ⟨char, inside, held⟩ := there
    rw [← flatten_lines text] at inside
    obtain ⟨line, member, inside⟩ := List.mem_flatten.1 inside
    exact ⟨line, member, char, inside, held⟩

theorem endsLine_iff {char : Char} {rest : Text} :
    endsLine char rest ↔ char = '\n' ∨ char = '\r' ∧ rest.head? ≠ some '\n' := by
  simp [endsLine]

theorem ne_lf_of_goesOn {char : Char} {rest : Text} (goesOn : ¬ endsLine char rest) :
    char ≠ '\n' :=
  fun same => goesOn (endsLine_iff.2 (Or.inl same))

/-- A CR that ends no line stands before LF, which is then a line by itself. -/
theorem eq_lf_of_cr_goesOn {rest line : Text} {others : List Text}
    (goesOn : ¬ endsLine '\r' rest) (found : rest.lines = line :: others) : line = ['\n'] := by
  have next : rest.head? = some '\n' := by
    apply Decidable.byContradiction
    intro other
    exact goesOn (endsLine_iff.2 (Or.inr ⟨rfl, other⟩))
  obtain ⟨more, rfl⟩ := List.head?_eq_some_iff.1 next
  rw [lines, if_pos (endsLine_iff.2 (Or.inl rfl))] at found
  exact (List.cons.inj found).1.symm

/-- No line end falls between two characters of which the first is no terminator. -/
theorem exists_pair_in_lines_iff {left right : Char} (notLf : left ≠ '\n') (notCr : left ≠ '\r') :
    (∃ line ∈ text.lines, [left, right] <:+: line) ↔ [left, right] <:+: text := by
  induction text with
  | nil => simp [lines]
  | cons char rest ih =>
      have begins (line : Text) : [left, right] <+: char :: line ↔
          left = char ∧ line.head? = some right := by
        rw [List.cons_prefix_cons, List.singleton_prefix_iff_head?_eq_some]
      rw [List.infix_cons_iff, begins, ← ih]
      rcases lines_cons_cases char rest with
        ⟨ends, split⟩ | ⟨_, ⟨rfl, split⟩ | ⟨line, others, found, heads, split⟩⟩
      · have other : left ≠ char := by
          rintro rfl
          rcases endsLine_iff.1 ends with same | ⟨same, _⟩
          · exact notLf same
          · exact notCr same
        simp [split, List.infix_cons_iff, begins, other]
      · simp only [split, List.mem_singleton, exists_eq_left, List.infix_cons_iff, begins]
        simp [lines]
      · rw [split, found, ← heads]
        simp only [List.mem_cons, exists_eq_or_imp, List.infix_cons_iff, begins, or_assoc]

/-- Whether a line ends in LF, and that LF is not part of CR LF. -/
def EndsInLoneLf (line : Text) : Prop :=
  ['\n'] <:+ line ∧ ¬ ['\r', '\n'] <:+ line

theorem endsInLoneLf_cons_iff {char : Char} {line : Text} (present : line ≠ []) :
    EndsInLoneLf (char :: line) ↔ EndsInLoneLf line ∧ ¬ (char = '\r' ∧ line = ['\n']) := by
  have lf : ['\n'] <:+ char :: line ↔ ['\n'] <:+ line := by
    rw [List.suffix_cons_iff]
    simp [present.symm]
  have crLf : ['\r', '\n'] <:+ char :: line ↔
      char = '\r' ∧ line = ['\n'] ∨ ['\r', '\n'] <:+ line := by
    rw [List.suffix_cons_iff, List.cons.injEq, eq_comm, @eq_comm _ ['\n']]
  rw [EndsInLoneLf, EndsInLoneLf, lf, crLf, not_or, and_assoc,
    @and_comm (¬ (char = '\r' ∧ line = ['\n']))]

theorem endsInLoneLf_singleton_iff {char : Char} : EndsInLoneLf [char] ↔ char = '\n' := by
  constructor
  · intro there
    obtain ⟨lf, _⟩ := there
    rcases List.suffix_cons_iff.1 lf with same | shorter
    · exact (List.cons.inj same).1.symm
    · simp at shorter
  · rintro rfl
    exact ⟨List.suffix_rfl, fun longer => by simpa using longer.length_le⟩

theorem forall_lines_endsInLoneLf_iff : (∀ line ∈ text.lines, EndsInLoneLf line) ↔
    '\r' ∉ text ∧ (text = [] ∨ text.getLast? = some '\n') := by
  induction text with
  | nil => simp [lines]
  | cons char rest ih =>
      rcases lines_cons_cases char rest with
        ⟨ends, split⟩ | ⟨inside, ⟨rfl, split⟩ | ⟨line, others, found, heads, split⟩⟩
      · rw [split, List.forall_mem_cons, ih, endsInLoneLf_singleton_iff]
        rcases endsLine_iff.1 ends with rfl | ⟨rfl, _⟩
        · cases rest with
          | nil => simp
          | cons second rest => simp [List.getLast?_cons]
        · simp
      · simp [split, endsInLoneLf_singleton_iff, ne_lf_of_goesOn inside]
      · have present := ne_nil_of_lines_eq_cons found
        have crLf : char = '\r' → line = ['\n'] := by
          intro cr
          subst cr
          exact eq_lf_of_cr_goesOn inside found
        have noCr : ¬ (char = '\r' ∧ line = ['\n']) ↔ '\r' ≠ char :=
          ⟨fun other same => other ⟨same.symm, crLf same.symm⟩, fun other same => other same.1.symm⟩
        rw [found, List.forall_mem_cons] at ih
        rw [split, List.forall_mem_cons,
          endsInLoneLf_cons_iff (ne_nil_of_mem_lines (by rw [found]; simp)), noCr, and_right_comm,
          ih, and_comm, ← and_assoc, List.mem_cons, not_or, List.getLast?_cons_of_ne_nil present]
        simp [present]

theorem lines_eq_cutAfterLf (noCr : '\r' ∉ text) : text.lines = text.cutAfterLf := by
  induction text with
  | nil => rfl
  | cons char rest ih =>
      rw [List.mem_cons, not_or] at noCr
      rw [cutAfterLf, ← ih noCr.2]
      rcases lines_cons_cases char rest with
        ⟨ends, split⟩ | ⟨inside, ⟨rfl, split⟩ | ⟨line, others, found, heads, split⟩⟩
      · rcases endsLine_iff.1 ends with rfl | ⟨rfl, _⟩
        · rw [split, if_pos rfl]
        · exact absurd rfl noCr.1
      · rw [if_neg (ne_lf_of_goesOn inside), split]
        rfl
      · rw [if_neg (ne_lf_of_goesOn inside), split, found]

end Text

end DocLint
