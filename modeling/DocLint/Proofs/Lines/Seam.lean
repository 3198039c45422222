import DocLint.Proofs.Lines.Cut

/-!
# Texts put together

The lines of two texts, one after the other, are the lines of the text that both make together
exactly when a line ends between them (`Text.EndsBetween`). Where none does, the last line of the
first text goes on in the first line of the second: these two are one line then, and all others
stay as they are, since only the next character tells whether a line ends. Main statement:
`splitLines_append`.
-/

namespace DocLint

namespace Text

variable {first second : Text}

/-- Whether no line goes on from one text into the next: either of them is empty, or the first
ends in LF, or it ends in a CR that no LF follows. -/
def EndsBetween (first second : Text) : Prop :=
  first = [] ∨ second = [] ∨ first.getLast? = some '\n' ∨
    first.getLast? = some '\r' ∧ second.head? ≠ some '\n'

instance (first second : Text) : Decidable (EndsBetween first second) :=
  inferInstanceAs (Decidable (_ ∨ _))

theorem endsBetween_singleton_iff {char : Char} :
    EndsBetween [char] second ↔ second = [] ∨ endsLine char second := by
  simp [EndsBetween, endsLine_iff]

theorem endsBetween_cons_iff {char : Char} (filled : first ≠ []) :
    EndsBetween (char :: first) second ↔ EndsBetween first second := by
  rw [EndsBetween, EndsBetween, List.getLast?_cons_of_ne_nil filled]
  simp [filled]

theorem endsLine_append {char : Char} (filled : first ≠ []) (second : Text) :
    endsLine char (first ++ second) = endsLine char first := by
  rw [endsLine, endsLine, List.head?_append, List.head?_eq_some_head filled, Option.some_or]

theorem lines_singleton (char : Char) : lines [char] = [[char]] := by
  simp [lines, prependLine]

theorem prependLine_append_lines {lines : List Text} (filled : lines ≠ []) (start : Text)
    (others : List Text) :
    prependLine start (lines ++ others) = prependLine start lines ++ others := by
  cases lines with
  | nil => exact absurd rfl filled
  | cons line rest => rfl

/-- Text in front of the first line leaves what follows the last one where it is. -/
theorem exists_prependLine_concat (start : Text) (before : List Text) (last : Text) :
    ∃ earlier final, prependLine start (before ++ [last]) = earlier ++ [final] ∧
      ∀ next after, prependLine start (before ++ (last ++ next) :: after) =
        earlier ++ (final ++ next) :: after := by
  cases before with
  | nil => exact ⟨[], start ++ last, rfl, fun next after => by simp [prependLine]⟩
  | cons line before => exact ⟨(start ++ line) :: before, last, rfl, fun next after => rfl⟩

/-- Either a line ends where two texts meet, or one goes on there and no other is touched. -/
theorem lines_append_cases (first second : Text) :
    EndsBetween first second ∧ lines (first ++ second) = lines first ++ lines second ∨
      ¬ EndsBetween first second ∧ ∃ before last next after,
        lines first = before ++ [last] ∧ lines second = next :: after ∧
          lines (first ++ second) = before ++ (last ++ next) :: after := by
  induction first with
  | nil => exact Or.inl ⟨Or.inl rfl, rfl⟩
  | cons char rest ih =>
      by_cases filled : rest = []
      · subst filled
        rw [endsBetween_singleton_iff, lines_singleton, List.singleton_append]
        rcases lines_cons_cases char second with
          ⟨ends, split⟩ | ⟨inside, ⟨rfl, split⟩ | ⟨next, after, found, _, split⟩⟩
        · exact Or.inl ⟨Or.inr ends, split⟩
        · exact Or.inl ⟨Or.inl rfl, split⟩
        · have present := ne_nil_of_lines_eq_cons found
          exact Or.inr ⟨by simp [present, inside], [], [char], next, after, rfl, found, split⟩
      · rw [endsBetween_cons_iff filled, List.cons_append, lines, lines, endsLine_append filled]
        rcases ih with ⟨ends, onward⟩ | ⟨goesOn, before, last, next, after, cut, found, onward⟩
        · refine Or.inl ⟨ends, ?_⟩
          rw [onward]
          split
          · rfl
          · exact prependLine_append_lines (mt lines_eq_nil_iff.1 filled) _ _
        · refine Or.inr ⟨goesOn, ?_⟩
          rw [onward, cut]
          split
          · exact ⟨[char] :: before, last, next, after, rfl, found, rfl⟩
          · obtain ⟨earlier, final, whole, joined⟩ := exists_prependLine_concat [char] before last
            exact ⟨earlier, final, next, after, whole, found, joined next after⟩

end Text

/-- **Lines are lost only where one goes on.** The lines of two texts put together are those of the
first and then those of the second if and only if a line ends between them. Otherwise the last line
of the first text and the first line of the second are one, and the others are as before. -/
theorem splitLines_append (first second : Text) :
    (splitLines (first ++ second) = splitLines first ++ splitLines second ↔
      Text.EndsBetween first second) ∧
    (Text.EndsBetween first second ∨ ∃ before last next after,
      splitLines first = before ++ [last] ∧ splitLines second = next :: after ∧
        splitLines (first ++ second) = before ++ [last ++ next] ++ after ∧
        (splitLines (first ++ second)).length + 1 =
          (splitLines first).length + (splitLines second).length) := by
  simp only [splitLines_eq_lines]
  rcases Text.lines_append_cases first second with
    ⟨ends, whole⟩ | ⟨goesOn, before, last, next, after, cut, found, joined⟩
  · exact ⟨iff_of_true whole ends, Or.inl ends⟩
  · have lost : (Text.lines (first ++ second)).length + 1 =
        first.lines.length + second.lines.length := by
      simp only [cut, found, joined, List.length_append, List.length_cons, List.length_nil]
      omega
    have apart : Text.lines (first ++ second) ≠ first.lines ++ second.lines := by
      intro same
      rw [same, List.length_append] at lost
      omega
    refine ⟨iff_of_false apart goesOn, Or.inr ⟨before, last, next, after, cut, found, ?_, lost⟩⟩
    rw [joined, List.append_assoc, List.singleton_append]

/-- A cut inside CR LF leaves the LF in a line of its own. -/
example : Text.lines ['a', '\r', '\n', 'b'] = [['a', '\r', '\n'], ['b']] ∧
    Text.lines ['a', '\r'] ++ Text.lines ['\n', 'b'] = [['a', '\r'], ['\n'], ['b']] := by
  decide

end DocLint
