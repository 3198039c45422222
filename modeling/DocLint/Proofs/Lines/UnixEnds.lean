import DocLint.Proofs.Lines.Decomposition
import DocLint.Proofs.Rule.Append

/-!
# Line ends made alike

In a text whose line ends are all turned into LF the lines are the same, apart from their ends
(`Text.lines_unixEnds`), and no rule but the two about line ends sees a difference. Of these two,
both still find something exactly when the text goes on after its last line end, and then at the
last line. Main statement: `checkLines_unixEnds`.
-/

namespace DocLint

namespace Text

variable {text : Text}

/-- The text with LF for every CR LF pair and for every CR alone. -/
def unixEnds : Text → Text
  | [] => []
  | '\r' :: '\n' :: rest => '\n' :: unixEnds rest
  | '\r' :: rest => '\n' :: unixEnds rest
  | char :: rest => char :: unixEnds rest

/-- Whether a text goes on after its last line end. -/
def EndsOpen (text : Text) : Prop :=
  text ≠ [] ∧ text.getLast? ≠ some '\n' ∧ text.getLast? ≠ some '\r'

instance (text : Text) : Decidable text.EndsOpen :=
  inferInstanceAs (Decidable (_ ∧ _ ∧ _))

theorem endsOpen_cons_iff {char : Char} (filled : text ≠ []) :
    EndsOpen (char :: text) ↔ text.EndsOpen := by
  rw [EndsOpen, EndsOpen, List.getLast?_cons_of_ne_nil filled]
  simp [filled]

theorem endsOpen_singleton_iff {char : Char} : EndsOpen [char] ↔ ¬ endsLine char [] := by
  simp [EndsOpen, endsLine_iff]

/-- What a character that ends a line, or is last of all, is turned into. -/
def unixEnd (char : Char) : Char :=
  if char = '\r' then '\n' else char

/-- Before LF a CR is left out, and elsewhere it becomes one. -/
theorem unixEnds_cons (char : Char) (rest : Text) :
    unixEnds (char :: rest) =
      if char = '\r' ∧ rest.head? = some '\n' then unixEnds rest
      else unixEnd char :: unixEnds rest := by
  by_cases cr : char = '\r'
  · subst cr
    cases rest with
    | nil => rfl
    | cons next rest =>
        by_cases lf : next = '\n'
        · subst lf
          rfl
        · simp [unixEnds, unixEnd, lf]
  · simp [unixEnds, unixEnd, cr]

theorem head?_unixEnds (text : Text) : text.unixEnds.head? = text.head?.map unixEnd := by
  induction text with
  | nil => rfl
  | cons char rest ih =>
      rw [unixEnds_cons]
      by_cases pair : char = '\r' ∧ rest.head? = some '\n'
      · rw [if_pos pair, ih, pair.2, pair.1]
        rfl
      · rw [if_neg pair]
        rfl

theorem getLast?_unixEnds (text : Text) : text.unixEnds.getLast? = text.getLast?.map unixEnd := by
  induction text with
  | nil => rfl
  | cons char rest ih =>
      rw [unixEnds_cons, List.getLast?_cons]
      by_cases pair : char = '\r' ∧ rest.head? = some '\n'
      · obtain ⟨others, rfl⟩ := List.head?_eq_some_iff.1 pair.2
        rw [if_pos pair, ih, List.getLast?_cons]
        rfl
      · rw [if_neg pair, List.getLast?_cons, ih]
        cases rest.getLast? with
        | none => rfl
        | some last => rfl

theorem cr_not_mem_unixEnds (text : Text) : '\r' ∉ text.unixEnds := by
  induction text with
  | nil => exact List.not_mem_nil
  | cons char rest ih =>
      have first : '\r' ≠ unixEnd char := by
        by_cases cr : char = '\r'
        · rw [unixEnd, if_pos cr]
          decide
        · rw [unixEnd, if_neg cr]
          exact Ne.symm cr
      rw [unixEnds_cons]
      by_cases pair : char = '\r' ∧ rest.head? = some '\n'
      · rwa [if_pos pair]
      · rw [if_neg pair, List.mem_cons, not_or]
        exact ⟨first, ih⟩

theorem unixEnds_eq_nil_iff : text.unixEnds = [] ↔ text = [] := by
  rw [← List.getLast?_eq_none_iff, getLast?_unixEnds, Option.map_eq_none_iff,
    List.getLast?_eq_none_iff]

/-- Only the text after the last line end is without one when the others are made alike. -/
theorem endsOpen_iff : text.EndsOpen ↔
    ¬ (text.unixEnds = [] ∨ text.unixEnds.getLast? = some '\n') := by
  rw [unixEnds_eq_nil_iff, getLast?_unixEnds, EndsOpen, not_or]
  refine and_congr_right fun _ => ?_
  cases text.getLast? with
  | none => simp
  | some last =>
      by_cases cr : last = '\r'
      · simp [unixEnd, cr]
      · simp [unixEnd, cr]

/-! ## The lines -/

/-- Making line ends alike does not change where lines end. -/
theorem lines_unixEnds (text : Text) : text.unixEnds.lines = text.lines.map unixEnds := by
  induction text with
  | nil => rfl
  | cons char rest ih =>
      rcases lines_cons_cases char rest with
        ⟨ends, split⟩ | ⟨inside, ⟨rfl, split⟩ | ⟨line, others, found, heads, split⟩⟩
      · have alone : ¬ (char = '\r' ∧ rest.head? = some '\n') := by
          rcases endsLine_iff.1 ends with rfl | ⟨_, other⟩
          · exact fun pair => absurd pair.1 (by decide)
          · exact fun pair => other pair.2
        have lf : unixEnd char = '\n' := by
          rcases endsLine_iff.1 ends with rfl | ⟨rfl, _⟩
          · rfl
          · rfl
        rw [split, List.map_cons, ← ih, unixEnds_cons, if_neg alone, unixEnds_cons,
          if_neg (by simp), lf]
        simp [lines, endsLine, unixEnds]
      · have other : char ≠ '\r' := fun same => inside (endsLine_iff.2 (Or.inr ⟨same, by simp⟩))
        have kept : unixEnds [char] = [char] := by simp [unixEnds_cons, unixEnd, other, unixEnds]
        rw [split, List.map_singleton, kept, split]
      · -- A CR that is left out here stands before LF, so the LF is in the same line.
        rw [split, unixEnds_cons, List.map_cons, unixEnds_cons, heads]
        rw [found, List.map_cons] at ih
        by_cases pair : char = '\r' ∧ rest.head? = some '\n'
        · rw [if_pos pair, if_pos pair, ih]
        · have notCr : char ≠ '\r' := by
            intro same
            by_cases lf : rest.head? = some '\n'
            · exact pair ⟨same, lf⟩
            · exact inside (endsLine_iff.2 (Or.inr ⟨same, lf⟩))
          rw [if_neg pair, if_neg pair, unixEnd, if_neg notCr, lines, ih]
          simp [endsLine, notCr, ne_lf_of_goesOn inside, prependLine]

/-- Only the last line of a text can be without a line end. -/
theorem ends_of_mem_dropLast_lines {line : Text} (member : line ∈ text.lines.dropLast) :
    line.getLast? = some '\n' ∨ line.getLast? = some '\r' := by
  have areLines := areLines_lines text
  obtain ⟨ending, among, ends⟩ := areLines.ended line (List.dropLast_subset _ member)
  have same := (hasEnding_iff among).1 ends
  have present : line.ending ≠ [] :=
    mt (hasEnding_iff (by decide)).2 (areLines.closed line member)
  rw [getLast?_of_ending present, same]
  rw [same] at present
  simp only [endings, List.mem_cons, List.not_mem_nil, or_false] at among
  rcases among with rfl | rfl | rfl | rfl
  · exact Or.inl rfl
  · exact Or.inl rfl
  · exact Or.inr rfl
  · exact absurd rfl present

/-- What there is to say about the ends of lines of a text without CR: the lines before the last
end in LF alone, and the last line ends as the text does. -/
theorem exists_lines_eq_concat (present : text ≠ []) (noCr : '\r' ∉ text) :
    ∃ before last, text.lines = before ++ [last] ∧ (∀ line ∈ before, line.EndsInLoneLf) ∧
      (last.EndsInLoneLf ↔ text.getLast? = some '\n') ∧ last.getLast? = text.getLast? := by
  rcases List.eq_nil_or_concat' text.lines with none | ⟨before, last, split⟩
  · exact absurd (lines_eq_nil_iff.1 none) present
  · have inside {line : Text} (member : line ∈ text.lines) : ¬ ['\r', '\n'] <:+ line := by
      intro ends
      exact noCr (flatten_lines text ▸ List.mem_flatten.2 ⟨line, member, ends.subset (by simp)⟩)
    have alike := getLast?_of_lines_eq_concat split
    refine ⟨before, last, split, fun line member => ?_, ?_, alike⟩
    · have early : line ∈ text.lines.dropLast := by rwa [split, List.dropLast_concat]
      have there := List.dropLast_subset _ early
      refine ⟨?_, inside there⟩
      rw [List.singleton_suffix_iff_getLast?_eq_some]
      refine (ends_of_mem_dropLast_lines early).resolve_right fun cr => noCr ?_
      exact flatten_lines text ▸ List.mem_flatten.2 ⟨line, there, List.mem_of_getLast? cr⟩
    · rw [EndsInLoneLf, List.singleton_suffix_iff_getLast?_eq_some, alike]
      exact and_iff_left (inside (by simp [split]))

/-! ## What the rules see -/

/-- Where a test does not tell CR from LF, it passes as many texts as before. -/
theorem any_unixEnds {test : Char → Bool} (alike : test '\r' = test '\n') (text : Text) :
    text.unixEnds.any test = text.any test := by
  induction text with
  | nil => rfl
  | cons char rest ih =>
      rw [unixEnds_cons]
      by_cases pair : char = '\r' ∧ rest.head? = some '\n'
      · obtain ⟨others, rfl⟩ := List.head?_eq_some_iff.1 pair.2
        rw [if_pos pair, ih, pair.1]
        simp [alike]
      · rw [if_neg pair, List.any_cons, List.any_cons, ih, unixEnd]
        by_cases cr : char = '\r'
        · rw [if_pos cr, cr, alike]
        · rw [if_neg cr]

theorem isBlank_unixEnds (text : Text) : text.unixEnds.isBlank = text.isBlank := by
  unfold isBlank
  rw [List.all_eq_not_any_not, List.all_eq_not_any_not, any_unixEnds (by decide)]

theorem fullWidthIn_unixEnds (line : Text) :
    Rule.fullWidthIn line.unixEnds = Rule.fullWidthIn line := by
  have same (kind : FullWidth) :
      kind.chars.occursIn line.unixEnds = kind.chars.occursIn line :=
    any_unixEnds (by cases kind <;> decide) line
  simp only [Rule.fullWidthIn, same]

theorem hasRepeatedSpace_unixEnds (text : Text) :
    text.unixEnds.hasRepeatedSpace = text.hasRepeatedSpace := by
  induction text with
  | nil => rfl
  | cons char rest ih =>
      have space : (unixEnds rest).head? = some ' ' ↔ rest.head? = some ' ' := by
        rw [head?_unixEnds]
        cases rest with
        | nil => simp
        | cons next rest =>
            by_cases cr : next = '\r'
            · simp [unixEnd, cr]
            · simp [unixEnd, cr]
      rw [unixEnds_cons]
      by_cases cr : char = '\r'
      · subst cr
        split
        · simp [hasRepeatedSpace, ih]
        · simp [hasRepeatedSpace, unixEnd, ih]
      · rw [if_neg (fun pair => cr pair.1), unixEnd, if_neg cr]
        simp only [hasRepeatedSpace, ih, space]

end Text

theorem adjacent_map {α β : Type} (change : α → β) (items : List α) :
    adjacent (items.map change) = (adjacent items).map (Prod.map change change) := by
  rw [adjacent, ← List.map_tail, List.zip_map, adjacent]

namespace Rule

theorem checkFullWidth_unixEnds (file : Text) (lines : List Text) :
    checkFullWidth file (lines.map Text.unixEnds) = checkFullWidth file lines := by
  simp only [checkFullWidth_eq_findEach, findEach_map, Text.fullWidthIn_unixEnds]

theorem checkRepeatedSpaces_unixEnds (file : Text) (lines : List Text) :
    checkRepeatedSpaces file (lines.map Text.unixEnds) = checkRepeatedSpaces file lines := by
  simp only [checkRepeatedSpaces_eq_findEach, findEach_map, Text.hasRepeatedSpace_unixEnds]

theorem checkBlankLines_unixEnds (file : Text) (lines : List Text) :
    checkBlankLines file (lines.map Text.unixEnds) = checkBlankLines file lines := by
  simp only [checkBlankLines_eq_findEach, adjacent_map, findEach_map, Prod.map_fst, Prod.map_snd,
    Text.isBlank_unixEnds]

theorem checkLineEnding_concat {before : List Text} (early : ∀ line ∈ before, line.EndsInLoneLf)
    (file last : Text) :
    checkLineEnding file (before ++ [last]) =
      if last.endsInLoneLf then [] else [⟨file, before.length + 1, .lineEndingNotLf⟩] := by
  have none : checkLineEnding file before = [] := by
    have right : before.findIdx? (fun line => !line.endsInLoneLf) = none :=
      List.findIdx?_eq_none_iff.2 fun line member => by
        simpa using (Text.endsInLoneLf_iff line).2 (early line member)
    rw [checkLineEnding, right]
  rw [checkLineEnding_append, if_pos none]
  by_cases ends : last.endsInLoneLf
  · simp [checkLineEnding, ends]
  · simp [checkLineEnding, ends, Finding.shift, Nat.add_comm]

theorem checkFinalNewline_concat (file : Text) (before : List Text) (last : Text) :
    checkFinalNewline file (before ++ [last]) =
      if last.endsInLf then [] else [⟨file, before.length + 1, .missingFinalNewline⟩] := by
  simp [checkFinalNewline]

/-- Where all line ends are LF, something is wrong with them only if the last line has none. -/
theorem check_ends_unixEnds (file text : Text) :
    let last (violation : Violation) : List Finding :=
      if text.EndsOpen then [⟨file, text.lines.length, violation⟩] else []
    checkLineEnding file text.unixEnds.lines = last .lineEndingNotLf ∧
      checkFinalNewline file text.unixEnds.lines = last .missingFinalNewline := by
  intro last
  by_cases empty : text = []
  · subst empty
    exact ⟨rfl, rfl⟩
  · obtain ⟨before, final, split, early, alone, alike⟩ :=
      Text.exists_lines_eq_concat (mt Text.unixEnds_eq_nil_iff.1 empty) text.cr_not_mem_unixEnds
    have counted : text.lines.length = before.length + 1 := by
      rw [← List.length_map (f := Text.unixEnds), ← Text.lines_unixEnds, split,
        List.length_append, List.length_singleton]
    have closed : text.EndsOpen ↔ ¬ text.unixEnds.getLast? = some '\n' := by
      rw [Text.endsOpen_iff, Text.unixEnds_eq_nil_iff, or_iff_right empty]
    have lone : final.endsInLoneLf ↔ text.unixEnds.getLast? = some '\n' := by
      rw [Text.endsInLoneLf_iff, ← alone, Text.EndsInLoneLf]
    have lf : final.endsInLf ↔ text.unixEnds.getLast? = some '\n' := by
      rw [Text.endsInLf, alike, decide_eq_true_iff]
    rw [split, checkLineEnding_concat early, checkFinalNewline_concat, ← counted]
    by_cases ends : text.unixEnds.getLast? = some '\n'
    · rw [if_pos (lone.2 ends), if_pos (lf.2 ends)]
      simp [last, closed, ends]
    · rw [if_neg (mt lone.1 ends), if_neg (mt lf.1 ends)]
      simp [last, closed, ends]

/-- What is found without the two rules about line ends. -/
theorem filter_checkLines (file : Text) (lines : List Text) :
    (checkLines file lines).filter (fun finding =>
        finding.violation ≠ .lineEndingNotLf ∧ finding.violation ≠ .missingFinalNewline) =
      checkFullWidth file lines ++ checkRepeatedSpaces file lines ++
        checkBlankLines file lines := by
  have same : ∀ rule : Rule, ∀ finding ∈ rule.check file lines,
      decide (finding.violation ≠ .lineEndingNotLf ∧ finding.violation ≠ .missingFinalNewline) =
        decide (rule ≠ .lineEnding ∧ rule ≠ .finalNewline) := by
    intro rule finding member
    simp only [ne_eq, Violation.eq_lineEndingNotLf_iff, Violation.eq_missingFinalNewline_iff,
      stage_of_mem_check member, stage_eq_stage_iff]
  rw [filter_checkLines_of_forall same]
  simp [all, check]

end Rule

/-- **Turning all line ends into LF mends line ends and nothing else.** There are as many lines as
before, and the findings about anything but line ends are the same ones in the same order. What is
left to find about line ends is that the last line has none, if the text goes on there. -/
theorem checkLines_unixEnds (name text : Text) :
    let lines := splitLines text
    let unix := splitLines text.unixEnds
    let last (violation : Violation) : List Finding :=
      if text ≠ [] ∧ text.getLast? ≠ some '\n' ∧ text.getLast? ≠ some '\r' then
        [⟨name, lines.length, violation⟩] else []
    unix.length = lines.length ∧
      checkLines name unix = last .lineEndingNotLf ++
        (checkLines name lines).filter (fun finding =>
          finding.violation ≠ .lineEndingNotLf ∧ finding.violation ≠ .missingFinalNewline) ++
        last .missingFinalNewline := by
  intro lines unix last
  have cut : unix = text.lines.map Text.unixEnds :=
    (splitLines_eq_lines text.unixEnds).trans text.lines_unixEnds
  have whole : lines = text.lines := splitLines_eq_lines text
  obtain ⟨ends, final⟩ := Rule.check_ends_unixEnds name text
  rw [Text.lines_unixEnds, ← whole] at ends final
  refine ⟨by rw [cut, whole, List.length_map], ?_⟩
  rw [checkLines_eq_stages, Rule.filter_checkLines, cut, ← whole, Rule.checkFullWidth_unixEnds,
    Rule.checkRepeatedSpaces_unixEnds, Rule.checkBlankLines_unixEnds, ends, final]
  simp only [List.append_assoc]
  rfl

end DocLint
