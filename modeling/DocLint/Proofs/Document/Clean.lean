import DocLint.Proofs.Document.Gate
import DocLint.Proofs.Lines.Cut
import DocLint.Proofs.Text.Ascii

/-!
# Clean documents

A document in which nothing is found is described by its bytes. `checkLines_eq_nil_iff` says
what must hold of the lines; each of these conditions is then one on the whole text, and those
on ASCII characters are conditions on the bytes. Main statement:
`Document.findings_eq_nil_iff`.
-/

namespace DocLint

/-- Whether two lines next to each other hold white space only. -/
def HasAdjacentBlank (lines : List Text) : Prop :=
  ∃ first second : Text, [first, second] <:+: lines ∧
    (∀ char ∈ first, whiteSpace.contains char) ∧ ∀ char ∈ second, whiteSpace.contains char

/-! ## What must hold of the lines -/

section Lines

variable {lines : List Text}

theorem forall_not_lineEnding_iff :
    (∀ index, ¬ Violation.lineEndingNotLf.At lines index) ↔
      ∀ line ∈ lines, line.EndsInLoneLf := by
  simp only [← Rule.findIdx?_lineEnding_iff]
  rw [← Option.eq_none_iff_forall_ne_some, List.findIdx?_eq_none_iff]
  refine forall₂_congr fun line _ => ?_
  rw [Bool.not_eq_false', Text.endsInLoneLf_iff, Text.EndsInLoneLf]

private theorem forall_not_getElem?_iff {holds : Text → Prop} :
    (∀ index : Nat, ¬ ∃ line, lines[index]? = some line ∧ holds line) ↔
      ¬ ∃ line ∈ lines, holds line := by
  constructor
  · intro none some
    obtain ⟨line, member, held⟩ := some
    obtain ⟨index, found⟩ := List.mem_iff_getElem?.1 member
    exact none index ⟨line, found, held⟩
  · intro none index some
    obtain ⟨line, found, held⟩ := some
    exact none ⟨line, List.mem_of_getElem? found, held⟩

theorem forall_not_fullWidth_iff :
    (∀ kind index, ¬ (Violation.fullWidth kind).At lines index) ↔
      ¬ ∃ line ∈ lines, ∃ char ∈ line, ∃ kind : FullWidth, kind.chars.contains char := by
  constructor
  · intro clean some
    obtain ⟨line, member, char, inside, kind, held⟩ := some
    exact forall_not_getElem?_iff.1 (clean kind) ⟨line, member, char, inside, held⟩
  · intro clean kind
    apply forall_not_getElem?_iff.2
    intro some
    obtain ⟨line, member, char, inside, held⟩ := some
    exact clean ⟨line, member, char, inside, kind, held⟩

theorem forall_not_repeatedSpaces_iff :
    (∀ index, ¬ Violation.repeatedSpaces.At lines index) ↔
      ¬ ∃ line ∈ lines, [' ', ' '] <:+: line :=
  forall_not_getElem?_iff

theorem forall_not_repeatedBlankLines_iff :
    (∀ index, ¬ Violation.repeatedBlankLines.At lines index) ↔ ¬ HasAdjacentBlank lines := by
  constructor
  · rintro clean ⟨first, second, ⟨before, after, rfl⟩, blank⟩
    exact clean (before.length + 1) ⟨before.length, first, second, rfl, by simp, by simp, blank⟩
  · rintro clean index ⟨before, first, second, rfl, found, next, blank⟩
    refine clean ⟨first, second, ?_, blank⟩
    obtain ⟨inside, rfl⟩ := List.getElem?_eq_some_iff.1 next
    obtain ⟨_, rfl⟩ := List.getElem?_eq_some_iff.1 found
    refine ⟨lines.take before, lines.drop (before + 2), ?_⟩
    rw [List.append_assoc, List.cons_append, List.singleton_append,
      List.getElem_cons_drop, List.getElem_cons_drop, List.take_append_drop]

/-- Nothing is found in lines that all end in LF alone, hold neither full-width characters nor
two spaces in a row, and are not blank twice in a row. -/
theorem checkLines_eq_nil_iff (file : Text) :
    checkLines file lines = [] ↔
      (∀ line ∈ lines, line.EndsInLoneLf) ∧
        (¬ ∃ line ∈ lines, ∃ char ∈ line, ∃ kind : FullWidth, kind.chars.contains char) ∧
        (¬ ∃ line ∈ lines, [' ', ' '] <:+: line) ∧ ¬ HasAdjacentBlank lines := by
  rw [← forall_not_lineEnding_iff, ← forall_not_fullWidth_iff, ← forall_not_repeatedSpaces_iff,
    ← forall_not_repeatedBlankLines_iff]
  have clean : checkLines file lines = [] ↔
      ∀ (violation : Violation) index, ¬ violation.At lines index := by
    rw [List.eq_nil_iff_forall_not_mem]
    constructor
    · intro none violation index there
      exact none ⟨file, index + 1, violation⟩ (mem_checkLines_iff.2 ⟨rfl, index, rfl, there⟩)
    · intro none finding member
      obtain ⟨_, index, _, there⟩ := mem_checkLines_iff.1 member
      exact none finding.violation index there
  rw [clean]
  constructor
  · intro none
    exact ⟨none _, fun kind => none _, none _, none _⟩
  · rintro ⟨endings, wide, spaces, blanks⟩ violation
    cases violation with
    | notUtf8 => exact fun _ there => there
    | lineEndingNotLf => exact endings
    | fullWidth kind => exact wide kind
    | repeatedSpaces => exact spaces
    | repeatedBlankLines => exact blanks
    | missingFinalNewline =>
        -- The last line is one of those that must end in LF alone.
        rintro index ⟨line, found, _, wrong⟩
        exact wrong (forall_not_lineEnding_iff.1 endings line (List.mem_of_getElem? found)).1

end Lines

/-! ## What must hold of the bytes -/

namespace Text

theorem checkLines_lines_eq_nil_iff (file text : Text) :
    checkLines file text.lines = [] ↔
      ('\r' ∉ text ∧ (text = [] ∨ text.getLast? = some '\n')) ∧
        (∀ char ∈ text, ∀ kind : FullWidth, ¬ kind.chars.contains char) ∧
        ¬ [' ', ' '] <:+: text ∧ ¬ HasAdjacentBlank text.cutAfterLf := by
  rw [checkLines_eq_nil_iff, forall_lines_endsInLoneLf_iff, exists_char_in_lines_iff,
    exists_pair_in_lines_iff (by decide) (by decide)]
  simp only [not_exists, not_and]
  refine and_congr_right fun endings => ?_
  rw [lines_eq_cutAfterLf endings.1]

end Text

namespace Document

/-- **A document is clean exactly when its bytes are.** They are those of a text and not taken
for Japanese mail text, they hold no CR and end in LF unless there are none, no two spaces
stand side by side, and the text has no full-width character and, cut after each LF, no two
blank parts in a row. -/
theorem findings_eq_nil_iff (name : Text) (content : Bytes) :
    (Document.mk name content).findings = [] ↔
      ∃ text : Text, text.encode = content ∧ ¬ content.IsIso2022Jp ∧ 0x0D ∉ content ∧
        (content = [] ∨ content.getLast? = some 0x0A) ∧
        (∀ char ∈ text, ∀ kind : FullWidth, ¬ kind.chars.contains char) ∧
        ¬ [0x20, 0x20] <:+: content ∧ ¬ HasAdjacentBlank text.cutAfterLf := by
  have onBytes (text : Text) : checkLines name (splitLines text) = [] ↔
      0x0D ∉ text.encode ∧ (text.encode = [] ∨ text.encode.getLast? = some 0x0A) ∧
        (∀ char ∈ text, ∀ kind : FullWidth, ¬ kind.chars.contains char) ∧
        ¬ [0x20, 0x20] <:+: text.encode ∧ ¬ HasAdjacentBlank text.cutAfterLf := by
    rw [splitLines_eq_lines, Text.checkLines_lines_eq_nil_iff, Text.encode_eq_nil_iff, and_assoc,
      ← Text.mem_encode_iff (show '\r'.utf8Size = 1 by decide),
      ← Text.getLast?_encode_iff (show '\n'.utf8Size = 1 by decide),
      ← Text.pair_infix_encode_iff (show ' '.utf8Size = 1 by decide) (by decide)]
    rfl
  constructor
  · intro clean
    have accepted : content.encoding = .utf8 := by
      refine Decidable.byContradiction fun other => ?_
      rw [@findings_of_encoding_ne ⟨name, content⟩ other] at clean
      exact List.cons_ne_nil _ _ clean
    obtain ⟨⟨text, rfl⟩, notMail⟩ := Bytes.encoding_eq_utf8_iff.1 accepted
    rw [@findings_of_encode ⟨name, text.encode⟩ text accepted rfl] at clean
    exact ⟨text, rfl, notMail, (onBytes text).1 clean⟩
  · intro there
    obtain ⟨text, rfl, notMail, clean⟩ := there
    have accepted := Bytes.encoding_eq_utf8_iff.2 ⟨⟨text, rfl⟩, notMail⟩
    rw [@findings_of_encode ⟨name, text.encode⟩ text accepted rfl]
    exact (onBytes text).2 clean

end Document

end DocLint
