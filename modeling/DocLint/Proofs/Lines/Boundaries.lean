import DocLint.Proofs.Lines.Cut
import DocLint.Proofs.Text.Ascii

/-!
# Cuts between characters

Lines are cut out of the bytes of a text, and nothing in the way they are found knows where a
character begins. Still every cut is between two characters, because LF and CR are no part of
longer ones (`lineSpans_encode`), so that the bytes of a line are those of a text. The lines are
what reading the characters one by one yields (`Text.readLines`). Main statement:
`splitLines_boundaries`.
-/

namespace DocLint

namespace Text

/-- Whether a position among the bytes of a text lies between two characters, or at an end. -/
def IsBoundary (text : Text) (position : Nat) : Prop :=
  ∃ before after, text = before ++ after ∧ before.encode.length = position

/-- The lines of a text that goes on from a piece of a line. CR LF is taken in one go. -/
def readLines (piece : Text) : Text → List Text
  | [] => if piece = [] then [] else [piece]
  | '\r' :: '\n' :: rest => (piece ++ ['\r', '\n']) :: readLines [] rest
  | '\r' :: rest => (piece ++ ['\r']) :: readLines [] rest
  | '\n' :: rest => (piece ++ ['\n']) :: readLines [] rest
  | char :: rest => readLines (piece ++ [char]) rest

theorem prependLine_lines_of_endsLine {char : Char} {rest : Text} (ends : endsLine char rest)
    (piece : Text) :
    prependLine piece (lines (char :: rest)) = (piece ++ [char]) :: lines rest := by
  rw [lines, if_pos ends, prependLine]

theorem prependLine_lines_of_goesOn {char : Char} {rest : Text} (goesOn : ¬ endsLine char rest)
    (piece : Text) :
    prependLine piece (lines (char :: rest)) = prependLine (piece ++ [char]) (lines rest) := by
  rw [lines, if_neg goesOn, ← prependLine_append]

/-- Looking ahead for the LF of CR LF comes to the same as taking both in one go. -/
theorem readLines_eq (piece text : Text) :
    readLines piece text = prependLine piece text.lines := by
  fun_induction readLines piece text with
  | case1 => rfl
  | case2 piece filled => simp [lines, prependLine, filled]
  | case3 piece rest ih =>
      rw [prependLine_lines_of_goesOn (by simp [endsLine]),
        prependLine_lines_of_endsLine (by simp [endsLine]), ih, prependLine_nil]
      simp
  | case4 piece rest other ih =>
      have ends : endsLine '\r' rest := by
        apply endsLine_iff.2 (Or.inr ⟨rfl, ?_⟩)
        intro lf
        obtain ⟨after, same⟩ := List.head?_eq_some_iff.1 lf
        exact other after same
      rw [prependLine_lines_of_endsLine ends, ih, prependLine_nil]
  | case5 piece rest ih =>
      rw [prependLine_lines_of_endsLine (by simp [endsLine]), ih, prependLine_nil]
  | case6 piece char rest notCrLf notCr notLf ih =>
      rw [prependLine_lines_of_goesOn, ih]
      rw [endsLine_iff, not_or]
      exact ⟨notLf, fun cr => notCr cr.1⟩

theorem lines_eq_readLines (text : Text) : text.lines = readLines [] text := by
  rw [readLines_eq, prependLine_nil]

end Text

/-- A span of texts that stand one after the other has whole texts before it. -/
theorem exists_of_mem_spansOf {span : Span} {start : Nat} {lines : List Text}
    (member : span ∈ spansOf start lines) :
    ∃ before line after, lines = before ++ line :: after ∧
      span.start = start + (Text.encode before.flatten).length ∧
      span.stop = span.start + line.encode.length := by
  induction lines generalizing start with
  | nil => simp [spansOf] at member
  | cons line rest ih =>
      rcases List.mem_cons.1 member with rfl | later
      · exact ⟨[], line, rest, rfl, rfl, rfl⟩
      · obtain ⟨before, other, after, rfl, first, last⟩ := ih later
        refine ⟨line :: before, other, after, rfl, ?_, last⟩
        rw [first, List.flatten_cons, Text.encode_append, List.length_append, Nat.add_assoc]

/-- A span of a text has whole lines before it, and takes up one. -/
theorem exists_of_mem_lineSpans {text : Text} {span : Span}
    (member : span ∈ text.encode.lineSpans) :
    ∃ before line after : Text, text = before ++ line ++ after ∧ line ≠ [] ∧
      span = ⟨before.encode.length, (before ++ line).encode.length⟩ := by
  rw [lineSpans_encode] at member
  obtain ⟨before, line, after, split, first, last⟩ := exists_of_mem_spansOf member
  refine ⟨before.flatten, line, after.flatten, ?_, ?_, ?_⟩
  · rw [← Text.flatten_lines text, split, List.flatten_append, List.flatten_cons, List.append_assoc]
  · apply Text.ne_nil_of_mem_lines
    rw [split]
    simp
  · obtain ⟨start, stop⟩ := span
    rw [Nat.zero_add] at first
    rw [Text.encode_append, List.length_append, ← first, ← last]

/-- **Every cut is between two characters.** Each line is cut out of the bytes of a text from one
such position up to a later one, and none of these leads outside. What is cut out are the bytes of
the lines that reading the characters yields, which are the lines of the text. -/
theorem splitLines_boundaries (text : Text) :
    (∀ span ∈ text.encode.lineSpans,
      (span.start < span.stop ∧ span.stop ≤ text.encode.length) ∧
        text.IsBoundary span.start ∧ text.IsBoundary span.stop ∧
        ∃ line : Text, span.slice text.encode.toArray = line.encode) ∧
      text.encode.lineSpans.map (fun span => (span.slice text.encode.toArray).decode?) =
        (Text.readLines [] text).map some ∧
      splitLines text = Text.readLines [] text := by
  refine ⟨?_, ?_, ?_⟩
  · intro span member
    obtain ⟨before, line, after, rfl, filled, rfl⟩ := exists_of_mem_lineSpans member
    have bytes : 0 < line.encode.length :=
      List.length_pos_iff.2 (mt Text.encode_eq_nil_iff.1 filled)
    refine ⟨⟨?_, ?_⟩, ⟨before, line ++ after, by simp, rfl⟩, ⟨before ++ line, after, rfl, rfl⟩,
      line, ?_⟩
    · rw [Text.encode_append, List.length_append]
      exact Nat.lt_add_of_pos_right bytes
    · rw [Text.encode_append _ after, List.length_append]
      exact Nat.le_add_right _ _
    · exact (Bytes.encode_of_decode? (decode?_slice before line after)).symm
  · rw [map_decode?_lineSpans, Text.lines_eq_readLines]
  · rw [splitLines_eq_lines, Text.lines_eq_readLines]

end DocLint
