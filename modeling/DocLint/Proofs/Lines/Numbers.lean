import DocLint.Proofs.Lines.Cut
import DocLint.Proofs.Rule.Places
import Mathlib.Data.Finset.Card
import Mathlib.Data.Finset.Prod
import Mathlib.Data.Nat.Count

/-!
# Line numbers

The line that a position of a text lies in has as many lines before it as terminators end at or
before the position (`Text.card_terminatorsUpTo_of_lines`). The numbers that findings carry are
therefore right with respect to the text, in which nothing is cut:
`mem_checkLines_splitLines_iff`.
-/

namespace DocLint

namespace Text

variable {text : Text}

/-! ## Terminators -/

/-- Whether a terminator of a text begins at a position and ends right before another: an LF that
no CR precedes, a CR that no LF follows, or a CR and the LF that follows it. -/
def IsTerminator (text : Text) (start stop : Nat) : Prop :=
  (text[start]? = some '\n' ∧ (start = 0 ∨ text[start - 1]? ≠ some '\r') ∧ stop = start + 1) ∨
    (text[start]? = some '\r' ∧ text[start + 1]? ≠ some '\n' ∧ stop = start + 1) ∨
    (text[start]? = some '\r' ∧ text[start + 1]? = some '\n' ∧ stop = start + 2)

instance (text : Text) (start stop : Nat) : Decidable (text.IsTerminator start stop) :=
  inferInstanceAs (Decidable (_ ∨ _))

/-- The terminators of a text that end at or before a position. -/
def terminatorsUpTo (text : Text) (position : Nat) : Finset (Nat × Nat) :=
  (Finset.range position ×ˢ Finset.range (position + 1)).filter fun span =>
    text.IsTerminator span.1 span.2

/-- Whether the character at a position ends a line. -/
def LineEnd (text : Text) (position : Nat) : Prop :=
  text[position]? = some '\n' ∨ text[position]? = some '\r' ∧ text[position + 1]? ≠ some '\n'

instance (text : Text) : DecidablePred text.LineEnd := fun _ =>
  inferInstanceAs (Decidable (_ ∨ _))

theorem IsTerminator.lineEnd {start stop : Nat} (terminator : text.IsTerminator start stop) :
    ∃ last, stop = last + 1 ∧ start ≤ last ∧ text.LineEnd last := by
  rcases terminator with ⟨lf, _, rfl⟩ | ⟨cr, alone, rfl⟩ | ⟨_, lf, rfl⟩
  · exact ⟨start, rfl, Nat.le_refl _, Or.inl lf⟩
  · exact ⟨start, rfl, Nat.le_refl _, Or.inr ⟨cr, alone⟩⟩
  · exact ⟨start + 1, rfl, Nat.le_succ _, Or.inl lf⟩

theorem LineEnd.exists_isTerminator {last : Nat} (ends : text.LineEnd last) :
    ∃ start, text.IsTerminator start (last + 1) := by
  rcases ends with lf | ⟨cr, alone⟩
  · by_cases alone : last = 0 ∨ text[last - 1]? ≠ some '\r'
    · exact ⟨last, Or.inl ⟨lf, alone, rfl⟩⟩
    · rw [not_or, not_not] at alone
      obtain ⟨before, rfl⟩ := Nat.exists_eq_succ_of_ne_zero alone.1
      exact ⟨before, Or.inr (Or.inr ⟨alone.2, lf, rfl⟩)⟩
  · exact ⟨last, Or.inr (Or.inl ⟨cr, alone, rfl⟩)⟩

theorem IsTerminator.start_eq {start other stop : Nat} (terminator : text.IsTerminator start stop)
    (second : text.IsTerminator other stop) : start = other := by
  rcases terminator with ⟨lf, alone, rfl⟩ | ⟨cr, alone, rfl⟩ | ⟨cr, lf, rfl⟩
  · rcases second with ⟨_, _, same⟩ | ⟨_, _, same⟩ | ⟨cr, _, same⟩
    · omega
    · omega
    · obtain rfl : start = other + 1 := by omega
      simp [cr] at alone
  · rcases second with ⟨_, _, same⟩ | ⟨_, _, same⟩ | ⟨_, lf, same⟩
    · omega
    · omega
    · obtain rfl : start = other + 1 := by omega
      simp [lf] at cr
  · rcases second with ⟨_, alone, same⟩ | ⟨single, _, same⟩ | ⟨_, _, same⟩
    · obtain rfl : other = start + 1 := by omega
      simp [cr] at alone
    · obtain rfl : other = start + 1 := by omega
      simp [lf] at single
    · omega

theorem mem_terminatorsUpTo_iff {position : Nat} {span : Nat × Nat} :
    span ∈ text.terminatorsUpTo position ↔
      text.IsTerminator span.1 span.2 ∧ span.2 ≤ position := by
  rw [terminatorsUpTo, Finset.mem_filter, Finset.mem_product, Finset.mem_range, Finset.mem_range]
  constructor
  · intro there
    exact ⟨there.2, Nat.le_of_lt_succ there.1.2⟩
  · intro there
    obtain ⟨last, stop, least, _⟩ := there.1.lineEnd
    exact ⟨by omega, there.1⟩

/-- Every terminator ends with a character of its own. -/
theorem card_terminatorsUpTo (text : Text) (position : Nat) :
    (text.terminatorsUpTo position).card = Nat.count text.LineEnd position := by
  rw [Nat.count_eq_card_filter_range]
  refine Finset.card_nbij (fun span => span.2 - 1) ?_ ?_ ?_
  · intro span member
    obtain ⟨terminator, below⟩ := mem_terminatorsUpTo_iff.1 (Finset.mem_coe.1 member)
    obtain ⟨last, stop, _, ends⟩ := terminator.lineEnd
    change span.2 - 1 ∈ _
    rw [stop, Nat.add_sub_cancel]
    exact Finset.mem_coe.2 (Finset.mem_filter.2 ⟨Finset.mem_range.2 (by omega), ends⟩)
  · intro first memberFirst second memberSecond same
    obtain ⟨terminator, _⟩ := mem_terminatorsUpTo_iff.1 (Finset.mem_coe.1 memberFirst)
    obtain ⟨other, _⟩ := mem_terminatorsUpTo_iff.1 (Finset.mem_coe.1 memberSecond)
    obtain ⟨_, stop, _, _⟩ := terminator.lineEnd
    obtain ⟨_, stopOther, _, _⟩ := other.lineEnd
    have stops : first.2 = second.2 := by
      change first.2 - 1 = second.2 - 1 at same
      omega
    rw [stops] at terminator
    exact Prod.ext (terminator.start_eq other) stops
  · intro last member
    obtain ⟨inside, ends⟩ := Finset.mem_filter.1 (Finset.mem_coe.1 member)
    obtain ⟨start, terminator⟩ := ends.exists_isTerminator
    have below := Finset.mem_range.1 inside
    exact ⟨(start, last + 1), mem_terminatorsUpTo_iff.2 ⟨terminator, below⟩, rfl⟩

theorem lineEnd_cons_zero_iff {char : Char} {rest : Text} :
    LineEnd (char :: rest) 0 ↔ endsLine char rest := by
  simp [LineEnd, endsLine_iff, List.head?_eq_getElem?]

theorem count_lineEnd_cons (char : Char) (rest : Text) (position : Nat) :
    Nat.count (LineEnd (char :: rest)) (position + 1) =
      Nat.count rest.LineEnd position + if endsLine char rest then 1 else 0 := by
  rw [Nat.count_succ']
  simp only [lineEnd_cons_zero_iff]
  rfl

/-! ## Positions in lines -/

/-- A position in a line has as many line ends before it as there are lines before that line. -/
theorem count_lineEnd {before after : List Text} {line : Text} {offset : Nat}
    (split : text.lines = before ++ line :: after) (inside : offset < line.length) :
    Nat.count text.LineEnd (before.flatten.length + offset) = before.length := by
  induction text generalizing before line offset with
  | nil => simp [lines] at split
  | cons char rest ih =>
      rcases lines_cons_cases char rest with
        ⟨ends, cut⟩ | ⟨goesOn, ⟨rfl, cut⟩ | ⟨first, others, found, heads, cut⟩⟩
      · rw [cut] at split
        cases before with
        | nil =>
            obtain ⟨rfl, rfl⟩ := List.cons.inj split
            obtain rfl : offset = 0 := by simpa using inside
            rfl
        | cons earlier before =>
            obtain ⟨rfl, onward⟩ := List.cons.inj split
            have position : ([char] :: before).flatten.length + offset =
                before.flatten.length + offset + 1 := by simp; omega
            rw [position, count_lineEnd_cons, ih onward inside, if_pos ends, List.length_cons]
      · rw [cut] at split
        cases before with
        | nil =>
            obtain ⟨rfl, rfl⟩ := List.cons.inj split
            obtain rfl : offset = 0 := by simpa using inside
            rfl
        | cons earlier before => simp at split
      · rw [cut] at split
        cases before with
        | nil =>
            obtain ⟨rfl, rfl⟩ := List.cons.inj split
            cases offset with
            | zero => rfl
            | succ offset =>
                have within := @ih [] _ offset found (by simpa using inside)
                rw [List.flatten_nil, List.length_nil, Nat.zero_add] at within ⊢
                rw [count_lineEnd_cons, within, if_neg goesOn]
                rfl
        | cons earlier before =>
            obtain ⟨rfl, rfl⟩ := List.cons.inj split
            have position : ((char :: first) :: before).flatten.length + offset =
                (first :: before).flatten.length + offset + 1 := by simp; omega
            rw [position, count_lineEnd_cons, @ih (first :: before) _ _ found inside, if_neg goesOn]
            rfl

theorem exists_line_of_lt {lines : List Text} {position : Nat}
    (inside : position < lines.flatten.length) :
    ∃ before line after offset, lines = before ++ line :: after ∧ offset < line.length ∧
      position = before.flatten.length + offset := by
  induction lines generalizing position with
  | nil => simp at inside
  | cons line rest ih =>
      by_cases first : position < line.length
      · exact ⟨[], line, rest, position, rfl, first, by simp⟩
      · rw [List.flatten_cons, List.length_append] at inside
        obtain ⟨before, other, after, offset, rfl, within, place⟩ :=
          @ih (position - line.length) (by omega)
        refine ⟨line :: before, other, after, offset, rfl, within, ?_⟩
        rw [List.flatten_cons, List.length_append]
        omega

/-- What stands at a position of a line stands in the text after the lines before. -/
theorem getElem?_of_lines {before after : List Text} {piece : Text} {offset : Nat}
    (split : text.lines = before ++ piece :: after) (inside : offset < piece.length) :
    text[before.flatten.length + offset]? = piece[offset]? := by
  rw [← flatten_lines text, split, List.flatten_append, List.flatten_cons,
    List.getElem?_append_right (Nat.le_add_right _ _), Nat.add_sub_cancel_left,
    List.getElem?_append_left inside]

theorem card_terminatorsUpTo_of_lines {before after : List Text} {line : Text} {offset : Nat}
    (split : text.lines = before ++ line :: after) (inside : offset < line.length) :
    (text.terminatorsUpTo (before.flatten.length + offset)).card = before.length := by
  rw [card_terminatorsUpTo, count_lineEnd split inside]

/-- The line that a position lies in is found by the terminators before the position. -/
theorem exists_line_of_getElem? {position : Nat} {char : Char}
    (there : text[position]? = some char) :
    ∃ before piece after offset, text.lines = before ++ piece :: after ∧
      piece[offset]? = some char ∧ position = before.flatten.length + offset ∧
      (text.terminatorsUpTo position).card = before.length := by
  obtain ⟨inside, _⟩ := List.getElem?_eq_some_iff.1 there
  rw [← flatten_lines text] at inside
  obtain ⟨before, piece, after, offset, split, within, rfl⟩ := exists_line_of_lt inside
  exact ⟨before, piece, after, offset, split, (getElem?_of_lines split within).symm.trans there,
    rfl, card_terminatorsUpTo_of_lines split within⟩

theorem exists_append_of_getElem? {α : Type} {items : List α} {index : Nat} {item : α}
    (found : items[index]? = some item) :
    ∃ before after, items = before ++ item :: after ∧ before.length = index := by
  obtain ⟨inside, rfl⟩ := List.getElem?_eq_some_iff.1 found
  refine ⟨items.take index, items.drop (index + 1), ?_, ?_⟩
  · rw [List.getElem_cons_drop, List.take_append_drop]
  · exact List.length_take_of_le (Nat.le_of_lt inside)

theorem exists_char_at_iff {holds : Char → Prop} {index : Nat} :
    (∃ line, text.lines[index]? = some line ∧ ∃ char ∈ line, holds char) ↔
      ∃ position char, text[position]? = some char ∧ holds char ∧
        (text.terminatorsUpTo position).card = index := by
  constructor
  · intro there
    obtain ⟨line, found, char, member, held⟩ := there
    obtain ⟨before, after, split, rfl⟩ := exists_append_of_getElem? found
    obtain ⟨offset, stands⟩ := List.mem_iff_getElem?.1 member
    have inside := (List.getElem?_eq_some_iff.1 stands).1
    exact ⟨_, char, (getElem?_of_lines split inside).trans stands, held,
      card_terminatorsUpTo_of_lines split inside⟩
  · intro there
    obtain ⟨position, char, stands, held, rfl⟩ := there
    obtain ⟨before, line, after, offset, split, inside, _, counted⟩ :=
      exists_line_of_getElem? stands
    exact ⟨line, by simp [split, counted], char, List.mem_of_getElem? inside, held⟩

theorem pair_infix_iff {left right : Char} {piece : Text} :
    [left, right] <:+: piece ↔
      ∃ offset, piece[offset]? = some left ∧ piece[offset + 1]? = some right := by
  constructor
  · rintro ⟨before, after, rfl⟩
    exact ⟨before.length, by simp, by simp⟩
  · intro there
    obtain ⟨offset, first, second⟩ := there
    obtain ⟨before, after, rfl, rfl⟩ := exists_append_of_getElem? first
    rw [List.getElem?_append_right (Nat.le_succ _), Nat.succ_sub (Nat.le_refl _), Nat.sub_self,
      List.getElem?_cons_succ, ← List.head?_eq_getElem?] at second
    obtain ⟨rest, rfl⟩ := List.head?_eq_some_iff.1 second
    exact ⟨before, rest, by simp⟩

/-- Two characters side by side are in one line unless the first of them ends a line. -/
theorem exists_pair_at_iff {left right : Char} {index : Nat} (notLf : left ≠ '\n')
    (notCr : left ≠ '\r') :
    (∃ line, text.lines[index]? = some line ∧ [left, right] <:+: line) ↔
      ∃ position, text[position]? = some left ∧ text[position + 1]? = some right ∧
        (text.terminatorsUpTo position).card = index := by
  constructor
  · intro there
    obtain ⟨line, found, pair⟩ := there
    obtain ⟨before, after, split, rfl⟩ := exists_append_of_getElem? found
    obtain ⟨offset, first, second⟩ := pair_infix_iff.1 pair
    have insideSecond := (List.getElem?_eq_some_iff.1 second).1
    have inside := Nat.lt_of_succ_lt insideSecond
    exact ⟨_, (getElem?_of_lines split inside).trans first,
      (getElem?_of_lines split insideSecond).trans second,
      card_terminatorsUpTo_of_lines split inside⟩
  · intro there
    obtain ⟨position, first, second, rfl⟩ := there
    obtain ⟨before, line, after, offset, split, inside, place, counted⟩ :=
      exists_line_of_getElem? first
    obtain ⟨_, _, _, offsetNext, splitNext, insideNext, placeNext, countedNext⟩ :=
      exists_line_of_getElem? second
    -- No line ends with the first character, so that both are in lines of one number.
    have goesOn : ¬ text.LineEnd position := by simp [LineEnd, first, notLf, notCr]
    rw [card_terminatorsUpTo, Nat.count_succ, if_neg goesOn, ← card_terminatorsUpTo, Nat.add_zero,
      counted] at countedNext
    obtain ⟨rfl, same⟩ := List.append_inj (split.symm.trans splitNext) countedNext
    obtain ⟨rfl, rfl⟩ := List.cons.inj same
    obtain rfl : offsetNext = offset + 1 := by omega
    exact ⟨line, by simp [split, counted], pair_infix_iff.2 ⟨offset, inside, insideNext⟩⟩

end Text

/-- **The line numbers of findings are those of the text.** A full-width character is reported for
the line after as many terminators as end at or before its position, and so are two spaces side
by side. -/
theorem mem_checkLines_splitLines_iff (name text : Text) (line : Nat) :
    (∀ kind, ⟨name, line, .fullWidth kind⟩ ∈ checkLines name (splitLines text) ↔
      ∃ position char, text[position]? = some char ∧ kind.chars.contains char ∧
        (text.terminatorsUpTo position).card + 1 = line) ∧
      (⟨name, line, .repeatedSpaces⟩ ∈ checkLines name (splitLines text) ↔
        ∃ position, text[position]? = some ' ' ∧ text[position + 1]? = some ' ' ∧
          (text.terminatorsUpTo position).card + 1 = line) := by
  have reported (violation : Violation) :
      ⟨name, line, violation⟩ ∈ checkLines name (splitLines text) ↔
        ∃ index, violation.At text.lines index ∧ index + 1 = line := by
    rw [mem_checkLines_iff, splitLines_eq_lines]
    simp [eq_comm, and_comm]
  constructor
  · intro kind
    rw [reported]
    simp only [Violation.At, Text.exists_char_at_iff]
    constructor
    · rintro ⟨_, ⟨position, char, there, held, rfl⟩, rfl⟩
      exact ⟨position, char, there, held, rfl⟩
    · rintro ⟨position, char, there, held, rfl⟩
      exact ⟨_, ⟨position, char, there, held, rfl⟩, rfl⟩
  · rw [reported]
    simp only [Violation.At, @Text.exists_pair_at_iff text ' ' ' ' _ (by decide) (by decide)]
    constructor
    · rintro ⟨_, ⟨position, first, second, rfl⟩, rfl⟩
      exact ⟨position, first, second, rfl⟩
    · rintro ⟨position, first, second, rfl⟩
      exact ⟨_, ⟨position, first, second, rfl⟩, rfl⟩

/-- A CR LF pair is one terminator, and the CR before it is another. -/
example : (Text.terminatorsUpTo ['\r', '\r', '\n', '\n', '\r', ' '] 5).card = 4 := by decide

end DocLint
