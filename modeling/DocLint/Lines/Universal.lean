import DocLint.Lines

/-!
# Lines among characters

The lines of a text can be found among its characters as well as among the bytes of its
UTF-8 form. Where a line lies among the bytes is told by the lengths of the lines before it
(`lineSpans_encode`). Main statement: both ways give the same lines, so that no cut ever falls
inside a character (`splitLines_eq_lines`).
-/

namespace DocLint

namespace Text

/-- Whether a line ends with a character, given the text after it. -/
def endsLine (char : Char) (rest : Text) : Bool :=
  char = '\n' || (char = '\r' && rest.head? ≠ some '\n')

/-- Puts text in front of the first line. -/
def prependLine (start : Text) : List Text → List Text
  | [] => if start = [] then [] else [start]
  | line :: rest => (start ++ line) :: rest

/-- The lines of a text, found among its characters. -/
def lines : Text → List Text
  | [] => []
  | char :: rest =>
      if endsLine char rest then [char] :: lines rest else prependLine [char] (lines rest)

@[simp]
theorem prependLine_nil (lines : List Text) : prependLine [] lines = lines := by
  cases lines <;> simp [prependLine]

theorem prependLine_append (first second : Text) (lines : List Text) :
    prependLine (first ++ second) lines = prependLine first (prependLine second lines) := by
  cases lines with
  | nil => by_cases empty : second = [] <;> simp [prependLine, empty]
  | cons line rest => simp [prependLine]

/-- The lines, put together, are the text. -/
theorem flatten_lines (text : Text) : text.lines.flatten = text := by
  induction text with
  | nil => rfl
  | cons char rest ih =>
      unfold lines
      split
      · simp [ih]
      · cases found : lines rest with
        | nil => simp_all [prependLine]
        | cons line others => simp_all [prependLine]

end Text

/-! ## Characters as bytes -/

private theorem le_or_right (byte bits : UInt8) : bits ≤ byte ||| bits := by
  rw [UInt8.le_iff_toNat_le, UInt8.toNat_or]
  exact Nat.right_le_or

/-- A character outside ASCII has no byte of seven bits. -/
theorem high_of_mem_utf8EncodeChar {char : Char} (wide : char.utf8Size ≠ 1) :
    ∀ byte ∈ String.utf8EncodeChar char, 0x80 ≤ byte := by
  have lead (bits : UInt8) (high : 0x80 ≤ bits) (byte : UInt8) : 0x80 ≤ byte ||| bits :=
    UInt8.le_trans high (le_or_right byte bits)
  have sizes := char.utf8Size_eq
  intro byte member
  rcases sizes with one | two | three | four
  · exact absurd one wide
  · rw [String.utf8EncodeChar_eq_cons_cons two] at member
    simp only [List.mem_cons, List.not_mem_nil, or_false] at member
    rcases member with rfl | rfl
    · exact lead _ (by decide) _
    · exact lead _ (by decide) _
  · rw [String.utf8EncodeChar_eq_cons_cons_cons three] at member
    simp only [List.mem_cons, List.not_mem_nil, or_false] at member
    rcases member with rfl | rfl | rfl
    · exact lead _ (by decide) _
    · exact lead _ (by decide) _
    · exact lead _ (by decide) _
  · rw [String.utf8EncodeChar_eq_cons_cons_cons_cons four] at member
    simp only [List.mem_cons, List.not_mem_nil, or_false] at member
    rcases member with rfl | rfl | rfl | rfl
    · exact lead _ (by decide) _
    · exact lead _ (by decide) _
    · exact lead _ (by decide) _
    · exact lead _ (by decide) _

/-- An encoded text begins with the byte of an ASCII character exactly when the text begins
with that character. -/
theorem head?_encode_eq_some_iff {char : Char} (ascii : char.utf8Size = 1) (text : Text) :
    text.encode.head? = some char.val.toUInt8 ↔ text.head? = some char := by
  cases text with
  | nil => simp
  | cons first rest =>
      have small := Char.utf8Size_eq_one_iff.1 ascii
      by_cases one : first.utf8Size = 1
      · have other := Char.utf8Size_eq_one_iff.1 one
        rw [Text.encode_cons, String.utf8EncodeChar_eq_singleton one]
        simp only [List.cons_append, List.head?_cons, Option.some.injEq]
        rw [UInt32.le_iff_toNat_le] at small other
        constructor
        · intro same
          have values := congrArg UInt8.toNat same
          simp only [UInt32.toNat_toUInt8] at values
          apply Char.ext
          apply UInt32.toNat_inj.1
          have : (127 : UInt32).toNat = 127 := rfl
          omega
        · rintro rfl
          rfl
      · constructor
        · intro found
          have high := high_of_mem_utf8EncodeChar one char.val.toUInt8 (by
            rw [Text.encode_cons] at found
            have present : (String.utf8EncodeChar first).head? ≠ none := by
              intro none
              have empty := List.head?_eq_none_iff.1 none
              have length := String.length_utf8EncodeChar first
              rw [empty] at length
              have := first.utf8Size_pos
              simp only [List.length_nil] at length
              omega
            cases bytes : String.utf8EncodeChar first with
            | nil => exact absurd (by rw [bytes]; rfl) present
            | cons byte others =>
                rw [bytes] at found
                simp only [List.cons_append, List.head?_cons, Option.some.injEq] at found
                simp [found])
          rw [UInt8.le_iff_toNat_le] at high
          rw [UInt32.le_iff_toNat_le] at small
          simp only [UInt32.toNat_toUInt8] at high
          have : (127 : UInt32).toNat = 127 := rfl
          have : (0x80 : UInt8).toNat = 128 := rfl
          omega
        · intro same
          simp only [List.head?_cons, Option.some.injEq] at same
          exact absurd (same ▸ ascii) one

/-- An ASCII character ends a line exactly when its byte does. -/
theorem endsLine_encode {char : Char} (ascii : char.utf8Size = 1) (rest : Text) :
    Bytes.endsLine char.val.toUInt8 rest.encode = Text.endsLine char rest := by
  have one (other : Char) (narrow : other.utf8Size = 1) :
      char.val.toUInt8 = other.val.toUInt8 ↔ char = other := by
    have heads := head?_encode_eq_some_iff narrow [char]
    rw [Text.encode_cons, String.utf8EncodeChar_eq_singleton ascii] at heads
    simpa using heads
  have lf := one '\n' (by decide)
  have cr := one '\r' (by decide)
  have next := @head?_encode_eq_some_iff '\n' (by decide) rest
  have lfByte : ('\n' : Char).val.toUInt8 = 0x0A := rfl
  have crByte : ('\r' : Char).val.toUInt8 = 0x0D := rfl
  rw [lfByte] at lf next
  rw [crByte] at cr
  simp only [Bytes.endsLine, Text.endsLine, lf, cr, ne_eq, next]

/-- Bytes above seven bits end no line. -/
theorem spansFrom_high (start here : Nat) (done : List Span) (high rest : Bytes)
    (above : ∀ byte ∈ high, 0x80 ≤ byte) :
    Bytes.spansFrom start here done (high ++ rest) =
      Bytes.spansFrom start (here + high.length) done rest := by
  induction high generalizing here with
  | nil => rfl
  | cons byte high ih =>
      have bound := above byte (by simp)
      have notLf : byte ≠ 0x0A := by rintro rfl; exact absurd bound (by decide)
      have notCr : byte ≠ 0x0D := by rintro rfl; exact absurd bound (by decide)
      simp only [List.cons_append, Bytes.spansFrom, Bytes.endsLine, notLf, notCr, decide_false,
        Bool.false_and, Bool.or_self, Bool.false_eq_true, ↓reduceIte, List.length_cons]
      rw [ih _ fun other member => above other (by simp [member])]
      congr 1
      omega

/-! ## Both ways give the same lines -/

/-- The span of a part of a text yields that part. -/
theorem decode?_slice (before part after : Text) :
    (Span.slice ⟨before.encode.length, (before ++ part).encode.length⟩
      (before ++ part ++ after).encode.toArray).decode? = some part := by
  have cut : Span.slice ⟨before.encode.length, (before ++ part).encode.length⟩
      (before ++ part ++ after).encode.toArray = part.encode := by
    simp [Span.slice, List.extract_eq_take_drop]
  rw [cut, Bytes.decode?_encode]

/-- Where texts lie, in bytes, that stand one after the other from `start` on. -/
def spansOf (start : Nat) : List Text → List Span
  | [] => []
  | text :: rest =>
      ⟨start, start + text.encode.length⟩ :: spansOf (start + text.encode.length) rest

/-- When `part` of a line has passed that began at `start`, the spans still to be found are those
of the lines that begin with `part`. -/
theorem reverse_spansFrom_encode (start : Nat) (part rest : Text) :
    (Bytes.spansFrom start (start + part.encode.length) [] rest.encode).reverse =
      spansOf start (Text.prependLine part rest.lines) := by
  induction rest generalizing start part with
  | nil =>
      cases part with
      | nil => simp [Bytes.spansFrom, Text.lines, spansOf]
      | cons first others =>
          have longer : start < start + (Text.encode (first :: others)).length := by
            have := first.utf8Size_pos
            simp only [Text.encode_cons, List.length_append, String.length_utf8EncodeChar]
            omega
          rw [Text.encode_nil, Bytes.spansFrom, if_pos longer]
          simp [Text.lines, Text.prependLine, spansOf]
  | cons char rest ih =>
      have passed : start + (Text.encode (part ++ [char])).length =
          start + part.encode.length + (String.utf8EncodeChar char).length := by
        simp [Nat.add_assoc]
      have onward := ih start (part ++ [char])
      rw [passed] at onward
      rw [Text.encode_cons]
      by_cases ascii : char.utf8Size = 1
      · rw [String.utf8EncodeChar_eq_singleton ascii] at onward passed ⊢
        simp only [List.length_singleton] at onward passed
        simp only [List.singleton_append, Bytes.spansFrom, endsLine_encode ascii]
        by_cases ends : Text.endsLine char rest
        · have fresh := ih (start + part.encode.length + 1) []
          simp only [Text.encode_nil, List.length_nil, Nat.add_zero, Text.prependLine_nil] at fresh
          simp only [ends, ↓reduceIte]
          rw [Bytes.spansFrom_eq_append, List.reverse_append, fresh]
          simp only [Text.lines, ends, ↓reduceIte, Text.prependLine, spansOf, passed]
          rfl
        · simp only [ends, Bool.false_eq_true, ↓reduceIte, Text.lines]
          rw [onward, Text.prependLine_append]
      · have inside : Text.endsLine char rest = false := by
          have notLf : char ≠ '\n' := by rintro rfl; exact ascii (by decide)
          have notCr : char ≠ '\r' := by rintro rfl; exact ascii (by decide)
          simp [Text.endsLine, notLf, notCr]
        rw [spansFrom_high _ _ _ _ _ (high_of_mem_utf8EncodeChar ascii)]
        simp only [Text.lines, inside, Bool.false_eq_true, ↓reduceIte]
        rw [onward, Text.prependLine_append]

/-- The spans found among the bytes of a text are those of the lines found among its
characters. -/
theorem lineSpans_encode (text : Text) : text.encode.lineSpans = spansOf 0 text.lines := by
  simpa [Bytes.lineSpans] using reverse_spansFrom_encode 0 [] text

theorem map_decode?_spansOf (before : Text) (lines : List Text) :
    (spansOf before.encode.length lines).map
        (fun span => (span.slice (before ++ lines.flatten).encode.toArray).decode?) =
      lines.map some := by
  induction lines generalizing before with
  | nil => rfl
  | cons line rest ih =>
      have onward := ih (before ++ line)
      have slice := decode?_slice before line rest.flatten
      rw [Text.encode_append before line, List.length_append, List.append_assoc] at onward slice
      rw [spansOf, List.map_cons, List.map_cons, List.flatten_cons, onward, slice]

/-- Every line cut out of the bytes of a text decodes, and the lines are those found among
the characters. -/
theorem map_decode?_lineSpans (text : Text) :
    text.encode.lineSpans.map (fun span => (span.slice text.encode.toArray).decode?) =
      text.lines.map some := by
  have cut := map_decode?_spansOf [] text.lines
  rwa [List.nil_append, Text.flatten_lines, Text.encode_nil, List.length_nil,
    ← lineSpans_encode] at cut

theorem splitLines_eq_lines (text : Text) : splitLines text = text.lines := by
  have cut := map_decode?_lineSpans text
  have kept := congrArg (List.filterMap id) cut
  simpa [splitLines, List.filterMap_map, Function.comp_def] using kept

end DocLint
