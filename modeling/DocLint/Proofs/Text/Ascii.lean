import DocLint.Lines.Universal

/-!
# ASCII characters among bytes

A byte of seven bits in the encoding of a text is a whole character there, so that the text can
be cut at it (`Text.exists_split_of_encode`). What is asked about ASCII characters can therefore
be asked about the bytes.
-/

namespace DocLint

/-- The byte of an ASCII character is in the encoding of no other character. -/
theorem eq_of_mem_utf8EncodeChar {char other : Char} (ascii : char.utf8Size = 1)
    (member : char.val.toUInt8 ∈ String.utf8EncodeChar other) : other = char := by
  by_cases narrow : other.utf8Size = 1
  · have heads := head?_encode_eq_some_iff ascii [other]
    rw [String.utf8EncodeChar_eq_singleton narrow, List.mem_singleton] at member
    rw [Text.encode_cons, String.utf8EncodeChar_eq_singleton narrow, member] at heads
    simpa using heads
  · have high := high_of_mem_utf8EncodeChar narrow _ member
    have small := Char.utf8Size_eq_one_iff.1 ascii
    simp only [UInt8.le_iff_toNat_le, UInt32.le_iff_toNat_le, UInt32.toNat_toUInt8,
      UInt8.reduceToNat, UInt32.reduceToNat] at high small
    omega

namespace Text

theorem encode_singleton {char : Char} (ascii : char.utf8Size = 1) :
    Text.encode [char] = [char.val.toUInt8] := by
  rw [encode_cons, String.utf8EncodeChar_eq_singleton ascii, encode_nil, List.append_nil]

theorem encode_eq_nil_iff {text : Text} : text.encode = [] ↔ text = [] := by
  constructor
  · exact fun empty => encode_injective empty
  · rintro rfl
    rfl

/-- A text can be cut at the byte of an ASCII character. -/
theorem exists_split_of_encode {char : Char} (ascii : char.utf8Size = 1) {text : Text}
    {before after : Bytes} (encoded : text.encode = before ++ char.val.toUInt8 :: after) :
    ∃ first second : Text, text = first ++ char :: second ∧ first.encode = before ∧
      second.encode = after := by
  induction text generalizing before with
  | nil => simp at encoded
  | cons other rest ih =>
      rw [encode_cons, List.append_eq_append_iff] at encoded
      rcases encoded with ⟨middle, rfl, later⟩ | ⟨middle, split, later⟩
      · obtain ⟨first, second, rfl, rfl, rfl⟩ := ih later
        exact ⟨other :: first, second, rfl, encode_cons _ _, rfl⟩
      · cases middle with
        | nil =>
            obtain ⟨first, second, rfl, empty, rfl⟩ := @ih [] later.symm
            obtain rfl := encode_eq_nil_iff.1 empty
            exact ⟨[other], second, rfl, by simpa using split, rfl⟩
        | cons byte middle =>
            obtain ⟨rfl, onward⟩ := List.cons.inj later
            obtain rfl := eq_of_mem_utf8EncodeChar ascii (by rw [split]; simp)
            rw [String.utf8EncodeChar_eq_singleton ascii] at split
            have sizes := congrArg List.length split
            simp only [List.length_nil, List.length_append, List.length_cons] at sizes
            obtain rfl : before = [] := List.length_eq_zero_iff.1 (by omega)
            obtain rfl : middle = [] := List.length_eq_zero_iff.1 (by omega)
            exact ⟨[], rest, rfl, rfl, onward.symm⟩

theorem mem_encode_iff {char : Char} (ascii : char.utf8Size = 1) (text : Text) :
    char.val.toUInt8 ∈ text.encode ↔ char ∈ text := by
  constructor
  · intro member
    obtain ⟨before, after, split⟩ := List.append_of_mem member
    obtain ⟨first, second, rfl, _, _⟩ := exists_split_of_encode ascii split
    simp
  · intro member
    obtain ⟨first, second, rfl⟩ := List.append_of_mem member
    simp [String.utf8EncodeChar_eq_singleton ascii]

theorem getLast?_encode_iff {char : Char} (ascii : char.utf8Size = 1) (text : Text) :
    text.encode.getLast? = some char.val.toUInt8 ↔ text.getLast? = some char := by
  constructor
  · intro last
    obtain ⟨before, split⟩ := List.getLast?_eq_some_iff.1 last
    obtain ⟨first, second, rfl, _, empty⟩ := exists_split_of_encode ascii split
    obtain rfl := encode_eq_nil_iff.1 empty
    simp
  · intro last
    obtain ⟨first, rfl⟩ := List.getLast?_eq_some_iff.1 last
    rw [encode_append, encode_singleton ascii]
    simp

theorem pair_infix_encode_iff {left right : Char} (asciiLeft : left.utf8Size = 1)
    (asciiRight : right.utf8Size = 1) (text : Text) :
    [left.val.toUInt8, right.val.toUInt8] <:+: text.encode ↔ [left, right] <:+: text := by
  constructor
  · intro there
    obtain ⟨before, after, encoded⟩ := there
    obtain ⟨first, second, rfl, _, later⟩ := exists_split_of_encode asciiLeft
      (show text.encode = before ++ left.val.toUInt8 :: ([right.val.toUInt8] ++ after) by
        rw [← encoded]
        simp)
    obtain ⟨empty, third, rfl, nothing, _⟩ :=
      @exists_split_of_encode right asciiRight second [] after later
    obtain rfl := encode_eq_nil_iff.1 nothing
    exact ⟨first, third, by simp⟩
  · intro there
    obtain ⟨first, second, rfl⟩ := there
    refine ⟨Text.encode first, Text.encode second, ?_⟩
    simp [String.utf8EncodeChar_eq_singleton asciiLeft,
      String.utf8EncodeChar_eq_singleton asciiRight]

end Text

end DocLint
