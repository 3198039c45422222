import DocLint.Text.Lossy

/-!
# Well-formed bytes are those of a text

A lead byte leaves a state behind in which some tail bytes are expected, and the bits of all
these bytes add up to the value of a character. The states know ranges of bytes only, and the
values follow from them. Bytes are well-formed exactly when some text has them as its encoding
(`Bytes.wellFormed_iff_exists_encode`), and replacing what cannot be read changes nothing about
the bytes of a text (`Bytes.lossy_encode`).
-/

namespace DocLint

namespace Utf8State

/-- The tail bytes that lead from a state to the end of a character, with the value that they
add up to after the bits read before them. -/
inductive Spells : Utf8State → Nat → Bytes → Nat → Prop where
  | done (value : Nat) : Spells .boundary value [] value
  | tail {low high byte : UInt8} {more bits value : Nat} {rest : Bytes}
      (within : low ≤ byte ∧ byte ≤ high)
      (spelled : Spells (afterTail more) (bits * 64 + (byte.toNat - 0x80)) rest value) :
      Spells (.inside low high more) bits (byte :: rest) value

theorem Spells.completes_append {state : Utf8State} {bits value : Nat} {tails : Bytes}
    (spelled : Spells state bits tails value) (rest : Bytes) :
    state.completes (tails ++ rest) = boundary.completes rest := by
  induction spelled with
  | done value => rfl
  | tail within spelled ih => simp [completes, step?, within, ih]

theorem exists_spells_of_completes {state : Utf8State} {bytes : Bytes} (bits : Nat)
    (completed : state.completes bytes) :
    ∃ tails rest value, bytes = tails ++ rest ∧ Spells state bits tails value ∧
      boundary.completes rest := by
  induction bytes generalizing state bits with
  | nil =>
      obtain rfl : state = .boundary := by simpa [completes] using completed
      exact ⟨[], [], bits, rfl, .done bits, rfl⟩
  | cons byte bytes ih =>
      cases state with
      | boundary => exact ⟨[], byte :: bytes, bits, rfl, .done bits, completed⟩
      | inside low high more =>
          by_cases within : low ≤ byte ∧ byte ≤ high
          · simp only [completes, step?, within, and_self, ↓reduceIte] at completed
            obtain ⟨tails, rest, value, rfl, spelled, others⟩ :=
              ih (bits * 64 + (byte.toNat - 0x80)) completed
            exact ⟨byte :: tails, rest, value, rfl, .tail within spelled, others⟩
          · simp [completes, step?, within] at completed

theorem Spells.foldl_read {low high : UInt8} {more bits value : Nat} {tails : Bytes}
    (spelled : Spells (.inside low high more) bits tails value) (shown : Text) :
    tails.foldl LossyReader.read ⟨.inside low high more, bits, shown⟩ =
      ⟨.boundary, 0, Char.ofNat value :: shown⟩ := by
  induction more generalizing low high bits tails with
  | zero =>
      cases spelled with
      | tail within spelled =>
          cases spelled
          simp [LossyReader.read, within]
  | succ more ih =>
      cases spelled with
      | tail within spelled =>
          rw [List.foldl_cons, ← ih spelled]
          simp [LossyReader.read, within]

/-! ## What a lead byte leads to -/

theorem lead?_toNat (byte : UInt8) :
    lead? byte =
      if byte.toNat < 0x80 then some .boundary
      else if byte.toNat < 0xC2 then none
      else if byte.toNat < 0xE0 then some (.inside 0x80 0xBF 0)
      else if byte.toNat = 0xE0 then some (.inside 0xA0 0xBF 1)
      else if byte.toNat = 0xED then some (.inside 0x80 0x9F 1)
      else if byte.toNat < 0xF0 then some (.inside 0x80 0xBF 1)
      else if byte.toNat = 0xF0 then some (.inside 0x90 0xBF 2)
      else if byte.toNat < 0xF4 then some (.inside 0x80 0xBF 2)
      else if byte.toNat = 0xF4 then some (.inside 0x80 0x8F 2)
      else none := by
  simp only [lead?, UInt8.lt_iff_toNat_lt, ← UInt8.toNat_inj, UInt8.reduceToNat]

theorem lead?_eq_boundary_iff {byte : UInt8} :
    lead? byte = some .boundary ↔ byte.toNat < 0x80 := by
  rw [lead?_toNat]
  grind

/-- Which first tail bytes a lead byte admits when a number of others follow. After the least
and the greatest lead bytes some would make the value one that no character has. -/
def FirstTail (lead tail : Nat) : Nat → Prop
  | 0 => 0xC2 ≤ lead ∧ lead < 0xE0
  | 1 => 0xE0 ≤ lead ∧ lead < 0xF0 ∧ (lead = 0xE0 → 0xA0 ≤ tail) ∧ (lead = 0xED → tail ≤ 0x9F)
  | 2 => 0xF0 ≤ lead ∧ lead ≤ 0xF4 ∧ (lead = 0xF0 → 0x90 ≤ tail) ∧ (lead = 0xF4 → tail ≤ 0x8F)
  | _ => False

theorem lead?_inside_iff {lead tail : UInt8} {more : Nat} :
    (∃ low high, lead? lead = some (.inside low high more) ∧ low ≤ tail ∧ tail ≤ high) ↔
      0x80 ≤ tail.toNat ∧ tail.toNat ≤ 0xBF ∧ FirstTail lead.toNat tail.toNat more := by
  rw [lead?_toNat]
  simp only [UInt8.le_iff_toNat_le]
  constructor
  · intro there
    obtain ⟨low, high, led, above, below⟩ := there
    split at led
    · simp at led
    · repeat' split at led
      all_goals
        simp only [Option.some.injEq, inside.injEq, reduceCtorEq] at led
      all_goals
        obtain ⟨rfl, rfl, rfl⟩ := led
        simp only [UInt8.reduceToNat] at above below
        simp only [FirstTail]
        omega
  · intro there
    obtain ⟨above, below, first⟩ := there
    match more, first with
    | 0, first =>
        obtain ⟨least, most⟩ := first
        exact ⟨0x80, 0xBF, by grind, above, below⟩
    | 1, first =>
        obtain ⟨least, most, afterE0, afterED⟩ := first
        by_cases overlong : lead.toNat = 0xE0
        · exact ⟨0xA0, 0xBF, by simp [overlong], afterE0 overlong, below⟩
        · by_cases surrogate : lead.toNat = 0xED
          · exact ⟨0x80, 0x9F, by simp [surrogate], above, afterED surrogate⟩
          · exact ⟨0x80, 0xBF, by grind, above, below⟩
    | 2, first =>
        obtain ⟨least, most, afterF0, afterF4⟩ := first
        by_cases overlong : lead.toNat = 0xF0
        · exact ⟨0x90, 0xBF, by simp [overlong], afterF0 overlong, below⟩
        · by_cases highest : lead.toNat = 0xF4
          · exact ⟨0x80, 0x8F, by simp [highest], above, afterF4 highest⟩
          · exact ⟨0x80, 0xBF, by grind, above, below⟩

theorem leadBits_toNat (byte : UInt8) : LossyReader.leadBits byte =
    if byte.toNat < 0xE0 then byte.toNat - 0xC0
    else if byte.toNat < 0xF0 then byte.toNat - 0xE0 else byte.toNat - 0xF0 := by
  simp only [LossyReader.leadBits, UInt8.lt_iff_toNat_lt, UInt8.reduceToNat]

private theorem ofNat_eq_iff {value : Nat} {byte : UInt8} :
    UInt8.ofNat value = byte ↔ value % 256 = byte.toNat := by
  rw [← UInt8.toNat_inj, UInt8.toNat_ofNat']

theorem toNat_ofNat {value : Nat} (valid : value.isValidChar) :
    (Char.ofNat value).toNat = value := by
  rw [Char.ofNat, dif_pos valid]
  rfl

/-- A lead byte and the tail bytes after it are the encoding of the character whose value they
spell. That value is none of those that no character has. -/
theorem Spells.encode {lead low high : UInt8} {more value : Nat} {tails : Bytes}
    (led : lead? lead = some (.inside low high more))
    (spelled : Spells (.inside low high more) (LossyReader.leadBits lead) tails value) :
    value.isValidChar ∧ String.utf8EncodeChar (Char.ofNat value) = lead :: tails := by
  cases spelled with
  | @tail _ _ first _ _ _ rest within spelled =>
      obtain ⟨above, below, ranges⟩ := lead?_inside_iff.1 ⟨low, high, led, within⟩
      rw [leadBits_toNat] at spelled
      -- The number of tail bytes decides how the value is spelled and where the encoding branches.
      match more, ranges with
      | 0, ranges =>
          obtain ⟨least, most⟩ := ranges
          rw [if_pos (by omega)] at spelled
          cases spelled
          have valid : Nat.isValidChar ((lead.toNat - 0xC0) * 64 + (first.toNat - 0x80)) := by
            unfold Nat.isValidChar
            omega
          refine ⟨valid, ?_⟩
          simp only [String.utf8EncodeChar, Char.toNat_val, toNat_ofNat valid]
          rw [if_neg (by omega), if_pos (by omega)]
          simp only [List.cons.injEq, ofNat_eq_iff, and_true]
          omega
      | 1, ranges =>
          obtain ⟨least, most, afterE0, afterED⟩ := ranges
          rw [if_neg (by omega), if_pos (by omega)] at spelled
          cases spelled with
          | @tail _ _ second _ _ _ _ within spelled =>
              simp only [UInt8.le_iff_toNat_le, UInt8.reduceToNat] at within
              cases spelled
              have valid : Nat.isValidChar (((lead.toNat - 0xE0) * 64 + (first.toNat - 0x80)) * 64 +
                  (second.toNat - 0x80)) := by
                unfold Nat.isValidChar
                omega
              refine ⟨valid, ?_⟩
              simp only [String.utf8EncodeChar, Char.toNat_val, toNat_ofNat valid]
              rw [if_neg (by omega), if_neg (by omega), if_pos (by omega)]
              simp only [List.cons.injEq, ofNat_eq_iff, and_true]
              omega
      | 2, ranges =>
          obtain ⟨least, most, afterF0, afterF4⟩ := ranges
          rw [if_neg (by omega), if_neg (by omega)] at spelled
          cases spelled with
          | @tail _ _ second _ _ _ _ inSecond spelled =>
              cases spelled with
              | @tail _ _ third _ _ _ _ inThird spelled =>
                  simp only [UInt8.le_iff_toNat_le, UInt8.reduceToNat] at inSecond inThird
                  cases spelled
                  have valid : Nat.isValidChar ((((lead.toNat - 0xF0) * 64 +
                      (first.toNat - 0x80)) * 64 + (second.toNat - 0x80)) * 64 +
                        (third.toNat - 0x80)) := by
                    unfold Nat.isValidChar
                    omega
                  refine ⟨valid, ?_⟩
                  simp only [String.utf8EncodeChar, Char.toNat_val, toNat_ofNat valid]
                  rw [if_neg (by omega), if_neg (by omega), if_neg (by omega)]
                  simp only [List.cons.injEq, ofNat_eq_iff, and_true]
                  omega

private theorem toNat_ofNat_byte {value : Nat} (small : value < 256) :
    (UInt8.ofNat value).toNat = value := by
  rw [UInt8.toNat_ofNat', Nat.mod_eq_of_lt small]

/-- The encoding of a character of more than seven bits is a lead byte with tail bytes that
spell the character's value. -/
theorem exists_spells_utf8EncodeChar {char : Char} (wide : 0x80 ≤ char.toNat) :
    ∃ lead tails low high more, String.utf8EncodeChar char = lead :: tails ∧
      lead? lead = some (.inside low high more) ∧
      Spells (.inside low high more) (LossyReader.leadBits lead) tails char.toNat := by
  have valid : char.toNat.isValidChar := char.valid
  unfold Nat.isValidChar at valid
  have within {byte : UInt8} (value : Nat) (tail : byte.toNat = value % 64 + 0x80) :
      0x80 ≤ byte ∧ byte ≤ 0xBF := by
    simp only [UInt8.le_iff_toNat_le, UInt8.reduceToNat]
    omega
  simp only [String.utf8EncodeChar, Char.toNat_val]
  rw [if_neg (by omega)]
  -- Each byte is replaced by a variable of which only the value is known.
  have lastValue := @toNat_ofNat_byte (char.toNat % 64 + 0x80) (by omega)
  generalize UInt8.ofNat (char.toNat % 64 + 0x80) = last at lastValue ⊢
  by_cases two : char.toNat ≤ 0x7FF
  · rw [if_pos two]
    have leadValue := @toNat_ofNat_byte (char.toNat / 64 % 32 + 0xC0) (by omega)
    generalize UInt8.ofNat (char.toNat / 64 % 32 + 0xC0) = lead at leadValue ⊢
    obtain ⟨low, high, led, inFirst⟩ := (@lead?_inside_iff lead last 0).2
      ⟨by omega, by omega, by omega, by omega⟩
    refine ⟨lead, [last], low, high, 0, rfl, led, ?_⟩
    have value : char.toNat = LossyReader.leadBits lead * 64 + (last.toNat - 0x80) := by
      rw [leadBits_toNat, if_pos (by omega)]
      omega
    rw [value]
    exact .tail inFirst (.done _)
  rw [if_neg two]
  have middleValue := @toNat_ofNat_byte (char.toNat / 64 % 64 + 0x80) (by omega)
  generalize UInt8.ofNat (char.toNat / 64 % 64 + 0x80) = middle at middleValue ⊢
  by_cases three : char.toNat ≤ 0xFFFF
  · rw [if_pos three]
    have leadValue := @toNat_ofNat_byte (char.toNat / 4096 % 16 + 0xE0) (by omega)
    generalize UInt8.ofNat (char.toNat / 4096 % 16 + 0xE0) = lead at leadValue ⊢
    obtain ⟨low, high, led, inFirst⟩ := (@lead?_inside_iff lead middle 1).2
      ⟨by omega, by omega, by omega, by omega, by omega, by omega⟩
    refine ⟨lead, [middle, last], low, high, 1, rfl, led, ?_⟩
    have value : char.toNat = (LossyReader.leadBits lead * 64 + (middle.toNat - 0x80)) * 64 +
        (last.toNat - 0x80) := by
      rw [leadBits_toNat, if_neg (by omega), if_pos (by omega)]
      omega
    rw [value]
    exact .tail inFirst (.tail (within _ lastValue) (.done _))
  · rw [if_neg three]
    have leadValue := @toNat_ofNat_byte (char.toNat / 262144 % 8 + 0xF0) (by omega)
    generalize UInt8.ofNat (char.toNat / 262144 % 8 + 0xF0) = lead at leadValue ⊢
    have firstValue := @toNat_ofNat_byte (char.toNat / 4096 % 64 + 0x80) (by omega)
    generalize UInt8.ofNat (char.toNat / 4096 % 64 + 0x80) = first at firstValue ⊢
    obtain ⟨low, high, led, inFirst⟩ := (@lead?_inside_iff lead first 2).2
      ⟨by omega, by omega, by omega, by omega, by omega, by omega⟩
    refine ⟨lead, [first, middle, last], low, high, 2, rfl, led, ?_⟩
    have value : char.toNat = ((LossyReader.leadBits lead * 64 + (first.toNat - 0x80)) * 64 +
        (middle.toNat - 0x80)) * 64 + (last.toNat - 0x80) := by
      rw [leadBits_toNat, if_neg (by omega), if_neg (by omega)]
      omega
    rw [value]
    exact .tail inFirst (.tail (within _ middleValue) (.tail (within _ lastValue) (.done _)))

end Utf8State

/-! ## Reading what a text encodes to -/

theorem utf8EncodeChar_of_toNat_lt {char : Char} (narrow : char.toNat < 0x80) :
    String.utf8EncodeChar char = [UInt8.ofNat char.toNat] := by
  simp only [String.utf8EncodeChar, Char.toNat_val]
  rw [if_pos (by omega)]

theorem completes_utf8EncodeChar_append (char : Char) (rest : Bytes) :
    Utf8State.boundary.completes (String.utf8EncodeChar char ++ rest) =
      Utf8State.boundary.completes rest := by
  by_cases narrow : char.toNat < 0x80
  · have led : Utf8State.lead? (UInt8.ofNat char.toNat) = some .boundary :=
      Utf8State.lead?_eq_boundary_iff.2 (by rw [Utf8State.toNat_ofNat_byte] <;> omega)
    simp [utf8EncodeChar_of_toNat_lt narrow, Utf8State.completes, Utf8State.step?, led]
  · obtain ⟨lead, tails, low, high, more, encoded, led, spelled⟩ :=
      Utf8State.exists_spells_utf8EncodeChar (Nat.le_of_not_lt narrow)
    rw [encoded, List.cons_append, Utf8State.completes, Utf8State.step?, led]
    exact spelled.completes_append rest

theorem foldl_read_utf8EncodeChar (shown : Text) (char : Char) :
    (String.utf8EncodeChar char).foldl LossyReader.read ⟨.boundary, 0, shown⟩ =
      ⟨.boundary, 0, char :: shown⟩ := by
  by_cases narrow : char.toNat < 0x80
  · have byte : (UInt8.ofNat char.toNat).toNat = char.toNat :=
      Utf8State.toNat_ofNat_byte (by omega)
    have led : Utf8State.lead? (UInt8.ofNat char.toNat) = some .boundary :=
      Utf8State.lead?_eq_boundary_iff.2 (by omega)
    rw [utf8EncodeChar_of_toNat_lt narrow]
    simp only [List.foldl_cons, List.foldl_nil, LossyReader.read, LossyReader.start, led, byte,
      Char.ofNat_toNat]
  · obtain ⟨lead, tails, low, high, more, encoded, led, spelled⟩ :=
      Utf8State.exists_spells_utf8EncodeChar (Nat.le_of_not_lt narrow)
    have begun : LossyReader.read ⟨.boundary, 0, shown⟩ lead =
        ⟨.inside low high more, LossyReader.leadBits lead, shown⟩ := by
      simp only [LossyReader.read, LossyReader.start, led]
    rw [encoded, List.foldl_cons, begun, spelled.foldl_read, Char.ofNat_toNat]

theorem Text.wellFormed_encode (text : Text) : text.encode.wellFormed := by
  unfold Bytes.wellFormed
  induction text with
  | nil => rfl
  | cons char text ih => rw [Text.encode_cons, completes_utf8EncodeChar_append, ih]

theorem Bytes.exists_encode_of_wellFormed {bytes : Bytes} (formed : bytes.wellFormed) :
    ∃ text : Text, text.encode = bytes := by
  unfold Bytes.wellFormed at formed
  induction length : bytes.length using Nat.strongRecOn generalizing bytes with
  | ind count ih =>
      cases bytes with
      | nil => exact ⟨[], rfl⟩
      | cons lead bytes =>
          simp only [List.length_cons] at length
          simp only [Utf8State.completes, Utf8State.step?] at formed
          cases led : Utf8State.lead? lead with
          | none => simp [led] at formed
          | some state =>
              simp only [led] at formed
              cases state with
              | boundary =>
                  have narrow := Utf8State.lead?_eq_boundary_iff.1 led
                  obtain ⟨text, rfl⟩ := ih bytes.length (by omega) formed rfl
                  refine ⟨Char.ofNat lead.toNat :: text, ?_⟩
                  have value : (Char.ofNat lead.toNat).toNat = lead.toNat :=
                    Utf8State.toNat_ofNat (Or.inl (by omega))
                  rw [Text.encode_cons, utf8EncodeChar_of_toNat_lt (by omega), value,
                    UInt8.ofNat_toNat]
                  rfl
              | inside low high more =>
                  obtain ⟨tails, rest, value, rfl, spelled, others⟩ :=
                    Utf8State.exists_spells_of_completes (LossyReader.leadBits lead) formed
                  rw [List.length_append] at length
                  obtain ⟨text, rfl⟩ := ih rest.length (by omega) others rfl
                  refine ⟨Char.ofNat value :: text, ?_⟩
                  rw [Text.encode_cons, (spelled.encode led).2, List.cons_append]

/-- Bytes are well-formed exactly when some text has them as its encoding. -/
theorem Bytes.wellFormed_iff_exists_encode (bytes : Bytes) :
    bytes.wellFormed ↔ ∃ text : Text, text.encode = bytes := by
  constructor
  · exact Bytes.exists_encode_of_wellFormed
  · intro there
    obtain ⟨text, rfl⟩ := there
    exact text.wellFormed_encode

theorem foldl_read_encode (shown text : Text) :
    text.encode.foldl LossyReader.read ⟨.boundary, 0, shown⟩ =
      ⟨.boundary, 0, text.reverse ++ shown⟩ := by
  induction text generalizing shown with
  | nil => rfl
  | cons char text ih =>
      rw [Text.encode_cons, List.foldl_append, foldl_read_utf8EncodeChar, ih]
      simp

/-- The bytes of a text are shown as that text. -/
theorem Bytes.lossy_encode (text : Text) : text.encode.lossy = text := by
  simp [Bytes.lossy, LossyReader.empty, foldl_read_encode, LossyReader.text]

end DocLint
