import DocLint.Proofs.Text.Utf8
import Mathlib.Data.List.Induction

/-!
# ASCII characters in what bytes are shown as

A byte of seven bits is shown as the character that it is, wherever it stands: a character under
way does not go on with it, and what comes before it, or text after it, is shown as it would be
alone (`Bytes.lossy_append_cons`). No other bytes are shown as an ASCII character
(`Bytes.mem_of_mem_lossy`), so that replacing what cannot be read neither hides nor adds one.
-/

namespace DocLint

open Utf8State

/-- Every value that can be spelled from a state on is that of a character of more than seven
bits. -/
def Utf8State.IsWide (state : Utf8State) (bits : Nat) : Prop :=
  ∀ tails value, Spells state bits tails value → value.isValidChar ∧ 0x80 ≤ value

theorem Utf8State.isWide_of_lead? {lead low high : UInt8} {more : Nat}
    (led : lead? lead = some (.inside low high more)) :
    IsWide (.inside low high more) (LossyReader.leadBits lead) := by
  intro tails value spelled
  obtain ⟨valid, encoded⟩ := spelled.encode led
  refine ⟨valid, Nat.le_of_not_lt fun narrow => ?_⟩
  have kept : (Char.ofNat value).toNat = value := toNat_ofNat valid
  rw [utf8EncodeChar_of_toNat_lt (by omega)] at encoded
  -- One byte would be all, but some tail was read.
  cases spelled with
  | tail within onward => simp at encoded

/-- No byte of seven bits goes on with a character. -/
theorem Utf8State.high_of_lead? {lead low high : UInt8} {more : Nat}
    (led : lead? lead = some (.inside low high more)) : 0x80 ≤ low := by
  unfold lead? at led
  grind

namespace LossyReader

/-- Whether a reader can have come to where it is: it waits for tails of a character of more than
seven bits, and every ASCII character it shows is among the bytes read. -/
structure Reached (reader : LossyReader) (bytes : Bytes) : Prop where
  high : ∀ low high more, reader.state = .inside low high more → 0x80 ≤ low
  wide : reader.state ≠ .boundary → reader.state.IsWide reader.bits
  shown : ∀ char ∈ reader.shown, char.toNat < 0x80 → UInt8.ofNat char.toNat ∈ bytes

variable {reader : LossyReader} {bytes : Bytes} {byte : UInt8} {shown : Text}

/-! ### Steps of a reader inside a character -/

section Inside

variable {low high : UInt8}

theorem read_last (within : low ≤ byte ∧ byte ≤ high) (bits : Nat) (shown : Text) :
    LossyReader.read ⟨.inside low high 0, bits, shown⟩ byte =
      ⟨.boundary, 0, Char.ofNat (bits * 64 + (byte.toNat - 0x80)) :: shown⟩ := by
  simp [LossyReader.read, within]

theorem read_more (within : low ≤ byte ∧ byte ≤ high) (more bits : Nat) (shown : Text) :
    LossyReader.read ⟨.inside low high (more + 1), bits, shown⟩ byte =
      ⟨.inside 0x80 0xBF more, bits * 64 + (byte.toNat - 0x80), shown⟩ := by
  simp [LossyReader.read, within]

theorem read_other (other : ¬ (low ≤ byte ∧ byte ≤ high)) (more bits : Nat) (shown : Text) :
    LossyReader.read ⟨.inside low high more, bits, shown⟩ byte =
      start (replacement :: shown) byte := by
  simp [LossyReader.read, other]

end Inside

theorem reached_start (among : ∀ char ∈ shown, char.toNat < 0x80 → UInt8.ofNat char.toNat ∈ bytes)
    (member : byte ∈ bytes) : (start shown byte).Reached bytes := by
  unfold start
  cases led : lead? byte with
  | none =>
      refine ⟨by simp, by simp, List.forall_mem_cons.2 ⟨fun narrow => ?_, among⟩⟩
      exact absurd narrow (by decide)
  | some state =>
      cases state with
      | boundary =>
          have narrow := lead?_eq_boundary_iff.1 led
          have value : (Char.ofNat byte.toNat).toNat = byte.toNat := toNat_ofNat (Or.inl (by omega))
          refine ⟨by simp, by simp, List.forall_mem_cons.2 ⟨fun _ => ?_, among⟩⟩
          rwa [value, UInt8.ofNat_toNat]
      | inside low high more =>
          refine ⟨fun _ _ _ same => ?_, fun _ => isWide_of_lead? led, among⟩
          cases same
          exact high_of_lead? led

theorem Reached.read (reached : reader.Reached bytes) (byte : UInt8) :
    (reader.read byte).Reached (bytes ++ [byte]) := by
  obtain ⟨state, bits, shown⟩ := reader
  have among : ∀ char ∈ shown, char.toNat < 0x80 → UInt8.ofNat char.toNat ∈ bytes ++ [byte] :=
    fun char member narrow => List.mem_append_left _ (reached.shown char member narrow)
  have last : byte ∈ bytes ++ [byte] := List.mem_append_right _ (by simp)
  cases state with
  | boundary => exact reached_start among last
  | inside low high more =>
      by_cases within : low ≤ byte ∧ byte ≤ high
      · cases more with
        | zero =>
            rw [read_last within]
            obtain ⟨valid, least⟩ := reached.wide (by simp) [byte] _ (.tail within (.done _))
            refine ⟨by simp, by simp, List.forall_mem_cons.2 ⟨fun narrow => ?_, among⟩⟩
            rw [toNat_ofNat valid] at narrow
            exact absurd least (Nat.not_le_of_lt narrow)
        | succ more =>
            rw [read_more within]
            refine ⟨fun _ _ _ same => ?_, fun _ tails value spelled => ?_, among⟩
            · cases same
              exact UInt8.le_refl _
            · exact reached.wide (by simp) (byte :: tails) value (.tail within spelled)
      · rw [read_other within]
        refine reached_start (List.forall_mem_cons.2 ⟨fun narrow => ?_, among⟩) last
        exact absurd narrow (by decide)

theorem reached_foldl (bytes : Bytes) : (bytes.foldl LossyReader.read .empty).Reached bytes := by
  induction bytes using List.reverseRecOn with
  | nil => exact ⟨by simp [empty], by simp [empty], by simp [empty]⟩
  | append_singleton bytes byte ih =>
      rw [List.foldl_append]
      exact ih.read byte

/-- A byte of seven bits is shown as a character of its own, after what has been read before. -/
theorem Reached.read_ascii (reached : reader.Reached bytes) (ascii : byte.toNat < 0x80) :
    reader.read byte = ⟨.boundary, 0, Char.ofNat byte.toNat :: reader.text.reverse⟩ := by
  have led := lead?_eq_boundary_iff.2 ascii
  obtain ⟨state, bits, shown⟩ := reader
  cases state with
  | boundary => simp [LossyReader.read, start, led, text]
  | inside low high more =>
      have least := UInt8.le_iff_toNat_le.1 (reached.high low high more rfl)
      have other : ¬ (low ≤ byte ∧ byte ≤ high) := by
        rw [UInt8.le_iff_toNat_le]
        simp only [UInt8.reduceToNat] at least
        omega
      simp [read_other other, start, led, text]

theorem mem_shown_of_mem_text {char : Char} (member : char ∈ reader.text)
    (other : char ≠ replacement) : char ∈ reader.shown := by
  obtain ⟨state, bits, shown⟩ := reader
  cases state with
  | boundary => simpa [text] using member
  | inside low high more => simpa [text, other] using member

theorem text_start_ne_nil (shown : Text) (byte : UInt8) : (start shown byte).text ≠ [] := by
  unfold start
  cases lead? byte with
  | none => simp [text]
  | some state =>
      cases state with
      | boundary => simp [text]
      | inside low high more => simp [text]

theorem text_read_ne_nil (reader : LossyReader) (byte : UInt8) : (reader.read byte).text ≠ [] := by
  obtain ⟨state, bits, shown⟩ := reader
  cases state with
  | boundary => exact text_start_ne_nil shown byte
  | inside low high more =>
      by_cases within : low ≤ byte ∧ byte ≤ high
      · cases more with
        | zero => simp [read_last within, text]
        | succ more => simp [read_more within, text]
      · rw [read_other within]
        exact text_start_ne_nil _ byte

end LossyReader

namespace Bytes

/-- A byte of seven bits is shown as a character between what stands before and after it. -/
theorem lossy_append_cons {byte : UInt8} (ascii : byte.toNat < 0x80) (bytes : Bytes) (text : Text) :
    lossy (bytes ++ byte :: text.encode) = bytes.lossy ++ Char.ofNat byte.toNat :: text := by
  rw [lossy, List.foldl_append, List.foldl_cons,
    (LossyReader.reached_foldl bytes).read_ascii ascii, foldl_read_encode, lossy]
  simp [LossyReader.text]

/-- Something is shown of bytes, whatever they are. -/
theorem lossy_ne_nil {bytes : Bytes} (present : bytes ≠ []) : bytes.lossy ≠ [] := by
  rw [← List.dropLast_concat_getLast present, lossy, List.foldl_append]
  exact LossyReader.text_read_ne_nil _ _

/-- An ASCII character is shown only for its byte. -/
theorem mem_of_mem_lossy {bytes : Bytes} {char : Char} (ascii : char.toNat < 0x80)
    (member : char ∈ bytes.lossy) : UInt8.ofNat char.toNat ∈ bytes := by
  refine (LossyReader.reached_foldl bytes).shown char ?_ ascii
  have other : char ≠ replacement := by
    rintro rfl
    exact absurd ascii (by decide)
  rw [lossy] at member
  exact LossyReader.mem_shown_of_mem_text member other

end Bytes

end DocLint
