import DocLint.Text.WellFormed

/-!
# Lossy decoding

Names and paths need not be UTF-8. They are shown with one replacement character for
each maximal part that no character goes on with: a lead byte together with the tail
bytes that were still possible after it, or a single byte that begins no character.
-/

namespace DocLint

/-- Stands for bytes that are no character. -/
def replacement : Char := '\uFFFD'

/-- A text being read from bytes: the character under way and, last first, the
characters before it. -/
structure LossyReader where
  state : Utf8State
  /-- The bits of the character under way. -/
  bits : Nat
  shown : Text

namespace LossyReader

/-- Nothing read yet. -/
def empty : LossyReader := ⟨.boundary, 0, []⟩

/-- The bits that a lead byte contributes. -/
def leadBits (byte : UInt8) : Nat :=
  if byte < 0xE0 then byte.toNat - 0xC0
  else if byte < 0xF0 then byte.toNat - 0xE0
  else byte.toNat - 0xF0

/-- Reads a byte after the characters shown. -/
def start (shown : Text) (byte : UInt8) : LossyReader :=
  match Utf8State.lead? byte with
  | none => ⟨.boundary, 0, replacement :: shown⟩
  | some .boundary => ⟨.boundary, 0, Char.ofNat byte.toNat :: shown⟩
  | some state => ⟨state, leadBits byte, shown⟩

/-- Reads a byte. One that the character under way cannot go on with cuts that
character off and begins anew. -/
def read (reader : LossyReader) (byte : UInt8) : LossyReader :=
  match reader.state with
  | .boundary => start reader.shown byte
  | .inside low high more =>
      if low ≤ byte ∧ byte ≤ high then
        let bits := reader.bits * 64 + (byte.toNat - 0x80)
        match more with
        | 0 => ⟨.boundary, 0, Char.ofNat bits :: reader.shown⟩
        | more + 1 => ⟨.inside 0x80 0xBF more, bits, reader.shown⟩
      else start (replacement :: reader.shown) byte

/-- The text read; a character still under way is cut off. -/
def text (reader : LossyReader) : Text :=
  match reader.state with
  | .boundary => reader.shown.reverse
  | .inside .. => (replacement :: reader.shown).reverse

end LossyReader

/-- The text that bytes are shown as. -/
def Bytes.lossy (bytes : Bytes) : Text :=
  (bytes.foldl LossyReader.read .empty).text

end DocLint
