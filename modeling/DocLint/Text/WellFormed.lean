import DocLint.Text

/-!
# Well-formed UTF-8, byte by byte

A lead byte fixes how many bytes follow it and which range the first of them may lie
in; every later one lies between `80` and `BF`. The narrower first ranges after `E0`,
`ED`, `F0` and `F4` are what rules out overlong forms, surrogates and values above
`10FFFF`, so no value is ever computed.
-/

namespace DocLint

/-- Where a reader stands among the byte sequences of UTF-8. -/
inductive Utf8State where
  /-- Between two characters. -/
  | boundary
  /-- Inside a character: the next byte lies in a range, and `more` follow it. -/
  | inside (low high : UInt8) (more : Nat)
  deriving DecidableEq, Repr

namespace Utf8State

/-- What the first byte of a character leads to. -/
def lead? (byte : UInt8) : Option Utf8State :=
  if byte < 0x80 then some .boundary
  else if byte < 0xC2 then none
  else if byte < 0xE0 then some (.inside 0x80 0xBF 0)
  else if byte = 0xE0 then some (.inside 0xA0 0xBF 1)
  else if byte = 0xED then some (.inside 0x80 0x9F 1)
  else if byte < 0xF0 then some (.inside 0x80 0xBF 1)
  else if byte = 0xF0 then some (.inside 0x90 0xBF 2)
  else if byte < 0xF4 then some (.inside 0x80 0xBF 2)
  else if byte = 0xF4 then some (.inside 0x80 0x8F 2)
  else none

/-- What is expected once a byte of the expected range has been read. -/
def afterTail : Nat → Utf8State
  | 0 => .boundary
  | more + 1 => .inside 0x80 0xBF more

/-- One byte further, unless no character goes on with it. -/
def step? : Utf8State → UInt8 → Option Utf8State
  | .boundary, byte => lead? byte
  | .inside low high more, byte =>
      if low ≤ byte ∧ byte ≤ high then some (afterTail more) else none

/-- Whether the bytes complete the character begun, if any, and go on as whole
characters to their end. -/
def completes : Utf8State → Bytes → Bool
  | state, [] => state = .boundary
  | state, byte :: rest =>
      match state.step? byte with
      | none => false
      | some next => next.completes rest

end Utf8State

/-- Whether the bytes are a sequence of whole UTF-8 characters. -/
def Bytes.wellFormed (bytes : Bytes) : Bool :=
  Utf8State.boundary.completes bytes

end DocLint
