import DocLint.Text

/-!
# Hexadecimal notation

Bytes written as two lower-case hexadecimal digits each.
-/

namespace DocLint

/-- The value of a hexadecimal digit. -/
def hexDigit? (digit : Char) : Option Nat :=
  if '0' ≤ digit ∧ digit ≤ '9' then some (digit.toNat - '0'.toNat)
  else if 'a' ≤ digit ∧ digit ≤ 'f' then some (digit.toNat - 'a'.toNat + 10)
  else none

/-- Reads the digits of some bytes after those read already, which stand last first. -/
def Bytes.readHex? (done : Bytes) : Text → Option Bytes
  | [] => some done.reverse
  | [_] => none
  | high :: low :: rest =>
      match hexDigit? high, hexDigit? low with
      | some first, some second => Bytes.readHex? (UInt8.ofNat (first * 16 + second) :: done) rest
      | _, _ => none

/-- The bytes that a text writes in hexadecimal digits. -/
def Bytes.ofHex? (text : Text) : Option Bytes :=
  Bytes.readHex? [] text

end DocLint
