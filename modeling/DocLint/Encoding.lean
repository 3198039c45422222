import DocLint.Encoding.Iso2022Jp
import DocLint.Text.WellFormed

/-!
# The encoding of a file

A file must be UTF-8. Bytes of seven bits without an escape are so plainly; anything
else is judged. Seven-bit bytes with an escape may be Japanese mail text, which is read
from two bytes before the first escape on: what lies further back is not looked at. With
any byte above seven bits, the whole must be well-formed UTF-8.
-/

namespace DocLint

/-- The encodings that a file is told apart by. -/
inductive Encoding where
  | utf8
  | iso2022Jp
  /-- One of the many encodings of one or more bytes that predate Unicode. -/
  | legacy
  deriving DecidableEq, Repr

namespace Encoding

/-- The name that an encoding is reported by. -/
def name : Encoding → Text
  | .utf8 => "UTF-8".toList
  | .iso2022Jp => "ISO-2022-JP".toList
  | .legacy => "legacy".toList

end Encoding

namespace Bytes

/-- Whether all bytes have seven bits. -/
def isSevenBit (bytes : Bytes) : Bool :=
  bytes.all (· < 0x80)

/-- Whether there is nothing to judge: seven bits throughout and no escape. -/
def isPlain (bytes : Bytes) : Bool :=
  bytes.isSevenBit && !bytes.contains Iso2022Jp.escape

/-- The bytes from two before the first escape on. -/
def nearEscape (bytes : Bytes) : Bytes :=
  bytes.drop (bytes.idxOf Iso2022Jp.escape - 2)

/-- The encoding that a file's bytes are taken to be in. -/
def encoding (bytes : Bytes) : Encoding :=
  if bytes.isPlain then .utf8
  else if bytes.isSevenBit then
    if Iso2022Jp.decodes bytes.nearEscape then .iso2022Jp else .utf8
  else if bytes.wellFormed then .utf8
  else .legacy

end Bytes

end DocLint
