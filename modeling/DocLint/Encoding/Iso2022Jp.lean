import DocLint.Text

/-!
# ISO-2022-JP

Japanese mail text in seven bits: escape sequences switch between single-byte sets and
sets in which every character takes two bytes. The decoder here only says whether a byte
string is such a document, and not what it reads as, so a pair of bytes matters only in
being mapped or not.
-/

namespace DocLint.Iso2022Jp

/-- The byte that begins an escape sequence. -/
def escape : UInt8 := 0x1B

/-- The sets of characters that an escape sequence can select. -/
inductive CharSet where
  | ascii
  | roman
  | katakana
  /-- Two bytes a character. -/
  | kanji
  deriving DecidableEq, Repr

/-- Where the decoder stands. `fresh` says that the last thing read was an escape
sequence: a second one must not follow at once. -/
inductive State where
  /-- Before a character of a set. -/
  | reading (set : CharSet) (fresh : Bool)
  /-- After the first byte of a pair. -/
  | halfway (lead : UInt8)
  /-- After the escape byte. -/
  | escaping (fresh : Bool)
  /-- After the escape byte and `(`. -/
  | escapingSingle (fresh : Bool)
  /-- After the escape byte and `$`. -/
  | escapingDouble (fresh : Bool)
  deriving DecidableEq, Repr

/-- The mapped pairs: for an inclusive range of first bytes, the inclusive ranges of
second bytes that go with each of them. -/
def mappedRows : List ((UInt8 × UInt8) × List (UInt8 × UInt8)) :=
  [((0x21, 0x21), [(0x21, 0x7E)]),
    ((0x22, 0x22), [(0x21, 0x2E), (0x3A, 0x41), (0x4A, 0x50), (0x5C, 0x6A), (0x72, 0x79),
      (0x7E, 0x7E)]),
    ((0x23, 0x23), [(0x30, 0x39), (0x41, 0x5A), (0x61, 0x7A)]),
    ((0x24, 0x24), [(0x21, 0x73)]),
    ((0x25, 0x25), [(0x21, 0x76)]),
    ((0x26, 0x26), [(0x21, 0x38), (0x41, 0x58)]),
    ((0x27, 0x27), [(0x21, 0x41), (0x51, 0x71)]),
    ((0x28, 0x28), [(0x21, 0x40)]),
    ((0x2D, 0x2D), [(0x21, 0x3E), (0x40, 0x56), (0x5F, 0x7C)]),
    ((0x30, 0x4E), [(0x21, 0x7E)]),
    ((0x4F, 0x4F), [(0x21, 0x53)]),
    ((0x50, 0x73), [(0x21, 0x7E)]),
    ((0x74, 0x74), [(0x21, 0x26)]),
    ((0x79, 0x7B), [(0x21, 0x7E)]),
    ((0x7C, 0x7C), [(0x21, 0x6E), (0x71, 0x7E)])]

/-- Whether a byte lies in an inclusive range. -/
def inRange (range : UInt8 × UInt8) (byte : UInt8) : Bool :=
  range.1 ≤ byte && byte ≤ range.2

/-- Whether a pair of bytes stands for a character. -/
def isMapped (lead trail : UInt8) : Bool :=
  mappedRows.any fun row => inRange row.1 lead && row.2.any (inRange · trail)

/-- The state after an escape sequence, which must not follow another directly. -/
def select? (fresh : Bool) (set : CharSet) : Option State :=
  if fresh then none else some (.reading set true)

/-- Whether a byte other than the escape byte can begin a character of a set. The controls
that shift between sets by themselves are errors in the sets that have controls at all. -/
def CharSet.admits : CharSet → UInt8 → Bool
  | .ascii, byte | .roman, byte => byte < 0x80 && byte ≠ 0x0E && byte ≠ 0x0F
  | .katakana, byte => inRange (0x21, 0x5F) byte
  | .kanji, byte => inRange (0x21, 0x7E) byte

/-- The state after the first byte of a character of a set. -/
def CharSet.begin : CharSet → UInt8 → State
  | .kanji, byte => .halfway byte
  | set, _ => .reading set false

/-- One byte further, unless it is an error there. -/
def State.step? : State → UInt8 → Option State
  | .reading set fresh, byte =>
      if byte = escape then some (.escaping fresh)
      else if set.admits byte then some (set.begin byte)
      else none
  | .halfway lead, byte =>
      if isMapped lead byte then some (.reading .kanji false) else none
  | .escaping fresh, byte =>
      if byte = 0x28 then some (.escapingSingle fresh)
      else if byte = 0x24 then some (.escapingDouble fresh)
      else none
  | .escapingSingle fresh, byte =>
      if byte = 0x42 then select? fresh .ascii
      else if byte = 0x4A then select? fresh .roman
      else if byte = 0x49 then select? fresh .katakana
      else none
  | .escapingDouble fresh, byte =>
      if byte = 0x40 ∨ byte = 0x42 then select? fresh .kanji else none

/-- Whether the bytes can end here. A pair or an escape sequence must not be cut off. -/
def State.canEnd : State → Bool
  | .reading _ _ => true
  | _ => false

/-- Whether the bytes decode from a state to their end without error. -/
def State.decodes : State → Bytes → Bool
  | state, [] => state.canEnd
  | state, byte :: rest =>
      match state.step? byte with
      | none => false
      | some next => next.decodes rest

/-- Whether a byte string decodes without error. -/
def decodes (bytes : Bytes) : Bool :=
  (State.reading .ascii false).decodes bytes

end DocLint.Iso2022Jp
