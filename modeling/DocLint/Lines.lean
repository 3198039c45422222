import DocLint.Text

/-!
# Lines

A line ends after LF, after CR LF, or after a CR that no LF follows, and keeps its
terminator; what is left after the last terminator is a line too, unless it is empty.
The ends are found among the bytes of the UTF-8 form, where LF and CR are single bytes
that no longer character contains, and the lines are cut out of these bytes.
-/

namespace DocLint

/-- A part of a byte string: from the byte at `start` up to the byte at `stop`, which
is outside. -/
structure Span where
  start : Nat
  stop : Nat
  deriving DecidableEq, Repr

/-- The bytes of a span. -/
def Span.slice (span : Span) (bytes : Array UInt8) : Bytes :=
  (bytes.extract span.start span.stop).toList

namespace Bytes

/-- Whether a line ends with a byte, given the bytes after it. A CR before LF leaves
the end to that LF. -/
def endsLine (byte : UInt8) (rest : Bytes) : Bool :=
  byte = 0x0A || (byte = 0x0D && rest.head? ≠ some 0x0A)

/-- The spans of the lines, last first, of bytes that stand at `here`, in a line that
began at `start`. -/
def spansFrom (start here : Nat) (done : List Span) : Bytes → List Span
  | [] => if start < here then ⟨start, here⟩ :: done else done
  | byte :: rest =>
      if endsLine byte rest then spansFrom (here + 1) (here + 1) (⟨start, here + 1⟩ :: done) rest
      else spansFrom start (here + 1) done rest

/-- The spans found already stand behind those found later. -/
theorem spansFrom_eq_append (start here : Nat) (done : List Span) (bytes : Bytes) :
    spansFrom start here done bytes = spansFrom start here [] bytes ++ done := by
  induction bytes generalizing start here done with
  | nil => by_cases open_line : start < here <;> simp [spansFrom, open_line]
  | cons byte rest ih =>
      by_cases ends : endsLine byte rest
      · simp only [spansFrom, ends, ↓reduceIte]
        rw [ih _ _ (_ :: done), ih _ _ [_]]
        simp
      · simp only [spansFrom, ends, Bool.false_eq_true, ↓reduceIte]
        exact ih _ _ done

/-- Where the lines of a byte string lie. -/
def lineSpans (bytes : Bytes) : List Span :=
  (spansFrom 0 0 [] bytes).reverse

end Bytes

/-- The lines of a text, with their terminators. No cut falls inside a character, so that
every span decodes and no line is lost. -/
def splitLines (text : Text) : List Text :=
  let bytes := text.encode.toArray
  text.encode.lineSpans.filterMap fun span => (span.slice bytes).decode?

end DocLint
