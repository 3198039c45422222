import DocLint.Text

/-!
# Text on a terminal

A terminal takes some characters as commands. What comes from outside is therefore shown
without them: neither the controls nor the sequences that an escape character begins are
part of what is visible. Tabs, line feeds, form feeds and carriage returns lay a text out
and stay; the vertical tab does not.

A sequence is left out up to its last character. It is given up when another escape or a
cancel follows, and a layout control inside it interrupts it: the control is visible, and
how the sequence goes on after it depends on the medium.
-/

namespace DocLint.Terminal

/-- The ways a text reaches a terminal. -/
inductive Medium where
  /-- Put into a message: an interrupted sequence is over. -/
  | message
  /-- Written to a stream: an interrupted sequence goes on after the visible part. -/
  | stream
  deriving DecidableEq, Repr

/-- What has been read of a sequence. -/
inductive Sequence where
  /-- The escape character. -/
  | escape
  /-- The escape character and intermediate characters. -/
  | intermediate
  /-- The beginning of a control sequence. -/
  | control
  /-- The beginning of a device control string. -/
  | device
  /-- A device control string up to some parameters. -/
  | deviceParameters
  /-- A device control string up to intermediate characters. -/
  | deviceIntermediate
  /-- A string that a string terminator ends. -/
  | string
  /-- An operating system command, which a bell ends. -/
  | command
  deriving DecidableEq, Repr

/-- Where the reading of a text stands. -/
inductive State where
  /-- Outside of all sequences. -/
  | ground
  /-- In a sequence. -/
  | inside (sequence : Sequence)
  /-- In what is visible after the interruption of a sequence. -/
  | interrupted (sequence : Sequence)
  deriving DecidableEq, Repr

/-- The character that begins a sequence. -/
def escape : Char := '\x1B'

/-- Whether a character gives up a sequence without beginning another. -/
def cancels (char : Char) : Bool :=
  char = '\x18' || char = '\x1A'

/-- Whether a character is a control that lays a text out. -/
def laysOut (char : Char) : Bool :=
  char = '\t' || char = '\n' || char = '\x0C' || char = '\r'

/-- Whether a character outside of all sequences is visible. -/
def isVisible (char : Char) : Bool :=
  laysOut char || (' ' ≤ char && char ≠ '\x7F')

/-- Whether a character lies in an inclusive range. -/
def isWithin (low high char : Char) : Bool :=
  low ≤ char && char ≤ high

/-- Whether the bytes of a character hold that of the string terminator. -/
def terminatesString (char : Char) : Bool :=
  (String.utf8EncodeChar char).contains 0x9C

namespace Sequence

/-- Whether a layout control interrupts a sequence. Strings take controls as they are. -/
def isInterruptible : Sequence → Bool
  | .escape | .intermediate | .control => true
  | .device | .deviceParameters | .deviceIntermediate | .string | .command => false

/-- The state after a character that goes on with a sequence, ends it or is ignored. -/
def next (sequence : Sequence) (char : Char) : State :=
  match sequence with
  | .escape =>
      if isWithin ' ' '/' char then .inside .intermediate
      else if char = '[' then .inside .control
      else if char = ']' then .inside .command
      else if char = 'P' then .inside .device
      else if char = 'X' ∨ char = '^' ∨ char = '_' then .inside .string
      else if isWithin '0' '~' char then .ground
      else .inside .escape
  | .intermediate => if isWithin '0' '~' char then .ground else .inside .intermediate
  | .control => if isWithin '@' '~' char then .ground else .inside .control
  | .device =>
      if isWithin ' ' '/' char then .inside .deviceIntermediate
      else if isWithin '0' '?' char then .inside .deviceParameters
      else if isWithin '@' '~' char then .inside .string
      else .inside .device
  | .deviceParameters =>
      if isWithin ' ' '/' char then .inside .deviceIntermediate
      else if isWithin '<' '~' char then .inside .string
      else .inside .deviceParameters
  | .deviceIntermediate =>
      if isWithin '0' '~' char then .inside .string else .inside .deviceIntermediate
  | .string => if terminatesString char then .ground else .inside .string
  | .command => if char = '\x07' then .ground else .inside .command

end Sequence

/-- The state after a sequence is interrupted. -/
def Medium.interrupt : Medium → Sequence → State
  | .message, _ => .ground
  | .stream, sequence => .interrupted sequence

/-- Reads a character: the state after it, and whether the character is visible. -/
def step (medium : Medium) (state : State) (char : Char) : State × Bool :=
  if char = escape then (.inside .escape, false)
  else if cancels char then (.ground, false)
  else
    match state with
    | .ground => (.ground, isVisible char)
    | .inside sequence =>
        if sequence.isInterruptible && laysOut char then (medium.interrupt sequence, true)
        else (sequence.next char, false)
    | .interrupted sequence =>
        if isVisible char = false then (.inside sequence, false)
        else if char ≤ '~' then (.interrupted sequence, true)
        else (.ground, true)

/-- A text being read: where the reading stands and, last first, what was visible. -/
structure Reader where
  state : State
  shown : Text

namespace Reader

/-- Nothing read yet. -/
def start : Reader := ⟨.ground, []⟩

/-- Reads a character. -/
def read (medium : Medium) (reader : Reader) (char : Char) : Reader :=
  let (state, visible) := step medium reader.state char
  ⟨state, if visible then char :: reader.shown else reader.shown⟩

end Reader

end DocLint.Terminal

namespace DocLint

/-- What is visible of a text on a medium. -/
def Text.visible (medium : Terminal.Medium) (text : Text) : Text :=
  (text.foldl (Terminal.Reader.read medium) .start).shown.reverse

end DocLint
