import DocLint.Text.Lossy
import DocLint.Text.Terminal

/-!
# The command line

The linter takes one directory, as the value of `-i` or `--input`. Arguments are bytes, since a
directory can have any name. They are read from left to right, and the first thing that stops
the reading decides the reply. A value may be attached to its option or be the next argument,
as long as that does not look like an option. Asking for help or for the version stops the
reading at once, but only after the option read before it has turned out to be sound.
-/

namespace DocLint.Command

/-- The byte that begins an option. -/
def dash : UInt8 := 0x2D

/-- The byte that can separate an option from its value. -/
def equals : UInt8 := 0x3D

/-- The bytes of a word. -/
def word (letters : String) : Bytes :=
  Text.encode letters.toList

/-- What can be asked for instead of a run. -/
inductive Info where
  | briefHelp
  | fullHelp
  | version
  deriving DecidableEq, Repr

/-- The long option that asks for an information. -/
def Info.longOption : Info → Text
  | .briefHelp => "--help".toList
  | .fullHelp => "--help".toList
  | .version => "--version".toList

/-- The ways in which arguments can be wrong. -/
inductive UsageError where
  /-- The directory is not given. -/
  | missingInput
  /-- An argument is not one that can stand there. -/
  | unknownArgument (argument : Bytes)
  /-- The input option has no value, or an empty one. -/
  | missingValue
  /-- The input option has a second value. -/
  | repeatedInput
  /-- An option that takes no value has one. -/
  | unexpectedValue (value : Bytes) (info : Info)
  deriving DecidableEq, Repr

/-- The message for wrong arguments, as it is seen on a medium. What is quoted of the
arguments is shown as text, without what a terminal would take as a command; line ends in it
stay. -/
def UsageError.message (medium : Terminal.Medium) : UsageError → Text
  | .missingInput => "error: the following required arguments were not provided:".toList
  | .unknownArgument argument =>
      "error: unexpected argument '".toList ++ argument.lossy.visible medium ++ "' found".toList
  | .missingValue =>
      "error: a value is required for '--input <DIR>' but none was supplied".toList
  | .repeatedInput =>
      "error: the argument '--input <DIR>' cannot be used multiple times".toList
  | .unexpectedValue value info =>
      "error: unexpected value '".toList ++ value.lossy.visible medium ++ "' for '".toList ++
        info.longOption ++ "' found; no more were expected".toList

/-- The first line of a text without its end, which is a line feed or a carriage return
and a line feed. -/
def firstLine (text : Text) : Text :=
  let line := text.takeWhile (· ≠ '\n')
  if line ≠ text ∧ line.getLast? = some '\r' then line.dropLast else line

/-- The first line of the message for wrong arguments. -/
def UsageError.headline (medium : Terminal.Medium) (error : UsageError) : Text :=
  firstLine (error.message medium)

/-- The reply to arguments that start no run. -/
inductive Reply where
  | info (info : Info)
  | usage (error : UsageError)
  deriving DecidableEq, Repr

/-- The input option last read, as long as its value is not accepted yet. -/
inductive Pending where
  | nothing
  /-- The value has not been read. -/
  | awaiting
  /-- The value was an argument of its own. -/
  | value (bytes : Bytes)
  deriving DecidableEq, Repr

/-- What has been read of the arguments. -/
structure Progress where
  accepted? : Option Bytes
  pending : Pending
  deriving DecidableEq, Repr

namespace Progress

/-- Nothing has been read. -/
def start : Progress := ⟨none, .nothing⟩

/-- Accepts a value, which must be the first one and not empty. -/
def accept (progress : Progress) (value : Bytes) : Except Reply Progress :=
  if progress.accepted?.isSome then .error (.usage .repeatedInput)
  else if value = [] then .error (.usage .missingValue)
  else .ok ⟨some value, .nothing⟩

/-- Settles the pending option, which must have got its value by now. -/
def settle (progress : Progress) : Except Reply Progress :=
  match progress.pending with
  | .nothing => .ok progress
  | .awaiting => .error (.usage .missingValue)
  | .value value => progress.accept value

/-- The input option with the next argument as its value. -/
def await (progress : Progress) : Except Reply Progress :=
  progress.settle.map fun settled => { settled with pending := .awaiting }

/-- The input option with a value attached to it. -/
def attach (progress : Progress) (value : Bytes) : Except Reply Progress :=
  progress.settle.bind fun settled => settled.accept value

/-- An option that asks for an information. -/
def ask (progress : Progress) (info : Info) : Except Reply Progress :=
  progress.settle.bind fun _ => .error (.info info)

/-- The information that a long option asks for. -/
def longInfo? (name : Bytes) : Option Info :=
  if name = word "help" then some .fullHelp
  else if name = word "version" then some .version
  else none

/-- Reads a long option, given without its two dashes: a name and, after the first
equals sign, a value. -/
def readLong (progress : Progress) (option : Bytes) : Except Reply Progress :=
  let name := option.takeWhile (· ≠ equals)
  let value? := (option.dropWhile (· ≠ equals)).tail?
  if name = word "input" then value?.elim progress.await progress.attach
  else
    match longInfo? name, value? with
    | some info, none => progress.ask info
    | some info, some value => .error (.usage (.unexpectedValue value info))
    | none, _ => .error (.usage (.unknownArgument (dash :: dash :: name)))

/-- Reads the input option in its short form: what follows the letter is the value, less
an equals sign that separates the two. -/
def readShortInput (progress : Progress) (attached : Bytes) : Except Reply Progress :=
  if attached = [] then progress.await
  else if attached.head? = some equals then progress.attach attached.tail
  else progress.attach attached

/-- The first character of some bytes, or all of them if they begin with none. -/
def letter (bytes : Bytes) : Bytes :=
  (([1, 2, 3, 4].map bytes.take).find? Bytes.wellFormed).getD bytes

/-- Reads a short option, given without its dash. Letters that take no value need nothing
after them, so that the first letter decides. -/
def readShort (progress : Progress) : Bytes → Except Reply Progress
  | [] => .ok progress
  | first :: rest =>
      if [first] = word "i" then progress.readShortInput rest
      else if [first] = word "h" then progress.ask .briefHelp
      else if [first] = word "V" then progress.ask .version
      else .error (.usage (.unknownArgument (dash :: letter (first :: rest))))

/-- Reads an argument that does not look like an option. -/
def readValue (progress : Progress) (value : Bytes) : Except Reply Progress :=
  match progress.pending with
  | .awaiting => .ok { progress with pending := .value value }
  | _ => .error (.usage (.unknownArgument value))

/-- Reads one argument other than two dashes alone. A dash alone is a value. -/
def read (progress : Progress) : Bytes → Except Reply Progress
  | [] => progress.readValue []
  | first :: rest =>
      if first ≠ dash ∨ rest = [] then progress.readValue (first :: rest)
      else if rest.head? = some dash then progress.readLong rest.tail
      else progress.readShort rest

/-- Reads all arguments. After two dashes alone every argument is a plain one, and none
can stand there. -/
def readAll (progress : Progress) : List Bytes → Except Reply Progress
  | [] => .ok progress
  | argument :: rest =>
      if argument = [dash, dash] then
        rest.head?.elim (.ok progress) fun extra => .error (.usage (.unknownArgument extra))
      else (progress.read argument).bind fun next => next.readAll rest

/-- The directory given, once all arguments are read. -/
def finish (progress : Progress) : Except Reply Bytes :=
  progress.settle.bind fun settled =>
    settled.accepted?.elim (.error (.usage .missingInput)) .ok

end Progress

/-- The directory that the arguments after the program's name ask to lint. -/
def parse (arguments : List Bytes) : Except Reply Bytes :=
  (Progress.start.readAll arguments).bind Progress.finish

end DocLint.Command
