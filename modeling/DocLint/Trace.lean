import DocLint.Lint

/-!
# The trace of a run

A run can be watched: each step worth noting leaves an event. The events follow from the
input alone, so that nothing that decides the outcome depends on them. A watched run logs
them on standard error, ahead of what it writes there anyway. An event has one record in
the log; what follows a line feed in its text goes to indented lines of its own.
-/

namespace DocLint

/-- The steps worth noting. -/
inductive Event where
  /-- The encoding of a document was judged. -/
  | detected (document : Text) (encoding : Encoding)
  /-- A document without lines has no last line to look at. -/
  | noLines (document : Text)
  /-- The file at a path was checked. -/
  | checked (path : Path) (count : Nat)
  /-- A document was found in the tree. -/
  | discovered (path : Path)
  /-- The search below a path is over. -/
  | found (count : Nat) (root : Path)
  /-- The run is given up. -/
  | aborting (failure : Failure)
  deriving DecidableEq, Repr

/-- The text of an event. A name in it may hold line feeds. -/
def Event.text : Event → Text
  | .detected document encoding => document ++ ": detected encoding ".toList ++ encoding.name
  | .noLines document => document ++ ": empty document, skipping trailing newline check".toList
  | .checked path count =>
      path.lossy ++ ": ".toList ++ Nat.toDigits 10 count ++ " finding(s)".toList
  | .discovered path => "discovered ".toList ++ path.lossy
  | .found count root =>
      "found ".toList ++ Nat.toDigits 10 count ++ " document(s) under ".toList ++ root.lossy
  | .aborting failure => "aborting on ".toList ++ failure.label ++ " error".toList

/-- What stands before the lines of an event in the log that are not its first one. -/
def indentation : Text :=
  List.replicate 4 ' '

/-- What the log shows of an event, with the line end after it. -/
def Event.shown (event : Event) : Text :=
  let lines := event.text.flatMap fun char =>
    if char = '\n' then '\n' :: indentation else [char]
  Text.visible .stream (lines ++ ['\n'])

/-- The record of an event: the first line of what the log shows of it. -/
def Event.record (event : Event) : Text :=
  event.shown.takeWhile (· ≠ '\n')

/-- The lines of the log after the record of an event, which belong to no record. -/
def Event.continuation (event : Event) : Text :=
  (event.shown.dropWhile (· ≠ '\n')).tail

/-- The events of judging the encoding of a document: none for plain seven-bit text. -/
def Document.encodingEvents (doc : Document) : List Event :=
  if doc.content.isPlain then [] else [.detected doc.name doc.content.encoding]

/-- The events of checking lines. -/
def linesEvents (file : Text) (lines : List Text) : List Event :=
  if lines = [] then [.noLines file] else []

/-- The events of checking a document. -/
def Document.events (doc : Document) : List Event :=
  doc.encodingEvents ++
    match doc.encodingFindings, doc.text? with
    | [], some text => linesEvents doc.name (splitLines text)
    | _, _ => []

namespace FileSystem

/-- The events of checking the file at a path. -/
def fileEvents (system : FileSystem) (path : Path) : List Event :=
  match system.document path with
  | .error _ => []
  | .ok doc => doc.events ++ [.checked path doc.findings.length]

/-- The events of looking for files with an extension below a path: what is found before
the search is over, or stopped. -/
def scanEvents (system : FileSystem) (extension : Text) (root : Path) : List Event :=
  match system.visitsFrom? root with
  | none => []
  | some visits =>
      (Node.accepted extension (visits.takeWhile (!system.isBlocked ·))).map .discovered

/-- The events of linting the documents below a path. The first one that cannot be read
ends them. -/
def lintEvents (system : FileSystem) (root : Path) : List Event :=
  system.scanEvents documentExtension root ++
    match system.scan documentExtension root with
    | .error _ => []
    | .ok paths =>
        .found paths.length root ::
          (paths.takeWhile fun path => (system.read path).isOk).flatMap system.fileEvents

end FileSystem

/-- The events of a run that checks one document after the other. -/
def runEvents (system : FileSystem) (arguments : List Bytes) : List Event :=
  match Command.parse arguments with
  | .error _ => []
  | .ok directory =>
      system.lintEvents directory ++
        match system.lint 0 directory with
        | .error failure => [.aborting failure]
        | .ok _ => []

/-- What a watched run writes to standard error besides the records of its events. -/
def watchedStderr (system : FileSystem) (arguments : List Bytes) : Bytes :=
  Text.encode ((runEvents system arguments).flatMap Event.continuation) ++
    (run system 0 arguments).stderr

end DocLint
