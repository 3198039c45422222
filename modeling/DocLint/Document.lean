import DocLint.Encoding
import DocLint.Lines
import DocLint.Rule

/-!
# Documents

A document is a named byte string. Its encoding is judged first: a document that is not
taken for UTF-8 has that one finding and is read no further. Otherwise it is decoded, cut
into lines, and the rules are applied to these.
-/

namespace DocLint

/-- A file to check, under the name that its findings carry. -/
structure Document where
  name : Text
  content : Bytes
  deriving DecidableEq, Repr

namespace Document

/-- The text of a document, if it is UTF-8. -/
def text? (doc : Document) : Option Text :=
  doc.content.decode?

/-- What the encoding of a document gives rise to. -/
def encodingFindings (doc : Document) : List Finding :=
  match doc.content.encoding with
  | .utf8 => []
  | _ => [.wholeFile doc.name .notUtf8]

/-- Everything that is wrong with a document. -/
def findings (doc : Document) : List Finding :=
  match doc.encodingFindings with
  | [] =>
      match doc.text? with
      | none => [.wholeFile doc.name .notUtf8]
      | some text => checkLines doc.name (splitLines text)
  | gate => gate

end Document

end DocLint
