/-!
# Text and its bytes

A file holds bytes; a text is a list of code points. UTF-8 joins the two: every text
has one encoding, and a byte string decodes exactly when it is the encoding of some
text (`Bytes.decode?_eq_some_iff`), so an overlong form, a surrogate or a truncated
sequence decodes to nothing.
-/

namespace DocLint

/-- What a file holds. -/
abbrev Bytes := List UInt8

/-- A sequence of code points. -/
abbrev Text := List Char

/-- The UTF-8 form of a text. -/
def Text.encode (text : Text) : Bytes :=
  text.flatMap String.utf8EncodeChar

/-- Strict decoding: nothing unless all the bytes are well-formed UTF-8. -/
def Bytes.decode? (bytes : Bytes) : Option Text :=
  bytes.toByteArray.utf8Decode?.map Array.toList

@[simp]
theorem Text.encode_nil : Text.encode [] = [] := rfl

@[simp]
theorem Text.encode_cons (char : Char) (text : Text) :
    Text.encode (char :: text) = String.utf8EncodeChar char ++ text.encode := by
  simp [Text.encode]

@[simp]
theorem Text.encode_append (first second : Text) :
    Text.encode (first ++ second) = first.encode ++ second.encode := by
  simp [Text.encode]

theorem Text.toByteArray_encode (text : Text) : text.encode.toByteArray = text.utf8Encode := by
  simp [Text.encode, List.utf8Encode]

theorem Bytes.decode?_encode (text : Text) : text.encode.decode? = some text := by
  simp [Bytes.decode?, Text.toByteArray_encode, List.utf8Decode?_utf8Encode]

theorem Bytes.encode_of_decode? {bytes : Bytes} {text : Text}
    (decoded : bytes.decode? = some text) : text.encode = bytes := by
  obtain ⟨chars, hchars, rfl⟩ := Option.map_eq_some_iff.1 decoded
  have restored := ByteArray.utf8Encode_get_utf8Decode? (b := bytes.toByteArray)
    (h := by simp [hchars])
  simp only [hchars, Option.get_some] at restored
  rw [← Text.toByteArray_encode] at restored
  simpa using congrArg (fun array => array.data.toList) restored

/-- A byte string decodes to a text exactly when it is that text's encoding. -/
theorem Bytes.decode?_eq_some_iff {bytes : Bytes} {text : Text} :
    bytes.decode? = some text ↔ text.encode = bytes :=
  ⟨Bytes.encode_of_decode?, fun encoded => encoded ▸ Bytes.decode?_encode text⟩

/-- Two texts with one encoding are one text. -/
theorem Text.encode_injective {first second : Text} (same : first.encode = second.encode) :
    first = second := by
  have decoded := Bytes.decode?_encode first
  rw [same, Bytes.decode?_encode second] at decoded
  exact (Option.some.inj decoded).symm

end DocLint
