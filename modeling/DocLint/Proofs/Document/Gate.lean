import DocLint.Document
import DocLint.Proofs.Rule.Places
import DocLint.Proofs.Text.Utf8

/-!
# The encoding gate

What is taken for UTF-8 is what strict decoding reads, less the seven-bit documents that are
taken for Japanese mail text (`Bytes.encoding_eq_utf8_iff`). A document is therefore rejected
as a whole, or its text is held to the rules, and never both (`Document.findings_gate`).
-/

namespace DocLint

namespace Bytes

/-- Bytes of seven bits with an escape that decode as Japanese mail text from two bytes before
the first escape on. -/
def IsIso2022Jp (bytes : Bytes) : Prop :=
  (∀ byte ∈ bytes, byte < 0x80) ∧ Iso2022Jp.escape ∈ bytes ∧ Iso2022Jp.decodes bytes.nearEscape

variable {bytes : Bytes}

theorem isSevenBit_iff : bytes.isSevenBit ↔ ∀ byte ∈ bytes, byte < 0x80 := by
  simp [isSevenBit]

theorem wellFormed_of_isSevenBit (sevenBit : bytes.isSevenBit) : bytes.wellFormed := by
  rw [isSevenBit_iff] at sevenBit
  unfold wellFormed
  induction bytes with
  | nil => rfl
  | cons byte rest ih =>
      have led : Utf8State.lead? byte = some .boundary :=
        Utf8State.lead?_eq_boundary_iff.2 (UInt8.lt_iff_toNat_lt.1 (sevenBit byte (by simp)))
      simp only [Utf8State.completes, Utf8State.step?, led]
      exact ih fun other member => sevenBit other (by simp [member])

/-- The bytes taken for UTF-8 are those of a text, Japanese mail text apart. -/
theorem encoding_eq_utf8_iff :
    bytes.encoding = .utf8 ↔ (∃ text : Text, text.encode = bytes) ∧ ¬ bytes.IsIso2022Jp := by
  rw [← wellFormed_iff_exists_encode]
  unfold encoding IsIso2022Jp isPlain
  rw [← isSevenBit_iff]
  by_cases sevenBit : bytes.isSevenBit
  · by_cases escaped : Iso2022Jp.escape ∈ bytes
    · by_cases mail : Iso2022Jp.decodes bytes.nearEscape
      · simp [sevenBit, escaped, mail]
      · simp [sevenBit, escaped, mail, wellFormed_of_isSevenBit sevenBit]
    · simp [sevenBit, escaped, wellFormed_of_isSevenBit sevenBit]
  · simp [sevenBit]

end Bytes

namespace Document

variable {doc : Document}

theorem encodingFindings_eq_nil_iff : doc.encodingFindings = [] ↔ doc.content.encoding = .utf8 := by
  unfold encodingFindings
  cases doc.content.encoding <;> simp

theorem encodingFindings_of_encoding_ne (other : doc.content.encoding ≠ .utf8) :
    doc.encodingFindings = [.wholeFile doc.name .notUtf8] := by
  unfold encodingFindings
  split
  · contradiction
  · rfl

theorem findings_of_encoding_ne (other : doc.content.encoding ≠ .utf8) :
    doc.findings = [.wholeFile doc.name .notUtf8] := by
  rw [findings, encodingFindings_of_encoding_ne other]

/-- What is taken for UTF-8 is read as the text that it encodes. -/
theorem findings_of_encode {text : Text} (accepted : doc.content.encoding = .utf8)
    (encoded : text.encode = doc.content) :
    doc.findings = checkLines doc.name (splitLines text) := by
  rw [findings, encodingFindings_eq_nil_iff.2 accepted, text?, Bytes.decode?_eq_some_iff.2 encoded]

theorem exists_text_of_encoding (accepted : doc.content.encoding = .utf8) :
    ∃ text : Text, text.encode = doc.content ∧
      doc.findings = checkLines doc.name (splitLines text) := by
  obtain ⟨⟨text, encoded⟩, _⟩ := Bytes.encoding_eq_utf8_iff.1 accepted
  exact ⟨text, encoded, findings_of_encode accepted encoded⟩

theorem file_of_mem_findings {finding : Finding} (member : finding ∈ doc.findings) :
    finding.file = doc.name := by
  by_cases accepted : doc.content.encoding = .utf8
  · obtain ⟨text, _, lines⟩ := exists_text_of_encoding accepted
    rw [lines] at member
    exact (mem_checkLines_iff.1 member).1
  · rw [findings_of_encoding_ne accepted, List.mem_singleton] at member
    rw [member]
    rfl

/-- The rules never find that a file is not UTF-8. -/
theorem checkLines_ne_notUtf8 (file : Text) (lines : List Text) :
    checkLines file lines ≠ [.wholeFile file .notUtf8] := by
  intro same
  have member : Finding.wholeFile file .notUtf8 ∈ checkLines file lines := by simp [same]
  obtain ⟨_, index, _, there⟩ := mem_checkLines_iff.1 member
  exact there

/-- **A document is either rejected for its encoding or read.** It is rejected exactly when its
bytes are those of no text or are taken for Japanese mail text, which a byte above seven bits
excludes. What passes the gate can always be decoded. -/
theorem findings_gate (name : Text) (content : Bytes) :
    let doc : Document := ⟨name, content⟩
    let rejected := doc.findings = [.wholeFile name .notUtf8]
    let read := ∃ text : Text, text.encode = content ∧
      doc.findings = checkLines name (splitLines text)
    (rejected ∨ read) ∧ ¬ (rejected ∧ read) ∧
      (rejected ↔ (¬ ∃ text : Text, text.encode = content) ∨ content.IsIso2022Jp) ∧
      ((∃ text : Text, text.encode = content) → (∃ byte ∈ content, 0x80 ≤ byte) → read) ∧
      (doc.encodingFindings = [] → ∃ text, doc.text? = some text) := by
  intro doc rejected read
  have exclusive : ¬ (rejected ∧ read) := by
    intro there
    obtain ⟨whole, text, _, lines⟩ := there
    exact checkLines_ne_notUtf8 name (splitLines text) (lines.symm.trans whole)
  by_cases accepted : content.encoding = .utf8
  · have passed : read := @exists_text_of_encoding ⟨name, content⟩ accepted
    obtain ⟨encoded, notMail⟩ := Bytes.encoding_eq_utf8_iff.1 accepted
    refine ⟨Or.inr passed, exclusive, ?_, fun _ _ => passed, fun _ => ?_⟩
    · constructor
      · exact fun whole => absurd ⟨whole, passed⟩ exclusive
      · rintro (none | mail)
        · exact absurd encoded none
        · exact absurd mail notMail
    · obtain ⟨text, encoded⟩ := encoded
      exact ⟨text, Bytes.decode?_eq_some_iff.2 encoded⟩
  · have whole : rejected := @findings_of_encoding_ne ⟨name, content⟩ accepted
    have reason : (¬ ∃ text : Text, text.encode = content) ∨ content.IsIso2022Jp := by
      rwa [Bytes.encoding_eq_utf8_iff, not_and_or, not_not] at accepted
    refine ⟨Or.inl whole, exclusive, ⟨fun _ => reason, fun _ => whole⟩, ?_, ?_⟩
    · rintro encoded ⟨byte, member, high⟩
      rcases reason with none | ⟨sevenBit, _⟩
      · exact absurd encoded none
      · exact absurd high (UInt8.not_le.2 (sevenBit byte member))
    · intro passed
      exact absurd (encodingFindings_eq_nil_iff.1 passed) accepted

end Document

end DocLint
