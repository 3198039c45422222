import DocLint.Lint
import DocLint.Proofs.Attempt
import DocLint.Proofs.Document.Gate
import DocLint.Proofs.Path.LastName
import DocLint.Proofs.Text.Ascii
import DocLint.Proofs.Text.Lossy

/-!
# What documents are called

Whether a file is a document and what it is called in the findings are both decided by the last
name of its path. The name in the findings is text even if the name of the file is not, and still
it shows the extension as it is, because the dot before it is never swallowed. Main statement:
`Path.hasExtension_displayName`.
-/

namespace DocLint

namespace Path

variable {path : Path} {extension : Text} {stem : Bytes}

theorem hasExtension_iff : path.hasExtension extension ↔
    '.' ∉ extension ∧ '/' ∉ extension ∧ ∃ stem : Bytes, stem ≠ [] ∧
      path.EndsIn (stem ++ Name.dot :: extension.encode) ∧
        stem ++ Name.dot :: extension.encode ≠ Name.above := by
  have dot : Name.dot ∈ extension.encode ↔ '.' ∈ extension :=
    @Text.mem_encode_iff '.' (by decide) extension
  have slash : Name.slash ∈ extension.encode ↔ '/' ∈ extension :=
    @Text.mem_encode_iff '/' (by decide) extension
  rw [hasExtension, decide_eq_true_eq, Path.extension?, Option.bind_eq_some_iff]
  simp only [fileName?_eq_some_iff, Name.extension?_eq_some_iff, dot]
  constructor
  · rintro ⟨_, ⟨ends, leads⟩, noDot, stem, present, rfl⟩
    refine ⟨noDot, fun member => ?_, stem, present, ends, leads⟩
    exact ends.1 (by simp [slash.2 member])
  · rintro ⟨noDot, _, stem, present, ends, leads⟩
    exact ⟨_, ⟨ends, leads⟩, noDot, stem, present, rfl⟩

/-- The name in the findings shows the extension, whatever stands before it. -/
theorem displayName_of_endsIn (ends : path.EndsIn (stem ++ Name.dot :: extension.encode))
    (leads : stem ++ Name.dot :: extension.encode ≠ Name.above) :
    path.displayName = stem.lossy ++ '.' :: extension := by
  rw [displayName, fileName?_eq_some_iff.2 ⟨ends, leads⟩, Option.getD_some]
  exact Bytes.lossy_append_cons (by decide) stem extension

/-- What stands before the extension of a document is shown as some text, in one name. -/
theorem lossy_stem (accepted : path.hasExtension extension)
    (ends : path.EndsIn (stem ++ Name.dot :: extension.encode)) :
    path.displayName = stem.lossy ++ '.' :: extension ∧ stem.lossy ≠ [] ∧ '/' ∉ stem.lossy := by
  obtain ⟨_, _, found, present, endsFound, leads⟩ := hasExtension_iff.1 accepted
  obtain rfl : found = stem := List.append_cancel_right (endsFound.unique ends)
  refine ⟨displayName_of_endsIn ends leads, Bytes.lossy_ne_nil present, fun member => ?_⟩
  have slash : Name.slash ∈ found := Bytes.mem_of_mem_lossy (by decide) member
  exact ends.1 (List.mem_append_left _ slash)

/-- Only the last name of a path counts. -/
theorem fileName?_congr {other : Path} {name : Name} (ends : path.EndsIn name)
    (endsOther : other.EndsIn name) : path.fileName? = other.fileName? := by
  rw [fileName?, fileName?, endsIn_iff.1 ends, endsIn_iff.1 endsOther]

theorem displayName_congr {other : Path} (same : path.fileName? = other.fileName?)
    (accepted : path.hasExtension extension) : path.displayName = other.displayName := by
  rw [hasExtension, decide_eq_true_eq, Path.extension?] at accepted
  obtain ⟨name, found, _⟩ := Option.bind_eq_some_iff.1 accepted
  rw [displayName, displayName, ← same, found, Option.getD_some, Option.getD_some]

end Path

namespace FileSystem

variable {system : FileSystem} {root : Path} {findings : List Finding} {finding : Finding}

theorem hasExtension_of_mem_scan {extension : Text} {paths : List Path}
    (scanned : system.scan extension root = .ok paths) {path : Path} (member : path ∈ paths) :
    path.hasExtension extension := by
  unfold scan at scanned
  split at scanned
  · cases scanned
  · split at scanned
    · cases scanned
    · cases scanned
      exact (List.mem_filter.1 member).2

theorem file_of_mem_lintFile {path : Path} (checked : system.lintFile path = .ok findings)
    (member : finding ∈ findings) : finding.file = path.displayName := by
  obtain ⟨document, opened, rfl⟩ := map_eq_ok_iff.1 checked
  obtain ⟨content, _, rfl⟩ := map_eq_ok_iff.1 opened
  exact Document.file_of_mem_findings member

/-- Every finding is about a document. -/
theorem exists_of_mem_lint {turn : Nat} (linted : system.lint turn root = .ok findings)
    (member : finding ∈ findings) :
    ∃ path : Path, path.hasExtension documentExtension ∧ finding.file = path.displayName := by
  obtain ⟨paths, scanned, rest⟩ := bind_eq_ok_iff.1 linted
  obtain ⟨results, checked, rfl⟩ := map_eq_ok_iff.1 rest
  obtain ⟨result, among, inside⟩ := List.mem_flatten.1 member
  have attempted : .ok result ∈ paths.map system.lintFile := by
    rw [together_eq_ok_iff.1 checked]
    exact List.mem_map_of_mem among
  obtain ⟨path, listed, done⟩ := List.mem_map.1 attempted
  exact ⟨path, hasExtension_of_mem_scan scanned listed, file_of_mem_lintFile done inside⟩

end FileSystem

/-- **A document is told by its last name, and so is what it is called.** A path has an extension
if its last name is something, a dot and the extension; the name in the findings is then what the
something is shown as, the dot and the extension. Paths with one last name are treated alike, and
every finding carries a name with the extension of documents. -/
theorem Path.hasExtension_displayName (extension : Text) (path : Path) :
    (path.hasExtension extension ↔ '.' ∉ extension ∧ '/' ∉ extension ∧
      ∃ stem : Bytes, stem ≠ [] ∧ path.EndsIn (stem ++ Name.dot :: extension.encode) ∧
        stem ++ Name.dot :: extension.encode ≠ Name.above) ∧
    (path.hasExtension extension →
      ∀ stem : Bytes, path.EndsIn (stem ++ Name.dot :: extension.encode) →
        path.displayName = stem.lossy ++ '.' :: extension ∧ stem.lossy ≠ [] ∧
          '/' ∉ stem.lossy) ∧
    (∀ (other : Path) (name : Name), path.EndsIn name → other.EndsIn name →
      path.hasExtension extension = other.hasExtension extension ∧
        (path.hasExtension extension → path.displayName = other.displayName)) ∧
    ∀ (system : FileSystem) (turn : Nat) (root : Path) (findings : List Finding),
      system.lint turn root = .ok findings → ∀ finding ∈ findings, ∃ stem : Text,
        stem ≠ [] ∧ '/' ∉ stem ∧ finding.file = stem ++ '.' :: documentExtension := by
  refine ⟨Path.hasExtension_iff, fun accepted stem ends => Path.lossy_stem accepted ends,
    fun other name ends endsOther => ?_, fun system turn root findings linted finding member => ?_⟩
  · have same := Path.fileName?_congr ends endsOther
    refine ⟨?_, Path.displayName_congr same⟩
    rw [Path.hasExtension, Path.hasExtension, Path.extension?, Path.extension?, same]
  · obtain ⟨found, accepted, named⟩ := FileSystem.exists_of_mem_lint linted member
    obtain ⟨_, _, stem, _, ends, _⟩ := Path.hasExtension_iff.1 accepted
    obtain ⟨shown, present, single⟩ := Path.lossy_stem accepted ends
    exact ⟨stem.lossy, present, single, named.trans shown⟩

end DocLint
