import DocLint.Lint
import DocLint.Proofs.Attempt
import DocLint.Proofs.Command.Grammar
import DocLint.Proofs.Document.Gate
import DocLint.Proofs.Report.Delivery
import DocLint.Proofs.Tree.Narrow

/-!
# A run on a directory

A run that is asked to lint what a path leads to ends with the report on the documents below
that path, one after the other in the order of their routes (`run_input`). Only a path that leads
nowhere, a directory that cannot be listed or a document that cannot be read keeps it from that,
and then nothing is reported but that.
-/

namespace DocLint

/-! ## The documents -/

namespace FoundFile

/-- What is wrong with a file that can be read. -/
def findings (file : FoundFile) : List Finding :=
  file.content?.elim [] fun content => (Document.mk file.name.lossy content).findings

/-- The part of a report that is about a file: its name, a line and a message for each
finding. -/
def lines (file : FoundFile) : Text :=
  file.findings.flatMap fun finding =>
    file.name.lossy ++ ' ' :: Nat.toDigits 10 finding.line ++ ' ' :: finding.violation.message ++
      ['\n']

theorem file_of_mem_findings {file : FoundFile} {finding : Finding}
    (member : finding ∈ file.findings) : finding.file = file.name.lossy := by
  unfold findings at member
  cases found : file.content? with
  | none =>
      rw [found] at member
      cases member
  | some content =>
      rw [found] at member
      exact Document.file_of_mem_findings member

theorem report_findings (file : FoundFile) : report file.findings = file.lines := by
  unfold report lines
  refine List.flatMap_congr fun finding member => ?_
  rw [Finding.text, file_of_mem_findings member]

theorem report_flatMap_findings (files : List FoundFile) :
    report (files.flatMap findings) = files.flatMap lines := by
  induction files with
  | nil => rfl
  | cons file rest ih =>
      rw [List.flatMap_cons, List.flatMap_cons, report_append, report_findings, ih]

end FoundFile

namespace FileSystem

variable {system : FileSystem} {root : Path} {files : List FoundFile}

theorem lintFile_cases (proper : system.top.Proper) {extension : Text} {file : FoundFile}
    (finds : system.Finds extension root file) :
    ¬ system.IsUnreadable root file ∧
        system.lintFile (root.joinRoute file.route) = .ok file.findings ∨
      system.IsUnreadable root file ∧ system.lintFile (root.joinRoute file.route) =
        .error (.fileRead (root.joinRoute file.route)) := by
  obtain ⟨reached, named, _⟩ := finds
  have shown : (root.joinRoute file.route).displayName = file.name.lossy := by
    rw [Path.displayName, Path.fileName?_joinRoute (isEntryName_of_reaches proper reached), named]
    rfl
  rw [lintFile, document, shown]
  rcases read_cases proper reached with ⟨readable, content, found, done⟩ | ⟨unreadable, failed⟩
  · refine Or.inl ⟨readable, ?_⟩
    rw [done, FoundFile.findings, found]
    rfl
  · refine Or.inr ⟨unreadable, ?_⟩
    rw [failed]
    rfl

/-- Once the files are listed, they are all checked, unless one of them cannot be read. -/
theorem lint_cases (proper : system.top.Proper)
    (below : system.FilesBelow documentExtension root files)
    (scanned : system.scan documentExtension root =
      .ok (files.map fun file => root.joinRoute file.route)) (turn : Nat) :
    (∃ file ∈ files, system.IsUnreadable root file ∧
        system.lint turn root = .error (.fileRead (root.joinRoute file.route))) ∨
      (∀ file ∈ files, ¬ system.IsUnreadable root file) ∧
        system.lint turn root = .ok (files.flatMap FoundFile.findings) := by
  have each (file : FoundFile) (member : file ∈ files) :=
    lintFile_cases proper ((below.complete file).1 member)
  have linted : system.lint turn root =
      (together turn (files.map fun file => system.lintFile (root.joinRoute file.route))).map
        List.flatten := by
    rw [lint, scanned]
    simp only [Except.bind, List.map_map, Function.comp_def]
  cases attempted : together turn
      (files.map fun file => system.lintFile (root.joinRoute file.route)) with
  | error failure =>
      have among := exists_together_eq_error_iff.1 ⟨turn, attempted⟩
      obtain ⟨file, member, failed⟩ := List.mem_map.1 among
      rcases each file member with ⟨_, done⟩ | ⟨unreadable, stopped⟩
      · exact absurd (done.symm.trans failed) (by simp)
      · obtain rfl := Except.error.inj (stopped.symm.trans failed)
        refine Or.inl ⟨file, member, unreadable, ?_⟩
        rw [linted, attempted]
        rfl
  | ok results =>
      have all := together_eq_ok_iff.1 attempted
      have readable : ∀ file ∈ files, ¬ system.IsUnreadable root file ∧
          system.lintFile (root.joinRoute file.route) = .ok file.findings := by
        intro file member
        refine (each file member).resolve_right fun stopped => ?_
        have among : system.lintFile (root.joinRoute file.route) ∈ results.map .ok :=
          all ▸ List.mem_map_of_mem member
        obtain ⟨_, _, done⟩ := List.mem_map.1 among
        exact absurd (done.trans stopped.2) (by simp)
      have same : results = files.map FoundFile.findings := by
        rw [List.map_congr_left fun file member => (readable file member).2] at all
        have ok : Function.Injective (Except.ok : List Finding → Except Failure (List Finding)) :=
          fun _ _ same => Except.ok.inj same
        apply ok.list_map
        rw [← all, List.map_map]
        rfl
      refine Or.inr ⟨fun file member => (readable file member).1, ?_⟩
      rw [linted, attempted, same, List.flatMap_def]
      rfl

end FileSystem

/-! ## Endings -/

/-- Whatever is written to the standard error stream arrives there. -/
theorem deliver_standardError (findings : List Finding) :
    standardError.deliver findings = ⟨(report findings).encode, .ok ()⟩ :=
  Sink.deliver_of_holds (Or.inr ⟨nofun, nofun⟩)

namespace Outcome

theorem ofFindings_eq (findings : List Finding) : ofFindings findings = .linted findings := by
  unfold ofFindings
  split
  case isTrue clean => rw [clean]
  case isFalse => rw [deliver_standardError]

theorem stderr_linted (findings : List Finding) :
    (Outcome.linted findings).stderr = (report findings).encode := by
  cases findings with
  | nil => rfl
  | cons finding rest => rw [stderr, deliver_standardError]

theorem stderr_walk (path : Path) : (Outcome.failed (.walk path)).stderr =
    Text.encode ("Error: Failed to scan directory: ".toList ++ path.lossy ++ ['\n']) := rfl

theorem stderr_fileRead (path : Path) : (Outcome.failed (.fileRead path)).stderr =
    Text.encode ("Error: Failed to read file: ".toList ++ path.lossy ++ ['\n']) := rfl

theorem status_linted (findings : List Finding) :
    (Outcome.linted findings).status ≠ 2 ∧
      ((Outcome.linted findings).status = 0 ↔ findings = []) ∧
      ((Outcome.linted findings).status ≠ 0 → (Outcome.linted findings).status = 1) := by
  cases findings with
  | nil => simp [status]
  | cons finding rest => simp [status]

/-- A run stops at a file that cannot be read, and reports on none. If there are several, it may
be any of them. -/
structure StopsAmong (outcome : Outcome) (system : FileSystem) (root : Path)
    (files : List FoundFile) : Prop where
  failed : outcome.status = 2
  named : ∃ file ∈ files, system.IsUnreadable root file ∧ outcome.stderr =
    Text.encode
      ("Error: Failed to read file: ".toList ++ (root.joinRoute file.route).lossy ++ ['\n'])

/-- A run reports on files one after the other, and its status tells whether all are clean. -/
structure ReportsOn (outcome : Outcome) (files : List FoundFile) : Prop where
  reported : outcome.stderr = Text.encode (files.flatMap FoundFile.lines)
  finished : outcome.status ≠ 2
  clean : outcome.status = 0 ↔ ∀ file ∈ files, file.findings = []
  silent : outcome.status = 0 → outcome.stderr = []
  dirty : outcome.status ≠ 0 → outcome.status = 1

theorem reportsOn_linted (files : List FoundFile) :
    (Outcome.linted (files.flatMap FoundFile.findings)).ReportsOn files := by
  obtain ⟨notTwo, zero, one⟩ := status_linted (files.flatMap FoundFile.findings)
  have reported := stderr_linted (files.flatMap FoundFile.findings)
  rw [List.flatMap_eq_nil_iff] at zero
  refine ⟨?_, notTwo, zero, fun clean => ?_, one⟩
  · rw [reported, FoundFile.report_flatMap_findings]
  · rw [reported, List.flatMap_eq_nil_iff.2 (zero.1 clean)]
    rfl

end Outcome

/-! ## The run -/

open Command (IsPlain word)

variable {system : FileSystem} {turn : Nat} {root : Bytes}

theorem run_of_parse {arguments : List Bytes} (parsed : Command.parse arguments = .ok root) :
    run system turn arguments =
      match system.lint turn root with
      | .error failure => .failed failure
      | .ok findings => .linted findings := by
  cases linted : system.lint turn root with
  | error failure => simp only [run, parsed, linted]
  | ok findings => simp only [run, parsed, linted, Outcome.ofFindings_eq]

/-- A run ends where the scan does not come to its end, and only says so. -/
theorem run_of_walk (program : Path) {arguments : List Bytes}
    (parsed : Command.parse arguments = .ok root) {path : Path}
    (stopped : system.scan documentExtension root = .error (.walk path)) :
    let outcome := run system turn arguments
    outcome.stdout program = [] ∧ outcome.status = 2 ∧ outcome.stderr =
      Text.encode ("Error: Failed to scan directory: ".toList ++ path.lossy ++ ['\n']) := by
  intro outcome
  have ended : outcome = .failed (.walk path) := by
    simp only [outcome, run_of_parse parsed, FileSystem.lint, stopped, Except.bind]
  rw [ended]
  exact ⟨rfl, rfl, Outcome.stderr_walk path⟩

/-- Listed documents are reported on, unless one of them cannot be read. -/
theorem run_cases {arguments : List Bytes} (parsed : Command.parse arguments = .ok root)
    (proper : system.top.Proper) {files : List FoundFile}
    (below : system.FilesBelow documentExtension root files)
    (scanned : system.scan documentExtension root =
      .ok (files.map fun file => Path.joinRoute root file.route)) :
    (∃ file ∈ files, system.IsUnreadable root file ∧
        run system turn arguments = .failed (.fileRead (Path.joinRoute root file.route))) ∨
      (∀ file ∈ files, ¬ system.IsUnreadable root file) ∧
        run system turn arguments = .linted (files.flatMap FoundFile.findings) := by
  rw [run_of_parse parsed]
  rcases FileSystem.lint_cases proper below scanned turn with
    ⟨file, member, unreadable, stopped⟩ | ⟨readable, done⟩
  · refine Or.inl ⟨file, member, unreadable, ?_⟩
    rw [stopped]
  · refine Or.inr ⟨readable, ?_⟩
    rw [done]

/-- **What a run on a path comes to.** It reports on exactly the documents below the path, file
by file in the order of the routes to them, and its status tells whether all are clean. When
nothing is there, or a directory cannot be listed or a document cannot be read, it only says so. -/
theorem run_input (program : Path) (turn : Nat) (proper : system.top.Proper) (given : root ≠ [])
    (plain : IsPlain root) :
    let outcome := run system turn [word "-i", root]
    let scanned := system.scan documentExtension root
    outcome.stdout program = [] ∧
    ((∃ failure, scanned = .error failure) ↔
      system.resolve? true root = none ∨ ∃ route, system.Blocks root route) ∧
    ((∃ failure, scanned = .error failure) →
      outcome.status = 2 ∧
      (system.resolve? true root = none ∧
          outcome.stderr =
            Text.encode ("Error: Failed to scan directory: ".toList ++ root.lossy ++ ['\n']) ∨
        ∃ route, system.BlocksFirst root route ∧
          outcome.stderr = Text.encode ("Error: Failed to scan directory: ".toList ++
            (Path.joinRoute root route).lossy ++ ['\n']))) ∧
    ((∃ paths, scanned = .ok paths) →
      ∃ files, system.FilesBelow documentExtension root files ∧
        ((∃ file ∈ files, system.IsUnreadable root file) →
          outcome.StopsAmong system root files) ∧
        ((¬ ∃ file ∈ files, system.IsUnreadable root file) → outcome.ReportsOn files)) := by
  intro outcome scanned
  have parsed := Command.parse_input given plain
  rcases FileSystem.scan_cases proper documentExtension root with
    ⟨missing, stopped⟩ | ⟨route, first, stopped⟩ | ⟨free, files, below, listed⟩
  · obtain ⟨silent, status, said⟩ := @run_of_walk system turn root program _ parsed _ stopped
    refine ⟨silent, ⟨fun _ => Or.inl missing, fun _ => ⟨_, stopped⟩⟩,
      fun _ => ⟨status, Or.inl ⟨missing, said⟩⟩, ?_⟩
    rintro ⟨paths, done⟩
    exact absurd (stopped.symm.trans done) (by simp)
  · obtain ⟨silent, status, said⟩ := @run_of_walk system turn root program _ parsed _ stopped
    refine ⟨silent, ⟨fun _ => Or.inr ⟨route, first.1⟩, fun _ => ⟨_, stopped⟩⟩,
      fun _ => ⟨status, Or.inr ⟨route, first, said⟩⟩, ?_⟩
    rintro ⟨paths, done⟩
    exact absurd (stopped.symm.trans done) (by simp)
  · have running : ¬ ∃ failure, scanned = .error failure := by
      rintro ⟨failure, stopped⟩
      exact absurd (listed.symm.trans stopped) (by simp)
    have reason : ¬ (system.resolve? true root = none ∨ ∃ route, system.Blocks root route) :=
      not_or.2 ⟨free.1, free.2⟩
    rcases @run_cases system turn root _ parsed proper files below listed with
      ⟨file, member, unreadable, ended⟩ | ⟨readable, ended⟩
    · refine ⟨?_, iff_of_false running reason, fun stopped => absurd stopped running,
        fun _ => ⟨files, below, fun _ => ⟨?_, file, member, unreadable, ?_⟩, ?_⟩⟩
      · exact congrArg (Outcome.stdout program) ended
      · exact congrArg Outcome.status ended
      · exact congrArg Outcome.stderr ended
      · exact fun free => absurd ⟨file, member, unreadable⟩ free
    · refine ⟨?_, iff_of_false running reason, fun stopped => absurd stopped running,
        fun _ => ⟨files, below, ?_, fun _ => ?_⟩⟩
      · exact congrArg (Outcome.stdout program) ended
      · rintro ⟨file, member, unreadable⟩
        exact absurd unreadable (readable file member)
      · have whole : outcome = .linted (files.flatMap FoundFile.findings) := ended
        rw [whole]
        exact Outcome.reportsOn_linted files

private theorem exists_ok {result : Except Failure (List Path)} (ok : result.isOk) :
    ∃ paths, result = .ok paths := by
  cases result with
  | error failure => exact absurd ok (by simp [Except.isOk, Except.toBool])
  | ok paths => exact ⟨paths, rfl⟩

/-- From another directory, a folder with one file that holds one letter is linted by its path from
the top. That file alone is reported on. -/
theorem run_input_docs :
    let docs : Node := .folder [(word "a.adoc", .plain [0x61])]
    let system : FileSystem := ⟨.folder [(word "docs", docs), (word "work", .empty)], [word "work"]⟩
    let root : Bytes := word "/docs"
    let outcome := run system 0 [word "-i", root]
    system.top.Proper ∧ root ≠ [] ∧ IsPlain root ∧ outcome.stdout [] = [] ∧ outcome.status = 1 ∧
      ∃ files, system.FilesBelow documentExtension root files ∧
        outcome.stderr = Text.encode (files.flatMap FoundFile.lines) := by
  intro docs system root outcome
  have proper : system.top.Proper := Node.proper_pair (by decide) (by decide) (by decide)
    (Node.proper_single (by decide) (.file _)) Node.proper_empty
  have given : root ≠ [] := by decide
  have plain : IsPlain root := by decide
  have status : outcome.status = 1 := by decide +kernel
  obtain ⟨silent, _, _, documents⟩ := @run_input system root [] 0 proper given plain
  obtain ⟨files, below, unreadable, readable⟩ := documents (exists_ok (by decide +kernel))
  refine ⟨proper, given, plain, silent, status, files, below, (readable fun some => ?_).reported⟩
  exact absurd (status.symm.trans (unreadable some).failed) (by decide)

/-! ## Runs that stop -/

theorem encode_dot_slashes (count : Nat) : Text.encode ('.' :: List.replicate count '/') =
    Name.dot :: List.replicate count Name.slash := by
  have slashes : Text.encode (List.replicate count '/') = List.replicate count Name.slash := by
    induction count with
    | zero => rfl
    | succ count ih =>
        rw [List.replicate_succ, Text.encode_cons, ih]
        rfl
  rw [Text.encode_cons, slashes]
  rfl

theorem isPlain_dot (rest : Bytes) : IsPlain (Name.dot :: rest) :=
  Or.inr fun same => absurd (Option.some.inj same) (by decide)

/-- A document in the directory that a path leads to cannot be read when the path leaves no room
for its name. -/
theorem run_input_long_document {name : Name} {content : Bytes} {count : Nat}
    (named : Node.isEntryName name) (accepted : name.extension? = some documentExtension.encode)
    (short : count + 1 < Path.limit) (long : Path.limit ≤ count + 1 + name.length) :
    let system : FileSystem := .only [(name, .plain content)]
    let root : Bytes := Name.dot :: List.replicate count Name.slash
    (∃ paths, system.scan documentExtension root = .ok paths) ∧
      (run system turn [word "-i", root]).status = 2 := by
  intro system root
  obtain ⟨files, below, listed, member⟩ :=
    @FileSystem.exists_filesBelow_single name content count documentExtension named accepted short
  refine ⟨⟨_, listed⟩, ?_⟩
  have unreadable : system.IsUnreadable root ⟨[name], name, some content⟩ :=
    Or.inr (FileSystem.isCutOff_dot_slashes long)
  have parsed : Command.parse [word "-i", root] = .ok root :=
    Command.parse_input (List.cons_ne_nil _ _) (isPlain_dot _)
  rcases @run_cases system turn root _ parsed (Node.proper_single named (.file _)) files below
    listed with ⟨_, _, _, ended⟩ | ⟨readable, _⟩
  · exact congrArg Outcome.status ended
  · exact absurd unreadable (readable _ member)

/-- A directory in the directory that a path leads to cannot be listed when the path leaves no
room for its name, and then its own path is the one that is reported. -/
theorem run_input_long_directory {name : Text} {count : Nat}
    (named : Node.isEntryName name.encode) (short : count + 1 < Path.limit)
    (long : Path.limit ≤ count + 1 + name.encode.length) :
    let system : FileSystem := .only [(name.encode, .empty)]
    let root : Bytes := Name.dot :: List.replicate count Name.slash
    (∃ failure, system.scan documentExtension root = .error failure) ∧
      (run system turn [word "-i", root]).stderr ≠
        Text.encode ("Error: Failed to scan directory: ".toList ++ root.lossy ++ ['\n']) := by
  intro system root
  have stopped := FileSystem.scan_single_directory documentExtension named short long
  refine ⟨⟨_, stopped⟩, ?_⟩
  have whole : root = Text.encode ('.' :: List.replicate count '/') :=
    (encode_dot_slashes count).symm
  obtain ⟨tail, present, extended⟩ : ∃ tail : Text, tail ≠ [] ∧ Path.join root name.encode =
      Text.encode ('.' :: List.replicate count '/' ++ tail) := by
    rw [whole]
    unfold Path.join
    split
    · refine ⟨name, ?_, (Text.encode_append _ _).symm⟩
      rintro rfl
      exact ne_nil_of_isEntryName named rfl
    · exact ⟨'/' :: name, List.cons_ne_nil _ _, (Text.encode_append _ ('/' :: name)).symm⟩
  have parsed : Command.parse [word "-i", root] = .ok root :=
    Command.parse_input (List.cons_ne_nil _ _) (isPlain_dot _)
  obtain ⟨_, _, said⟩ := @run_of_walk _ turn root [] _ parsed _ stopped
  rw [said, extended, whole, Bytes.lossy_encode, Bytes.lossy_encode]
  intro same
  exact present (List.append_right_eq_self.1
    (List.append_cancel_left (List.append_cancel_right (Text.encode_injective same))))

/-- A path can be too long for the documents in the directory that it leads to, and for the
directories in that one; and a document or a directory can refuse to be opened. -/
theorem run_input_unreadable :
    let shallow : FileSystem := .only [(word "a.adoc", .plain [])]
    let deep : FileSystem := .only [(word "inner", .empty)]
    let secret : FileSystem := .only [(word "a.adoc", .file ⟨true, none⟩)]
    let closed : FileSystem := .only [(word "inner", .dir ⟨false, true⟩ [])]
    let long : Bytes := Name.dot :: List.replicate 4091 Name.slash
    let shorter : Bytes := Name.dot :: List.replicate 4090 Name.slash
    let here : Bytes := word "."
    (shallow.top.Proper ∧ deep.top.Proper ∧ secret.top.Proper ∧ closed.top.Proper ∧
      IsPlain long ∧ IsPlain shorter ∧ IsPlain here) ∧
    ((∃ paths, shallow.scan documentExtension long = .ok paths) ∧
      (run shallow 0 [word "-i", long]).status = 2) ∧
    ((∃ failure, deep.scan documentExtension shorter = .error failure) ∧
      (run deep 0 [word "-i", shorter]).stderr ≠
        Text.encode ("Error: Failed to scan directory: ".toList ++ shorter.lossy ++ ['\n'])) ∧
    ((∃ paths, secret.scan documentExtension here = .ok paths) ∧
      (run secret 0 [word "-i", here]).status = 2) ∧
    (∃ failure, closed.scan documentExtension here = .error failure) ∧
      (run closed 0 [word "-i", here]).stderr ≠
        Text.encode ("Error: Failed to scan directory: ".toList ++ here.lossy ++ ['\n']) := by
  intro shallow deep secret closed long shorter here
  refine ⟨⟨Node.proper_single (by decide) (.file _), Node.proper_single (by decide)
    Node.proper_empty, Node.proper_single (by decide) (.file _), Node.proper_single (by decide)
    Node.proper_empty, isPlain_dot _, isPlain_dot _, by decide⟩, ?_, ?_, ⟨?_, ?_⟩, ?_⟩
  · exact run_input_long_document (by decide) (by decide) (by decide) (by decide)
  · exact @run_input_long_directory 0 "inner".toList 4090 (by decide) (by decide) (by decide)
  · exact exists_ok (by decide +kernel)
  · decide +kernel
  · have stopped : closed.scan documentExtension here = .error (.walk (word "./inner")) := by
      decide +kernel
    have parsed : Command.parse [word "-i", here] = .ok here :=
      Command.parse_input (by decide) (by decide)
    refine ⟨⟨_, stopped⟩, ?_⟩
    rw [(@run_of_walk _ 0 here [] _ parsed _ stopped).2.2]
    decide +kernel

end DocLint
