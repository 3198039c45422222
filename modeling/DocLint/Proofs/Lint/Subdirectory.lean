import DocLint.Proofs.Lint.Run
import DocLint.Proofs.Text.Ascii
import DocLint.Proofs.Text.Lossy
import DocLint.Proofs.Tree.Subdirectory

/-!
# Linting a subdirectory

A run on a directory in the directory that a path leads to prints a part of what a run on the path
prints, in one piece (`scan_subdirectory`). Only documents that cannot be read stand in the way: one
of them keeps the run on the path from printing a report, while a run on a subdirectory that does
not hold it comes to its end (`scan_subdirectory_unreadable`).
-/

namespace DocLint

open Command (word)

variable {system : FileSystem} {root : Path} {way : Route} {turn : Nat}
  {access inside : Access} {entries inner : List (Name × Node)}

namespace FileSystem

/-- What can be read is linted once it is listed. -/
theorem lint_of_readable (proper : system.top.Proper) {files : List FoundFile}
    (below : system.FilesBelow documentExtension root files)
    (scanned : system.scan documentExtension root =
      .ok (files.map fun file => root.joinRoute file.route))
    (readable : ∀ file ∈ files, ¬ system.IsUnreadable root file) (turn : Nat) :
    system.lint turn root = .ok (files.flatMap FoundFile.findings) := by
  rcases lint_cases proper below scanned turn with ⟨file, member, unreadable, _⟩ | ⟨_, done⟩
  · exact absurd unreadable (readable file member)
  · exact done

/-- What is listed in a subdirectory is linted there as it is linted in the whole directory. -/
theorem Splits.lint {before part after : List FoundFile}
    (splits : system.Splits documentExtension root way before part after)
    (proper : system.top.Proper) (scans : system.Scans root)
    (directory : system.resolve? true root = some (.dir access entries))
    (along : (Node.dir access entries).at? way = some (.dir inside inner))
    (readable : ∀ file ∈ before ++ part.map (FoundFile.within way) ++ after,
      ¬ system.IsUnreadable root file) (turn : Nat) :
    system.lint turn root =
        .ok (before.flatMap FoundFile.findings ++ part.flatMap FoundFile.findings ++
          after.flatMap FoundFile.findings) ∧
      system.lint turn (root.joinRoute way) = .ok (part.flatMap FoundFile.findings) := by
  have readableInside : ∀ file ∈ part, ¬ system.IsUnreadable (root.joinRoute way) file := by
    intro file member
    rw [isUnreadable_subdirectory_iff proper scans directory along
      ((splits.inside.complete file).1 member)]
    exact readable (file.within way)
      (List.mem_append_left _ (List.mem_append_right _ (List.mem_map_of_mem member)))
  constructor
  · rw [lint_of_readable proper splits.below splits.listed readable turn]
    simp only [List.flatMap_append, List.flatMap_map]
    rfl
  · exact lint_of_readable proper splits.inside splits.listedInside readableInside turn

end FileSystem

theorem run_of_lint {arguments : List Bytes} {findings : List Finding}
    (parsed : Command.parse arguments = .ok root) (linted : system.lint turn root = .ok findings) :
    run system turn arguments = .linted findings := by
  rw [run_of_parse parsed, linted]

/-- **A subdirectory is a part of the directory that holds it.** Where a scan of a path comes to its
end, so does a scan of a directory that is reached from there without a link, and it lists the paths
below that directory, which stand side by side in what the first scan lists. If moreover each listed
document can be read, the report on the subdirectory stands in one piece in the report on the
path. -/
theorem scan_subdirectory (proper : system.top.Proper) {extension : Text} {paths : List Path}
    (scanned : system.scan extension root = .ok paths)
    (directory : system.resolve? true root = some (.dir access entries))
    (along : (Node.dir access entries).at? way = some (.dir inside inner)) :
    let part := root.joinRoute way
    (∃ before block after, paths = before ++ block ++ after ∧
      system.scan extension part = .ok block ∧ (∀ path ∈ block, part.IsBelow path) ∧
        ∀ path ∈ before ++ after, ¬ part.IsBelow path) ∧
    ((∀ documents, system.scan documentExtension root = .ok documents →
        ∀ path ∈ documents, ∃ content, system.read path = .ok content) →
      ∃ before block after : List Finding, ∀ turn partTurn,
        system.lint turn root = .ok (before ++ block ++ after) ∧
        system.lint partTurn part = .ok block ∧
        ∀ arguments partArguments : List Bytes, Command.parse arguments = .ok root →
          Command.parse partArguments = .ok part →
            (run system turn arguments).stderr = (report before).encode ++
              (run system partTurn partArguments).stderr ++ (report after).encode) := by
  intro part
  have scans := FileSystem.scans_of_scan proper scanned
  constructor
  · obtain ⟨before, files, after, splits⟩ :=
      FileSystem.exists_splits proper scans directory along extension
    obtain ⟨below, beside⟩ := splits.isBelow proper directory along
    obtain rfl := Except.ok.inj (scanned.symm.trans splits.listed)
    refine ⟨before.map fun file => root.joinRoute file.route,
      files.map fun file => part.joinRoute file.route,
      after.map fun file => root.joinRoute file.route, ?_, splits.listedInside, ?_, ?_⟩
    · simp only [List.map_append, List.map_map, part, ← Path.joinRoute_append]
      rfl
    · intro path member
      obtain ⟨file, found, rfl⟩ := List.mem_map.1 member
      rw [← Path.joinRoute_append]
      exact below file found
    · intro path member
      rw [← List.map_append] at member
      obtain ⟨file, found, rfl⟩ := List.mem_map.1 member
      exact beside file found
  · intro reads
    obtain ⟨before, files, after, splits⟩ :=
      FileSystem.exists_splits proper scans directory along documentExtension
    have readable : ∀ file ∈ before ++ files.map (FoundFile.within way) ++ after,
        ¬ system.IsUnreadable root file := by
      intro file member unreadable
      obtain ⟨content, done⟩ := reads _ splits.listed _ (List.mem_map_of_mem member)
      rcases FileSystem.read_cases proper ((splits.below.complete file).1 member).1 with
        ⟨readable, _⟩ | ⟨_, failed⟩
      · exact readable unreadable
      · exact absurd (failed.symm.trans done) (by simp)
    refine ⟨before.flatMap FoundFile.findings, files.flatMap FoundFile.findings,
      after.flatMap FoundFile.findings, fun turn partTurn => ?_⟩
    have whole := (splits.lint proper scans directory along readable turn).1
    have piece := (splits.lint proper scans directory along readable partTurn).2
    refine ⟨whole, piece, fun arguments partArguments parsed parsedPart => ?_⟩
    rw [run_of_lint parsed whole, run_of_lint parsedPart piece, Outcome.stderr_linted,
      Outcome.stderr_linted, report_append, report_append, Text.encode_append, Text.encode_append]

/-- A directory holds directories `a`, `a-b` and `ab` and a file `a.adoc`. What is found in `a-b`
comes second, after what is in `a`. -/
theorem scan_subdirectory_between :
    let holding (text : String) : Node := .folder [(word text, .plain [0x61])]
    let entries : List (Name × Node) :=
      [(word "a", holding "z.adoc"), (word "a-b", holding "y.adoc"),
        (word "a.adoc", .plain [0x80]), (word "ab", holding "w.adoc")]
    let system : FileSystem := .only entries
    let paths := ["./a/z.adoc", "./a-b/y.adoc", "./a.adoc", "./ab/w.adoc"].map word
    system.top.Proper ∧ system.scan documentExtension (word ".") = .ok paths ∧
      system.resolve? true (word ".") = some (.folder entries) ∧
      (Node.folder entries).at? [word "a-b"] = some (holding "y.adoc") ∧
      (∃ before block after, paths = before ++ block ++ after ∧
        system.scan documentExtension (word "./a-b") = .ok block) ∧
      (∀ path ∈ paths, ∃ content, system.read path = .ok content) ∧
      ∃ before after, (run system 0 [word "-i", word "."]).stderr =
        before ++ (run system 0 [word "-i", word "./a-b"]).stderr ++ after := by
  intro holding entries system paths
  have properInside (text : String) (named : Node.isEntryName (word text)) :
      (holding text).Proper := Node.proper_single named (.file _)
  have proper : system.top.Proper := by
    refine .dir _ (by decide) (by decide) ?_
    simp only [entries, List.forall_mem_cons]
    exact ⟨properInside _ (by decide), properInside _ (by decide), .file _,
      properInside _ (by decide), List.forall_mem_nil _⟩
  have directory : system.resolve? true (word ".") = some (.folder entries) := rfl
  have started : system.start? (word ".") = some (.folder entries) := rfl
  have along : (Node.folder entries).at? [word "a-b"] = some (holding "y.adoc") := rfl
  have scanned : system.scan documentExtension (word ".") = .ok paths := by
    rw [FileSystem.scan, FileSystem.visitsFrom?, started, Option.map_some,
      Node.visits_of_ascending (by decide)]
    decide +kernel
  have reads : ∀ path ∈ paths, ∃ content, system.read path = .ok content := by
    simp only [paths, List.map_cons, List.map_nil, List.forall_mem_cons]
    exact ⟨⟨[0x61], by decide +kernel⟩, ⟨[0x61], by decide +kernel⟩, ⟨[0x80], by decide +kernel⟩,
      ⟨[0x61], by decide +kernel⟩, List.forall_mem_nil _⟩
  have joined : Path.joinRoute (word ".") [word "a-b"] = word "./a-b" := by decide
  obtain ⟨⟨before, block, after, split, listed, _⟩, reports⟩ :=
    scan_subdirectory proper scanned directory along
  rw [joined] at listed reports
  obtain ⟨earlier, _, later, printed⟩ := reports fun documents again => by
    obtain rfl := Except.ok.inj (scanned.symm.trans again)
    exact reads
  refine ⟨proper, scanned, directory, along, ⟨before, block, after, split, listed⟩, reads,
    (report earlier).encode, (report later).encode, ?_⟩
  exact (printed 0 0).2.2 _ _ (Command.parse_input (by decide) (by decide))
    (Command.parse_input (by decide) (by decide))

/-! ## A document that cannot be read beside a subdirectory -/

namespace FileSystem

/-- The one document that cannot be read is the one that a run fails at. -/
theorem lint_of_unreadable (proper : system.top.Proper) (scans : system.Scans root)
    {file : FoundFile} (finds : system.Finds documentExtension root file)
    (only : ∀ other, system.Finds documentExtension root other →
      (system.IsUnreadable root other ↔ other = file)) (turn : Nat) :
    system.lint turn root = .error (.fileRead (root.joinRoute file.route)) := by
  obtain ⟨files, below, listed⟩ := scans.exists_files proper documentExtension
  rcases lint_cases proper below listed turn with ⟨other, member, unreadable, failed⟩ | ⟨all, _⟩
  · rw [failed, (only other ((below.complete other).1 member)).1 unreadable]
  · exact absurd ((only file finds).2 rfl) (all file ((below.complete file).2 finds))

theorem exists_lint_of_readable (proper : system.top.Proper) (scans : system.Scans root)
    (readable : ∀ file, system.Finds documentExtension root file →
      ¬ system.IsUnreadable root file) (turn : Nat) :
    ∃ files, system.FilesBelow documentExtension root files ∧
      system.lint turn root = .ok (files.flatMap FoundFile.findings) := by
  obtain ⟨files, below, listed⟩ := scans.exists_files proper documentExtension
  refine ⟨files, below, lint_of_readable proper below listed (fun file member => ?_) turn⟩
  exact readable file ((below.complete file).1 member)

section Beside

variable {other? : Option Bytes} {count : Nat}

/-- A directory holds a directory `d` with a document, and another document beside that. -/
def beside (other? : Option Bytes) : List (Name × Node) :=
  [(word "d", .folder [(word "a.adoc", .plain [0x61])]),
    (word "zzzzzzzzzzz.adoc", .file ⟨true, other?⟩)]

theorem proper_beside : (only (beside other?)).top.Proper :=
  Node.proper_pair (by decide) (by decide) (by decide)
    (Node.proper_single (by decide) (.file _)) (.file _)

theorem at?_beside_iff {route : Route} {last : Node} :
    (Node.folder (beside other?)).at? route = some last ↔
      route = [] ∧ .folder (beside other?) = last ∨
      route = [word "d"] ∧ .folder [(word "a.adoc", .plain [0x61])] = last ∨
      route = [word "d", word "a.adoc"] ∧ .plain [0x61] = last ∨
      route = [word "zzzzzzzzzzz.adoc"] ∧ .file ⟨true, other?⟩ = last := by
  have apart : word "d" ≠ word "zzzzzzzzzzz.adoc" := by decide
  rw [beside, Node.at?_pair_iff apart]
  simp only [Node.at?_single_iff, Node.at?_file_iff]
  constructor
  · rintro (whole | ⟨_, rfl, ⟨rfl, same⟩ | ⟨_, rfl, rfl, same⟩⟩ | ⟨_, rfl, rfl, same⟩)
    · exact Or.inl whole
    · exact Or.inr (Or.inl ⟨rfl, same⟩)
    · exact Or.inr (Or.inr (Or.inl ⟨rfl, same⟩))
    · exact Or.inr (Or.inr (Or.inr ⟨rfl, same⟩))
  · rintro (whole | ⟨rfl, same⟩ | ⟨rfl, same⟩ | ⟨rfl, same⟩)
    · exact Or.inl whole
    · exact Or.inr (Or.inl ⟨[], rfl, Or.inl ⟨rfl, same⟩⟩)
    · exact Or.inr (Or.inl ⟨[word "a.adoc"], rfl, Or.inr ⟨[], rfl, rfl, same⟩⟩)
    · exact Or.inr (Or.inr ⟨[], rfl, rfl, same⟩)

/-- Both directories let all paths through, so that only too long a path is cut off. -/
theorem isCutOff_beside_iff (short : count + 1 < Path.limit) {route : Route} {last : Node}
    (along : (Node.folder (beside other?)).at? route = some last) :
    (only (beside other?)).IsCutOff (Name.dot :: List.replicate count Name.slash) route ↔
      (Path.joinRoute (Name.dot :: List.replicate count Name.slash) route).isTooLong := by
  rw [isCutOff_iff (start?_dot_slashes short) along, or_iff_left]
  rw [Node.not_isPassable_iff along]
  rintro ⟨before, _, _, access, entries, found, closed⟩
  rcases at?_beside_iff.1 found with ⟨_, same⟩ | ⟨_, same⟩ | ⟨_, same⟩ | ⟨_, same⟩
  · obtain ⟨rfl, _⟩ := Node.dir.inj same
    exact absurd closed (by decide)
  · obtain ⟨rfl, _⟩ := Node.dir.inj same
    exact absurd closed (by decide)
  · exact absurd same (by simp)
  · exact absurd same (by simp)

/-- The directory can be scanned if the path to it leaves room for `d`. -/
theorem scans_beside (fits : count + 3 < Path.limit) :
    (only (beside other?)).Scans (Name.dot :: List.replicate count Name.slash) := by
  have short : count + 1 < Path.limit := by omega
  have started := @start?_dot_slashes (beside other?) count short
  refine ⟨by rw [start?_eq_dir_iff.1 started]; exact Option.some_ne_none _, ?_⟩
  rintro ⟨route, access, entries, reached, reason⟩
  have along := (reaches_iff started (by simp)).1 reached
  rw [isCutOff_beside_iff short along] at reason
  rcases at?_beside_iff.1 along with ⟨rfl, same⟩ | ⟨rfl, same⟩ | ⟨_, same⟩ | ⟨_, same⟩
  · obtain ⟨rfl, _⟩ := Node.dir.inj same
    rcases reason with closed | long
    · exact absurd closed (by decide)
    · exact not_isCutOff_nil (start?_eq_dir_iff.1 started) (Or.inl long)
  · obtain ⟨rfl, _⟩ := Node.dir.inj same
    rcases reason with closed | long
    · exact absurd closed (by decide)
    · have size := Path.length_join_le_succ (Name.dot :: List.replicate count Name.slash) (word "d")
      have one : (word "d").length = 1 := by decide
      rw [one, List.length_cons, List.length_replicate] at size
      have exceeds : Path.limit ≤ _ := of_decide_eq_true long
      exact absurd (Nat.le_trans exceeds size) (by omega)
  · exact absurd same (by simp)
  · exact absurd same (by simp)

theorem finds_beside_iff (short : count + 1 < Path.limit) {file : FoundFile} :
    (only (beside other?)).Finds documentExtension (Name.dot :: List.replicate count Name.slash)
        file ↔
      file = ⟨[word "d", word "a.adoc"], word "a.adoc", some [0x61]⟩ ∨
        file = ⟨[word "zzzzzzzzzzz.adoc"], word "zzzzzzzzzzz.adoc", other?⟩ := by
  obtain ⟨route, name, content?⟩ := file
  have accepted : Name.extension? (word "zzzzzzzzzzz.adoc") = some documentExtension.encode := by
    decide
  rw [Finds, reaches_iff (start?_dot_slashes short) (by simp), at?_beside_iff]
  constructor
  · rintro ⟨⟨_, same⟩ | ⟨_, same⟩ | ⟨rfl, same⟩ | ⟨rfl, same⟩, called, _⟩
    · cases same
    · cases same
    · obtain rfl : word "a.adoc" = name := Option.some.inj called
      obtain rfl : some [0x61] = content? := (File.mk.inj (Node.file.inj same)).2
      exact Or.inl rfl
    · obtain rfl : word "zzzzzzzzzzz.adoc" = name := Option.some.inj called
      obtain rfl : other? = content? := (File.mk.inj (Node.file.inj same)).2
      exact Or.inr rfl
  · rintro (same | same)
    · obtain ⟨rfl, rfl, rfl⟩ := FoundFile.mk.inj same
      exact ⟨Or.inr (Or.inr (Or.inl ⟨rfl, rfl⟩)), rfl, by decide⟩
    · obtain ⟨rfl, rfl, rfl⟩ := FoundFile.mk.inj same
      exact ⟨Or.inr (Or.inr (Or.inr ⟨rfl, rfl⟩)), rfl, accepted⟩

/-- The document in `d` can be read if there is room for its path. -/
theorem not_isUnreadable_beside (fits : count + 10 < Path.limit) :
    ¬ (only (beside other?)).IsUnreadable (Name.dot :: List.replicate count Name.slash)
      ⟨[word "d", word "a.adoc"], word "a.adoc", some [0x61]⟩ := by
  have lies := (@at?_beside_iff other? [word "d", word "a.adoc"] _).2
    (Or.inr (Or.inr (Or.inl ⟨rfl, rfl⟩)))
  rw [IsUnreadable, isCutOff_beside_iff (by omega) lies]
  rintro (missing | long)
  · cases missing
  · have outer := Path.length_join_le_succ (Name.dot :: List.replicate count Name.slash) (word "d")
    have whole := Path.length_join_le_succ
      (Path.join (Name.dot :: List.replicate count Name.slash) (word "d")) (word "a.adoc")
    have one : (word "d").length = 1 := by decide
    have six : (word "a.adoc").length = 6 := by decide
    rw [one, List.length_cons, List.length_replicate] at outer
    rw [six] at whole
    have exceeds : Path.limit ≤ List.length (Path.join (Path.join _ (word "d")) (word "a.adoc")) :=
      of_decide_eq_true long
    omega

/-- If the document beside `d` cannot be read, only `d` can be linted. -/
theorem lint_beside (turn : Nat) (fits : count + 10 < Path.limit)
    (unreadable : other? = none ∨ Path.limit ≤ count + 17) :
    let root : Path := Name.dot :: List.replicate count Name.slash
    (only (beside other?)).lint turn root =
        .error (.fileRead (root.join (word "zzzzzzzzzzz.adoc"))) ∧
      ∃ findings, (only (beside other?)).lint turn (root.join (word "d")) = .ok findings ∧
        ⟨"a.adoc".toList, 1, .lineEndingNotLf⟩ ∈ findings := by
  intro root
  have short : count + 1 < Path.limit := by omega
  have directory := start?_eq_dir_iff.1 (@start?_dot_slashes (beside other?) count short)
  have scans := @scans_beside other? count (by omega)
  have along : (Node.folder (beside other?)).at? [word "d"] = some (.folder _) :=
    at?_beside_iff.2 (Or.inr (Or.inl ⟨rfl, rfl⟩))
  have readable := @not_isUnreadable_beside other? count fits
  constructor
  · refine @lint_of_unreadable (only (beside other?)) root proper_beside scans
      ⟨[word "zzzzzzzzzzz.adoc"], word "zzzzzzzzzzz.adoc", other?⟩
      ((finds_beside_iff short).2 (Or.inr rfl)) (fun other finds => ?_) turn
    rcases (finds_beside_iff short).1 finds with rfl | rfl
    · exact iff_of_false readable (by simp)
    · refine iff_of_true (unreadable.imp_right fun exceeds => ?_) rfl
      exact isCutOff_dot_slashes exceeds
  · have inside {file : FoundFile}
        (finds : (only (beside other?)).Finds documentExtension (root.joinRoute [word "d"]) file) :
        file.within [word "d"] = ⟨[word "d", word "a.adoc"], word "a.adoc", some [0x61]⟩ := by
      have whole := (finds_subdirectory_iff proper_beside scans directory along).1 finds
      refine ((finds_beside_iff short).1 whole).resolve_right fun same => ?_
      exact absurd (List.cons.inj (FoundFile.mk.inj same).1).1 (by decide)
    obtain ⟨files, below, linted⟩ := exists_lint_of_readable proper_beside
      (scans_subdirectory proper_beside scans directory along) (fun file finds => by
        rw [isUnreadable_subdirectory_iff proper_beside scans directory along finds, inside finds]
        exact readable) turn
    have listed : ⟨[word "a.adoc"], word "a.adoc", some [0x61]⟩ ∈ files := by
      rw [below.complete, finds_subdirectory_iff proper_beside scans directory along]
      exact (finds_beside_iff short).2 (Or.inl rfl)
    exact ⟨_, linted, List.mem_flatMap.2 ⟨_, listed, by decide⟩⟩

end Beside

end FileSystem

/-- If the document beside `d` cannot be read, what a run on `d` prints is no part of what a run on
the directory prints. -/
theorem run_beside {other? : Option Bytes} {count : Nat} (fits : count + 10 < Path.limit)
    (unreadable : other? = none ∨ Path.limit ≤ count + 17) :
    let system : FileSystem := .only (FileSystem.beside other?)
    let root : Path := Name.dot :: List.replicate count Name.slash
    (∃ paths, system.scan documentExtension root = .ok paths) ∧
      system.resolve? true root = some system.top ∧
      ¬ (run system 0 [word "-i", root.joinRoute [word "d"]]).stderr <:+:
        (run system 0 [word "-i", root]).stderr := by
  intro system root
  have scans := @FileSystem.scans_beside other? count (by omega)
  obtain ⟨files, _, listed⟩ := scans.exists_files FileSystem.proper_beside documentExtension
  obtain ⟨failed, findings, linted, found⟩ :=
    @FileSystem.lint_beside other? count 0 fits unreadable
  have parsed : Command.parse [word "-i", root] = .ok root :=
    Command.parse_input (List.cons_ne_nil _ _) (isPlain_dot _)
  have parsedPart : Command.parse [word "-i", root.join (word "d")] =
      .ok (root.join (word "d")) := by
    have begins : (root.join (word "d")).head? = some Name.dot := by
      unfold Path.join
      split
      · rfl
      · rfl
    refine Command.parse_input (fun empty => ?_) (Or.inr fun dash => ?_)
    · rw [empty] at begins
      cases begins
    · exact absurd (begins.symm.trans dash) (by decide)
  have ended : run system 0 [word "-i", root] =
      .failed (.fileRead (root.join (word "zzzzzzzzzzz.adoc"))) := by
    rw [run_of_parse parsed, failed]
  refine ⟨⟨_, listed⟩, FileSystem.resolve?_dot_slashes (by omega) rfl rfl, fun part => ?_⟩
  change (run system 0 [word "-i", root.join (word "d")]).stderr <:+: _ at part
  rw [ended, run_of_lint parsedPart linted, Outcome.stderr_linted, Outcome.stderr_fileRead] at part
  -- The report has a line number, and no digit is in what is said of the failure.
  have digit : '1'.val.toUInt8 ∈ (report findings).encode :=
    (Text.mem_encode_iff (by decide) _).2 (List.mem_flatMap.2 ⟨_, found, by decide⟩)
  have printed := (Text.mem_encode_iff (by decide) _).1 (part.subset digit)
  rw [List.append_assoc, List.mem_append, List.mem_append] at printed
  rcases printed with said | shown | ended
  · exact absurd said (by decide)
  · have byte := Bytes.mem_of_mem_lossy (by decide) shown
    have outside : UInt8.ofNat '1'.toNat ∉ root := by
      rw [List.mem_cons, not_or]
      exact ⟨by decide, fun member => absurd (List.eq_of_mem_replicate member) (by decide)⟩
    unfold Path.join at byte
    split at byte
    · exact absurd ((List.mem_append.1 byte).resolve_left outside) (by decide)
    · exact absurd ((List.mem_append.1 byte).resolve_left outside) (by decide)
  · exact absurd ended (by decide)

/-- A path that leaves no room for the document `zzzzzzzzzzz.adoc` leads to it and to a directory
`d`. The path can be scanned, but only in `d` is there a report. It is the same if there is room for
the document, but the document refuses to be read. -/
theorem scan_subdirectory_unreadable :
    let inner : List (Name × Node) := [(word "a.adoc", .plain [0x61])]
    let shallow : FileSystem :=
      .only [(word "d", .folder inner), (word "zzzzzzzzzzz.adoc", .plain [0x61, 0x0A])]
    let secret : FileSystem :=
      .only [(word "d", .folder inner), (word "zzzzzzzzzzz.adoc", .file ⟨true, none⟩)]
    let long : Path := Name.dot :: List.replicate 4079 Name.slash
    let here : Path := word "."
    (shallow.top.Proper ∧ shallow.top.at? [word "d"] = some (.folder inner) ∧
      secret.top.Proper ∧ secret.top.at? [word "d"] = some (.folder inner)) ∧
    ((∃ paths, shallow.scan documentExtension long = .ok paths) ∧
      shallow.resolve? true long = some shallow.top ∧
      ¬ (run shallow 0 [word "-i", long.joinRoute [word "d"]]).stderr <:+:
        (run shallow 0 [word "-i", long]).stderr) ∧
    (∃ paths, secret.scan documentExtension here = .ok paths) ∧
      secret.resolve? true here = some secret.top ∧
      ¬ (run secret 0 [word "-i", here.joinRoute [word "d"]]).stderr <:+:
        (run secret 0 [word "-i", here]).stderr := by
  intro inner shallow secret long here
  refine ⟨⟨FileSystem.proper_beside, rfl, FileSystem.proper_beside, rfl⟩, ?_, ?_⟩
  · exact @run_beside (some [0x61, 0x0A]) 4079 (by decide) (Or.inr (by decide))
  · exact @run_beside none 0 (by decide) (Or.inl rfl)

end DocLint
