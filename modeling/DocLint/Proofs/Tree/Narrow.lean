import DocLint.Proofs.Tree.Below

/-!
# Paths that leave no room

A dot and slashes lead to the working directory, and with enough of them no room is left for the
names in it. A file there is still listed, though it cannot be read by its path
(`exists_filesBelow_single`), and a directory there ends the scan (`scan_single_directory`).
-/

namespace DocLint

namespace Node

variable {name : Name} {node last : Node} {route : Route} {access : Access} {file : File}

theorem proper_empty : (Node.dir access []).Proper :=
  .dir access List.nodup_nil nofun nofun

theorem proper_single (named : isEntryName name) (proper : node.Proper) :
    (Node.dir access [(name, node)]).Proper := by
  refine .dir access (by simp) ?_ ?_
  · rw [List.forall_mem_singleton]
    exact named
  · rw [List.forall_mem_singleton]
    exact proper

theorem proper_pair {other : Name} {next : Node} (apart : name ≠ other) (named : isEntryName name)
    (namedOther : isEntryName other) (proper : node.Proper) (properNext : next.Proper) :
    (Node.dir access [(name, node), (other, next)]).Proper := by
  refine .dir access (by simpa using apart) ?_ ?_
  · rw [List.forall_mem_cons, List.forall_mem_singleton]
    exact ⟨named, namedOther⟩
  · rw [List.forall_mem_cons, List.forall_mem_singleton]
    exact ⟨proper, properNext⟩

theorem at?_file_iff : (Node.file file).at? route = some last ↔
    route = [] ∧ .file file = last := by
  cases route with
  | nil => simp [at?]
  | cons next rest => simp [at?, child?, entries]

theorem at?_empty_iff : (Node.dir access []).at? route = some last ↔
    route = [] ∧ .dir access [] = last := by
  cases route with
  | nil => simp [at?]
  | cons next rest => simp [at?, child?, entries]

theorem at?_single_iff : (Node.dir access [(name, node)]).at? route = some last ↔
    route = [] ∧ .dir access [(name, node)] = last ∨
      ∃ rest, route = name :: rest ∧ node.at? rest = some last := by
  cases route with
  | nil => simp [at?]
  | cons next rest =>
      by_cases same : next = name
      · simp [at?, child?, entries, same]
      · have other : (next == name) = false := beq_eq_false_iff_ne.2 same
        simp [at?, child?, entries, List.lookup_cons, same, other]

theorem at?_pair_iff {other : Name} {next : Node} (apart : name ≠ other) :
    (Node.dir access [(name, node), (other, next)]).at? route = some last ↔
      route = [] ∧ .dir access [(name, node), (other, next)] = last ∨
        (∃ rest, route = name :: rest ∧ node.at? rest = some last) ∨
        ∃ rest, route = other :: rest ∧ next.at? rest = some last := by
  cases route with
  | nil => simp [at?]
  | cons segment rest =>
      by_cases first : segment = name
      · simp [at?, child?, entries, first, apart]
      · have notFirst : (segment == name) = false := beq_eq_false_iff_ne.2 first
        by_cases second : segment = other
        · rw [second] at notFirst
          simp [at?, child?, entries, List.lookup_cons, second, notFirst, apart.symm]
        · have notSecond : (segment == other) = false := beq_eq_false_iff_ne.2 second
          simp [at?, child?, entries, List.lookup_cons, notFirst, notSecond, first, second]

end Node

namespace FileSystem

variable {name : Name} {content : Bytes} {entries : List (Name × Node)} {route : Route}
  {count : Nat} {extension : Text}

/-- A folder as the working directory of a file system that holds nothing else. -/
abbrev only (entries : List (Name × Node)) : FileSystem :=
  ⟨.folder entries, []⟩

theorem start?_dot_slashes (short : count + 1 < Path.limit) :
    (only entries).start? (Name.dot :: List.replicate count Name.slash) =
      some (.folder entries) :=
  start?_eq_dir_iff.2 (resolve?_dot_slashes short rfl rfl)

/-- A name that does not fit after a path cuts off the joined path. -/
theorem isCutOff_dot_slashes {system : FileSystem} (long : Path.limit ≤ count + 1 + name.length) :
    system.IsCutOff (Name.dot :: List.replicate count Name.slash) [name] := by
  have joined := Path.length_join_le (Name.dot :: List.replicate count Name.slash) name
  rw [List.length_cons, List.length_replicate] at joined
  exact Or.inl (decide_eq_true (Nat.le_trans long joined))

/-- The working directory itself does not keep a visit from going on. -/
theorem not_blocks_nil (short : count + 1 < Path.limit) :
    ¬ (only entries).Blocks (Name.dot :: List.replicate count Name.slash) [] := by
  have started := @start?_dot_slashes entries count short
  rintro ⟨access, others, reached, reason⟩
  have same := (reaches_iff started (by simp)).1 reached
  obtain ⟨rfl, _⟩ := Node.dir.inj (Option.some.inj same)
  rcases reason with closed | cut
  · exact absurd closed (by decide)
  · exact not_isCutOff_nil (start?_eq_dir_iff.1 started) cut

/-- A file with an extension is listed, whether or not its path is too long. -/
theorem exists_filesBelow_single (named : Node.isEntryName name)
    (accepted : name.extension? = some extension.encode) (short : count + 1 < Path.limit) :
    let system := only [(name, .plain content)]
    let root : Path := Name.dot :: List.replicate count Name.slash
    ∃ files, system.FilesBelow extension root files ∧
      system.scan extension root = .ok (files.map fun file => root.joinRoute file.route) ∧
      ⟨[name], name, some content⟩ ∈ files := by
  intro system root
  have proper : system.top.Proper := Node.proper_single named (.file _)
  have started : system.start? root = some system.top := start?_dot_slashes short
  have scans : system.Scans root := by
    refine ⟨by rw [start?_eq_dir_iff.1 started]; exact Option.some_ne_none _, ?_⟩
    rintro ⟨route, access, entries, reached, reason⟩
    rcases Node.at?_single_iff.1 ((reaches_iff started (by simp)).1 reached) with
      ⟨rfl, _⟩ | ⟨rest, _, along⟩
    · exact not_blocks_nil short ⟨access, entries, reached, reason⟩
    · exact absurd (Node.at?_file_iff.1 along).2 (by simp)
  obtain ⟨files, below, listed⟩ := scans.exists_files proper extension
  refine ⟨files, below, listed, (below.complete _).2 ⟨?_, rfl, accepted⟩⟩
  apply (reaches_iff started (by simp)).2
  exact Node.at?_single_iff.2 (Or.inr ⟨[], rfl, rfl⟩)

/-- A directory that cannot be listed ends a scan. -/
theorem scan_single_directory (extension : Text) (named : Node.isEntryName name)
    (short : count + 1 < Path.limit) (long : Path.limit ≤ count + 1 + name.length) :
    let root : Path := Name.dot :: List.replicate count Name.slash
    (only [(name, .empty)]).scan extension root = .error (.walk (root.join name)) := by
  intro root
  have proper : (only [(name, .empty)]).top.Proper := Node.proper_single named Node.proper_empty
  have started : (only [(name, .empty)]).start? root = some _ := start?_dot_slashes short
  have there := start?_eq_dir_iff.1 started
  rcases scan_cases proper extension root with
    ⟨missing, _⟩ | ⟨route, ⟨blocked, _⟩, stopped⟩ | ⟨⟨_, free⟩, _⟩
  · exact absurd (there.symm.trans missing) (by simp)
  · have ⟨access, entries, reached, _⟩ := blocked
    rcases Node.at?_single_iff.1 ((reaches_iff started (by simp)).1 reached) with
      ⟨rfl, _⟩ | ⟨rest, rfl, along⟩
    · exact absurd blocked (not_blocks_nil short)
    · obtain ⟨rfl, _⟩ := Node.at?_empty_iff.1 along
      exact stopped
  · refine absurd ⟨[name], ⟨true, true⟩, [], ?_, Or.inr (isCutOff_dot_slashes long)⟩ free
    apply (reaches_iff started (by simp)).2
    exact Node.at?_single_iff.2 (Or.inr ⟨[], rfl, rfl⟩)

end FileSystem

end DocLint
