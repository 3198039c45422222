import DocLint.Proofs.Lint.Run
import DocLint.Proofs.Tree.Scan

/-!
# What is listed is what is read

A scan goes down from where a path leads and joins names to the path as it is written, while
reading follows the joined path from its first segment on. Both come to the same file
(`FileSystem.locate?_of_reaches`), which is called in findings as it is called in the tree
(`FileSystem.fileName?_of_locate?`). A listed file is therefore checked under its name, and none is
checked twice: `FileSystem.lintFile_of_scan`. Only a path that is cut off, or a file that refuses
it, keeps a file from being read.
-/

namespace DocLint

/-! ## The name of the file that a path leads to -/

/-- A path whose segments are all empty is made of slashes. -/
theorem Path.isAbsolute_of_segments {path : Path} (present : path ≠ [])
    (empty : ∀ segment ∈ path.segments, segment = []) : path.isAbsolute := by
  obtain ⟨byte, rest, rfl⟩ := List.exists_cons_of_ne_nil present
  by_cases slash : byte = Name.slash
  · simp [isAbsolute, slash]
  · obtain ⟨segment, others, found⟩ := List.exists_cons_of_ne_nil (segments_ne_nil rest)
    have first : byte :: segment ∈ segments (byte :: rest) := by
      unfold segments at found ⊢
      rw [List.foldr_cons, found, extend, if_neg slash]
      exact List.mem_cons_self
    exact absurd (empty _ first) (List.cons_ne_nil _ _)

namespace Node

variable {top : Node} {here location start : Route} {file : File}
  {atLink : Route → Path → List Name → Option Route} {segments rest : List Name}

/-- Whether segments end in the name that a route ends in, which leads from one place to another. -/
def EndAlike (segments : List Name) (location : Route) : Prop :=
  ∃ name : Name, segments.getLast? = some name ∧ location.getLast? = some name ∧
    name.stays = false ∧ name ≠ Name.above

theorem EndAlike.cons (alike : EndAlike rest location) (segment : Name) :
    EndAlike (segment :: rest) location := by
  obtain ⟨name, last, others⟩ := alike
  refine ⟨name, ?_, others⟩
  rw [List.getLast?_cons, last]
  rfl

theorem EndAlike.of_append (present : rest ≠ []) (alike : EndAlike (segments ++ rest) location) :
    EndAlike rest location := by
  obtain ⟨name, last, others⟩ := alike
  rw [List.getLast?_append_of_ne_nil _ present] at last
  exact ⟨name, last, others⟩

theorem EndAlike.fileName?_eq {root : Path} (alike : EndAlike root.segments location) :
    root.fileName? = location.getLast? := by
  obtain ⟨name, last, same, moves, notAbove⟩ := alike
  obtain ⟨before, split⟩ := List.getLast?_eq_some_iff.1 last
  rw [Path.fileName?, split, same, List.filter_append, List.filter_singleton]
  simp [moves, notAbove]

/-- Where paths lead on from, there is no file on the way. -/
theorem ne_file_of_passes (passes : (top.at? here).any Node.passes) (begins : start <+: here) :
    top.at? start ≠ some (.file file) := by
  obtain ⟨rest, rfl⟩ := begins
  intro found
  rw [at?_append, found, Option.bind_some] at passes
  cases rest with
  | nil => exact absurd passes (by simp [at?, Node.passes])
  | cons name rest => exact absurd passes (by simp [at?, child?, entries])

/-- Segments that lead to a file, without following the last link, end in its name, unless they
lead nowhere else. -/
theorem endAlike_of_descend (found : top.at? location = some (.file file))
    (linked : ∀ here target rest, (top.at? here).any Node.passes → rest ≠ [] →
      atLink here target rest = some location → EndAlike rest location)
    (reached : top.descend false atLink here segments = some location) :
    EndAlike segments location ∨ location = here ∧ ∀ segment ∈ segments, segment = [] := by
  induction segments generalizing here with
  | nil => exact Or.inr ⟨(Option.some.inj reached).symm, List.forall_mem_nil _⟩
  | cons segment rest ih =>
      cases leadsOn_of_descend reached with
      | empty nothing onward =>
          refine (ih onward).imp (·.cons segment) (And.imp_right fun empty => ?_)
          exact List.forall_mem_cons.2 ⟨nothing, empty⟩
      | stay passes _ onward =>
          refine Or.inl (((ih onward).resolve_right fun same => ?_).cons segment)
          exact ne_file_of_passes passes (List.prefix_refl here) (same.1 ▸ found)
      | up passes _ onward =>
          refine Or.inl (((ih onward).resolve_right fun same => ?_).cons segment)
          exact ne_file_of_passes passes (List.dropLast_prefix here) (same.1 ▸ found)
      | into _ _ _ inner onward =>
          obtain ⟨_, _, directory⟩ := inner
          refine Or.inl (((ih onward).resolve_right fun same => ?_).cons segment)
          exact absurd (directory.symm.trans (same.1 ▸ found)) (by simp)
      | link passes _ _ _ followed onward =>
          have present : rest ≠ [] := followed.resolve_right (by simp)
          exact Or.inl ((linked here _ rest passes present onward).cons segment)
      | last _ moves notAbove final ends _ =>
          obtain rfl := ends
          exact Or.inl ⟨segment, by simp [final], by simp, Bool.eq_false_iff.2 moves, notAbove⟩

theorem endAlike_of_follow (found : top.at? location = some (.file file)) (links : Nat)
    (reached : top.follow false links here segments = some location) :
    EndAlike segments location ∨ location = here ∧ ∀ segment ∈ segments, segment = [] := by
  induction links generalizing here segments with
  | zero => exact endAlike_of_descend found (fun _ _ _ _ _ nowhere => by cases nowhere) reached
  | succ links ih =>
      refine endAlike_of_descend found (fun here target rest passes present onward => ?_) reached
      refine ((ih onward).resolve_right fun same => ?_).of_append present
      -- A link lies in a directory, and its target is followed from there or from the top.
      have begins : location <+: here := by
        rw [same.1]
        split
        · exact List.nil_prefix
        · exact List.prefix_refl here
      exact ne_file_of_passes passes begins found

end Node

namespace FileSystem

variable {system : FileSystem} {root : Path} {route location base : Route} {file : File}

/-- A file is called by the last name of the path that leads to it as it is called in the tree. -/
theorem fileName?_of_locate? (located : system.locate? false root = some location)
    (found : system.top.at? location = some (.file file)) :
    root.fileName? = location.getLast? := by
  unfold locate? at located
  split at located
  case isFalse => exact absurd located (by simp)
  case isTrue usable =>
    rcases Node.endAlike_of_follow found Node.linkLimit located with alike | ⟨same, empty⟩
    · exact alike.fileName?_eq
    · have absolute := Path.isAbsolute_of_segments (Path.isUsable_iff.1 usable).1.1 empty
      obtain rfl : location = [] := same.trans (if_pos absolute)
      rw [Path.fileName?, List.filter_eq_nil_iff.2 fun segment member => by
        simp [empty segment member, Name.stays]]
      rfl

/-- A file that is reached from where a path leads has the last name on the way to it. -/
theorem getLast?_of_reaches (located : system.locate? true root = some base)
    (reached : system.Reaches root route (.file file)) :
    (base ++ route).getLast? = route.getLast?.or root.fileName? := by
  cases route with
  | cons name route =>
      rw [List.getLast?_append_of_ne_nil _ (List.cons_ne_nil _ _), List.getLast?_cons,
        Option.some_or]
  | nil =>
      rcases reached with ⟨access, entries, _, along⟩ | ⟨other, found, _⟩
      · cases Option.some.inj along
      · have direct : system.locate? false root = some base := by
          rcases system.locate?_link_or_eq root with ⟨target, link⟩ | same
          · exact absurd (link.symm.trans found) (by simp)
          · exact same.symm.trans located
        rw [resolve?, direct, Option.bind_some] at found
        rw [List.append_nil]
        exact (fileName?_of_locate? direct found).symm

/-! ## Where a listed file lies -/

/-- A file is listed, but cannot be read, when the path leaves no room for its name. -/
theorem lintFile_single_long {name : Name} {content : Bytes} {count : Nat}
    (named : Node.isEntryName name) (accepted : name.extension? = some documentExtension.encode)
    (short : count + 1 < Path.limit) (long : Path.limit ≤ count + 1 + name.length) :
    let system : FileSystem := .only [(name, .plain content)]
    let root : Path := Name.dot :: List.replicate count Name.slash
    (∃ paths, system.scan documentExtension root = .ok paths ∧ root.join name ∈ paths) ∧
      system.lintFile (root.join name) = .error (.fileRead (root.join name)) := by
  intro system root
  obtain ⟨files, below, listed, member⟩ :=
    @exists_filesBelow_single name content count documentExtension named accepted short
  refine ⟨⟨_, listed, List.mem_map.2 ⟨_, member, rfl⟩⟩, ?_⟩
  rcases lintFile_cases (Node.proper_single named (.file _)) ((below.complete _).1 member) with
    ⟨readable, _⟩ | ⟨_, failed⟩
  · exact absurd (Or.inr (isCutOff_dot_slashes long)) readable
  · exact failed

/-- **What is listed is what is read.** Each listed path that is not cut off leads, links followed,
to the file that the scan came to, and what is read from the file is checked under the name that it
has in the tree; a path that is cut off leads nowhere. No two listed paths lead to one file. -/
theorem lintFile_of_scan (proper : system.top.Proper) {extension : Text} {paths : List Path}
    (scanned : system.scan extension root = .ok paths) :
    ∃ base, system.locate? true root = some base ∧
      (∀ path ∈ paths, ∃ route name content?, path = root.joinRoute route ∧
        system.top.at? (base ++ route) = some (.file ⟨true, content?⟩) ∧
        (base ++ route).getLast? = some name ∧ path.fileName? = some name ∧
        (¬ system.IsCutOff root route → system.locate? true path = some (base ++ route) ∧
          ∀ content, content? = some content →
            system.lintFile path = .ok (Document.mk name.lossy content).findings) ∧
        (content? = none ∨ system.IsCutOff root route →
          system.lintFile path = .error (.fileRead path))) ∧
      paths.Pairwise fun first second => ∀ location,
        system.locate? true first = some location →
          system.locate? true second ≠ some location := by
  have scans := scans_of_scan proper scanned
  obtain ⟨files, below, listed⟩ := scans.exists_files proper extension
  obtain rfl := Except.ok.inj (listed.symm.trans scanned)
  obtain ⟨node, resolved⟩ := Option.ne_none_iff_exists'.1 scans.1
  obtain ⟨base, located, _⟩ := Option.bind_eq_some_iff.1 resolved
  refine ⟨base, located, ?_, ?_⟩
  · intro path member
    obtain ⟨file, found, rfl⟩ := List.mem_map.1 member
    have finds := (below.complete file).1 found
    obtain ⟨lies, leads⟩ := locate?_of_reaches proper located finds.1 (by simp)
    have last := (getLast?_of_reaches located finds.1).trans finds.2.1
    have called : (root.joinRoute file.route).fileName? = some file.name :=
      (Path.fileName?_joinRoute (isEntryName_of_reaches proper finds.1)).trans finds.2.1
    refine ⟨file.route, file.name, file.content?, rfl, lies, last, called, ?_, ?_⟩
    · intro whole
      refine ⟨(leads.resolve_right fun cut => whole cut.1).2, fun content readable => ?_⟩
      rcases lintFile_cases proper finds with ⟨_, done⟩ | ⟨unreadable, _⟩
      · rw [done, FoundFile.findings, readable]
        rfl
      · exact absurd unreadable (not_or.2 ⟨by simp [readable], whole⟩)
    · intro unreadable
      exact ((lintFile_cases proper finds).resolve_left fun done => done.1 unreadable).2
  · rw [List.pairwise_map]
    apply below.ascending.imp_of_mem
    intro first second memberFirst memberSecond before location leadsFirst leadsSecond
    have routes {file : FoundFile} (member : file ∈ files)
        (leads : system.locate? true (root.joinRoute file.route) = some location) :
        base ++ file.route = location := by
      have reached := ((below.complete file).1 member).1
      rcases (locate?_of_reaches proper located reached (by simp)).2 with
        ⟨_, ends⟩ | ⟨_, lost⟩
      · exact Option.some.inj (ends.symm.trans leads)
      · exact absurd (lost.symm.trans leads) (by simp)
    have same := (routes memberFirst leadsFirst).trans (routes memberSecond leadsSecond).symm
    rw [List.append_cancel_left same] at before
    exact List.lt_irrefl _ before

/-- A directory `d` holds a file `a.x` and a directory `e` with a file of that name. From `e`, the
path `../../l` leads to a link to `d`, and a scan that starts there lists both files, under paths
that do not lead to the same one. -/
theorem lintFile_of_scan_link :
    let path (text : String) : Path := Text.encode text.toList
    let name : Name := path "a.x"
    let inner : Node := .folder [(name, .plain [0x61]), (path "e", .folder [(name, .plain [0x80])])]
    let system : FileSystem :=
      ⟨.folder [(path "d", inner), (path "l", .link (path "d"))], [path "d", path "e"]⟩
    let root : Path := path "../../l"
    let first : Path := path "../../l/a.x"
    let second : Path := path "../../l/e/a.x"
    system.top.Proper ∧ system.scan ['x'] root = .ok [first, second] ∧
      ∃ location, system.top.at? location = some (.plain [0x61]) ∧
        system.locate? true first = some location ∧
          system.locate? true second ≠ some location := by
  intro path name inner system root first second
  have properInner : inner.Proper := Node.proper_pair (by decide) (by decide) (by decide) (.file _)
    (Node.proper_single (by decide) (.file _))
  have proper : system.top.Proper := Node.proper_pair (by decide) (by decide) (by decide)
    properInner (.link _)
  have location : system.locate? true root = some [path "d"] := by decide +kernel
  have directory : system.resolve? true root = some inner := by
    rw [resolve?, location]
    rfl
  have started : system.start? root = some inner := start?_eq_dir_iff.2 directory
  have scanned : system.scan ['x'] root = .ok [first, second] := by
    rw [scan, visitsFrom?, started, Option.map_some, Node.visits_of_ascending (by decide)]
    decide +kernel
  obtain ⟨base, located, _, apart⟩ := lintFile_of_scan proper scanned
  have leads : system.locate? true first = some [path "d", name] := by decide +kernel
  refine ⟨proper, scanned, [path "d", name], rfl, leads, ?_⟩
  exact (List.pairwise_cons.1 apart).1 second (List.mem_singleton_self _) _ leads

/-- A path can be too long for a file that is listed under it; and a file can refuse to be read, or
the directory that it is in to be gone through. -/
theorem lintFile_of_scan_unreadable :
    let name (text : String) : Name := Text.encode text.toList
    let shallow : FileSystem := .only [(name "a.adoc", .plain [])]
    let secret : FileSystem := .only [(name "a.adoc", .file ⟨true, none⟩)]
    let barred : FileSystem :=
      .only [(name "inner", .dir ⟨true, false⟩ [(name "a.adoc", .plain [])])]
    let long : Path := Name.dot :: List.replicate 4091 Name.slash
    let here : Path := name "."
    (shallow.top.Proper ∧ (∃ paths, shallow.scan documentExtension long = .ok paths ∧
        long.join (name "a.adoc") ∈ paths) ∧
      shallow.lintFile (long.join (name "a.adoc")) =
        .error (.fileRead (long.join (name "a.adoc")))) ∧
    (secret.top.Proper ∧ secret.scan documentExtension here = .ok [name "./a.adoc"] ∧
      secret.lintFile (name "./a.adoc") = .error (.fileRead (name "./a.adoc"))) ∧
    barred.top.Proper ∧ barred.scan documentExtension here = .ok [name "./inner/a.adoc"] ∧
      barred.lintFile (name "./inner/a.adoc") = .error (.fileRead (name "./inner/a.adoc")) := by
  intro name shallow secret barred long here
  refine ⟨⟨Node.proper_single (by decide) (.file _), ?_⟩,
    ⟨Node.proper_single (by decide) (.file _), by decide +kernel, by decide +kernel⟩,
    Node.proper_single (by decide) (Node.proper_single (by decide) (.file _)), by decide +kernel,
    by decide +kernel⟩
  exact lintFile_single_long (by decide) (by decide) (by decide) (by decide)

end FileSystem

end DocLint
