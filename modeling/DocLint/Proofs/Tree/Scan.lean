import DocLint.Proofs.Tree.Narrow
import DocLint.Proofs.Tree.Relisted

/-!
# What a scan of a directory lists

A scan of a path that leads to a directory lists the regular files that are reached from there
without a link and have the extension, each of them once and in the order of the names on the way
to it (`FileSystem.scan_directory`). Only a directory that cannot be listed by its joined path keeps
it from that.
-/

namespace DocLint.FileSystem

variable {system : FileSystem} {root : Path} {route : Route} {extension : Text}
  {files : List FoundFile} {access : Access} {entries : List (Name × Node)}

theorem isEntryName_of_mem (proper : system.top.Proper)
    (below : system.FilesBelow extension root files) {file : FoundFile} (member : file ∈ files) :
    ∀ name ∈ file.route, Node.isEntryName name :=
  isEntryName_of_reaches proper ((below.complete file).1 member).1

theorem FilesBelow.nodup_paths (below : system.FilesBelow extension root files)
    (proper : system.top.Proper) : (files.map fun file => root.joinRoute file.route).Nodup := by
  rw [List.Nodup, List.pairwise_map]
  apply below.ascending.imp_of_mem
  intro first second memberFirst memberSecond before same
  rw [Path.joinRoute_inj (isEntryName_of_mem proper below memberFirst)
    (isEntryName_of_mem proper below memberSecond) same] at before
  exact List.lt_irrefl _ before

theorem FilesBelow.mem_paths_iff (below : system.FilesBelow extension root files)
    (proper : system.top.Proper) (named : ∀ name ∈ route, Node.isEntryName name) :
    root.joinRoute route ∈ files.map (fun file => root.joinRoute file.route) ↔
      route ∈ files.map (·.route) := by
  rw [List.mem_map, List.mem_map]
  constructor
  · rintro ⟨file, member, same⟩
    exact ⟨file, member,
      Path.joinRoute_inj (isEntryName_of_mem proper below member) named same⟩
  · rintro ⟨file, member, rfl⟩
    exact ⟨file, member, rfl⟩

/-- The routes to the files below a directory are those to the regular files in it with the
extension. -/
theorem FilesBelow.mem_routes_iff (below : system.FilesBelow extension root files)
    (directory : system.resolve? true root = some (.dir access entries)) :
    route ∈ files.map (·.route) ↔ ∃ content? name,
      (Node.dir access entries).at? route = some (.file ⟨true, content?⟩) ∧
        route.getLast? = some name ∧ name.extension? = some extension.encode := by
  have started := start?_eq_dir_iff.2 directory
  have named {file : File} (along : (Node.dir access entries).at? route = some (.file file)) :
      route.getLast?.or root.fileName? = route.getLast? := by
    cases route with
    | nil => exact absurd along (by simp [Node.at?])
    | cons name rest => rw [List.getLast?_cons, Option.some_or]
  rw [List.mem_map]
  constructor
  · rintro ⟨file, member, rfl⟩
    obtain ⟨reached, last, accepted⟩ := (below.complete file).1 member
    have along := (reaches_iff started (by simp)).1 reached
    rw [named along] at last
    exact ⟨file.content?, file.name, along, last, accepted⟩
  · rintro ⟨content?, name, along, last, accepted⟩
    refine ⟨⟨route, name, content?⟩, (below.complete _).2 ⟨?_, ?_, accepted⟩, rfl⟩
    · exact (reaches_iff started (by simp)).2 along
    · exact (named along).trans last

/-- **What a scan of a directory lists.** It fails exactly when a directory in it refuses to be
listed, has too long a joined path or lies behind a directory that lets no path through, and then
at the first such directory. Otherwise it lists the regular files with the extension that are
reached without a link, each once and by ascending routes, and nothing else. The order in which
directories list their entries does not matter. -/
theorem scan_directory (proper : system.top.Proper) (extension : Text)
    (directory : system.resolve? true root = some (.dir access entries)) :
    let start : Node := .dir access entries
    let scanned := system.scan extension root
    let blocks (route : Route) := ∃ inner others, start.at? route = some (.dir inner others) ∧
      (inner.lists = false ∨ (root.joinRoute route).isTooLong ∨
        ∃ before, before <+: route ∧ before ≠ route ∧ ∃ outer others,
          start.at? before = some (.dir outer others) ∧ outer.passes = false)
    ((∃ failure, scanned = .error failure) ↔ ∃ route, blocks route) ∧
      (∀ failure, scanned = .error failure → ∃ route, blocks route ∧
        (∀ other, blocks other → route ≤ other) ∧ failure = .walk (root.joinRoute route)) ∧
      (∀ paths, scanned = .ok paths →
        (∃ routes : List Route, paths = routes.map root.joinRoute ∧ routes.Pairwise (· < ·) ∧
          ∀ route, route ∈ routes ↔ ∃ content? name,
            start.at? route = some (.file ⟨true, content?⟩) ∧
              route.getLast? = some name ∧ name.extension? = some extension.encode) ∧
        paths.Nodup ∧
        ∀ route node, start.at? route = some node →
          (∀ content?, node ≠ .file ⟨true, content?⟩) → root.joinRoute route ∉ paths) ∧
      ∀ other, system.top.Relisted other →
        (system.relist other).scan extension root = scanned := by
  intro start scanned blocks
  have started : system.start? root = some start := start?_eq_dir_iff.2 directory
  have whole : start.Proper := proper_of_start? proper started
  have blocks_iff (route : Route) : system.Blocks root route ↔ blocks route := by
    simp only [Blocks, IsCutOff, blocks,
      reaches_iff started (by simp : ∀ target, Node.dir _ _ ≠ .link target)]
  have relisted : ∀ other, system.top.Relisted other →
      (system.relist other).scan extension root = scanned :=
    fun other same => scan_relist proper same extension root
  rcases scan_cases proper extension root with
    ⟨missing, _⟩ | ⟨route, ⟨blocked, first⟩, stopped⟩ | ⟨⟨_, free⟩, files, below, listed⟩
  · exact absurd (directory.symm.trans missing) (by simp)
  · have here := (blocks_iff route).1 blocked
    refine ⟨⟨fun _ => ⟨route, here⟩, fun _ => ⟨_, stopped⟩⟩, ?_, ?_, relisted⟩
    · intro failure failed
      refine ⟨route, here, fun other blockedOther => ?_, ?_⟩
      · exact first other ((blocks_iff other).2 blockedOther)
      · exact Except.error.inj (failed.symm.trans stopped)
    · intro paths done
      exact absurd (stopped.symm.trans done) (by simp)
  · have running (failure : Failure) : scanned ≠ .error failure := fun failed =>
      absurd (listed.symm.trans failed) (by simp)
    refine ⟨⟨?_, ?_⟩, fun failure failed => absurd failed (running failure), ?_, relisted⟩
    · rintro ⟨failure, failed⟩
      exact absurd failed (running failure)
    · rintro ⟨route, blocked⟩
      exact absurd ⟨route, (blocks_iff route).2 blocked⟩ free
    · intro paths done
      obtain rfl := Except.ok.inj (listed.symm.trans done)
      refine ⟨⟨files.map (·.route), ?_, ?_, fun route => below.mem_routes_iff directory⟩,
        below.nodup_paths proper, ?_⟩
      · rw [List.map_map]
        rfl
      · rw [List.pairwise_map]
        exact below.ascending
      · intro route node along real
        rw [below.mem_paths_iff proper (whole.of_at? along).2, below.mem_routes_iff directory]
        rintro ⟨content?, _, file, _⟩
        exact real content? (Option.some.inj (along.symm.trans file))

/-- A directory `/d` holds a directory `a` with a file `z.x`, a file `a.x`, and a link `b.x` to that
one. A scan that starts at a link to `/d` in another directory lists the two files, with the one in
`a` first. -/
theorem scan_directory_link :
    let name (text : String) : Name := Text.encode text.toList
    let inner : List (Name × Node) :=
      [(name "a", .folder [(name "z.x", .plain [])]), (name "a.x", .plain []),
        (name "b.x", .link (name "a.x"))]
    let work : List (Name × Node) := [(name "l", .link (name "/d"))]
    let system : FileSystem :=
      ⟨.folder [(name "d", .folder inner), (name "w", .folder work)], [name "w"]⟩
    let root : Path := name "l"
    let paths : List Path := ["l/a/z.x", "l/a.x"].map name
    system.top.Proper ∧ system.resolve? true root = some (.folder inner) ∧
      system.scan ['x'] root = .ok paths ∧ paths.Nodup ∧ root.joinRoute [name "b.x"] ∉ paths := by
  intro name inner work system root paths
  have properInner : (Node.folder inner).Proper := by
    refine .dir _ (by decide) (by decide) ?_
    rw [List.forall_mem_cons, List.forall_mem_cons, List.forall_mem_singleton]
    exact ⟨Node.proper_single (by decide) (.file _), .file _, .link _⟩
  have proper : system.top.Proper := Node.proper_pair (by decide) (by decide) (by decide)
    properInner (Node.proper_single (by decide) (.link _))
  have directory : system.resolve? true root = some (.folder inner) := rfl
  have started : system.start? root = some (.folder inner) := rfl
  have scanned : system.scan ['x'] root = .ok paths := by
    rw [scan, visitsFrom?, started, Option.map_some, Node.visits_of_ascending (by decide)]
    decide +kernel
  obtain ⟨_, _, listed, _⟩ := scan_directory proper ['x'] directory
  obtain ⟨_, once, absent⟩ := listed paths scanned
  refine ⟨proper, directory, scanned, once, ?_⟩
  exact absent [name "b.x"] (.link (name "a.x")) rfl (by simp)

/-- A path can lead to a directory and be too long for the directory in that one; and the directory
there can refuse to be listed, or to be gone through. -/
theorem scan_directory_unlisted :
    let name (text : String) : Name := Text.encode text.toList
    let deep : FileSystem := .only [(name "inner", .empty)]
    let closed : FileSystem := .only [(name "inner", .dir ⟨false, true⟩ [])]
    let barred : FileSystem := .only [(name "inner", .dir ⟨true, false⟩ [(name "last", .empty)])]
    let long : Path := Name.dot :: List.replicate 4090 Name.slash
    let here : Path := name "."
    let extension : Text := "adoc".toList
    (deep.top.Proper ∧ deep.resolve? true long = some deep.top ∧
      deep.scan extension long = .error (.walk (long.join (name "inner")))) ∧
    (closed.top.Proper ∧ closed.resolve? true here = some closed.top ∧
      closed.scan extension here = .error (.walk (name "./inner"))) ∧
    barred.top.Proper ∧ barred.resolve? true here = some barred.top ∧
      barred.scan extension here = .error (.walk (name "./inner/last")) := by
  intro name deep closed barred long here extension
  refine ⟨⟨Node.proper_single (by decide) Node.proper_empty, ?_, ?_⟩,
    ⟨Node.proper_single (by decide) Node.proper_empty, rfl, by decide +kernel⟩,
    Node.proper_single (by decide) (Node.proper_single (by decide) Node.proper_empty), rfl,
    by decide +kernel⟩
  · exact resolve?_dot_slashes (by decide) rfl rfl
  · exact scan_single_directory _ (by decide) (by decide) (by decide)

end DocLint.FileSystem
