import DocLint.Proofs.Tree.Follow

/-!
# The files below a path

What a visit comes to is described without the visit: by the routes along which something is
reached from where the path leads (`FileSystem.Reaches`). A visit that is not blocked lists
exactly the regular files of an extension that are reached, in the order of their routes, and
otherwise it fails at the first directory that blocks it (`FileSystem.scan_cases`). What is
reached can be found again by its joined path, unless that is cut off
(`FileSystem.resolve?_of_reaches`).
-/

namespace DocLint

/-- A regular file below a path: the route to it, its name and what is read from it, unless it
refuses to be read. -/
structure FoundFile where
  route : Route
  name : Name
  content? : Option Bytes
  deriving DecidableEq, Repr

/-- Paths cannot lead along a route if some directory on the way does not let them through. -/
theorem Node.not_isPassable_iff {start last : Node} {route : Route}
    (along : start.at? route = some last) :
    ¬ start.isPassable route ↔ ∃ before, before <+: route ∧ before ≠ route ∧
      ∃ access entries, start.at? before = some (.dir access entries) ∧ access.passes = false := by
  induction route generalizing start with
  | nil =>
      refine iff_of_false (by simp [isPassable]) ?_
      rintro ⟨before, part, proper, _⟩
      exact proper (List.prefix_nil.1 part)
  | cons name route ih =>
      obtain ⟨child, isChild, onward⟩ := Option.bind_eq_some_iff.1 along
      cases start with
      | file file => simp [child?, Node.entries] at isChild
      | link target => simp [child?, Node.entries] at isChild
      | dir access entries =>
          have step (before : Route) :
              (Node.dir access entries).at? (name :: before) = child.at? before := by
            rw [at?, isChild, Option.bind_some]
          rw [isPassable, isChild, Option.all_some, Bool.and_eq_true, not_and_or, ih onward]
          constructor
          · rintro (barred | ⟨before, part, proper, others⟩)
            · exact ⟨[], List.nil_prefix, (List.cons_ne_nil _ _).symm, access, entries, rfl,
                Bool.eq_false_iff.2 barred⟩
            · refine ⟨name :: before, List.cons_prefix_cons.2 ⟨rfl, part⟩, ?_, by rwa [step]⟩
              exact fun same => proper (List.cons.inj same).2
          · rintro ⟨before, part, proper, inner, others, found, barred⟩
            cases before with
            | nil =>
                obtain ⟨rfl, _⟩ := Node.dir.inj (Option.some.inj found)
                exact Or.inl (Bool.eq_false_iff.1 barred)
            | cons other before =>
                obtain ⟨rfl, inside⟩ := List.cons_prefix_cons.1 part
                rw [step] at found
                refine Or.inr ⟨before, inside, ?_, _, _, found, barred⟩
                exact fun same => proper (by rw [same])

namespace FileSystem

variable {system : FileSystem} {start node : Node} {root : Path} {route : Route}
  {extension : Text} {access : Access} {entries : List (Name × Node)}

/-! ## What is reached from a path -/

/-- Whether a node lies along a route from where a path leads. If that is a directory, the path
may end in a link to it; if it is a file, the path must name the file itself. -/
def Reaches (system : FileSystem) (root : Path) (route : Route) (node : Node) : Prop :=
  (∃ access entries, system.resolve? true root = some (.dir access entries) ∧
    (Node.dir access entries).at? route = some node) ∨
  (∃ file, system.resolve? false root = some (.file file) ∧
    (Node.file file).at? route = some node)

theorem start?_eq_none_iff : system.start? root = none ↔ system.resolve? true root = none := by
  unfold start?
  rcases system.resolve?_link_or_eq root with ⟨target, link⟩ | same
  · rw [link, Option.map_eq_none_iff]
  · rw [same]
    cases system.resolve? false root with
    | none => simp
    | some node => cases node <;> simp

theorem start?_eq_dir_iff : system.start? root = some (.dir access entries) ↔
    system.resolve? true root = some (.dir access entries) := by
  unfold start?
  rcases system.resolve?_link_or_eq root with ⟨target, link⟩ | same
  · rw [link]
    cases system.resolve? true root with
    | none => simp
    | some node => cases node <;> simp
  · rw [same]
    cases system.resolve? false root with
    | none => simp
    | some node => cases node <;> simp

theorem start?_eq_file_iff {file : File} :
    system.start? root = some (.file file) ↔ system.resolve? false root = some (.file file) := by
  unfold start?
  cases system.resolve? false root with
  | none => simp
  | some node =>
      cases node with
      | file other => simp
      | dir access entries => simp
      | link target =>
          cases system.resolve? true root with
          | none => simp
          | some node => cases node <;> simp

/-- A path that names a file leads to it. -/
theorem resolve?_true_of_file {file : File}
    (found : system.resolve? false root = some (.file file)) :
    system.resolve? true root = some (.file file) := by
  rcases system.resolve?_link_or_eq root with ⟨target, link⟩ | same
  · exact absurd (link.symm.trans found) (by simp)
  · exact same.trans found

theorem proper_of_resolve? (proper : system.top.Proper) {followLast : Bool}
    (found : system.resolve? followLast root = some node) : node.Proper := by
  obtain ⟨route, _, along⟩ := Option.bind_eq_some_iff.1 found
  exact (proper.of_at? along).1

theorem proper_of_start? (proper : system.top.Proper) (started : system.start? root = some start) :
    start.Proper := by
  cases start with
  | file file => exact .file file
  | link target => exact .link target
  | dir access entries => exact proper_of_resolve? proper (start?_eq_dir_iff.1 started)

/-- A visit starts where everything is reached from, links apart. -/
theorem reaches_iff (started : system.start? root = some start)
    (real : ∀ target, node ≠ .link target) :
    system.Reaches root route node ↔ start.at? route = some node := by
  unfold Reaches
  simp only [← start?_eq_dir_iff, ← start?_eq_file_iff, started, Option.some.injEq]
  cases start with
  | file file => simp
  | dir access entries => simp
  | link target =>
      cases route with
      | nil => simp [Node.at?, (real target).symm]
      | cons name route => simp [Node.at?, Node.child?, Node.entries]

theorem isEntryName_of_reaches (proper : system.top.Proper)
    (reached : system.Reaches root route node) : ∀ name ∈ route, Node.isEntryName name := by
  rcases reached with ⟨access, entries, directory, along⟩ | ⟨file, _, along⟩
  · exact ((proper_of_resolve? proper directory).of_at? along).2
  · exact ((Node.Proper.file file).of_at? along).2

/-! ## Paths that are cut off -/

/-- Whether a joined path leads nowhere: it is too long, or a directory on the way lets no path
through. -/
def IsCutOff (system : FileSystem) (root : Path) (route : Route) : Prop :=
  (root.joinRoute route).isTooLong ∨ ∃ before, before <+: route ∧ before ≠ route ∧
    ∃ access entries, system.Reaches root before (.dir access entries) ∧ access.passes = false

/-- Where a path leads it is not cut off. -/
theorem not_isCutOff_nil {followLast : Bool} (found : system.resolve? followLast root = some node) :
    ¬ system.IsCutOff root [] := by
  rintro (long | ⟨before, part, proper, _⟩)
  · exact absurd ((isTooLong_of_resolve? found).symm.trans long) (by decide)
  · exact proper (List.prefix_nil.1 part)

theorem isCutOff_iff (started : system.start? root = some start)
    (along : start.at? route = some node) :
    system.IsCutOff root route ↔
      (root.joinRoute route).isTooLong ∨ ¬ start.isPassable route := by
  rw [Node.not_isPassable_iff along, IsCutOff]
  simp only [reaches_iff started (by simp : ∀ target, Node.dir _ _ ≠ .link target)]

/-- What is reached lies where its joined path leads, unless that is cut off. -/
theorem locate?_of_reaches {base : Route} (proper : system.top.Proper)
    (located : system.locate? true root = some base) (reached : system.Reaches root route node)
    (real : ∀ target, node ≠ .link target) :
    system.top.at? (base ++ route) = some node ∧
      (¬ system.IsCutOff root route ∧
          system.locate? true (root.joinRoute route) = some (base ++ route) ∨
        system.IsCutOff root route ∧ system.locate? true (root.joinRoute route) = none) := by
  have there : system.resolve? true root = system.top.at? base := by
    rw [resolve?, located, Option.bind_some]
  rcases reached with ⟨access, entries, directory, along⟩ | ⟨file, found, along⟩
  · have lies : system.top.at? base = some (.dir access entries) := there.symm.trans directory
    refine ⟨by rw [Node.at?_append, lies]; exact along, ?_⟩
    cases route with
    | nil =>
        rw [List.append_nil]
        exact Or.inl ⟨not_isCutOff_nil directory, located⟩
    | cons name route =>
        have cut := isCutOff_iff (start?_eq_dir_iff.2 directory) along
        rw [locate?_joinRoute proper located lies along real (List.cons_ne_nil _ _), cut]
        by_cases long : (root.joinRoute (name :: route)).isTooLong
        · simp [long]
        · by_cases passable : (Node.dir access entries).isPassable (name :: route)
          · simp [long, passable]
          · simp [long, passable]
  · cases route with
    | cons name route => exact absurd along (by simp [Node.at?, Node.child?, Node.entries])
    | nil =>
        rw [List.append_nil]
        exact ⟨(there.symm.trans (resolve?_true_of_file found)).trans along,
          Or.inl ⟨not_isCutOff_nil found, located⟩⟩

theorem exists_locate?_of_reaches (reached : system.Reaches root route node) :
    ∃ base, system.locate? true root = some base := by
  have located {found : Node} (resolved : system.resolve? true root = some found) :
      ∃ base, system.locate? true root = some base := by
    obtain ⟨base, located, _⟩ := Option.bind_eq_some_iff.1 resolved
    exact ⟨base, located⟩
  rcases reached with ⟨access, entries, directory, _⟩ | ⟨file, found, _⟩
  · exact located directory
  · exact located (resolve?_true_of_file found)

/-- What is reached is found by its joined path, unless that is cut off. -/
theorem resolve?_of_reaches (proper : system.top.Proper)
    (reached : system.Reaches root route node) (real : ∀ target, node ≠ .link target) :
    ¬ system.IsCutOff root route ∧ system.resolve? true (root.joinRoute route) = some node ∨
      system.IsCutOff root route ∧ system.resolve? true (root.joinRoute route) = none := by
  obtain ⟨base, located⟩ := exists_locate?_of_reaches reached
  obtain ⟨lies, leads⟩ := locate?_of_reaches proper located reached real
  unfold resolve?
  refine leads.imp (And.imp_right fun found => ?_) (And.imp_right fun lost => ?_)
  · rw [found]
    exact lies
  · rw [lost]
    rfl

theorem isCutOff_iff_resolve? (proper : system.top.Proper)
    (reached : system.Reaches root route node) (real : ∀ target, node ≠ .link target) :
    system.IsCutOff root route ↔ system.resolve? true (root.joinRoute route) = none := by
  rcases resolve?_of_reaches proper reached real with ⟨whole, found⟩ | ⟨cut, lost⟩
  · exact iff_of_false whole (by simp [found])
  · exact iff_of_true cut lost

/-! ## Directories that block a visit -/

/-- Whether the directory along a route cannot be listed by its joined path. -/
def Blocks (system : FileSystem) (root : Path) (route : Route) : Prop :=
  ∃ access entries, system.Reaches root route (.dir access entries) ∧
    (access.lists = false ∨ system.IsCutOff root route)

/-- Whether the directory along a route is the first that cannot be listed. -/
def BlocksFirst (system : FileSystem) (root : Path) (route : Route) : Prop :=
  system.Blocks root route ∧ ∀ other, system.Blocks root other → route ≤ other

/-- The directories where a visit is blocked are among its stops. -/
theorem blocks_iff (proper : system.top.Proper) (started : system.start? root = some start) :
    system.Blocks root route ↔
      ⟨route, true⟩ ∈ start.stops ∧ system.isBlocked (Stop.visit root ⟨route, true⟩) := by
  have listed {access : Access} {entries : List (Name × Node)}
      (reached : system.Reaches root route (.dir access entries)) :
      system.lists (root.joinRoute route) = false ↔
        access.lists = false ∨ system.IsCutOff root route := by
    rcases resolve?_of_reaches proper reached (by simp) with ⟨free, found⟩ | ⟨cut, lost⟩
    · rw [lists, found]
      exact (or_iff_left free).symm
    · rw [lists, lost]
      exact iff_of_true rfl (Or.inr cut)
  have member : ⟨route, true⟩ ∈ start.stops ↔
      ∃ access entries, start.at? route = some (.dir access entries) := by
    rw [(proper_of_start? proper started).mem_stops_iff, Option.bind_eq_some_iff]
    simp only [Node.isDirectory?_eq_true_iff]
    exact ⟨fun ⟨_, along, access, entries, same⟩ => ⟨access, entries, same ▸ along⟩,
      fun ⟨access, entries, along⟩ => ⟨_, along, access, entries, rfl⟩⟩
  simp only [member, isBlocked, Stop.visit, Bool.true_and, Bool.not_eq_true']
  constructor
  · rintro ⟨access, entries, reached, reason⟩
    exact ⟨⟨access, entries, (reaches_iff started (by simp)).1 reached⟩, (listed reached).2 reason⟩
  · rintro ⟨⟨access, entries, along⟩, blocked⟩
    have reached := (reaches_iff started (by simp)).2 along
    exact ⟨access, entries, reached, (listed reached).1 blocked⟩

/-- The first step that cannot be made is at the first directory that cannot be listed. -/
theorem find?_isBlocked (proper : system.top.Proper) (started : system.start? root = some start) :
    (∃ route, system.BlocksFirst root route ∧
      (start.visits root).find? system.isBlocked = some ⟨root.joinRoute route, true⟩) ∨
    (¬ ∃ route, system.Blocks root route) ∧
      (start.visits root).find? system.isBlocked = none := by
  have whole := proper_of_start? proper started
  rw [whole.visits_eq_map root, List.find?_map]
  cases search : start.stops.find? (system.isBlocked ∘ Stop.visit root) with
  | none =>
      refine Or.inr ⟨?_, rfl⟩
      rintro ⟨route, blocked⟩
      obtain ⟨member, stops⟩ := (blocks_iff proper started).1 blocked
      exact List.find?_eq_none.1 search _ member stops
  | some stop =>
      obtain ⟨blocked, earlier, later, split, free⟩ := List.find?_eq_some_iff_append.1 search
      obtain ⟨route, isDirectory⟩ := stop
      obtain rfl : isDirectory = true := by
        rw [Function.comp_apply, isBlocked, Bool.and_eq_true] at blocked
        exact blocked.1
      have here : system.Blocks root route :=
        (blocks_iff proper started).2 ⟨by simp [split], blocked⟩
      refine Or.inl ⟨route, ⟨here, fun other blocks => ?_⟩, rfl⟩
      obtain ⟨member, stops⟩ := (blocks_iff proper started).1 blocks
      have ascending := whole.stops_ascend
      rw [split, List.pairwise_append] at ascending
      rw [split, List.mem_append, List.mem_cons] at member
      rcases member with before | same | after
      · have passed := free _ before
        rw [Function.comp_apply, stops] at passed
        cases passed
      · rw [(Stop.mk.inj same).1]
        exact List.le_refl _
      · exact Std.le_of_lt ((List.pairwise_cons.1 ascending.2.1).1 _ after)

/-! ## The files that are listed -/

/-- Whether a regular file with an extension is reached from a path. It has the last name on the
way to it. -/
def Finds (system : FileSystem) (extension : Text) (root : Path) (file : FoundFile) : Prop :=
  system.Reaches root file.route (.file ⟨true, file.content?⟩) ∧
    file.route.getLast?.or root.fileName? = some file.name ∧
    file.name.extension? = some extension.encode

/-- Whether files are all those with an extension that are reached from a path, by their
routes. -/
structure FilesBelow (system : FileSystem) (extension : Text) (root : Path)
    (files : List FoundFile) : Prop where
  ascending : files.Pairwise fun first second => first.route < second.route
  complete : ∀ file, file ∈ files ↔ system.Finds extension root file

end FileSystem

namespace Node

variable {start : Node} {root : Path} {extension : Text} {stop : Stop}

/-- The file at a stop, if it has an extension. -/
def fileAt? (start : Node) (extension : Text) (root : Path) (stop : Stop) : Option FoundFile :=
  match start.at? stop.route, stop.route.getLast?.or root.fileName? with
  | some (.file ⟨true, content?⟩), some name =>
      if name.extension? = some extension.encode then some ⟨stop.route, name, content?⟩ else none
  | _, _ => none

theorem fileAt?_eq_some_iff {file : FoundFile} :
    start.fileAt? extension root stop = some file ↔
      stop.route = file.route ∧ start.at? file.route = some (.file ⟨true, file.content?⟩) ∧
        file.route.getLast?.or root.fileName? = some file.name ∧
        file.name.extension? = some extension.encode := by
  unfold fileAt?
  constructor
  · intro found
    split at found
    case h_2 => exact absurd found (by simp)
    case h_1 content? name along named =>
      split at found
      case isFalse => exact absurd found (by simp)
      case isTrue accepted =>
        obtain rfl := Option.some.inj found
        exact ⟨rfl, along, named, accepted⟩
  · intro found
    obtain ⟨same, along, named, accepted⟩ := found
    rw [same, along, named]
    exact if_pos accepted

theorem isSome_fileAt? (whole : start.Proper) (member : stop ∈ start.stops) :
    (start.fileAt? extension root stop).isSome =
      (!stop.isDirectory && (root.joinRoute stop.route).hasExtension extension) := by
  obtain ⟨node, along, kind⟩ := Option.bind_eq_some_iff.1 (whole.mem_stops_iff.1 member)
  have named := (whole.of_at? along).2
  rw [Path.hasExtension, Path.extension?, Path.fileName?_joinRoute named, fileAt?, along]
  cases node with
  | link target => exact absurd kind (by simp [isDirectory?])
  | dir access entries =>
      obtain same : true = stop.isDirectory := Option.some.inj kind
      simp [← same]
  | file file =>
      obtain ⟨regular, content?⟩ := file
      cases regular with
      | false => exact absurd kind (by simp [isDirectory?])
      | true =>
          obtain same : false = stop.isDirectory := Option.some.inj kind
          cases stop.route.getLast?.or root.fileName? with
          | none => simp
          | some name =>
              by_cases accepted : name.extension? = some extension.encode
              · simp [← same, accepted]
              · simp [accepted]

/-- The steps that are kept are those at the files with the extension. -/
theorem accepted_eq_map (whole : start.Proper) {stops : List Stop}
    (among : ∀ stop ∈ stops, stop ∈ start.stops) :
    accepted extension (stops.map (Stop.visit root)) =
      (stops.filterMap (start.fileAt? extension root)).map fun file =>
        root.joinRoute file.route := by
  induction stops with
  | nil => rfl
  | cons stop rest ih =>
      rw [List.forall_mem_cons] at among
      have kept := @isSome_fileAt? start root extension stop whole among.1
      rw [List.filterMap_cons, List.map_cons]
      have step : accepted extension (stop.visit root :: rest.map (Stop.visit root)) =
          if (start.fileAt? extension root stop).isSome then
            root.joinRoute stop.route :: accepted extension (rest.map (Stop.visit root))
          else accepted extension (rest.map (Stop.visit root)) := by
        rw [kept]
        by_cases directory : stop.isDirectory
        · simp [accepted, Stop.visit, directory]
        · by_cases accepts : (root.joinRoute stop.route).hasExtension extension
          · simp [accepted, Stop.visit, directory, accepts]
          · simp [accepted, Stop.visit, directory, accepts]
      rw [step, ih among.2]
      cases found : start.fileAt? extension root stop with
      | none => rfl
      | some file => rw [(fileAt?_eq_some_iff.1 found).1]; rfl

end Node

namespace FileSystem

variable {system : FileSystem} {start node : Node} {root : Path} {route : Route}
  {extension : Text}

theorem filesBelow_filterMap (proper : system.top.Proper)
    (started : system.start? root = some start) :
    system.FilesBelow extension root (start.stops.filterMap (start.fileAt? extension root)) := by
  have whole := proper_of_start? proper started
  refine ⟨?_, fun file => ?_⟩
  · rw [List.pairwise_filterMap]
    refine whole.stops_ascend.imp fun before first found second next => ?_
    rw [← (Node.fileAt?_eq_some_iff.1 found).1, ← (Node.fileAt?_eq_some_iff.1 next).1]
    exact before
  · rw [List.mem_filterMap, Finds, reaches_iff started (by simp)]
    constructor
    · rintro ⟨stop, _, found⟩
      exact (Node.fileAt?_eq_some_iff.1 found).2
    · intro found
      refine ⟨⟨file.route, false⟩, ?_, Node.fileAt?_eq_some_iff.2 ⟨rfl, found⟩⟩
      rw [whole.mem_stops_iff, found.1]
      rfl

/-- Whether a scan of a path comes to its end. -/
def Scans (system : FileSystem) (root : Path) : Prop :=
  system.resolve? true root ≠ none ∧ ¬ ∃ route, system.Blocks root route

/-- **What a scan comes to.** Nothing is there, or a directory cannot be listed, or the files
with the extension are listed in the order of their routes. -/
theorem scan_cases (proper : system.top.Proper) (extension : Text) (root : Path) :
    system.resolve? true root = none ∧ system.scan extension root = .error (.walk root) ∨
    (∃ route, system.BlocksFirst root route ∧
      system.scan extension root = .error (.walk (root.joinRoute route))) ∨
    system.Scans root ∧ ∃ files, system.FilesBelow extension root files ∧
      system.scan extension root = .ok (files.map fun file => root.joinRoute file.route) := by
  unfold scan visitsFrom?
  cases started : system.start? root with
  | none => exact Or.inl ⟨start?_eq_none_iff.1 started, rfl⟩
  | some start =>
      have whole := proper_of_start? proper started
      rw [Option.map_some]
      rcases find?_isBlocked proper started with ⟨route, first, search⟩ | ⟨free, search⟩
      · refine Or.inr (Or.inl ⟨route, first, ?_⟩)
        simp only [search]
      · have there : system.resolve? true root ≠ none := fun missing =>
          absurd (started.symm.trans (start?_eq_none_iff.2 missing)) (by simp)
        refine Or.inr (Or.inr ⟨⟨there, free⟩, _, filesBelow_filterMap proper started, ?_⟩)
        simp only [search]
        rw [whole.visits_eq_map, Node.accepted_eq_map whole fun _ member => member]

theorem scans_of_scan (proper : system.top.Proper) {paths : List Path}
    (scanned : system.scan extension root = .ok paths) : system.Scans root := by
  rcases scan_cases proper extension root with ⟨_, stopped⟩ | ⟨_, _, stopped⟩ | ⟨scans, _⟩
  · exact absurd (stopped.symm.trans scanned) (by simp)
  · exact absurd (stopped.symm.trans scanned) (by simp)
  · exact scans

theorem Scans.exists_files (scans : system.Scans root) (proper : system.top.Proper)
    (extension : Text) : ∃ files, system.FilesBelow extension root files ∧
      system.scan extension root = .ok (files.map fun file => root.joinRoute file.route) := by
  rcases scan_cases proper extension root with ⟨missing, _⟩ | ⟨route, first, _⟩ | ⟨_, listed⟩
  · exact absurd missing scans.1
  · exact absurd ⟨route, first.1⟩ scans.2
  · exact listed

/-! ## Files that can be read -/

/-- Whether a file that is listed cannot be read by its joined path. -/
def IsUnreadable (system : FileSystem) (root : Path) (file : FoundFile) : Prop :=
  file.content? = none ∨ system.IsCutOff root file.route

theorem read_cases (proper : system.top.Proper) {file : FoundFile}
    (reached : system.Reaches root file.route (.file ⟨true, file.content?⟩)) :
    (¬ system.IsUnreadable root file ∧ ∃ content, file.content? = some content ∧
      system.read (root.joinRoute file.route) = .ok content) ∨
    system.IsUnreadable root file ∧
      system.read (root.joinRoute file.route) =
        .error (.fileRead (root.joinRoute file.route)) := by
  unfold read IsUnreadable
  rcases resolve?_of_reaches proper reached (by simp) with ⟨free, found⟩ | ⟨cut, lost⟩
  · rw [found]
    cases file.content? with
    | none => exact Or.inr ⟨Or.inl rfl, rfl⟩
    | some content => exact Or.inl ⟨by simp [free], content, rfl, rfl⟩
  · rw [lost]
    exact Or.inr ⟨Or.inr cut, rfl⟩

end FileSystem

end DocLint
