import DocLint.Failure
import DocLint.Tree.Resolve

/-!
# The files of a tree

The regular files below a directory are visited in the order of their names, compared
byte by byte; what a directory holds is visited at the directory's own place. Links are
neither followed nor files. Only the start of the visit may be a link, to a directory. A
directory is listed by its path from the start on, and the first one that cannot be listed by
that path ends the visit.
-/

namespace DocLint

namespace Node

/-- The order in which the entries of a directory are visited. -/
def before {α : Type} (left right : Name × α) : Bool :=
  left.1 ≤ right.1

/-- Results for the entries of a directory, in visiting order. -/
def inOrder {α : Type} (blocks : List (Name × List α)) : List α :=
  (blocks.mergeSort before).flatMap (·.2)

/-- A step of a visit: the path of a regular file, or of a directory whose entries come
next. -/
structure Visit where
  path : Path
  isDirectory : Bool
  deriving DecidableEq, Repr

mutual

/-- The steps of the visit of a tree at a path, in visiting order. -/
def visits (path : Path) : Node → List Visit
  | .file found => if found.isRegular then [⟨path, false⟩] else []
  | .link _ => []
  | .dir _ entries => ⟨path, true⟩ :: inOrder (visitBlocks path entries)

/-- For each entry of a directory at a path, the steps of its visit. -/
def visitBlocks (path : Path) : List (Name × Node) → List (Name × List Visit)
  | [] => []
  | (name, node) :: rest => (name, node.visits (path.join name)) :: visitBlocks path rest

end

/-- The paths of the files with an extension among the steps of a visit. -/
def accepted (extension : Text) (visits : List Visit) : List Path :=
  ((visits.filter (!·.isDirectory)).map (·.path)).filter (·.hasExtension extension)

end Node

namespace FileSystem

/-- What a visit of a path starts from. A link there is followed, but only to a directory;
a link to anything else is visited itself. -/
def start? (system : FileSystem) (root : Path) : Option Node :=
  match system.resolve? false root with
  | some (.link target) =>
      (system.resolve? true root).map fun
        | .dir access entries => .dir access entries
        | _ => .link target
  | found => found

/-- The steps of the visit that starts at a path. -/
def visitsFrom? (system : FileSystem) (root : Path) : Option (List Node.Visit) :=
  (system.start? root).map fun start => start.visits root

/-- Whether a step cannot be made: a directory cannot be listed by its path. -/
def isBlocked (system : FileSystem) (visit : Node.Visit) : Bool :=
  visit.isDirectory && !system.lists visit.path

/-- The paths of the files with an extension that a visit starting at a path comes to.
Every step of the visit must be possible. -/
def scan (system : FileSystem) (extension : Text) (root : Path) : Except Failure (List Path) :=
  match system.visitsFrom? root with
  | none => .error (.walk root)
  | some visits =>
      match visits.find? system.isBlocked with
      | some visit => .error (.walk visit.path)
      | none => .ok (Node.accepted extension visits)

/-- The content of the file that a path leads to. -/
def read (system : FileSystem) (path : Path) : Except Failure Bytes :=
  match system.resolve? true path with
  | some (.file ⟨_, some content⟩) => .ok content
  | _ => .error (.fileRead path)

end FileSystem

end DocLint
