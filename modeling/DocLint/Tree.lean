import DocLint.Path

/-!
# File trees

A tree holds files, symbolic links and directories. A directory lists its entries in an order
of its own, which no result may depend on. A file can refuse to be read, and a directory to be
listed or to be gone through. A program sees a tree from the directory that it works in.
-/

namespace DocLint

/-- A file: a regular one, or else a pipe, a socket or a device. -/
structure File where
  isRegular : Bool
  /-- What is read from the file, unless it refuses to be read. -/
  content? : Option Bytes
  deriving DecidableEq, Repr

/-- What a directory allows. -/
structure Access where
  /-- Its entries can be listed. -/
  lists : Bool
  /-- Paths can lead on from it. -/
  passes : Bool
  deriving DecidableEq, Repr

/-- A file, a symbolic link or a directory with named entries. -/
inductive Node where
  | file (file : File)
  | link (target : Path)
  | dir (access : Access) (entries : List (Name × Node))

namespace Node

/-- A regular file that can be read. -/
abbrev plain (content : Bytes) : Node :=
  .file ⟨true, some content⟩

/-- A directory that allows everything. -/
abbrev folder (entries : List (Name × Node)) : Node :=
  .dir ⟨true, true⟩ entries

/-- A directory without entries. -/
abbrev empty : Node :=
  .folder []

/-- The entries of a directory; nothing else has any. -/
def entries : Node → List (Name × Node)
  | .dir _ entries => entries
  | _ => []

/-- Whether paths can lead on from a node: it must be a directory that allows it. -/
def passes : Node → Bool
  | .dir access _ => access.passes
  | _ => false

/-- The entry of a directory with a name. -/
def child? (node : Node) (name : Name) : Option Node :=
  node.entries.lookup name

/-- What lies along a route, without following links. -/
def at? (node : Node) : Route → Option Node
  | [] => some node
  | name :: route => (node.child? name).bind fun child => child.at? route

/-- A route can be gone along in two parts. -/
theorem at?_append (node : Node) (first second : Route) :
    node.at? (first ++ second) = (node.at? first).bind fun inner => inner.at? second := by
  induction first generalizing node with
  | nil => rfl
  | cons name route ih =>
      simp only [List.cons_append, at?]
      cases node.child? name with
      | none => rfl
      | some child => exact ih child

/-- Whether a name can be that of an entry. -/
def isEntryName (name : Name) : Bool :=
  !name.stays && name ≠ Name.above && !name.contains Name.slash && !name.contains 0

/-- A tree as a file system keeps it: the entries of each directory have names that can
be theirs, and no two have the same. -/
inductive Proper : Node → Prop where
  | file (file : File) : Proper (.file file)
  | link (target : Path) : Proper (.link target)
  | dir (access : Access) {entries : List (Name × Node)}
      (distinct : (entries.map (·.1)).Nodup)
      (named : ∀ entry ∈ entries, isEntryName entry.1)
      (proper : ∀ entry ∈ entries, Proper entry.2) : Proper (.dir access entries)

end Node

/-- A file system with the directory that a program works in. -/
structure FileSystem where
  top : Node
  /-- The route to the working directory. -/
  work : Route

end DocLint
