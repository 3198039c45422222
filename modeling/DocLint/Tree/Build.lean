import DocLint.Tree.Resolve

/-!
# Building a tree

A tree is built by adding entries at paths, one after the other. Directories that are
missing on the way are made, and a link on the way is followed. A link at the end is
followed too, so that what it leads to is replaced or made, unless a link is added.
-/

namespace DocLint

namespace Node

/-- Replaces the entry with a name, or adds one at the end. -/
def setEntry (name : Name) (node : Node) : List (Name × Node) → List (Name × Node)
  | [] => [(name, node)]
  | entry :: rest =>
      if entry.1 = name then (name, node) :: rest else entry :: setEntry name node rest

/-- Puts a node where a route leads, making directories on the way. -/
def put (tree : Node) : Route → Node → Node
  | [], node => node
  | name :: route, node =>
      let entries := setEntry name (((tree.child? name).getD .empty).put route node) tree.entries
      match tree with
      | .dir access _ => .dir access entries
      | _ => .folder entries

/-- Whether adding a node follows a link that is where the node is to be added. -/
def followsLast : Node → Bool
  | .link _ => false
  | .file _ | .dir .. => true

/-- Puts a node where a route leads. A directory that is there already stays as it is. -/
def place (top : Node) (route : Route) (node : Node) : Node :=
  match node, top.at? route with
  | .dir _ [], some (.dir ..) => top
  | _, _ => top.put route node

/-- Adds a node where segments lead from the directory along the route `here`, making the
directories in between. What leads nowhere is not added. -/
def addFrom (top : Node) (here : Route) (node : Node) : List Name → Node
  | [] => top
  | segment :: rest =>
      let entry := if rest = [] then node else .empty
      match top.follow entry.followsLast linkLimit here [segment] with
      | none => top
      | some route => (top.place route entry).addFrom route node rest

end Node

namespace FileSystem

/-- A working directory without entries, in a file system that holds nothing else. -/
def fresh : FileSystem :=
  let name : Name := Text.encode "work".toList
  ⟨.folder [(name, .empty)], [name]⟩

/-- Adds a node at a path. -/
def add (system : FileSystem) (path : Path) (node : Node) : FileSystem :=
  { system with top := system.top.addFrom (system.origin path) node path.segments }

end FileSystem

end DocLint
