import DocLint.Tree

/-!
# Resolving paths

A path is followed segment by segment, from the working directory or, if it begins with a
slash, from the top. A link is replaced by its target, read from the directory that holds the
link or again from the top; whether that is also done for the last segment is the caller's
choice. Only so many links are followed for one path, so that a cycle of links leads nowhere. A
path leads on from a directory only if that allows it, and the directory above the top is the
top itself. A path that is too long leads nowhere.
-/

namespace DocLint

namespace Node

/-- How many links may be followed for one path. -/
def linkLimit : Nat := 40

/-- Follows segments from the directory along the route `here`, and answers the route to
where they lead. What the last one names may be missing there. At a link that is to be
followed, `atLink` is given the directory of the link, its target and the segments still
to come. -/
def descend (top : Node) (followLast : Bool) (atLink : Route → Path → List Name → Option Route)
    (here : Route) : List Name → Option Route
  | [] => some here
  | segment :: rest =>
      if segment = [] then top.descend followLast atLink here rest
      else if (top.at? here).any passes then
        if segment = Name.here then top.descend followLast atLink here rest
        else if segment = Name.above then top.descend followLast atLink here.dropLast rest
        else
          match top.at? (here ++ [segment]) with
          | none | some (.file _) => if rest = [] then some (here ++ [segment]) else none
          | some (.dir ..) => top.descend followLast atLink (here ++ [segment]) rest
          | some (.link target) =>
              if rest = [] ∧ followLast = false then some (here ++ [segment])
              else atLink here target rest
      else none

/-- Follows segments with a number of links to spare. -/
def follow (top : Node) (followLast : Bool) : Nat → Route → List Name → Option Route
  | 0 => top.descend followLast fun _ _ _ => none
  | links + 1 => top.descend followLast fun here target rest =>
      top.follow followLast links (if target.isAbsolute then [] else here)
        (target.segments ++ rest)

end Node

namespace Path

/-- Whether a path can lead anywhere at all. -/
def isUsable (path : Path) : Bool :=
  path ≠ [] && !path.contains 0 && !path.isTooLong

end Path

namespace FileSystem

/-- The route to the directory that a path is followed from. -/
def origin (system : FileSystem) (path : Path) : Route :=
  if path.isAbsolute then [] else system.work

/-- The route to where a path leads, whether or not something is there. -/
def locate? (system : FileSystem) (followLast : Bool) (path : Path) : Option Route :=
  if path.isUsable then
    system.top.follow followLast Node.linkLimit (system.origin path) path.segments
  else none

/-- What a path leads to, the last segment's own link followed or not. -/
def resolve? (system : FileSystem) (followLast : Bool) (path : Path) : Option Node :=
  (system.locate? followLast path).bind system.top.at?

/-- Whether a path leads to a directory that can be listed. -/
def lists (system : FileSystem) (path : Path) : Bool :=
  match system.resolve? true path with
  | some (.dir access _) => access.lists
  | _ => false

end FileSystem

end DocLint
