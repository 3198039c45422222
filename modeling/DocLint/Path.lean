import DocLint.Text.Lossy

/-!
# Paths

A path is a byte string in which slashes separate names. Empty segments and single dots
stand for the place reached so far, so that they never are the file name of a path.
-/

namespace DocLint

/-- The name of an entry of a directory. -/
abbrev Name := Bytes

/-- A path as it is written. -/
abbrev Path := Bytes

/-- The names that lead to an entry from a directory above it. -/
abbrev Route := List Name

namespace Name

/-- The byte that separates names. -/
def slash : UInt8 := 0x2F

/-- The byte that separates the extension of a name. -/
def dot : UInt8 := 0x2E

/-- The segment that stands for the directory it is in. -/
def here : Name := [dot]

/-- The segment that stands for the directory above. -/
def above : Name := [dot, dot]

/-- Whether a segment leaves the place reached so far unchanged. -/
def stays (segment : Name) : Bool :=
  segment = [] || segment = here

/-- What follows the last dot of a name, unless that dot begins the name or there is
none. It may be empty. -/
def extension? (name : Name) : Option Bytes :=
  match name.reverse.dropWhile (· ≠ dot) with
  | [] => none
  | [_] => none
  | _ => some (name.reverse.takeWhile (· ≠ dot)).reverse

end Name

namespace Path

/-- Puts a byte before the first segment, a slash as a segment of its own. -/
def extend (byte : UInt8) : List Name → List Name
  | [] => [[byte]]
  | segment :: rest =>
      if byte = Name.slash then [] :: segment :: rest else (byte :: segment) :: rest

/-- The parts of a path between slashes; there is one more than there are slashes. -/
def segments (path : Path) : List Name :=
  path.foldr extend [[]]

theorem segments_ne_nil (path : Path) : path.segments ≠ [] := by
  cases path with
  | nil => simp [segments]
  | cons byte rest =>
      simp only [segments, List.foldr_cons]
      cases rest.foldr extend [[]] with
      | nil => simp [extend]
      | cons segment others =>
          by_cases slash : byte = Name.slash <;> simp [extend, slash]

/-- A slash joins the segments of what stands before and after it. -/
theorem segments_append_slash (first second : Path) :
    segments (first ++ Name.slash :: second) = first.segments ++ second.segments := by
  induction first with
  | nil =>
      have present := segments_ne_nil second
      simp only [List.nil_append, segments, List.foldr_cons, List.foldr_nil] at present ⊢
      cases found : second.foldr extend [[]] with
      | nil => exact absurd found present
      | cons segment others => simp [extend]
  | cons byte rest ih =>
      have present := segments_ne_nil rest
      simp only [List.cons_append, segments, List.foldr_cons] at present ih ⊢
      rw [ih]
      cases found : rest.foldr extend [[]] with
      | nil => exact absurd found present
      | cons segment others =>
          by_cases slash : byte = Name.slash <;> simp [extend, slash]

/-- The number of bytes from which on a path is too long to lead anywhere. -/
def limit : Nat := 4096

/-- Whether a path is too long to lead anywhere. -/
def isTooLong (path : Path) : Bool :=
  limit ≤ path.length

/-- Whether a path starts from the root of all directories. -/
def isAbsolute (path : Path) : Bool :=
  path.head? = some Name.slash

/-- The last name of a path. There is none when nothing but segments that stay is there,
or when the last segment that does not stay goes up. -/
def fileName? (path : Path) : Option Name :=
  (path.segments.filter (!·.stays)).getLast?.filter (· ≠ Name.above)

/-- The extension of the file name of a path. -/
def extension? (path : Path) : Option Bytes :=
  path.fileName?.bind Name.extension?

/-- Whether the file name of a path has a given extension. -/
def hasExtension (extension : Text) (path : Path) : Bool :=
  path.extension? = some extension.encode

/-- How a file is called in findings: by the last name of its path, or by the whole path
where that has none. -/
def displayName (path : Path) : Text :=
  (path.fileName?.getD path).lossy

/-- The path of an entry of the directory at a path. -/
def join (path : Path) (name : Name) : Path :=
  if path.getLast? = some Name.slash then path ++ name else path ++ Name.slash :: name

/-- The path of what lies along a route from the directory at a path. -/
def joinRoute (path : Path) (route : Route) : Path :=
  route.foldl join path

/-- A route can be joined to a path in two parts. -/
theorem joinRoute_append (path : Path) (first second : Route) :
    path.joinRoute (first ++ second) = (path.joinRoute first).joinRoute second := by
  simp [joinRoute]

end Path

end DocLint
