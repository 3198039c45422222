import DocLint.Proofs.Tree.Below
import Mathlib.Data.List.Sort

/-!
# The files of a subdirectory

A scan of a directory in the directory that a path leads to lists what the scan of the path lists
there, in the same order and under the same paths. The routes that begin with the way to the
subdirectory stand side by side, since nothing that does not begin so lies between two of them
(`prefix_of_between`). Main statement: `FileSystem.exists_splits`.
-/

namespace DocLint

/-! ## Blocks of an ascending list -/

/-- What is inside together with all that lies between stands side by side in an ascending list. -/
theorem exists_block_of_convex {α : Type} {follows : α → α → Prop} {inside : α → Prop}
    [DecidablePred inside]
    (convex : ∀ first middle last, follows first middle → follows middle last →
      inside first → inside last → inside middle)
    {items : List α} (ascending : items.Pairwise follows) :
    ∃ before after, items = before ++ items.filter inside ++ after ∧
      ∀ item ∈ before ++ after, ¬ inside item := by
  induction items with
  | nil => exact ⟨[], [], rfl, by simp⟩
  | cons first rest ih =>
      rw [List.pairwise_cons] at ascending
      obtain ⟨before, after, split, outside⟩ := ih ascending.2
      by_cases here : inside first
      · have nothing : before = [] ∨ rest.filter inside = [] := by
          -- An item before the block and one in it would have `first` and the block around them.
          by_contra both
          rw [not_or] at both
          obtain ⟨early, earlier, rfl⟩ := List.exists_cons_of_ne_nil both.1
          obtain ⟨item, block, found⟩ := List.exists_cons_of_ne_nil both.2
          have among : item ∈ rest.filter inside := by simp [found]
          have onward : follows early item := by
            have order := ascending.2
            rw [split, List.append_assoc, List.cons_append, List.pairwise_cons] at order
            exact order.1 item (by simp [among])
          refine outside early (by simp) (convex first early item ?_ onward here ?_)
          · exact ascending.1 early (by rw [split]; simp)
          · exact of_decide_eq_true (List.mem_filter.1 among).2
        rcases nothing with rfl | empty
        · refine ⟨[], after, ?_, outside⟩
          rw [List.filter_cons, if_pos (decide_eq_true here), List.nil_append, List.cons_append]
          exact congrArg (first :: ·) split
        · refine ⟨[], before ++ after, ?_, outside⟩
          rw [List.filter_cons, if_pos (decide_eq_true here), empty, List.nil_append,
            List.singleton_append]
          rw [empty, List.append_nil] at split
          exact congrArg (first :: ·) split
      · refine ⟨first :: before, after, ?_, ?_⟩
        · rw [List.filter_cons, if_neg (by simpa using here), List.cons_append, List.cons_append]
          exact congrArg (first :: ·) split
        · rw [List.cons_append, List.forall_mem_cons]
          exact ⟨here, outside⟩

/-- Between two routes with one beginning there are only routes with that beginning. -/
theorem prefix_of_between {start first middle last : Route} (before : first < middle)
    (after : middle < last) (begins : start <+: first) (ends : start <+: last) :
    start <+: middle := by
  induction start generalizing first middle last with
  | nil => exact List.nil_prefix
  | cons name start ih =>
      obtain ⟨restFirst, rfl⟩ := begins
      obtain ⟨restLast, rfl⟩ := ends
      rw [List.cons_append] at before after
      cases middle with
      | nil => exact absurd before (List.not_lt_nil _)
      | cons other middle =>
          rw [List.cons_lt_cons_iff] at before after
          have same : other = name := by
            rcases before with lower | ⟨same, _⟩
            · rcases after with higher | ⟨same, _⟩
              · exact absurd (List.lt_trans lower higher) (List.lt_irrefl _)
              · exact same
            · exact same.symm
          subst same
          have lower := before.resolve_left (List.lt_irrefl _)
          have higher := after.resolve_left (List.lt_irrefl _)
          rw [List.cons_prefix_cons]
          exact ⟨rfl, ih lower.2 higher.2 (List.prefix_append _ _) (List.prefix_append _ _)⟩

/-! ## Files in a subdirectory -/

/-- A file in a subdirectory, seen from the directory that holds it. -/
def FoundFile.within (way : Route) (file : FoundFile) : FoundFile :=
  { file with route := way ++ file.route }

/-- Whether a path leads on from the path of a directory by names of entries. -/
def Path.IsBelow (directory path : Path) : Prop :=
  ∃ route : Route, route ≠ [] ∧ (∀ name ∈ route, Node.isEntryName name) ∧
    path = directory.joinRoute route

namespace FileSystem

variable {system : FileSystem} {node : Node} {root : Path} {way route : Route} {extension : Text}
  {access inside : Access} {entries inner : List (Name × Node)}

/-- Whether the files with an extension below a path are those before a directory in it, those in
that directory and those after it, and are listed so. -/
structure Splits (system : FileSystem) (extension : Text) (root : Path) (way : Route)
    (before part after : List FoundFile) : Prop where
  below : system.FilesBelow extension root (before ++ part.map (FoundFile.within way) ++ after)
  listed : system.scan extension root =
    .ok ((before ++ part.map (FoundFile.within way) ++ after).map fun file =>
      root.joinRoute file.route)
  inside : system.FilesBelow extension (root.joinRoute way) part
  listedInside : system.scan extension (root.joinRoute way) =
    .ok (part.map fun file => (root.joinRoute way).joinRoute file.route)
  outside : ∀ file ∈ before ++ after, ¬ way <+: file.route

section Subdirectory

variable (proper : system.top.Proper) (scans : system.Scans root)
  (directory : system.resolve? true root = some (.dir access entries))
  (along : (Node.dir access entries).at? way = some (.dir inside inner))

include proper scans directory along

/-- The joined path is not cut off, and leads to the subdirectory. -/
theorem resolve?_subdirectory : ¬ system.IsCutOff root way ∧
    system.resolve? true (root.joinRoute way) = some (.dir inside inner) := by
  have reached : system.Reaches root way (.dir inside inner) :=
    Or.inl ⟨access, entries, directory, along⟩
  refine (resolve?_of_reaches proper reached (by simp)).resolve_right fun cut => ?_
  exact scans.2 ⟨way, inside, inner, reached, Or.inr cut.1⟩

theorem reaches_subdirectory_iff (real : ∀ target, node ≠ .link target) :
    system.Reaches (root.joinRoute way) route node ↔ system.Reaches root (way ++ route) node := by
  have leads := (resolve?_subdirectory proper scans directory along).2
  rw [reaches_iff (start?_eq_dir_iff.2 leads) real,
    reaches_iff (start?_eq_dir_iff.2 directory) real, Node.at?_append, along, Option.bind_some]

/-- What is cut off on a visit of the subdirectory is cut off on one of the whole directory, since
the joined paths are the same. -/
theorem isCutOff_subdirectory_iff (reached : system.Reaches (root.joinRoute way) route node)
    (real : ∀ target, node ≠ .link target) :
    system.IsCutOff (root.joinRoute way) route ↔ system.IsCutOff root (way ++ route) := by
  have whole := (reaches_subdirectory_iff proper scans directory along real).1 reached
  rw [isCutOff_iff_resolve? proper reached real, isCutOff_iff_resolve? proper whole real,
    Path.joinRoute_append]

theorem scans_subdirectory : system.Scans (root.joinRoute way) := by
  refine ⟨?_, ?_⟩
  · rw [(resolve?_subdirectory proper scans directory along).2]
    exact Option.some_ne_none _
  · rintro ⟨route, last, others, reached, reason⟩
    rw [isCutOff_subdirectory_iff proper scans directory along reached (by simp)] at reason
    have whole := (reaches_subdirectory_iff proper scans directory along (by simp)).1 reached
    exact scans.2 ⟨way ++ route, last, others, whole, reason⟩

theorem finds_subdirectory_iff {file : FoundFile} :
    system.Finds extension (root.joinRoute way) file ↔
      system.Finds extension root (file.within way) := by
  have named := ((proper_of_resolve? proper directory).of_at? along).2
  rw [Finds, Finds, reaches_subdirectory_iff proper scans directory along (by simp),
    Path.fileName?_joinRoute named, FoundFile.within, List.getLast?_append, Option.or_assoc]

theorem isUnreadable_subdirectory_iff {file : FoundFile}
    (finds : system.Finds extension (root.joinRoute way) file) :
    system.IsUnreadable (root.joinRoute way) file ↔
      system.IsUnreadable root (file.within way) := by
  rw [IsUnreadable, IsUnreadable, FoundFile.within,
    isCutOff_subdirectory_iff proper scans directory along finds.1 (by simp)]

/-- The files of the subdirectory are those on whose routes it lies. -/
theorem filter_filesBelow {files innerFiles : List FoundFile}
    (below : system.FilesBelow extension root files)
    (belowInner : system.FilesBelow extension (root.joinRoute way) innerFiles) :
    files.filter (fun file => way <+: file.route) = innerFiles.map (FoundFile.within way) := by
  have ascending := below.ascending.filter (fun file => decide (way <+: file.route))
  have ascendingInner : (innerFiles.map (FoundFile.within way)).Pairwise
      fun first second => first.route < second.route := by
    rw [List.pairwise_map]
    refine belowInner.ascending.imp fun before => ?_
    exact List.append_left_lt before
  have : Std.Irrefl fun first second : FoundFile => first.route < second.route :=
    ⟨fun file => List.lt_irrefl file.route⟩
  have : Std.Antisymm fun first second : FoundFile => first.route < second.route :=
    ⟨fun _ _ before after => absurd (List.lt_trans before after) (List.lt_irrefl _)⟩
  -- The two lists come from two scans; both are in strict order, so their members decide.
  refine ascending.eq_of_mem_iff ascendingInner fun file => ?_
  rw [List.mem_filter, decide_eq_true_iff, below.complete, List.mem_map]
  constructor
  · rintro ⟨finds, rest, whole⟩
    have back : FoundFile.within way { file with route := rest } = file := by
      rw [FoundFile.within, whole]
    refine ⟨{ file with route := rest }, ?_, back⟩
    rw [belowInner.complete, finds_subdirectory_iff proper scans directory along, back]
    exact finds
  · rintro ⟨part, member, rfl⟩
    refine ⟨?_, List.prefix_append _ _⟩
    rw [← finds_subdirectory_iff proper scans directory along]
    exact (belowInner.complete part).1 member

/-- The files of the subdirectory stand side by side among those of the whole directory. -/
theorem exists_splits (extension : Text) :
    ∃ before part after, system.Splits extension root way before part after := by
  obtain ⟨files, below, listed⟩ := scans.exists_files proper extension
  obtain ⟨part, belowInner, listedInside⟩ :=
    (scans_subdirectory proper scans directory along).exists_files proper extension
  obtain ⟨before, after, split, outside⟩ := exists_block_of_convex
    (fun _ _ _ before after => prefix_of_between before after) below.ascending
  rw [filter_filesBelow proper scans directory along below belowInner] at split
  exact ⟨before, part, after, split ▸ below, split ▸ listed, belowInner, listedInside, outside⟩

end Subdirectory

/-- The paths listed in the subdirectory are those that lie below its own. -/
theorem Splits.isBelow {before part after : List FoundFile}
    (splits : system.Splits extension root way before part after) (proper : system.top.Proper)
    (directory : system.resolve? true root = some (.dir access entries))
    (along : (Node.dir access entries).at? way = some (.dir inside inner)) :
    (∀ file ∈ part, Path.IsBelow (root.joinRoute way) (root.joinRoute (file.within way).route)) ∧
      ∀ file ∈ before ++ after,
        ¬ Path.IsBelow (root.joinRoute way) (root.joinRoute file.route) := by
  have whole := proper_of_resolve? proper directory
  constructor
  · intro file member
    have among := (splits.below.complete (file.within way)).1
      (List.mem_append_left _ (List.mem_append_right _ (List.mem_map_of_mem member)))
    have there : (Node.dir access entries).at? (way ++ file.route) =
        some (.file ⟨true, file.content?⟩) :=
      (reaches_iff (start?_eq_dir_iff.2 directory) (by simp)).1 among.1
    refine ⟨file.route, ?_, fun name inside => ?_, Path.joinRoute_append _ _ _⟩
    · intro empty
      rw [empty, List.append_nil, along] at there
      exact absurd there (by simp)
    · exact (whole.of_at? there).2 name (List.mem_append_right _ inside)
  · rintro file member ⟨route, _, named, same⟩
    rw [← Path.joinRoute_append] at same
    have finds := (splits.below.complete file).1 (by
      rcases List.mem_append.1 member with early | late
      · simp [early]
      · simp [late])
    have routes : file.route = way ++ route := by
      refine Path.joinRoute_inj (isEntryName_of_reaches proper finds.1) ?_ same
      intro name inside
      rcases List.mem_append.1 inside with early | late
      · exact (whole.of_at? along).2 name early
      · exact named name late
    exact splits.outside file member (routes ▸ List.prefix_append _ _)

end FileSystem

end DocLint
