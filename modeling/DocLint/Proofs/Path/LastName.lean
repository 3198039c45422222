import DocLint.Proofs.Tree.Joined
import Mathlib.Data.List.TakeWhile

/-!
# The last name of a path

The file name of a path is found among its segments, but it can be read off the path itself: it
stands after a slash or at the beginning, and only slashes and single dots follow it
(`Path.fileName?_eq_some_iff`). The extension is what follows the last dot of a name that has
something before it (`Name.extension?_eq_some_iff`).
-/

namespace DocLint

namespace Name

/-- A name has an extension if it is a stem, a dot and the extension, in which no dot is left. -/
theorem extension?_eq_some_iff {name extension : Bytes} :
    extension? name = some extension ↔
      dot ∉ extension ∧ ∃ stem, stem ≠ [] ∧ name = stem ++ dot :: extension := by
  constructor
  · intro found
    have whole := List.takeWhile_append_dropWhile (p := (· ≠ dot)) (l := name.reverse)
    have head := List.head?_dropWhile_not (· ≠ dot) name.reverse
    unfold extension? at found
    generalize name.reverse.dropWhile (· ≠ dot) = rest at found whole head
    match rest with
    | [] => simp at found
    | [_] => simp at found
    | first :: second :: others =>
        obtain rfl : first = dot := by simpa using head
        obtain rfl := Option.some.inj found
        refine ⟨fun member => ?_, (second :: others).reverse, by simp, ?_⟩
        · simpa using List.mem_takeWhile_imp (List.mem_reverse.1 member)
        · simpa using (congrArg List.reverse whole).symm
  · rintro ⟨noDot, stem, present, rfl⟩
    have other : ∀ byte ∈ extension.reverse, decide (byte ≠ dot) := by
      intro byte member
      exact decide_eq_true fun same => noDot (same ▸ List.mem_reverse.1 member)
    obtain ⟨last, before, reversed⟩ :=
      List.exists_cons_of_ne_nil (mt List.reverse_eq_nil_iff.1 present)
    rw [extension?, List.reverse_append, List.reverse_cons, List.append_assoc,
      List.dropWhile_append_of_pos other, List.takeWhile_append_of_pos other, reversed]
    simp

end Name

namespace Path

variable {path : Path} {name : Name}

/-! ## Segments and what is between them -/

/-- The first segment of a path ends where the path does or before the first slash. -/
theorem segments_eq_cons_iff {first : Name} {rest : List Name} :
    path.segments = first :: rest ↔ Name.slash ∉ first ∧
      (rest = [] ∧ path = first ∨
        ∃ onward : Path, path = first ++ Name.slash :: onward ∧ onward.segments = rest) := by
  constructor
  · intro split
    induction path generalizing first rest with
    | nil =>
        obtain ⟨rfl, rfl⟩ := List.cons.inj split.symm
        exact ⟨by simp, Or.inl ⟨rfl, rfl⟩⟩
    | cons byte path ih =>
        obtain ⟨head, others, found⟩ := List.exists_cons_of_ne_nil (segments_ne_nil path)
        have extended : segments (byte :: path) = extend byte (segments path) := rfl
        rw [extended, found, extend] at split
        by_cases slash : byte = Name.slash
        · rw [if_pos slash] at split
          obtain ⟨rfl, rfl⟩ := List.cons.inj split.symm
          exact ⟨by simp, Or.inr ⟨path, by rw [slash]; rfl, found⟩⟩
        · rw [if_neg slash] at split
          obtain ⟨rfl, rfl⟩ := List.cons.inj split.symm
          obtain ⟨noSlash, ends⟩ := ih found
          refine ⟨by simp [Ne.symm slash, noSlash], ?_⟩
          rcases ends with ⟨none, rfl⟩ | ⟨onward, rfl, later⟩
          · exact Or.inl ⟨none, rfl⟩
          · exact Or.inr ⟨onward, rfl, later⟩
  · rintro ⟨noSlash, ⟨rfl, rfl⟩ | ⟨onward, rfl, rfl⟩⟩
    · exact segments_of_not_mem noSlash
    · rw [segments_append_slash, segments_of_not_mem noSlash]
      rfl

/-- Whether nothing stands before a place in a path, or a slash. -/
def Opens (before : Path) : Prop :=
  before = [] ∨ before.getLast? = some Name.slash

/-- Whether bytes can follow the last name of a path: they are slashes, some with a dot after
them. -/
def IsTrailing (trailing : Bytes) : Prop :=
  ∃ parts : List Bytes, trailing = parts.flatten ∧
    ∀ part ∈ parts, part = [Name.slash] ∨ part = [Name.slash, Name.dot]

theorem stays_iff {segment : Name} : segment.stays ↔ segment = [] ∨ segment = [Name.dot] := by
  rw [Name.stays, Bool.or_eq_true, decide_eq_true_eq, decide_eq_true_eq, Name.here]

theorem segments_append_of_opens {before : Path} (opens : Opens before) (onward : Path) :
    ∃ earlier, (before ++ onward).segments = earlier ++ onward.segments := by
  rcases opens with rfl | ends
  · exact ⟨[], rfl⟩
  · obtain ⟨first, rfl⟩ := List.getLast?_eq_some_iff.1 ends
    refine ⟨segments first, ?_⟩
    rw [List.append_assoc, List.singleton_append, segments_append_slash]

theorem exists_append_of_segments {earlier later : List Name} (present : later ≠ [])
    (split : path.segments = earlier ++ later) :
    ∃ before onward : Path, path = before ++ onward ∧ Opens before ∧ onward.segments = later := by
  induction earlier generalizing path with
  | nil => exact ⟨[], path, rfl, Or.inl rfl, split⟩
  | cons first earlier ih =>
      obtain ⟨_, ⟨none, _⟩ | ⟨onward, rfl, found⟩⟩ := segments_eq_cons_iff.1 split
      · exact absurd none (by simp [present])
      · obtain ⟨before, rest, rfl, opens, whole⟩ := ih found
        refine ⟨first ++ Name.slash :: before, rest, by simp, Or.inr ?_, whole⟩
        rw [List.getLast?_append_of_ne_nil _ (List.cons_ne_nil _ _)]
        rcases opens with rfl | ends
        · rfl
        · rw [List.getLast?_cons, ends]
          rfl

theorem segments_append_of_isTrailing {trailing : Bytes} (trails : IsTrailing trailing)
    (noSlash : Name.slash ∉ name) : ∃ later, segments (name ++ trailing) = name :: later ∧
      ∀ segment ∈ later, segment.stays := by
  obtain ⟨parts, rfl, each⟩ := trails
  induction parts generalizing name with
  | nil => exact ⟨[], by simp [segments_of_not_mem noSlash], by simp⟩
  | cons part parts ih =>
      rw [List.forall_mem_cons] at each
      have onward {segment : Name} (plain : Name.slash ∉ segment) (stays : segment.stays) :
          ∃ later, segments (name ++ Name.slash :: (segment ++ parts.flatten)) = name :: later ∧
            ∀ segment ∈ later, segment.stays := by
        obtain ⟨later, found, stay⟩ := ih plain each.2
        refine ⟨segment :: later, ?_, List.forall_mem_cons.2 ⟨stays, stay⟩⟩
        rw [segments_append_slash, segments_of_not_mem noSlash, found]
        rfl
      rcases each.1 with rfl | rfl
      · exact onward List.not_mem_nil rfl
      · exact @onward [Name.dot] (by decide) rfl

theorem exists_isTrailing_of_segments {later : List Name} (split : path.segments = name :: later)
    (stay : ∀ segment ∈ later, segment.stays) :
    ∃ trailing, path = name ++ trailing ∧ IsTrailing trailing := by
  induction later generalizing path name with
  | nil =>
      obtain ⟨_, ⟨_, rfl⟩ | ⟨onward, rfl, found⟩⟩ := segments_eq_cons_iff.1 split
      · exact ⟨[], by simp, [], rfl, by simp⟩
      · exact absurd found (segments_ne_nil onward)
  | cons segment later ih =>
      rw [List.forall_mem_cons] at stay
      obtain ⟨_, ⟨none, _⟩ | ⟨onward, rfl, found⟩⟩ := segments_eq_cons_iff.1 split
      · exact absurd none (by simp)
      · obtain ⟨trailing, rfl, parts, rfl, each⟩ := ih found stay.2
        refine ⟨Name.slash :: (segment ++ parts.flatten), rfl, (Name.slash :: segment) :: parts,
          by simp, List.forall_mem_cons.2 ⟨?_, each⟩⟩
        rcases stays_iff.1 stay.1 with rfl | rfl
        · exact Or.inl rfl
        · exact Or.inr rfl

/-! ## The last name -/

/-- Whether a path ends in a name: in a segment that leads somewhere, which slashes and single dots
may follow. -/
def EndsIn (path : Path) (name : Name) : Prop :=
  Name.slash ∉ name ∧ ¬ name.stays ∧
    ∃ before trailing, path = before ++ name ++ trailing ∧ Opens before ∧ IsTrailing trailing

theorem endsIn_iff :
    path.EndsIn name ↔ (path.segments.filter (!·.stays)).getLast? = some name := by
  rw [List.getLast?_filter, List.find?_eq_some_iff_append]
  simp only [Bool.not_eq_true', Bool.not_not]
  constructor
  · rintro ⟨noSlash, leads, before, trailing, rfl, opens, trails⟩
    obtain ⟨later, found, stay⟩ := segments_append_of_isTrailing trails noSlash
    obtain ⟨earlier, split⟩ := segments_append_of_opens opens (name ++ trailing)
    refine ⟨Bool.eq_false_iff.2 leads, later.reverse, earlier.reverse, ?_, by simpa using stay⟩
    rw [List.append_assoc, split, found]
    simp
  · rintro ⟨leads, later, earlier, reversed, stay⟩
    have split : path.segments = earlier.reverse ++ name :: later.reverse := by
      simpa using congrArg List.reverse reversed
    obtain ⟨before, onward, rfl, opens, found⟩ := exists_append_of_segments (by simp) split
    obtain ⟨trailing, rfl, trails⟩ := exists_isTrailing_of_segments found (by simpa using stay)
    exact ⟨(segments_eq_cons_iff.1 found).1, Bool.eq_false_iff.1 leads, before, trailing, by simp,
      opens, trails⟩

/-- A path ends in one name at most. -/
theorem EndsIn.unique {other : Name} (ends : path.EndsIn name) (endsOther : path.EndsIn other) :
    name = other :=
  Option.some.inj ((endsIn_iff.1 ends).symm.trans (endsIn_iff.1 endsOther))

/-- The file name of a path is the name that it ends in, if that does not go up. -/
theorem fileName?_eq_some_iff :
    path.fileName? = some name ↔ path.EndsIn name ∧ name ≠ Name.above := by
  rw [fileName?, Option.filter_eq_some_iff, ← endsIn_iff, decide_eq_true_eq]

end Path

end DocLint
