import DocLint.Tree.Resolve
import Mathlib.Data.List.Basic

/-!
# Paths along routes

Joining the names of a route to a path adds them to its segments, less the empty segment that a
slash at the end of the path leaves (`Path.segments_joinRoute`). The file name of the result is
the last name of the route, and different routes give different results (`Path.joinRoute_inj`).
-/

namespace DocLint

/-! ## Names of entries -/

section EntryName

variable {name : Name}

theorem isEntryName_iff : Node.isEntryName name ↔
    name.stays = false ∧ name ≠ Name.above ∧ Name.slash ∉ name ∧ 0 ∉ name := by
  simp [Node.isEntryName, and_assoc]

theorem ne_nil_of_isEntryName (named : Node.isEntryName name) : name ≠ [] := by
  rintro rfl
  exact absurd named (by decide)

end EntryName

namespace Path

variable {path : Path} {name : Name} {route : Route}

/-! ## Segments -/

/-- The segments of a path without the empty one after a slash at its end. -/
def base (path : Path) : List Name :=
  if path.getLast? = some Name.slash then path.segments.dropLast else path.segments

theorem segments_of_not_mem (noSlash : Name.slash ∉ name) : segments name = [name] := by
  induction name with
  | nil => rfl
  | cons byte rest ih =>
      rw [List.mem_cons, not_or] at noSlash
      have others := ih noSlash.2
      unfold segments at others ⊢
      rw [List.foldr_cons, others, extend, if_neg (Ne.symm noSlash.1)]

/-- A slash at the end of a path adds nothing but an empty segment. -/
theorem segments_eq_base_append (path : Path) :
    ∃ trailing : List Name, path.segments = path.base ++ trailing ∧
      ∀ segment ∈ trailing, segment = [] := by
  by_cases ends : path.getLast? = some Name.slash
  · obtain ⟨first, rfl⟩ := List.getLast?_eq_some_iff.1 ends
    have split := segments_append_slash first []
    refine ⟨[[]], ?_, by simp⟩
    rw [base, if_pos ends, split]
    simp [segments]
  · exact ⟨[], by rw [base, if_neg ends, List.append_nil], by simp⟩

theorem segments_join (noSlash : Name.slash ∉ name) :
    (path.join name).segments = path.base ++ [name] := by
  by_cases ends : path.getLast? = some Name.slash
  · obtain ⟨first, rfl⟩ := List.getLast?_eq_some_iff.1 ends
    have split := segments_append_slash first []
    rw [join, base, if_pos ends, if_pos ends, List.append_assoc, List.singleton_append,
      segments_append_slash, split, segments_of_not_mem noSlash]
    simp [segments]
  · rw [join, base, if_neg ends, if_neg ends, segments_append_slash,
      segments_of_not_mem noSlash]

theorem getLast?_join (present : name ≠ []) : (path.join name).getLast? = name.getLast? := by
  unfold join
  split
  · rw [List.getLast?_append_of_ne_nil _ present]
  · rw [List.getLast?_append_of_ne_nil _ (List.cons_ne_nil _ _),
      List.getLast?_cons_of_ne_nil present]

theorem base_join (named : Node.isEntryName name) :
    (path.join name).base = path.base ++ [name] := by
  obtain ⟨_, _, noSlash, _⟩ := isEntryName_iff.1 named
  have unfinished : (path.join name).getLast? ≠ some Name.slash := by
    rw [getLast?_join (ne_nil_of_isEntryName named)]
    exact fun ends => noSlash (List.mem_of_getLast? ends)
  rw [base, if_neg unfinished, segments_join noSlash]

/-- The segments of a path joined with a route are those of the path and the names. -/
theorem segments_joinRoute (named : ∀ name ∈ route, Node.isEntryName name)
    (present : route ≠ []) : (path.joinRoute route).segments = path.base ++ route := by
  induction route generalizing path with
  | nil => exact absurd rfl present
  | cons name route ih =>
      rw [List.forall_mem_cons] at named
      cases route with
      | nil => exact segments_join (isEntryName_iff.1 named.1).2.2.1
      | cons next route =>
          have onward := @ih (path.join name) named.2 (List.cons_ne_nil _ _)
          rw [base_join named.1, List.append_assoc] at onward
          exact onward

/-- The file name of a path joined with a route is the last name of the route, if it has one. -/
theorem fileName?_joinRoute (named : ∀ name ∈ route, Node.isEntryName name) :
    (path.joinRoute route).fileName? = route.getLast?.or path.fileName? := by
  cases found : route.getLast? with
  | none =>
      obtain rfl := List.getLast?_eq_none_iff.1 found
      rfl
  | some last =>
      have present : route ≠ [] := List.ne_nil_of_mem (List.mem_of_getLast? found)
      have kept : route.filter (!·.stays) = route := by
        refine List.filter_eq_self.2 fun name member => ?_
        rw [(isEntryName_iff.1 (named name member)).1]
        rfl
      have member := named last (List.mem_of_getLast? found)
      rw [fileName?, segments_joinRoute named present, List.filter_append, kept,
        List.getLast?_append_of_ne_nil _ present, found]
      exact Option.filter_some_pos (decide_eq_true (isEntryName_iff.1 member).2.1)

theorem segments_dot_slashes (count : Nat) :
    segments (Name.dot :: List.replicate count Name.slash) =
      Name.here :: List.replicate count [] := by
  have slashes : segments (List.replicate count Name.slash) = List.replicate (count + 1) [] := by
    induction count with
    | zero => rfl
    | succ count ih =>
        unfold segments at ih ⊢
        rw [List.replicate_succ, List.foldr_cons, ih]
        rfl
  unfold segments at slashes ⊢
  rw [List.foldr_cons, slashes]
  rfl

theorem length_join_le (path : Path) (name : Name) :
    path.length + name.length ≤ (path.join name).length := by
  unfold join
  split
  · exact Nat.le_of_eq List.length_append.symm
  · rw [List.length_append, List.length_cons]
    omega

theorem length_join_le_succ (path : Path) (name : Name) :
    (path.join name).length ≤ path.length + name.length + 1 := by
  unfold join
  split
  · rw [List.length_append]
    omega
  · rw [List.length_append, List.length_cons]
    omega

theorem length_le_joinRoute (path : Path) (route : Route) :
    path.length ≤ (path.joinRoute route).length := by
  induction route generalizing path with
  | nil => exact Nat.le_refl _
  | cons name route ih =>
      have joined := length_join_le path name
      exact Nat.le_trans (Nat.le_trans (Nat.le_add_right _ _) joined) (ih (path.join name))

theorem joinRoute_ne_self (named : ∀ name ∈ route, Node.isEntryName name) (present : route ≠ []) :
    path.joinRoute route ≠ path := by
  obtain ⟨name, rest, rfl⟩ := List.exists_cons_of_ne_nil present
  intro same
  have filled := List.length_pos_iff.2 (ne_nil_of_isEntryName (List.forall_mem_cons.1 named).1)
  have joined := length_join_le path name
  have onward := length_le_joinRoute (path.join name) rest
  have length : ((path.join name).joinRoute rest).length = path.length := congrArg List.length same
  omega

/-- Different routes lead to different paths. -/
theorem joinRoute_inj {other : Route} (named : ∀ name ∈ route, Node.isEntryName name)
    (namedOther : ∀ name ∈ other, Node.isEntryName name)
    (same : path.joinRoute route = path.joinRoute other) : route = other := by
  by_cases empty : route = []
  · by_cases emptyOther : other = []
    · rw [empty, emptyOther]
    · rw [empty] at same
      exact absurd same.symm (joinRoute_ne_self namedOther emptyOther)
  · by_cases emptyOther : other = []
    · rw [emptyOther] at same
      exact absurd same (joinRoute_ne_self named empty)
    · have segments := congrArg Path.segments same
      rw [segments_joinRoute named empty, segments_joinRoute namedOther emptyOther] at segments
      exact List.append_cancel_left segments

/-! ## Where a path can lead -/

/-- Whether a path can be given to a file system at all, however long it is. -/
def IsSound (path : Path) : Prop :=
  path ≠ [] ∧ 0 ∉ path

theorem isUsable_iff : path.isUsable ↔ path.IsSound ∧ path.isTooLong = false := by
  simp [isUsable, IsSound]

theorem IsSound.join (sound : path.IsSound) (named : Node.isEntryName name) :
    (path.join name).IsSound ∧ (path.join name).isAbsolute = path.isAbsolute := by
  obtain ⟨present, noNul⟩ := sound
  obtain ⟨_, _, _, noNulName⟩ := isEntryName_iff.1 named
  obtain ⟨first, rest, rfl⟩ := List.exists_cons_of_ne_nil present
  unfold Path.join
  split
  · exact ⟨⟨List.cons_ne_nil _ _, by simp_all⟩, rfl⟩
  · exact ⟨⟨List.cons_ne_nil _ _, by simp_all [Name.slash]⟩, rfl⟩

/-- Names after a path neither spoil it nor change where it starts. -/
theorem IsSound.joinRoute (sound : path.IsSound)
    (named : ∀ name ∈ route, Node.isEntryName name) :
    (path.joinRoute route).IsSound ∧ (path.joinRoute route).isAbsolute = path.isAbsolute := by
  induction route generalizing path with
  | nil => exact ⟨sound, rfl⟩
  | cons name route ih =>
      rw [List.forall_mem_cons] at named
      obtain ⟨joined, starts⟩ := sound.join named.1
      obtain ⟨whole, begins⟩ := ih joined named.2
      exact ⟨whole, begins.trans starts⟩

end Path

end DocLint
