import DocLint.Proofs.Tree.Joined
import DocLint.Proofs.Tree.Stops

/-!
# Following joined paths

Segments lead on one by one, in one of few ways (`Node.leadsOn_of_descend`). Following the last link
or not makes a difference only where a link is last (`FileSystem.resolve?_link_or_eq`). A path that
leads to a directory, joined with a route that goes on from there without a link, leads to the end
of that route, unless it has become too long or a directory on the way lets no path through
(`FileSystem.locate?_joinRoute`).
-/

namespace DocLint

theorem Name.not_stays_iff {segment : Name} :
    ¬ segment.stays ↔ segment ≠ [] ∧ segment ≠ Name.here := by
  simp [Name.stays]

namespace Node

variable {top start last : Node} {followLast : Bool} {here location route names : Route}
  {atLink atEnd : Route → Path → List Name → Option Route} {segment : Name}
  {segments rest trailing : List Name} {access : Access} {entries : List (Name × Node)}

/-! ## One segment -/

theorem descend_empty :
    top.descend followLast atLink here ([] :: rest) = top.descend followLast atLink here rest := by
  rw [descend, if_pos rfl]

theorem descend_here (passes : (top.at? here).any passes) :
    top.descend followLast atLink here (Name.here :: rest) =
      top.descend followLast atLink here rest := by
  rw [descend, if_neg (by decide), if_pos passes, if_pos rfl]

theorem descend_above (passes : (top.at? here).any passes) :
    top.descend followLast atLink here (Name.above :: rest) =
      top.descend followLast atLink here.dropLast rest := by
  rw [descend, if_neg (by decide), if_pos passes, if_neg (by decide), if_pos rfl]

theorem descend_of_not_passes (filled : segment ≠ []) (barred : ¬ (top.at? here).any passes) :
    top.descend followLast atLink here (segment :: rest) = none := by
  rw [descend, if_neg filled, if_neg barred]

/-- A name leads to an entry of the directory, if that lets paths through. -/
theorem descend_name (passes : (top.at? here).any passes) (moves : ¬ segment.stays)
    (notAbove : segment ≠ Name.above) :
    top.descend followLast atLink here (segment :: rest) =
      match top.at? (here ++ [segment]) with
      | none | some (.file _) => if rest = [] then some (here ++ [segment]) else none
      | some (.dir ..) => top.descend followLast atLink (here ++ [segment]) rest
      | some (.link target) =>
          if rest = [] ∧ followLast = false then some (here ++ [segment])
          else atLink here target rest := by
  obtain ⟨filled, notHere⟩ := Name.not_stays_iff.1 moves
  have step := descend.eq_2 top followLast atLink here segment rest
  rw [if_neg filled, if_pos passes, if_neg notHere, if_neg notAbove] at step
  refine step.trans ?_
  cases top.at? (here ++ [segment]) with
  | none => rfl
  | some node => cases node <;> rfl

/-- The ways in which segments can lead on from a directory to a location. -/
inductive LeadsOn (top : Node) (followLast : Bool)
    (atLink : Route → Path → List Name → Option Route) (here location : Route) (segment : Name)
    (rest : List Name) : Prop
  | empty (nothing : segment = [])
      (onward : top.descend followLast atLink here rest = some location)
  | stay (passes : (top.at? here).any passes) (same : segment = Name.here)
      (onward : top.descend followLast atLink here rest = some location)
  | up (passes : (top.at? here).any passes) (above : segment = Name.above)
      (onward : top.descend followLast atLink here.dropLast rest = some location)
  | into (passes : (top.at? here).any passes) (moves : ¬ segment.stays)
      (notAbove : segment ≠ Name.above)
      (directory : ∃ access entries, top.at? (here ++ [segment]) = some (.dir access entries))
      (onward : top.descend followLast atLink (here ++ [segment]) rest = some location)
  | link (passes : (top.at? here).any passes) (moves : ¬ segment.stays)
      (notAbove : segment ≠ Name.above) {target : Path}
      (found : top.at? (here ++ [segment]) = some (.link target))
      (followed : rest ≠ [] ∨ followLast = true)
      (onward : atLink here target rest = some location)
  | last (passes : (top.at? here).any passes) (moves : ¬ segment.stays)
      (notAbove : segment ≠ Name.above) (final : rest = []) (ends : here ++ [segment] = location)
      (leaf : ∀ access entries, top.at? location ≠ some (.dir access entries))

theorem leadsOn_of_descend
    (reached : top.descend followLast atLink here (segment :: rest) = some location) :
    top.LeadsOn followLast atLink here location segment rest := by
  by_cases nothing : segment = []
  · rw [nothing, descend_empty] at reached
    exact .empty nothing reached
  by_cases passes : (top.at? here).any Node.passes
  case neg => exact absurd (reached.symm.trans (descend_of_not_passes nothing passes)) (by simp)
  by_cases same : segment = Name.here
  · rw [same, descend_here passes] at reached
    exact .stay passes same reached
  by_cases above : segment = Name.above
  · rw [above, descend_above passes] at reached
    exact .up passes above reached
  have moves := Name.not_stays_iff.2 ⟨nothing, same⟩
  rw [descend_name passes moves above] at reached
  have final (ends : (if rest = [] then some (here ++ [segment]) else none) = some location)
      (leaf : ∀ access entries, top.at? (here ++ [segment]) ≠ some (.dir access entries)) :
      top.LeadsOn followLast atLink here location segment rest := by
    by_cases last : rest = []
    · rw [if_pos last] at ends
      obtain rfl := Option.some.inj ends
      exact .last passes moves above last rfl leaf
    · simp [last] at ends
  cases found : top.at? (here ++ [segment]) with
  | none =>
      rw [found] at reached
      exact final reached (by simp [found])
  | some node =>
      rw [found] at reached
      cases node with
      | file file => exact final reached (by simp [found])
      | dir access entries => exact .into passes moves above ⟨access, entries, found⟩ reached
      | link target =>
          by_cases stop : rest = [] ∧ followLast = false
          · exact final (by simpa [stop] using reached) (by simp [found])
          · have onward : atLink here target rest = some location := by
              simpa [stop] using reached
            exact .link passes moves above found
              (by simpa [Classical.or_iff_not_imp_left] using stop) onward

theorem descend_of_empty (empty : ∀ segment ∈ segments, segment = []) :
    top.descend followLast atLink here segments = some here := by
  induction segments with
  | nil => rfl
  | cons segment rest ih =>
      rw [List.forall_mem_cons] at empty
      rw [empty.1, descend_empty, ih empty.2]

/-! ## The last link -/

/-- Not following the last link ends at that link, or ends where following it does. -/
theorem descend_link_or_eq
    (linked : ∀ here target rest,
      (∃ other, (atEnd here target rest).bind top.at? = some (.link other)) ∨
        atLink here target rest = atEnd here target rest) (segments : List Name) :
    (∃ other, (top.descend false atEnd here segments).bind top.at? = some (.link other)) ∨
      top.descend true atLink here segments = top.descend false atEnd here segments := by
  induction segments generalizing here with
  | nil => exact Or.inr rfl
  | cons segment rest ih =>
      by_cases nothing : segment = []
      · rw [nothing, descend_empty, descend_empty]
        exact ih
      by_cases passes : (top.at? here).any Node.passes
      case neg =>
        rw [descend_of_not_passes nothing passes, descend_of_not_passes nothing passes]
        exact Or.inr rfl
      by_cases same : segment = Name.here
      · rw [same, descend_here passes, descend_here passes]
        exact ih
      by_cases above : segment = Name.above
      · rw [above, descend_above passes, descend_above passes]
        exact ih
      have moves := Name.not_stays_iff.2 ⟨nothing, same⟩
      rw [descend_name passes moves above, descend_name passes moves above]
      cases found : top.at? (here ++ [segment]) with
      | none => exact Or.inr rfl
      | some node =>
          cases node with
          | file file => exact Or.inr rfl
          | dir access entries => exact ih
          | link target =>
              by_cases last : rest = []
              · left
                exact ⟨target, by simp [last, found]⟩
              · simpa [last] using linked here target rest

theorem follow_link_or_eq (links : Nat) (here : Route) (segments : List Name) :
    (∃ other, (top.follow false links here segments).bind top.at? = some (.link other)) ∨
      top.follow true links here segments = top.follow false links here segments := by
  induction links generalizing here segments with
  | zero => exact descend_link_or_eq (fun _ _ _ => Or.inr rfl) segments
  | succ links ih => exact descend_link_or_eq (fun _ _ _ => ih _ _) segments

/-! ## Names after a directory -/

/-- Whether paths can lead along a route: the directories on the way let them through. -/
def isPassable (node : Node) : Route → Bool
  | [] => true
  | name :: route =>
      node.passes && (node.child? name).all fun child => child.isPassable route

/-- A route that goes on without a link is followed to its end, if paths can lead along it. -/
theorem descend_names (named : ∀ name ∈ names, isEntryName name)
    (found : top.at? here = some start) (along : start.at? names = some last)
    (real : ∀ target, last ≠ .link target) :
    top.descend followLast atLink here names =
      if start.isPassable names then some (here ++ names) else none := by
  induction names generalizing here start with
  | nil => simp [descend, isPassable]
  | cons name names ih =>
      rw [List.forall_mem_cons] at named
      obtain ⟨stays, notAbove, _, _⟩ := isEntryName_iff.1 named.1
      have moves : ¬ Name.stays name := by simp [stays]
      obtain ⟨child, isChild, onward⟩ := Option.bind_eq_some_iff.1 along
      have next : top.at? (here ++ [name]) = some child := by
        rw [at?_append, found, Option.bind_some, at?, isChild]
        rfl
      have final (leaf : child.entries = []) : names = [] := by
        cases names with
        | nil => rfl
        | cons next names => simp [at?, child?, leaf] at onward
      rw [isPassable, isChild, Option.all_some]
      by_cases passes : start.passes
      case neg =>
        rw [descend_of_not_passes (Name.not_stays_iff.1 moves).1 (by simp [found, passes])]
        simp [passes]
      rw [descend_name (by simp [found, passes]) moves notAbove, next, passes, Bool.true_and,
        List.append_cons here name names]
      cases child with
      | file file =>
          obtain rfl := final rfl
          simp [isPassable]
      | dir access entries => exact ih named.2 next onward
      | link target =>
          obtain rfl := final rfl
          exact absurd (Option.some.inj onward).symm (real target)

/-- Where segments lead to a directory, names after them go on from there. -/
theorem descend_append {result : Option Route} (empty : ∀ segment ∈ trailing, segment = [])
    (present : names ≠ []) (directory : top.at? route = some (.dir access entries))
    (onward : top.descend true atEnd route names = result)
    (linked : ∀ here target rest, atLink here target (rest ++ trailing) = some route →
      atEnd here target (rest ++ names) = result) (segments : List Name)
    (reached : top.descend true atLink here (segments ++ trailing) = some route) :
    top.descend true atEnd here (segments ++ names) = result := by
  induction segments generalizing here with
  | nil =>
      obtain rfl := Option.some.inj ((descend_of_empty empty).symm.trans reached)
      exact onward
  | cons segment rest ih =>
      rw [List.cons_append] at reached ⊢
      cases leadsOn_of_descend reached with
      | empty nothing onward =>
          rw [nothing, descend_empty]
          exact ih onward
      | stay passes same onward =>
          rw [same, descend_here passes]
          exact ih onward
      | up passes above onward =>
          rw [above, descend_above passes]
          exact ih onward
      | into passes moves notAbove inner onward =>
          obtain ⟨_, _, found⟩ := inner
          rw [descend_name passes moves notAbove, found]
          exact ih onward
      | link passes moves notAbove found _ onward =>
          rw [descend_name passes moves notAbove, found]
          simpa [present] using linked here _ rest onward
      | last _ _ _ _ _ leaf => exact absurd directory (leaf access entries)

theorem follow_append (empty : ∀ segment ∈ trailing, segment = []) (present : names ≠ [])
    (named : ∀ name ∈ names, isEntryName name)
    (directory : top.at? route = some (.dir access entries))
    (along : (Node.dir access entries).at? names = some last) (real : ∀ target, last ≠ .link target)
    (links : Nat) (segments : List Name)
    (reached : top.follow true links here (segments ++ trailing) = some route) :
    top.follow true links here (segments ++ names) =
      if (Node.dir access entries).isPassable names then some (route ++ names) else none := by
  induction links generalizing here segments with
  | zero =>
      exact descend_append empty present directory (descend_names named directory along real)
        (fun _ _ _ reached => by simp at reached) segments reached
  | succ links ih =>
      refine descend_append empty present directory (descend_names named directory along real)
        (fun here target rest reached => ?_) segments reached
      rw [← List.append_assoc] at reached ⊢
      exact ih _ reached

end Node

namespace FileSystem

variable {system : FileSystem} {followLast : Bool} {path : Path} {route names : Route}
  {node last : Node} {access : Access} {entries : List (Name × Node)}

theorem locate?_link_or_eq (system : FileSystem) (path : Path) :
    (∃ target, system.resolve? false path = some (.link target)) ∨
      system.locate? true path = system.locate? false path := by
  unfold resolve? locate?
  by_cases usable : path.isUsable
  · rw [if_pos usable, if_pos usable]
    exact Node.follow_link_or_eq Node.linkLimit _ path.segments
  · rw [if_neg usable, if_neg usable]
    exact Or.inr rfl

/-- What a path leads to is the same with the last link followed, unless it is that link. -/
theorem resolve?_link_or_eq (system : FileSystem) (path : Path) :
    (∃ target, system.resolve? false path = some (.link target)) ∨
      system.resolve? true path = system.resolve? false path := by
  refine (system.locate?_link_or_eq path).imp_right fun same => ?_
  rw [resolve?, resolve?, same]

theorem isTooLong_of_resolve? (found : system.resolve? followLast path = some node) :
    path.isTooLong = false := by
  obtain ⟨route, located, _⟩ := Option.bind_eq_some_iff.1 found
  unfold locate? at located
  split at located
  case isFalse => exact absurd located (by simp)
  case isTrue usable => exact (Path.isUsable_iff.1 usable).2

/-- A dot and slashes lead to the working directory. -/
theorem resolve?_dot_slashes {count : Nat} (short : count + 1 < Path.limit)
    (found : system.top.at? system.work = some node) (passes : node.passes) :
    system.resolve? followLast (Name.dot :: List.replicate count Name.slash) = some node := by
  have usable : Path.isUsable (Name.dot :: List.replicate count Name.slash) := by
    refine Path.isUsable_iff.2 ⟨⟨List.cons_ne_nil _ _, ?_⟩, ?_⟩
    · intro member
      rcases List.mem_cons.1 member with dot | slash
      · exact absurd dot (by decide)
      · exact absurd (List.eq_of_mem_replicate slash) (by decide)
    · rw [Path.isTooLong, List.length_cons, List.length_replicate]
      exact decide_eq_false (Nat.not_le.2 short)
  have start : system.origin (Name.dot :: List.replicate count Name.slash) = system.work := rfl
  rw [resolve?, locate?, if_pos usable, start, Path.segments_dot_slashes, Node.linkLimit,
    Node.follow, Node.descend_here (by simpa [found] using passes),
    Node.descend_of_empty fun _ member => List.eq_of_mem_replicate member]
  exact found

/-- A path that leads to a directory leads on along a route, unless it becomes too long or cannot
go on through the directories on the way. -/
theorem locate?_joinRoute (proper : system.top.Proper)
    (located : system.locate? true path = some route)
    (directory : system.top.at? route = some (.dir access entries))
    (along : (Node.dir access entries).at? names = some last) (real : ∀ target, last ≠ .link target)
    (present : names ≠ []) :
    system.locate? true (path.joinRoute names) =
      if !(path.joinRoute names).isTooLong && (Node.dir access entries).isPassable names then
        some (route ++ names)
      else none := by
  have named := ((proper.of_at? directory).1.of_at? along).2
  unfold locate? at located
  split at located
  case isFalse => exact absurd located (by simp)
  case isTrue usable =>
    obtain ⟨sound, starts⟩ := (Path.isUsable_iff.1 usable).1.joinRoute named
    obtain ⟨trailing, split, empty⟩ := path.segments_eq_base_append
    have origin : system.origin (path.joinRoute names) = system.origin path := by
      rw [FileSystem.origin, starts]
      rfl
    rw [split] at located
    rw [locate?, origin, Path.segments_joinRoute named present,
      Node.follow_append empty present named directory along real Node.linkLimit path.base located]
    by_cases long : (path.joinRoute names).isTooLong
    · rw [if_neg fun usable => by simp [(Path.isUsable_iff.1 usable).2] at long, long]
      rfl
    · rw [if_pos (Path.isUsable_iff.2 ⟨sound, Bool.eq_false_iff.2 long⟩),
        Bool.eq_false_iff.2 long]
      rfl

end FileSystem

end DocLint
