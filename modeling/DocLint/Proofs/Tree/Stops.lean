import DocLint.Tree.Files
import Mathlib.Logic.Basic

/-!
# Where a visit stops

The steps of a visit depend on the path it starts at only through the paths that they show:
underneath is a list of routes, the stops. They ascend component by component and byte by byte
(`Proper.stops_ascend`), and they are the routes to the regular files and the directories that
are reached without a link (`Proper.mem_stops_iff`).
-/

namespace DocLint

/-- A regular file or a directory come to on a visit, by its route from the start. -/
structure Stop where
  route : Route
  isDirectory : Bool
  deriving DecidableEq, Repr

namespace Stop

/-- A stop in the entry with a name, seen from the directory that holds the entry. -/
def under (name : Name) (stop : Stop) : Stop :=
  { stop with route := name :: stop.route }

/-- The step made at a stop when the visit starts at a path. -/
def visit (path : Path) (stop : Stop) : Node.Visit :=
  ⟨path.joinRoute stop.route, stop.isDirectory⟩

end Stop

namespace Node

mutual

/-- The stops of the visit of a tree, in visiting order. -/
def stops : Node → List Stop
  | .file found => if found.isRegular then [⟨[], false⟩] else []
  | .link _ => []
  | .dir _ entries => ⟨[], true⟩ :: inOrder (stopBlocks entries)

/-- For each entry of a directory, the stops of its visit. -/
def stopBlocks : List (Name × Node) → List (Name × List Stop)
  | [] => []
  | (name, node) :: rest => (name, node.stops.map (Stop.under name)) :: stopBlocks rest

end

/-- Whether a node is a directory or else a regular file, if it is one of these. -/
def isDirectory? : Node → Option Bool
  | .file found => if found.isRegular then some false else none
  | .link _ => none
  | .dir .. => some true

theorem isDirectory?_eq_true_iff {node : Node} :
    node.isDirectory? = some true ↔ ∃ access entries, node = .dir access entries := by
  cases node with
  | file found => simp [isDirectory?]
  | link target => simp [isDirectory?]
  | dir access entries => simp [isDirectory?]

theorem stopBlocks_eq_map (entries : List (Name × Node)) : stopBlocks entries =
    entries.map fun entry => (entry.1, entry.2.stops.map (Stop.under entry.1)) := by
  induction entries with
  | nil => rfl
  | cons entry rest ih => rw [stopBlocks, ih, List.map_cons]

theorem visitBlocks_eq_map (path : Path) (entries : List (Name × Node)) :
    visitBlocks path entries =
      entries.map fun entry => (entry.1, entry.2.visits (path.join entry.1)) := by
  induction entries with
  | nil => rfl
  | cons entry rest ih => rw [visitBlocks, ih, List.map_cons]

/-! ## The order of blocks -/

section Blocks

variable {α β : Type}

theorem mem_inOrder_iff {blocks : List (Name × List α)} {item : α} :
    item ∈ inOrder blocks ↔ ∃ block ∈ blocks, item ∈ block.2 := by
  simp [inOrder]

/-- Only the names decide in which order blocks come. -/
theorem inOrder_map (change : α → β) (blocks : List (Name × List α)) :
    inOrder (blocks.map fun block => (block.1, block.2.map change)) =
      (inOrder blocks).map change := by
  have sorted := @List.map_mergeSort _ _ before before
    (fun block : Name × List α => (block.1, block.2.map change)) blocks fun _ _ _ _ => rfl
  unfold inOrder
  rw [← sorted, List.flatMap_map, List.map_flatMap]

/-- Blocks of different names come strictly by their names. -/
theorem pairwise_lt_mergeSort {blocks : List (Name × List α)}
    (distinct : (blocks.map (·.1)).Nodup) :
    (blocks.mergeSort before).Pairwise fun left right => left.1 < right.1 := by
  have sorted := @List.pairwise_mergeSort (Name × List α) before
    (fun _ _ _ earlier later =>
      decide_eq_true (List.le_trans (of_decide_eq_true earlier) (of_decide_eq_true later)))
    (fun first second => by simpa [before] using List.le_total first.1 second.1) blocks
  have different : ((blocks.mergeSort before).map (·.1)).Nodup :=
    ((List.mergeSort_perm blocks before).map _).nodup_iff.2 distinct
  rw [List.Nodup, List.pairwise_map] at different
  refine sorted.imp₂ ?_ different
  intro left right ordered other
  exact Std.lt_of_le_of_ne (of_decide_eq_true ordered) other

theorem pairwise_inOrder {follows : α → α → Prop} {blocks : List (Name × List α)}
    (distinct : (blocks.map (·.1)).Nodup) (within : ∀ block ∈ blocks, block.2.Pairwise follows)
    (across : ∀ left right : Name × List α, left.1 < right.1 → left ∈ blocks → right ∈ blocks →
      ∀ first ∈ left.2, ∀ second ∈ right.2, follows first second) :
    (inOrder blocks).Pairwise follows := by
  unfold inOrder
  rw [List.pairwise_flatMap]
  refine ⟨fun block member => within block (List.mem_mergeSort.1 member), ?_⟩
  refine (pairwise_lt_mergeSort distinct).imp_of_mem ?_
  intro left right memberLeft memberRight ordered
  exact across left right ordered (List.mem_mergeSort.1 memberLeft)
    (List.mem_mergeSort.1 memberRight)

end Blocks

/-! ## Stops and steps -/

/-- Entries that are listed by ascending names are visited as they are listed. -/
theorem visits_of_ascending {access : Access} {entries : List (Name × Node)}
    (ascending : entries.Pairwise fun left right => left.1 ≤ right.1) (path : Path) :
    (Node.dir access entries).visits path =
      ⟨path, true⟩ :: entries.flatMap fun entry => entry.2.visits (path.join entry.1) := by
  have sorted : (visitBlocks path entries).Pairwise fun left right => before left right := by
    rw [visitBlocks_eq_map, List.pairwise_map]
    exact ascending.imp decide_eq_true
  rw [visits, inOrder, List.mergeSort_of_pairwise sorted, visitBlocks_eq_map, List.flatMap_map]

namespace Proper

variable {node : Node}

theorem child?_eq_some_iff {access : Access} {entries : List (Name × Node)}
    (proper : Proper (.dir access entries)) {name : Name} {child : Node} :
    (Node.dir access entries).child? name = some child ↔ (name, child) ∈ entries := by
  unfold child? Node.entries
  rw [List.lookup_eq_some_iff]
  constructor
  · intro there
    obtain ⟨before, after, rfl, _⟩ := there
    simp
  · intro member
    obtain ⟨before, after, rfl⟩ := List.append_of_mem member
    refine ⟨before, after, rfl, fun entry earlier => ?_⟩
    cases proper with
    | dir _ distinct _ _ =>
        rw [List.map_append, List.nodup_append] at distinct
        have other := distinct.2.2 entry.1 (List.mem_map_of_mem earlier) name (by simp)
        exact bne_iff_ne.2 other.symm

/-- What lies along a route in a tree is a tree, and the route is made of entry names. -/
theorem of_at? (proper : node.Proper) {route : Route} {last : Node}
    (along : node.at? route = some last) :
    last.Proper ∧ ∀ name ∈ route, isEntryName name := by
  induction route generalizing node with
  | nil =>
      obtain rfl := Option.some.inj along
      exact ⟨proper, by simp⟩
  | cons name route ih =>
      obtain ⟨child, isChild, onward⟩ := Option.bind_eq_some_iff.1 along
      cases node with
      | file found => simp [child?, Node.entries] at isChild
      | link target => simp [child?, Node.entries] at isChild
      | dir access entries =>
          have member := (child?_eq_some_iff proper).1 isChild
          cases proper with
          | dir _ _ named inner =>
              obtain ⟨properLast, others⟩ := ih (inner _ member) onward
              exact ⟨properLast, List.forall_mem_cons.2 ⟨named _ member, others⟩⟩

/-- The steps of a visit are its stops, shown from the path that it starts at. -/
theorem visits_eq_map (proper : node.Proper) (path : Path) :
    node.visits path = node.stops.map (Stop.visit path) := by
  induction proper generalizing path with
  | file found =>
      rw [visits, stops]
      split
      · rfl
      · rfl
  | link target => rfl
  | @dir access entries _ _ _ ih =>
      have blocks : visitBlocks path entries = (stopBlocks entries).map fun block =>
          (block.1, block.2.map (Stop.visit path)) := by
        rw [visitBlocks_eq_map, stopBlocks_eq_map, List.map_map]
        refine List.map_congr_left fun entry member => ?_
        rw [ih entry member, Function.comp_apply, List.map_map]
        rfl
      rw [visits, stops, blocks, inOrder_map]
      rfl

/-- Stops come in the order of their routes, which is that of the names on them, compared byte
by byte. -/
theorem stops_ascend (proper : node.Proper) :
    node.stops.Pairwise fun left right => left.route < right.route := by
  induction proper with
  | file found =>
      rw [stops]
      split
      · exact List.pairwise_singleton _ _
      · exact List.Pairwise.nil
  | link target => exact List.Pairwise.nil
  | @dir access entries distinct _ _ ih =>
      have below {stop : Stop} {name : Name} {node : Node}
          (member : stop ∈ node.stops.map (Stop.under name)) :
          ∃ route, stop.route = name :: route := by
        obtain ⟨inner, _, rfl⟩ := List.mem_map.1 member
        exact ⟨inner.route, rfl⟩
      rw [stops, stopBlocks_eq_map, List.pairwise_cons]
      constructor
      · intro stop member
        obtain ⟨block, present, member⟩ := mem_inOrder_iff.1 member
        obtain ⟨entry, _, rfl⟩ := List.mem_map.1 present
        obtain ⟨route, starts⟩ := below member
        rw [starts]
        exact List.nil_lt_cons _ _
      · apply pairwise_inOrder
        · simpa [List.map_map, Function.comp_def] using distinct
        · intro block present
          obtain ⟨entry, member, rfl⟩ := List.mem_map.1 present
          rw [List.pairwise_map]
          exact (ih entry member).imp fun earlier => List.cons_lt_cons_self.2 earlier
        · intro left right ordered presentLeft presentRight first memberFirst second memberSecond
          obtain ⟨_, _, rfl⟩ := List.mem_map.1 presentLeft
          obtain ⟨_, _, rfl⟩ := List.mem_map.1 presentRight
          obtain ⟨_, startsFirst⟩ := below memberFirst
          obtain ⟨_, startsSecond⟩ := below memberSecond
          rw [startsFirst, startsSecond]
          exact List.cons_lt_cons_iff.2 (Or.inl ordered)

/-- The stops are the routes to what is reached without going through a link. -/
theorem mem_stops_iff (proper : node.Proper) {stop : Stop} :
    stop ∈ node.stops ↔ (node.at? stop.route).bind isDirectory? = some stop.isDirectory := by
  induction proper generalizing stop with
  | file found =>
      obtain ⟨route, isDirectory⟩ := stop
      cases route with
      | nil =>
          by_cases regular : found.isRegular
          · simp [stops, at?, isDirectory?, regular, eq_comm]
          · simp [stops, at?, isDirectory?, regular]
      | cons name route =>
          by_cases regular : found.isRegular
          · simp [stops, at?, child?, Node.entries, regular]
          · simp [stops, at?, child?, Node.entries, regular]
  | link target =>
      obtain ⟨route, isDirectory⟩ := stop
      cases route with
      | nil => simp [stops, at?, isDirectory?]
      | cons name route => simp [stops, at?, child?, Node.entries]
  | @dir access entries distinct named proper ih =>
      have inside : stop ∈ inOrder (stopBlocks entries) ↔ ∃ entry ∈ entries,
          ∃ inner ∈ entry.2.stops, inner.under entry.1 = stop := by
        simp only [mem_inOrder_iff, stopBlocks_eq_map, List.mem_map, exists_exists_and_eq_and]
      rw [stops, List.mem_cons, inside]
      obtain ⟨route, isDirectory⟩ := stop
      cases route with
      | nil => simp [Stop.under, at?, Node.isDirectory?, eq_comm]
      | cons name route =>
          have here : (Node.dir access entries).Proper := .dir access distinct named proper
          simp only [Stop.under, at?, Stop.mk.injEq]
          constructor
          · rintro (⟨nowhere, _⟩ | ⟨⟨_, child⟩, member, inner, found, same, rfl⟩)
            · exact absurd nowhere (List.cons_ne_nil _ _)
            · obtain ⟨rfl, rfl⟩ := List.cons.inj same
              rw [(child?_eq_some_iff here).2 member]
              exact (ih _ member).1 found
          · intro found
            obtain ⟨last, along, kind⟩ := Option.bind_eq_some_iff.1 found
            obtain ⟨child, isChild, along⟩ := Option.bind_eq_some_iff.1 along
            have member := (child?_eq_some_iff here).1 isChild
            refine Or.inr ⟨(name, child), member, ⟨route, isDirectory⟩, ?_, rfl, rfl⟩
            rw [ih _ member, along]
            exact kind

end Proper

end Node

end DocLint
