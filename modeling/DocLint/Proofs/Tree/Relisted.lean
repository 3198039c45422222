import DocLint.Proofs.Tree.Below
import Mathlib.Data.List.Nodup

/-!
# Listing a tree in another order

A directory lists its entries in an order of its own. What lies along a route does not depend on
that order (`Node.Relisted.at?_rel`), so that a path leads to the same place
(`FileSystem.locate?_relist`); and since a visit sorts entries by their names, neither do the steps
of a visit (`Node.Relisted.visits_eq`). Hence a scan lists the same paths
(`FileSystem.scan_relist`).
-/

namespace DocLint

namespace Node

/-- Whether two trees differ at most in the order in which directories list their entries. -/
inductive Relisted : Node → Node → Prop where
  | file (file : File) : Relisted (.file file) (.file file)
  | link (target : Path) : Relisted (.link target) (.link target)
  | dir (access : Access) {entries others : List (Name × Node)}
      (names : (entries.map (·.1)).Perm (others.map (·.1)))
      (nodes : ∀ name node other, (name, node) ∈ entries → (name, other) ∈ others →
        Relisted node other) : Relisted (.dir access entries) (.dir access others)

namespace Relisted

variable {top other : Node}

/-- Every entry has a counterpart in the other order. -/
theorem exists_entry {entries others : List (Name × Node)}
    (names : (entries.map (·.1)).Perm (others.map (·.1))) {name : Name} {node : Node}
    (member : (name, node) ∈ entries) : ∃ other, (name, other) ∈ others := by
  have listed : name ∈ others.map (·.1) := names.subset (List.mem_map_of_mem member)
  obtain ⟨entry, found, rfl⟩ := List.mem_map.1 listed
  exact ⟨entry.2, found⟩

theorem proper_of_proper (proper : top.Proper) (same : top.Relisted other) : other.Proper := by
  induction proper generalizing other with
  | file file =>
      cases same
      exact .file file
  | link target =>
      cases same
      exact .link target
  | @dir access entries distinct named _ ih =>
      cases same with
      | @dir _ _ others names nodes =>
          refine .dir access (names.nodup_iff.1 distinct) ?_ ?_
          · intro entry member
            obtain ⟨node, found⟩ := exists_entry names.symm member
            exact named (entry.1, node) found
          · intro entry member
            obtain ⟨node, found⟩ := exists_entry names.symm member
            exact ih _ found (nodes _ _ _ found member)

/-! ## Following routes -/

theorem child?_rel (proper : top.Proper) (same : top.Relisted other) (name : Name) :
    Option.Rel Relisted (top.child? name) (other.child? name) := by
  have properOther := same.proper_of_proper proper
  cases same with
  | file file => exact .none
  | link target => exact .none
  | @dir access entries others names nodes =>
      cases found : (Node.dir access entries).child? name with
      | none =>
          cases foundOther : (Node.dir access others).child? name with
          | none => exact .none
          | some node =>
              obtain ⟨child, member⟩ :=
                exists_entry names.symm (properOther.child?_eq_some_iff.1 foundOther)
              exact absurd (found.symm.trans (proper.child?_eq_some_iff.2 member)) (by simp)
      | some node =>
          have member := proper.child?_eq_some_iff.1 found
          obtain ⟨child, memberOther⟩ := exists_entry names member
          rw [properOther.child?_eq_some_iff.2 memberOther]
          exact .some (nodes _ _ _ member memberOther)

/-- Along a route lies the same tree, listed in another order. -/
theorem at?_rel (proper : top.Proper) (same : top.Relisted other) (route : Route) :
    Option.Rel Relisted (top.at? route) (other.at? route) := by
  induction route generalizing top other with
  | nil => exact .some same
  | cons name route ih =>
      have next := same.child?_rel proper name
      rw [Node.at?, Node.at?]
      generalize found : top.child? name = child, other.child? name = childOther at next
      cases next with
      | none => exact .none
      | @some child _ same =>
          have along : top.at? [name] = some child := by rw [Node.at?, found]; rfl
          exact ih (proper.of_at? along).1 same

theorem any_passes_eq (proper : top.Proper) (same : top.Relisted other) (here : Route) :
    (other.at? here).any passes = (top.at? here).any passes := by
  have place := same.at?_rel proper here
  generalize top.at? here = node, other.at? here = nodeOther at place
  cases place with
  | none => rfl
  | some same =>
      cases same with
      | file file => rfl
      | link target => rfl
      | dir access names nodes => rfl

theorem descend_eq (proper : top.Proper) (same : top.Relisted other) (followLast : Bool)
    (atLink : Route → Path → List Name → Option Route) (here : Route) (segments : List Name) :
    other.descend followLast atLink here segments =
      top.descend followLast atLink here segments := by
  induction segments generalizing here with
  | nil => rfl
  | cons segment rest ih =>
      have next := same.at?_rel proper (here ++ [segment])
      rw [descend, descend, same.any_passes_eq proper, ih, ih, ih]
      generalize top.at? (here ++ [segment]) = child, other.at? (here ++ [segment]) = childOther
        at next
      cases next with
      | none => rfl
      | some same =>
          cases same with
          | file file => rfl
          | link target => rfl
          | dir access names nodes => rfl

theorem follow_eq (proper : top.Proper) (same : top.Relisted other) (followLast : Bool)
    (links : Nat) (here : Route) (segments : List Name) :
    other.follow followLast links here segments = top.follow followLast links here segments := by
  induction links generalizing here segments with
  | zero => exact same.descend_eq proper followLast _ here segments
  | succ links ih =>
      rw [follow, follow, same.descend_eq proper]
      congr 1
      funext here target rest
      rw [ih]

/-! ## Visits -/

/-- Sorted blocks of different names are the same in whichever order they are given. -/
theorem inOrder_eq_of_perm {α : Type} {blocks others : List (Name × List α)}
    (distinct : (blocks.map (·.1)).Nodup) (same : blocks.Perm others) :
    inOrder blocks = inOrder others := by
  have sorted := pairwise_lt_mergeSort distinct
  have sortedOther := pairwise_lt_mergeSort ((same.map _).nodup_iff.1 distinct)
  have alike : (blocks.mergeSort before).Perm (others.mergeSort before) :=
    (List.mergeSort_perm blocks before).trans (same.trans (List.mergeSort_perm others before).symm)
  rw [inOrder, inOrder, alike.eq_of_pairwise (fun _ _ _ _ first second => ?_) sorted sortedOther]
  exact absurd (List.lt_trans first second) (List.lt_irrefl _)

theorem visitBlocks_subset {entries others : List (Name × Node)} {path : Path}
    (names : (entries.map (·.1)).Perm (others.map (·.1)))
    (visits : ∀ name node other, (name, node) ∈ entries → (name, other) ∈ others →
      other.visits (path.join name) = node.visits (path.join name)) :
    visitBlocks path entries ⊆ visitBlocks path others := by
  intro block there
  rw [visitBlocks_eq_map] at there ⊢
  obtain ⟨⟨name, node⟩, member, rfl⟩ := List.mem_map.1 there
  obtain ⟨child, found⟩ := exists_entry names member
  exact List.mem_map.2 ⟨(name, child), found, Prod.ext rfl (visits name node child member found)⟩

theorem visits_eq (proper : top.Proper) (same : top.Relisted other) (path : Path) :
    other.visits path = top.visits path := by
  induction proper generalizing other path with
  | file file =>
      cases same
      rfl
  | link target =>
      cases same
      rfl
  | @dir access entries distinct named properInner ih =>
      cases same with
      | @dir _ _ others names nodes =>
          have distinctOther := names.nodup_iff.1 distinct
          have blocks {entries : List (Name × Node)} (distinct : (entries.map (·.1)).Nodup) :
              ((visitBlocks path entries).map (·.1)).Nodup := by
            rw [visitBlocks_eq_map, List.map_map]
            exact distinct
          have alike : (visitBlocks path others).Perm (visitBlocks path entries) := by
            refine (List.perm_ext_iff_of_nodup (List.Nodup.of_map _ (blocks distinctOther))
              (List.Nodup.of_map _ (blocks distinct))).2 fun block => ⟨?_, ?_⟩
            · apply visitBlocks_subset names.symm
              intro name child node found member
              exact (ih _ member (nodes _ _ _ member found) (path.join name)).symm
            · apply visitBlocks_subset names
              intro name node child member found
              exact ih _ member (nodes _ _ _ member found) (path.join name)
          rw [visits, visits, inOrder_eq_of_perm (blocks distinctOther) alike]

end Relisted

end Node

/-! ## Scans -/

namespace FileSystem

variable {system : FileSystem} {other : Node}

/-- The same file system with its directories listed in another order. -/
def relist (system : FileSystem) (other : Node) : FileSystem :=
  { system with top := other }

section Relist

variable (proper : system.top.Proper) (same : system.top.Relisted other)

include proper same

/-- A path leads to the same place. -/
theorem locate?_relist (followLast : Bool) (path : Path) :
    (system.relist other).locate? followLast path = system.locate? followLast path := by
  rw [locate?, locate?, relist, same.follow_eq proper]
  rfl

theorem resolve?_relist (followLast : Bool) (path : Path) :
    Option.Rel Node.Relisted (system.resolve? followLast path)
      ((system.relist other).resolve? followLast path) := by
  rw [resolve?, resolve?, locate?_relist proper same]
  cases system.locate? followLast path with
  | none => exact .none
  | some route => exact same.at?_rel proper route

theorem start?_relist (root : Path) :
    Option.Rel Node.Relisted (system.start? root) ((system.relist other).start? root) := by
  have ends := resolve?_relist proper same false root
  have followed := resolve?_relist proper same true root
  rw [start?, start?]
  generalize system.resolve? false root = last at ends ⊢
  generalize (system.relist other).resolve? false root = lastOther at ends ⊢
  generalize system.resolve? true root = place at followed ⊢
  generalize (system.relist other).resolve? true root = placeOther at followed ⊢
  cases ends with
  | none => exact .none
  | some same =>
      cases same with
      | file file => exact .some (.file file)
      | dir access names nodes => exact .some (.dir access names nodes)
      | link target =>
          cases followed with
          | none => exact .none
          | some same =>
              cases same with
              | dir access names nodes => exact .some (.dir access names nodes)
              | _ => exact .some (.link target)

theorem isBlocked_relist : (system.relist other).isBlocked = system.isBlocked := by
  funext visit
  have place := resolve?_relist proper same true visit.path
  rw [isBlocked, isBlocked, lists, lists]
  generalize system.resolve? true visit.path = node,
    (system.relist other).resolve? true visit.path = nodeOther at place
  cases place with
  | none => rfl
  | some same =>
      cases same with
      | file file => rfl
      | link target => rfl
      | dir access names nodes => rfl

/-- **A scan does not depend on the order in which directories list their entries.** -/
theorem scan_relist (extension : Text) (root : Path) :
    (system.relist other).scan extension root = system.scan extension root := by
  have steps : (system.relist other).visitsFrom? root = system.visitsFrom? root := by
    have started := start?_relist proper same root
    rw [visitsFrom?, visitsFrom?]
    generalize found : system.start? root = start, (system.relist other).start? root = startOther
      at started
    cases started with
    | none => rfl
    | some same => exact congrArg some (same.visits_eq (proper_of_start? proper found) root)
  rw [scan, scan, steps, isBlocked_relist proper same]

end Relist

end FileSystem

end DocLint
