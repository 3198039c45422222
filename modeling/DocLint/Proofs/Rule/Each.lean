import DocLint.Proofs.Rule.Order
import Mathlib.Data.List.Sort

/-!
# Findings made one by one

Most rules look at one thing at a time: at a line, or at a line and the one before it. What they
find depends on what they look at and only carries its number (`Rule.findEach`). The rule about
full-width characters is one of them, although it goes through the lines once for each kind
(`Rule.checkFullWidth_eq_findEach`), and so is the one about blank lines, although it counts them
(`Rule.checkBlankLines_eq_findEach`).
-/

namespace DocLint

/-- The same finding, a number of lines further down. -/
def Finding.shift (count : Nat) (finding : Finding) : Finding :=
  { finding with line := finding.line + count }

instance : Std.Antisymm Finding.Before where
  antisymm _ _ before after := absurd after before.asymm

/-- The pairs of items that stand side by side. -/
def adjacent {α : Type} (items : List α) : List (α × α) :=
  items.zip items.tail

namespace Rule

variable {α β : Type} {file : Text} {found : α → List Violation}

/-- What is found in items, one after the other, the first of which has a given number. -/
def findEach (file : Text) (found : α → List Violation) (number : Nat) : List α → List Finding
  | [] => []
  | item :: rest =>
      (found item).map (fun violation => ⟨file, number, violation⟩) ++
        findEach file found (number + 1) rest

theorem findEach_append (number : Nat) (first second : List α) :
    findEach file found number (first ++ second) =
      findEach file found number first ++ findEach file found (number + first.length) second := by
  induction first generalizing number with
  | nil => rfl
  | cons item rest ih =>
      have next : number + 1 + rest.length = number + (item :: rest).length := by simp; omega
      rw [List.cons_append, findEach, findEach, ih, next, List.append_assoc]

theorem findEach_map (change : β → α) (number : Nat) (items : List β) :
    findEach file found number (items.map change) =
      findEach file (fun item => found (change item)) number items := by
  induction items generalizing number with
  | nil => rfl
  | cons item rest ih => rw [List.map_cons, findEach, findEach, ih]

/-- Items that are numbered higher have the same findings further down. -/
theorem findEach_add (count number : Nat) (items : List α) :
    findEach file found (number + count) items =
      (findEach file found number items).map (Finding.shift count) := by
  induction items generalizing number with
  | nil => rfl
  | cons item rest ih =>
      rw [findEach, findEach, List.map_append, List.map_map, ← ih, Nat.add_right_comm]
      rfl

theorem mem_findEach_iff {number : Nat} {items : List α} {finding : Finding} :
    finding ∈ findEach file found number items ↔ ∃ index item violation,
      items[index]? = some item ∧ violation ∈ found item ∧
        finding = ⟨file, number + index, violation⟩ := by
  induction items generalizing number with
  | nil => simp [findEach]
  | cons first rest ih =>
      rw [findEach, List.mem_append, List.mem_map, ih]
      constructor
      · rintro (⟨violation, member, rfl⟩ | ⟨index, item, violation, there, member, rfl⟩)
        · exact ⟨0, first, violation, rfl, member, rfl⟩
        · exact ⟨index + 1, item, violation, there, member, by rw [Nat.add_right_comm]; rfl⟩
      · rintro ⟨index, item, violation, there, member, rfl⟩
        cases index with
        | zero =>
            obtain rfl := Option.some.inj there
            exact Or.inl ⟨violation, member, rfl⟩
        | succ index =>
            exact Or.inr ⟨index, item, violation, there, member,
              by rw [Nat.add_right_comm, Nat.add_assoc]⟩

/-- Findings made one by one are in order if those in each item are. -/
theorem findEach_pairwise_before {stage : Nat}
    (staged : ∀ item, ∀ violation ∈ found item, violation.stage = stage)
    (ranked : ∀ item, (found item).Pairwise fun left right => left.rank < right.rank)
    (number : Nat) (items : List α) :
    (findEach file found number items).Pairwise Finding.Before := by
  induction items generalizing number with
  | nil => exact .nil
  | cons item rest ih =>
      rw [findEach, List.pairwise_append, List.pairwise_map]
      refine ⟨?_, ih (number + 1), ?_⟩
      · refine (ranked item).imp_of_mem fun memberLeft memberRight ascending => ?_
        have alike := (staged item _ memberLeft).trans (staged item _ memberRight).symm
        exact Finding.before_iff.2 (Or.inr ⟨alike, Or.inr ⟨rfl, ascending⟩⟩)
      · intro left memberLeft right memberRight
        obtain ⟨violation, member, rfl⟩ := List.mem_map.1 memberLeft
        obtain ⟨index, other, violationRight, _, memberOther, rfl⟩ := mem_findEach_iff.1 memberRight
        have alike := (staged item _ member).trans (staged other _ memberOther).symm
        exact Finding.before_iff.2 (Or.inr ⟨alike, Or.inl (by simp; omega)⟩)

/-! ## The rules as such -/

private theorem filter_zipIdx_eq_findEach (violation : Violation) (test : α → Bool) (number : Nat)
    (items : List α) :
    ((items.zipIdx number).filter fun item => test item.1).map
        (fun item => (⟨file, item.2, violation⟩ : Finding)) =
      findEach file (fun item => if test item then [violation] else []) number items := by
  induction items generalizing number with
  | nil => rfl
  | cons item rest ih =>
      rw [List.zipIdx_cons, List.filter_cons, findEach, ← ih]
      by_cases passed : test item
      · simp [passed]
      · simp [passed]

theorem checkRepeatedSpaces_eq_findEach (file : Text) (lines : List Text) :
    checkRepeatedSpaces file lines =
      findEach file (fun line => if line.hasRepeatedSpace then [.repeatedSpaces] else []) 1 lines :=
  filter_zipIdx_eq_findEach .repeatedSpaces Text.hasRepeatedSpace 1 lines

theorem checkBlankLines_eq_findEach (file : Text) (lines : List Text) :
    checkBlankLines file lines =
      findEach file
        (fun pair => if pair.1.isBlank && pair.2.isBlank then [.repeatedBlankLines] else []) 2
        (adjacent lines) := by
  rw [checkBlankLines_eq]
  exact filter_zipIdx_eq_findEach .repeatedBlankLines
    (fun pair : Text × Text => pair.1.isBlank && pair.2.isBlank) 2 (adjacent lines)

/-- The kinds of full-width character in a line, as violations. -/
def fullWidthIn (line : Text) : List Violation :=
  (FullWidth.all.filter fun kind => kind.chars.occursIn line).map .fullWidth

theorem checkFullWidth_eq_findEach (file : Text) (lines : List Text) :
    checkFullWidth file lines = findEach file fullWidthIn 1 lines := by
  have complete (kind : FullWidth) : kind ∈ FullWidth.all := by cases kind <;> decide
  have kinds {line : Text} {violation : Violation} : violation ∈ fullWidthIn line ↔
      ∃ kind, .fullWidth kind = violation ∧ kind.chars.occursIn line := by
    simp [fullWidthIn, complete, and_comm]
  have staged : ∀ line, ∀ violation ∈ fullWidthIn line, violation.stage = 2 := by
    intro line violation member
    obtain ⟨kind, rfl, _⟩ := kinds.1 member
    rfl
  have ranked : ∀ line, (fullWidthIn line).Pairwise fun left right => left.rank < right.rank := by
    intro line
    have ascending : FullWidth.all.Pairwise fun left right => left.rank < right.rank := by decide
    rw [fullWidthIn, List.pairwise_map]
    exact ascending.filter _
  -- The rule sorts what it finds kind by kind, but in strict order the members alone decide.
  refine (check_pairwise_before .fullWidth file lines).eq_of_mem_iff
    (findEach_pairwise_before staged ranked 1 lines) fun finding => ?_
  change finding ∈ checkFullWidth file lines ↔ _
  rw [mem_checkFullWidth_iff, mem_findEach_iff]
  constructor
  · rintro ⟨kind, index, ⟨line, there, held⟩, rfl⟩
    exact ⟨index, line, .fullWidth kind, there,
      kinds.2 ⟨kind, rfl, (CharClass.occursIn_iff _ _).2 held⟩, by rw [Nat.add_comm]⟩
  · rintro ⟨index, line, violation, there, member, rfl⟩
    obtain ⟨kind, rfl, held⟩ := kinds.1 member
    exact ⟨kind, index, ⟨line, there, (CharClass.occursIn_iff _ _).1 held⟩, by rw [Nat.add_comm]⟩

end Rule

/-- What the rules find, rule by rule. -/
theorem checkLines_eq_stages (file : Text) (lines : List Text) :
    checkLines file lines =
      Rule.checkLineEnding file lines ++ Rule.checkFullWidth file lines ++
        Rule.checkRepeatedSpaces file lines ++ Rule.checkBlankLines file lines ++
        Rule.checkFinalNewline file lines := by
  simp [checkLines, Rule.all, Rule.check]

end DocLint
