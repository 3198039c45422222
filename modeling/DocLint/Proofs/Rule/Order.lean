import DocLint.Proofs.Rule.Places
import Mathlib.Data.List.Nodup

/-!
# The order of findings

Findings come rule by rule, for one rule in ascending order of line, and for one line in the
order of the kinds of full-width character. The rule about these characters finds kind by kind
and sorts by line afterwards, which is enough because a stable sort leaves the findings for one
line as they stand (`filter_mergeSort_key`). Main statement: `checkLines_pairwise_before`.
-/

namespace DocLint

/-! ## Stable sorts -/

section Stable

variable {α : Type} (key : α → Nat)

private theorem key_le_trans (first second third : α) (left : decide (key first ≤ key second))
    (right : decide (key second ≤ key third)) : decide (key first ≤ key third) := by
  simp only [decide_eq_true_eq] at left right ⊢
  exact Nat.le_trans left right

private theorem key_le_total (first second : α) :
    (decide (key first ≤ key second) || decide (key second ≤ key first)) := by
  simp only [Bool.or_eq_true, decide_eq_true_eq]
  exact Nat.le_total _ _

/-- Sorting by a key leaves the items of one key as they stand. -/
theorem filter_mergeSort_key (value : Nat) (items : List α) :
    (items.mergeSort fun left right => key left ≤ key right).filter (key · = value) =
      items.filter (key · = value) := by
  have alike : (items.filter (key · = value)).Pairwise
      fun left right => decide (key left ≤ key right) := by
    apply List.pairwise_of_forall_mem_list
    intro left leftMember right rightMember
    have leftKey := of_decide_eq_true (List.mem_filter.1 leftMember).2
    have rightKey := of_decide_eq_true (List.mem_filter.1 rightMember).2
    exact decide_eq_true (Nat.le_of_eq (leftKey.trans rightKey.symm))
  have kept := List.sublist_mergeSort (key_le_trans key) (key_le_total key) alike
    List.filter_sublist
  have inside := kept.filter (key · = value)
  simp only [List.filter_filter, Bool.and_self] at inside
  refine (inside.eq_of_length ?_).symm
  exact ((List.mergeSort_perm items _).symm.filter _).length_eq

/-- Items that stand in a relation stand in it after sorting too, as far as their keys are the
same. -/
theorem pairwise_mergeSort_key {Related : α → α → Prop} {items : List α}
    (related : items.Pairwise Related) :
    (items.mergeSort fun left right => key left ≤ key right).Pairwise
      fun left right => key left < key right ∨ key left = key right ∧ Related left right := by
  rw [List.pairwise_iff_forall_sublist]
  intro left right pair
  have sorted := List.pairwise_mergeSort (key_le_trans key) (key_le_total key) items
  have ascending := of_decide_eq_true (List.pairwise_iff_forall_sublist.1 sorted pair)
  by_cases same : key left = key right
  · refine Or.inr ⟨same, ?_⟩
    have among := pair.filter (key · = key right)
    rw [filter_mergeSort_key] at among
    simp only [List.filter_cons, same, decide_true, ↓reduceIte, List.filter_nil] at among
    exact List.pairwise_iff_forall_sublist.1 related (among.trans List.filter_sublist)
  · exact Or.inl (Nat.lt_of_le_of_ne ascending same)

end Stable

/-! ## The place of a finding -/

/-- The place of a kind among the kinds in a line. -/
def FullWidth.rank : FullWidth → Nat
  | .space => 0
  | .paren => 1
  | .alphabet => 2
  | .numeric => 3
  | .symbol => 4

/-- The place of a rule among the rules. -/
def Rule.stage : Rule → Nat
  | .lineEnding => 1
  | .fullWidth => 2
  | .repeatedSpaces => 3
  | .blankLines => 4
  | .finalNewline => 5

namespace Violation

/-- The place of the rule that reports a violation. No rule reports that a file is not UTF-8,
which is found before them. -/
def stage : Violation → Nat
  | .notUtf8 => 0
  | .lineEndingNotLf => 1
  | .fullWidth _ => 2
  | .repeatedSpaces => 3
  | .repeatedBlankLines => 4
  | .missingFinalNewline => 5

theorem eq_lineEndingNotLf_iff {violation : Violation} :
    violation = .lineEndingNotLf ↔ violation.stage = Rule.lineEnding.stage := by
  cases violation <;> simp [stage, Rule.stage]

theorem eq_missingFinalNewline_iff {violation : Violation} :
    violation = .missingFinalNewline ↔ violation.stage = Rule.finalNewline.stage := by
  cases violation <;> simp [stage, Rule.stage]

/-- The place of a violation among those that one rule reports for one line. -/
def rank : Violation → Nat
  | .fullWidth kind => kind.rank
  | _ => 0

end Violation

namespace Finding

/-- What findings are ordered by: the rule, then the line, then the kind of character. -/
def key (finding : Finding) : List Nat :=
  [finding.violation.stage, finding.line, finding.violation.rank]

/-- One finding stands before another. -/
def Before (left right : Finding) : Prop :=
  left.key < right.key

theorem before_iff {left right : Finding} : left.Before right ↔
    left.violation.stage < right.violation.stage ∨
      left.violation.stage = right.violation.stage ∧ (left.line < right.line ∨
        left.line = right.line ∧ left.violation.rank < right.violation.rank) := by
  simp [Before, key, List.cons_lt_cons_iff]

instance : Std.Irrefl Before where
  irrefl finding := List.lt_irrefl finding.key

theorem Before.asymm {left right : Finding} (before : left.Before right) :
    ¬ right.Before left := by
  rw [before_iff] at before ⊢
  omega

end Finding

/-! ## The rules report in order -/

namespace Rule

variable {file : Text} {lines : List Text}

theorem stage_of_mem_check {rule : Rule} {finding : Finding}
    (member : finding ∈ rule.check file lines) : finding.violation.stage = rule.stage := by
  cases rule with
  | lineEnding =>
      obtain ⟨index, there, rfl⟩ := mem_checkLineEnding_iff.1 member
      rfl
  | fullWidth =>
      obtain ⟨kind, index, there, rfl⟩ := mem_checkFullWidth_iff.1 member
      rfl
  | repeatedSpaces =>
      obtain ⟨index, there, rfl⟩ := mem_checkRepeatedSpaces_iff.1 member
      rfl
  | blankLines =>
      obtain ⟨index, there, rfl⟩ := mem_checkBlankLines_iff.1 member
      rfl
  | finalNewline =>
      obtain ⟨index, there, rfl⟩ := mem_checkFinalNewline_iff.1 member
      rfl

theorem stage_eq_stage_iff {rule other : Rule} : rule.stage = other.stage ↔ rule = other := by
  cases rule <;> cases other <;> decide

/-- What is kept of all findings is found by the rules whose findings are kept. -/
theorem filter_checkLines_of_forall {kept : Finding → Bool} {rules : Rule → Bool}
    (same : ∀ rule, ∀ finding ∈ rule.check file lines, kept finding = rules rule) :
    (checkLines file lines).filter kept =
      (all.filter rules).flatMap fun rule => rule.check file lines := by
  have each (rule : Rule) : (rule.check file lines).filter kept =
      if rules rule then rule.check file lines else [] := by
    by_cases chosen : rules rule
    · rw [if_pos chosen, List.filter_eq_self]
      exact fun finding member => (same rule finding member).trans chosen
    · rw [if_neg chosen, List.filter_eq_nil_iff]
      exact fun finding member => same rule finding member ▸ chosen
  rw [checkLines, List.filter_flatMap]
  simp only [each]
  induction all with
  | nil => rfl
  | cons rule rest ih =>
      rw [List.flatMap_cons, ih, List.filter_cons]
      by_cases chosen : rules rule
      · simp [chosen]
      · simp [chosen]

/-- Findings tell by their stage which rule made them. -/
theorem filter_stage (rule : Rule) (file : Text) (lines : List Text) :
    (checkLines file lines).filter (fun finding => finding.violation.stage = rule.stage) =
      rule.check file lines := by
  have same : ∀ other : Rule, ∀ finding ∈ other.check file lines,
      decide (finding.violation.stage = rule.stage) = decide (other = rule) := by
    intro other finding member
    simp only [stage_of_mem_check member, stage_eq_stage_iff]
  rw [filter_checkLines_of_forall same]
  cases rule <;> simp [all, check]

private theorem pairwise_line_lt {α : Type} (violation : Violation) (items : List α)
    (start : Nat) (test : α × Nat → Bool) :
    (((items.zipIdx start).filter test).map fun item =>
      (⟨file, item.2, violation⟩ : Finding)).Pairwise fun left right => left.line < right.line := by
  rw [List.pairwise_map]
  apply List.Pairwise.filter
  have ascending : (List.range' start items.length).Pairwise (· < ·) := List.pairwise_lt_range'
  rw [← List.zipIdx_map_snd start items, List.pairwise_map] at ascending
  exact ascending

theorem findingsWhere_pairwise (violation : Violation) (test : Text → Bool) :
    (findingsWhere file violation test lines).Pairwise fun left right =>
      left.line < right.line :=
  pairwise_line_lt violation lines 1 fun item => test item.1

theorem violation_of_mem_findingsWhere {violation : Violation} {test : Text → Bool}
    {finding : Finding} (member : finding ∈ findingsWhere file violation test lines) :
    finding.violation = violation := by
  obtain ⟨index, line, found, holds, rfl⟩ := mem_findingsWhere_iff.1 member
  rfl

/-- Within one line the sort keeps the order in which the kinds are looked for. -/
theorem checkFullWidth_pairwise (file : Text) (lines : List Text) :
    (checkFullWidth file lines).Pairwise fun left right =>
      left.line < right.line ∨
        left.line = right.line ∧ left.violation.rank < right.violation.rank := by
  have byKind : (FullWidth.all.flatMap fun kind =>
      findingsWhere file (.fullWidth kind) kind.chars.occursIn lines).Pairwise fun left right =>
        left.line < right.line ∨ left.violation.rank < right.violation.rank := by
    rw [List.pairwise_flatMap]
    constructor
    · intro kind _
      exact (findingsWhere_pairwise (.fullWidth kind) kind.chars.occursIn).imp Or.inl
    · have ranks : FullWidth.all.Pairwise fun left right => left.rank < right.rank := by decide
      apply ranks.imp
      intro first second ascending left leftMember right rightMember
      rw [violation_of_mem_findingsWhere leftMember, violation_of_mem_findingsWhere rightMember]
      exact Or.inr ascending
  refine (pairwise_mergeSort_key Finding.line byKind).imp ?_
  intro left right placed
  omega

theorem check_pairwise_before (rule : Rule) (file : Text) (lines : List Text) :
    (rule.check file lines).Pairwise Finding.Before := by
  have placed : (rule.check file lines).Pairwise fun left right => left.line < right.line ∨
      left.line = right.line ∧ left.violation.rank < right.violation.rank := by
    cases rule with
    | lineEnding =>
        simp only [check, checkLineEnding]
        split
        · exact .nil
        · exact List.pairwise_singleton _ _
    | fullWidth => exact checkFullWidth_pairwise file lines
    | repeatedSpaces => exact (findingsWhere_pairwise _ _).imp Or.inl
    | blankLines =>
        simp only [check, checkBlankLines_eq]
        exact (pairwise_line_lt _ _ _ _).imp Or.inl
    | finalNewline =>
        simp only [check, checkFinalNewline]
        split
        · exact .nil
        · split
          · exact .nil
          · exact List.pairwise_singleton _ _
  apply placed.imp_of_mem
  intro left right leftMember rightMember later
  have stage := (stage_of_mem_check leftMember).trans (stage_of_mem_check rightMember).symm
  exact Finding.before_iff.2 (Or.inr ⟨stage, later⟩)

end Rule

theorem checkLines_pairwise_before (file : Text) (lines : List Text) :
    (checkLines file lines).Pairwise Finding.Before := by
  unfold checkLines
  rw [List.pairwise_flatMap]
  constructor
  · intro rule _
    exact rule.check_pairwise_before file lines
  · have stages : Rule.all.Pairwise fun left right => left.stage < right.stage := by decide
    apply stages.imp
    intro first second ascending left leftMember right rightMember
    rw [Finding.before_iff, Rule.stage_of_mem_check leftMember, Rule.stage_of_mem_check rightMember]
    exact Or.inl ascending

/-- **The findings in lines are determined by the violations that are there.** They stand in
strict order of rule, line and kind of character, one for each violation that is there, so that
no other list in that order holds the same findings. -/
theorem checkLines_complete (file : Text) (lines : List Text) :
    (checkLines file lines).Pairwise Finding.Before ∧
      (∀ finding, finding ∈ checkLines file lines ↔ finding.file = file ∧
        ∃ index < lines.length, finding.line = index + 1 ∧ finding.violation.At lines index) ∧
      (∀ findings : List Finding, findings.Pairwise Finding.Before →
        (∀ finding, finding ∈ findings ↔ finding ∈ checkLines file lines) →
          findings = checkLines file lines) ∧
      (checkLines file lines).Nodup ∧
      ∀ finding ∈ checkLines file lines, finding.violation ≠ .notUtf8 ∧ finding.line ≠ 0 := by
  have ordered := checkLines_pairwise_before file lines
  refine ⟨ordered, ?_, ?_, ordered.nodup, ?_⟩
  · intro finding
    rw [mem_checkLines_iff]
    constructor
    · intro given
      obtain ⟨named, index, line, there⟩ := given
      exact ⟨named, index, there.lt_length, line, there⟩
    · intro given
      obtain ⟨named, index, _, line, there⟩ := given
      exact ⟨named, index, line, there⟩
  · intro findings others same
    have alike : findings.Perm (checkLines file lines) :=
      (List.perm_ext_iff_of_nodup others.nodup ordered.nodup).2 same
    exact alike.eq_of_pairwise (fun left right _ _ before after => absurd after before.asymm)
      others ordered
  · intro finding member
    obtain ⟨_, index, line, there⟩ := mem_checkLines_iff.1 member
    refine ⟨?_, by omega⟩
    intro notUtf8
    rw [notUtf8] at there
    exact there

end DocLint
