import DocLint.Proofs.Rule.Append
import Mathlib.Data.List.SplitBy

/-!
# Runs of blank lines

Lines fall into blocks: the runs of blank lines, each as long as it can be, and the other lines one
by one (`AreBlocks`, `blocks_eq_iff`). What the rule about blank lines reports is every line that
is not the first of its block, although the rule knows nothing of blocks and only counts the blank
lines right before a line (`Rule.checkBlankLines_flatten`). Main statement:
`checkBlankLines_blocks`.
-/

namespace DocLint

/-! ## Later items of a block -/

section LaterNumbers

variable {α : Type}

/-- The numbers of the items that are not the first of their block, where the first item of all
has a given number. -/
def laterNumbers (number : Nat) : List (List α) → List Nat
  | [] => []
  | block :: rest =>
      List.range' (number + 1) (block.length - 1) ++ laterNumbers (number + block.length) rest

theorem mem_laterNumbers_iff {number later : Nat} {blocks : List (List α)} :
    later ∈ laterNumbers number blocks ↔ ∃ before block after, blocks = before ++ block :: after ∧
      ∃ offset, 0 < offset ∧ offset < block.length ∧
        later = number + before.flatten.length + offset := by
  induction blocks generalizing number with
  | nil => simp [laterNumbers]
  | cons first rest ih =>
      rw [laterNumbers, List.mem_append, List.mem_range'_1, ih]
      constructor
      · rintro (⟨above, below⟩ | ⟨before, block, after, rfl, offset, positive, inside, rfl⟩)
        · exact ⟨[], first, rest, rfl, later - number, by omega, by omega, by simp; omega⟩
        · exact ⟨first :: before, block, after, rfl, offset, positive, inside, by simp; omega⟩
      · rintro ⟨before, block, after, split, offset, positive, inside, rfl⟩
        cases before with
        | nil =>
            obtain ⟨rfl, rfl⟩ := List.cons.inj split
            exact Or.inl (by simp; omega)
        | cons head before =>
            obtain ⟨rfl, rfl⟩ := List.cons.inj split
            exact Or.inr ⟨before, block, after, rfl, offset, positive, inside, by simp; omega⟩

theorem lt_of_mem_laterNumbers {number later : Nat} {blocks : List (List α)}
    (member : later ∈ laterNumbers number blocks) : number < later := by
  obtain ⟨_, _, _, _, offset, positive, _, rfl⟩ := mem_laterNumbers_iff.1 member
  omega

theorem laterNumbers_pairwise (number : Nat) (blocks : List (List α)) :
    (laterNumbers number blocks).Pairwise (· < ·) := by
  induction blocks generalizing number with
  | nil => exact .nil
  | cons block rest ih =>
      rw [laterNumbers, List.pairwise_append]
      refine ⟨List.pairwise_lt_range', ih _, ?_⟩
      intro left memberLeft right memberRight
      have inside := List.mem_range'_1.1 memberLeft
      have beyond := lt_of_mem_laterNumbers memberRight
      omega

theorem laterNumbers_add (count number : Nat) (blocks : List (List α)) :
    laterNumbers (count + number) blocks = (laterNumbers number blocks).map (count + ·) := by
  induction blocks generalizing number with
  | nil => rfl
  | cons block rest ih =>
      rw [laterNumbers, laterNumbers, List.map_append, List.map_add_range', ← ih, Nat.add_assoc,
        Nat.add_assoc]

/-- What is left when the later items are taken out are the first items of the blocks. -/
theorem filter_laterNumbers {blocks : List (List α)} (filled : [] ∉ blocks) (number : Nat) :
    ((blocks.flatten.zipIdx number).filter fun item => item.2 ∉ laterNumbers number blocks).map
      (·.1) = (blocks.map (·.take 1)).flatten := by
  induction blocks generalizing number with
  | nil => rfl
  | cons block rest ih =>
      rw [List.mem_cons, not_or] at filled
      obtain ⟨first, others, rfl⟩ := List.exists_cons_of_ne_nil (Ne.symm filled.1)
      have split (later : Nat) : later ∈ laterNumbers number ((first :: others) :: rest) ↔
          number + 1 ≤ later ∧ later < number + 1 + others.length ∨
            later ∈ laterNumbers (number + 1 + others.length) rest := by
        rw [laterNumbers, List.mem_append, List.mem_range'_1, List.length_cons,
          Nat.add_sub_cancel, Nat.add_right_comm number, Nat.add_assoc number]
      have kept : number ∉ laterNumbers number ((first :: others) :: rest) :=
        fun member => Nat.lt_irrefl _ (lt_of_mem_laterNumbers member)
      have dropped : ((others.zipIdx (number + 1)).filter fun item =>
          item.2 ∉ laterNumbers number ((first :: others) :: rest)) = [] := by
        refine List.filter_eq_nil_iff.2 fun item member => ?_
        have above := List.le_snd_of_mem_zipIdx member
        have below := List.snd_lt_add_of_mem_zipIdx member
        simp [split, above, below]
      have onward : ((rest.flatten.zipIdx (number + 1 + others.length)).filter fun item =>
          item.2 ∉ laterNumbers number ((first :: others) :: rest)) =
            (rest.flatten.zipIdx (number + 1 + others.length)).filter fun item =>
              item.2 ∉ laterNumbers (number + 1 + others.length) rest := by
        refine List.filter_congr fun item member => ?_
        have above := List.le_snd_of_mem_zipIdx member
        simp [split, Nat.not_lt.2 above]
      rw [List.flatten_cons, List.cons_append, List.zipIdx_cons, List.zipIdx_append,
        List.filter_cons_of_pos (by simpa using kept), List.filter_append, dropped, onward,
        List.nil_append, List.map_cons, ih filled.2]
      rfl

end LaterNumbers

/-! ## Blocks -/

/-- Whether lines are a run: blank lines, at least one. -/
def isRun (lines : List Text) : Bool :=
  lines ≠ [] && lines.all Text.isBlank

/-- Whether lines are a block: a run of blank lines, or one line that is not blank. -/
def IsBlock (lines : List Text) : Prop :=
  isRun lines ∨ ∃ line, lines = [line] ∧ line.isBlank = false

/-- Whether lists of lines are blocks, one after the other. No run is followed by another one, so
that each is as long as it can be. -/
structure AreBlocks (blocks : List (List Text)) : Prop where
  each : ∀ block ∈ blocks, IsBlock block
  apart : blocks.IsChain fun block next => ¬ (isRun block ∧ isRun next)

/-- The blocks that lines fall into. -/
def blocks (lines : List Text) : List (List Text) :=
  lines.splitBy fun line next => line.isBlank && next.isBlank

theorem isRun_iff {lines : List Text} :
    isRun lines ↔ lines ≠ [] ∧ ∀ line ∈ lines, line.isBlank := by
  simp [isRun]

theorem isRun_singleton (line : Text) : isRun [line] = line.isBlank := by
  simp [isRun]

namespace IsBlock

variable {block : List Text} {line : Text}

theorem singleton (line : Text) : IsBlock [line] := by
  by_cases blank : line.isBlank
  · exact Or.inl (by rwa [isRun_singleton])
  · exact Or.inr ⟨line, rfl, by simpa using blank⟩

theorem ne_nil (isBlock : IsBlock block) : block ≠ [] := by
  rcases isBlock with run | ⟨line, rfl, _⟩
  · exact (isRun_iff.1 run).1
  · exact List.cons_ne_nil _ _

/-- A line tells what block it is in. -/
theorem isRun_iff_isBlank (isBlock : IsBlock block) (member : line ∈ block) :
    isRun block ↔ line.isBlank := by
  rcases isBlock with run | ⟨other, rfl, otherwise⟩
  · exact iff_of_true run ((isRun_iff.1 run).2 line member)
  · rw [List.mem_singleton.1 member, isRun_singleton]

/-- The first line of a block is a block of the same sort. -/
theorem exists_take (isBlock : IsBlock block) :
    ∃ line, block.take 1 = [line] ∧ (isRun block ↔ line.isBlank) := by
  obtain ⟨first, rest, rfl⟩ := List.exists_cons_of_ne_nil isBlock.ne_nil
  exact ⟨first, rfl, isBlock.isRun_iff_isBlank (by simp)⟩

end IsBlock

private theorem forall_isBlank_of_isChain {first second : Text} {rest : List Text}
    (chain : (first :: second :: rest).IsChain fun line next => line.isBlank && next.isBlank) :
    ∀ line ∈ first :: second :: rest, line.isBlank := by
  induction rest generalizing first second with
  | nil => simpa using chain
  | cons third rest ih =>
      obtain ⟨pair, onward⟩ := List.isChain_cons_cons.1 chain
      rw [Bool.and_eq_true] at pair
      exact List.forall_mem_cons.2 ⟨pair.1, ih onward⟩

theorem isBlock_iff {block : List Text} : IsBlock block ↔
    block ≠ [] ∧ block.IsChain fun line next => line.isBlank && next.isBlank := by
  constructor
  · intro isBlock
    refine ⟨isBlock.ne_nil, ?_⟩
    rcases isBlock with run | ⟨line, rfl, _⟩
    · refine (List.pairwise_of_forall_mem_list fun line member next memberNext => ?_).isChain
      have blank := (isRun_iff.1 run).2
      rw [blank line member, blank next memberNext]
      rfl
    · exact .singleton line
  · rintro ⟨filled, chain⟩
    obtain ⟨first, rest, rfl⟩ := List.exists_cons_of_ne_nil filled
    cases rest with
    | nil => exact .singleton first
    | cons second rest => exact Or.inl (isRun_iff.2 ⟨filled, forall_isBlank_of_isChain chain⟩)

/-- Blocks that meet are not both runs exactly if the two lines there are not both blank. -/
theorem not_isRun_and_iff {block next : List Text} (isBlock : IsBlock block)
    (isBlockNext : IsBlock next) : ¬ (isRun block ∧ isRun next) ↔
      ∃ filled filledNext,
        ((block.getLast filled).isBlank && (next.head filledNext).isBlank) = false := by
  rw [isBlock.isRun_iff_isBlank (List.getLast_mem isBlock.ne_nil),
    isBlockNext.isRun_iff_isBlank (List.head_mem isBlockNext.ne_nil)]
  simp [isBlock.ne_nil, isBlockNext.ne_nil]

/-- Lines fall into blocks in one way only. -/
theorem blocks_eq_iff {lines : List Text} {given : List (List Text)} :
    blocks lines = given ↔ AreBlocks given ∧ given.flatten = lines := by
  rw [blocks, List.splitBy_eq_iff]
  constructor
  · rintro ⟨rfl, filled, alike, apart⟩
    have each : ∀ block ∈ given, IsBlock block := fun block member =>
      isBlock_iff.2 ⟨ne_of_mem_of_not_mem member filled, alike block member⟩
    refine ⟨⟨each, apart.imp_of_mem_imp fun block next member memberNext => ?_⟩, rfl⟩
    exact (not_isRun_and_iff (each block member) (each next memberNext)).2
  · rintro ⟨⟨each, apart⟩, rfl⟩
    refine ⟨rfl, fun member => (each [] member).ne_nil rfl, fun block member =>
      (isBlock_iff.1 (each block member)).2, ?_⟩
    refine apart.imp_of_mem_imp fun block next member memberNext => ?_
    exact (not_isRun_and_iff (each block member) (each next memberNext)).1

namespace AreBlocks

variable {block : List Text} {rest given : List (List Text)}

theorem nil_not_mem (areBlocks : AreBlocks given) : [] ∉ given :=
  fun member => (areBlocks.each [] member).ne_nil rfl

theorem tail (areBlocks : AreBlocks (block :: rest)) : AreBlocks rest where
  each later member := areBlocks.each later (List.mem_cons_of_mem _ member)
  apart := areBlocks.apart.tail

/-- Where two blocks meet, one of the two lines is not blank. -/
theorem seam (areBlocks : AreBlocks (block :: rest)) :
    (block.getLast?.any Text.isBlank && rest.flatten.head?.any Text.isBlank) = false := by
  cases rest with
  | nil => simp
  | cons next rest =>
      have isBlock := areBlocks.each block (by simp)
      have isBlockNext := areBlocks.each next (by simp)
      obtain ⟨filled, filledNext, apart⟩ := (not_isRun_and_iff isBlock isBlockNext).1
        (List.isChain_cons_cons.1 areBlocks.apart).1
      rw [List.flatten_cons, List.head?_append_of_ne_nil _ filledNext,
        List.getLast?_eq_some_getLast filled, List.head?_eq_some_head filledNext]
      exact apart

/-- The first lines of blocks are blocks again. -/
theorem map_take (areBlocks : AreBlocks given) : AreBlocks (given.map (·.take 1)) where
  each block member := by
    obtain ⟨whole, memberWhole, rfl⟩ := List.mem_map.1 member
    obtain ⟨line, first, _⟩ := (areBlocks.each whole memberWhole).exists_take
    rw [first]
    exact .singleton line
  apart := by
    rw [List.isChain_map]
    refine areBlocks.apart.imp_of_mem_imp fun block next member memberNext apart => ?_
    obtain ⟨line, first, run⟩ := (areBlocks.each block member).exists_take
    obtain ⟨other, firstNext, runNext⟩ := (areBlocks.each next memberNext).exists_take
    rwa [first, firstNext, isRun_singleton, isRun_singleton, ← run, ← runNext]

/-- The first lines of blocks hold every line that is not blank. -/
theorem filter_map_take (areBlocks : AreBlocks given) :
    (given.map (·.take 1)).flatten.filter (!·.isBlank) = given.flatten.filter (!·.isBlank) := by
  induction given with
  | nil => rfl
  | cons block rest ih =>
      rw [List.map_cons, List.flatten_cons, List.flatten_cons, List.filter_append,
        List.filter_append, ih areBlocks.tail]
      rcases areBlocks.each block (by simp) with run | ⟨line, rfl, _⟩
      · have none {lines : List Text} (among : ∀ line ∈ lines, line ∈ block) :
            lines.filter (!·.isBlank) = [] :=
          List.filter_eq_nil_iff.2 fun line member => by
            simp [(isRun_iff.1 run).2 line (among line member)]
        rw [none fun line => List.mem_of_mem_take, none fun line => id]
      · rfl

theorem countP_isBlank (areBlocks : AreBlocks given) (number : Nat) :
    (laterNumbers number given).length + given.countP isRun =
      given.flatten.countP Text.isBlank := by
  induction given generalizing number with
  | nil => rfl
  | cons block rest ih =>
      have others := ih areBlocks.tail (number + block.length)
      rw [laterNumbers, List.length_append, List.length_range', List.flatten_cons,
        List.countP_append, List.countP_cons]
      rcases areBlocks.each block (by simp) with run | ⟨line, rfl, otherwise⟩
      · have filled := List.length_pos_iff.2 (isRun_iff.1 run).1
        rw [if_pos run, List.countP_eq_length.2 (isRun_iff.1 run).2]
        omega
      · have alone : isRun [line] = false := by rw [isRun_singleton, otherwise]
        rw [alone, if_neg Bool.false_ne_true, List.countP_singleton, otherwise]
        simp only [List.length_singleton, Bool.false_eq_true, ↓reduceIte] at others ⊢
        omega

end AreBlocks

/-! ## What is reported -/

namespace Rule

variable {file : Text}

/-- A blank line before blank lines makes the rule report every one of them. -/
theorem blankLinesFrom_of_blank {run : Nat} (counted : run ≠ 0) (number : Nat) {lines : List Text}
    (blank : ∀ line ∈ lines, line.isBlank) :
    (blankLinesFrom file run number [] lines).reverse =
      (List.range' number lines.length).map fun later => ⟨file, later, .repeatedBlankLines⟩ := by
  induction lines generalizing run number with
  | nil => rfl
  | cons line rest ih =>
      rw [List.forall_mem_cons] at blank
      rw [blankLinesFrom, if_pos blank.1, if_neg counted, blankLinesFrom_eq_append,
        List.reverse_append, ih (Nat.succ_ne_zero run) (number + 1) blank.2, List.length_cons,
        List.range'_succ]
      rfl

theorem checkBlankLines_block {block : List Text} (isBlock : IsBlock block) :
    checkBlankLines file block =
      (List.range' 2 (block.length - 1)).map fun later => ⟨file, later, .repeatedBlankLines⟩ := by
  rcases isBlock with run | ⟨line, rfl, otherwise⟩
  · obtain ⟨filled, blank⟩ := isRun_iff.1 run
    obtain ⟨first, rest, rfl⟩ := List.exists_cons_of_ne_nil filled
    rw [List.forall_mem_cons] at blank
    rw [checkBlankLines, blankLinesFrom, if_pos blank.1]
    exact blankLinesFrom_of_blank (by decide) 2 blank.2
  · simp [checkBlankLines, blankLinesFrom, otherwise]

/-- The rule reports the lines that are not the first of their block. -/
theorem checkBlankLines_flatten {given : List (List Text)} (areBlocks : AreBlocks given) :
    checkBlankLines file given.flatten =
      (laterNumbers 1 given).map fun later => ⟨file, later, .repeatedBlankLines⟩ := by
  induction given with
  | nil => rfl
  | cons block rest ih =>
      have isBlock := areBlocks.each block (by simp)
      rw [List.flatten_cons, checkBlankLines_append, areBlocks.seam, checkBlankLines_block isBlock,
        ih areBlocks.tail, laterNumbers, List.map_append, Nat.add_comm 1 block.length,
        laterNumbers_add, List.map_map, List.map_map]
      simp [Finding.shift, Function.comp_def, Nat.add_comm]

end Rule

/-- The lines that no finding is about. -/
def linesWithout (findings : List Finding) (lines : List Text) : List Text :=
  ((lines.zipIdx 1).filter fun item => item.2 ∉ findings.map (·.line)).map (·.1)

namespace AreBlocks

variable {file : Text} {given : List (List Text)}

theorem pairwise_checkBlankLines (areBlocks : AreBlocks given) :
    (Rule.checkBlankLines file given.flatten).Pairwise
      fun left right => left.line < right.line := by
  rw [Rule.checkBlankLines_flatten areBlocks, List.pairwise_map]
  exact laterNumbers_pairwise 1 given

theorem mem_checkBlankLines_iff (areBlocks : AreBlocks given) {finding : Finding} :
    finding ∈ Rule.checkBlankLines file given.flatten ↔ ∃ before run after,
      given = before ++ run :: after ∧ isRun run ∧ ∃ offset, 0 < offset ∧ offset < run.length ∧
        finding = ⟨file, before.flatten.length + 1 + offset, .repeatedBlankLines⟩ := by
  simp only [Rule.checkBlankLines_flatten areBlocks, List.mem_map, mem_laterNumbers_iff]
  constructor
  · rintro ⟨_, ⟨before, block, after, split, offset, positive, inside, rfl⟩, rfl⟩
    have run : isRun block := by
      rcases areBlocks.each block (by simp [split]) with run | ⟨line, rfl, _⟩
      · exact run
      · rw [List.length_singleton] at inside
        omega
    exact ⟨before, block, after, split, run, offset, positive, inside,
      by rw [Nat.add_comm 1 before.flatten.length]⟩
  · rintro ⟨before, run, after, split, _, offset, positive, inside, rfl⟩
    exact ⟨_, ⟨before, run, after, split, offset, positive, inside, rfl⟩,
      by rw [Nat.add_comm 1 before.flatten.length]⟩

theorem linesWithout_checkBlankLines (areBlocks : AreBlocks given) :
    linesWithout (Rule.checkBlankLines file given.flatten) given.flatten =
      (given.map (·.take 1)).flatten := by
  rw [linesWithout, Rule.checkBlankLines_flatten areBlocks, List.map_map]
  simpa using filter_laterNumbers areBlocks.nil_not_mem 1

/-- Nothing is found in lines that are the first of their blocks. -/
theorem checkBlankLines_map_take (areBlocks : AreBlocks given) :
    Rule.checkBlankLines file (given.map (·.take 1)).flatten = [] := by
  rw [List.eq_nil_iff_forall_not_mem]
  intro finding member
  obtain ⟨before, run, after, split, _, offset, positive, inside, _⟩ :=
    areBlocks.map_take.mem_checkBlankLines_iff.1 member
  have memberRun : run ∈ given.map (·.take 1) := by simp [split]
  obtain ⟨block, _, rfl⟩ := List.mem_map.1 memberRun
  rw [List.length_take] at inside
  omega

end AreBlocks

/-- **Every line after the first in a run of blank lines is reported, and nothing else.** Lines
fall into blocks in one way only. The findings go up through the lines, and there are as many as
blank lines less the runs. Where the lines found are taken out, each block is left with its first
line, nothing is found any more, and the lines that are not blank are all there. -/
theorem checkBlankLines_blocks (file : Text) (lines : List Text) :
    let found := Rule.checkBlankLines file lines
    let kept := linesWithout found lines
    (∀ given, AreBlocks given ∧ given.flatten = lines ↔ given = blocks lines) ∧
      (found.Pairwise fun left right => left.line < right.line) ∧
      (∀ finding, finding ∈ found ↔ ∃ before run after,
        blocks lines = before ++ run :: after ∧ isRun run ∧
          ∃ offset, 0 < offset ∧ offset < run.length ∧
            finding = ⟨file, before.flatten.length + 1 + offset, .repeatedBlankLines⟩) ∧
      found.length + (blocks lines).countP isRun = lines.countP Text.isBlank ∧
      Rule.checkBlankLines file kept = [] ∧
      kept.filter (!·.isBlank) = lines.filter (!·.isBlank) ∧
      blocks kept = (blocks lines).map (·.take 1) := by
  have unique (given : List (List Text)) :
      AreBlocks given ∧ given.flatten = lines ↔ given = blocks lines :=
    blocks_eq_iff.symm.trans eq_comm
  obtain ⟨areBlocks, whole⟩ := (unique _).2 rfl
  generalize blocks lines = given at unique areBlocks whole ⊢
  subst whole
  intro found kept
  have left : kept = (given.map (·.take 1)).flatten := areBlocks.linesWithout_checkBlankLines
  have count : found.length = (laterNumbers 1 given).length := by
    rw [show found = _ from Rule.checkBlankLines_flatten areBlocks, List.length_map]
  refine ⟨unique, areBlocks.pairwise_checkBlankLines, fun _ => areBlocks.mem_checkBlankLines_iff,
    ?_, ?_, ?_, ?_⟩
  · rw [count, areBlocks.countP_isBlank]
  · rw [left, areBlocks.checkBlankLines_map_take]
  · rw [left, areBlocks.filter_map_take]
  · rw [left, blocks_eq_iff]
    exact ⟨areBlocks.map_take, rfl⟩

end DocLint
