import DocLint.Proofs.Document.Gate
import Mathlib.Data.List.Basic

/-!
# Japanese mail text by its passages

Seven-bit bytes are taken for Japanese mail text exactly when they are plain up to their first
escape and fall into passages from there on: an escape sequence, and then characters of the set
that it selects. What the decoder accepts from a state is described by what can still come
(`State.Accepts`), one byte further by `State.accepts_cons_iff`, and from a set on by passages
(`continues_iff`). Main statement: `Document.encodingFindings_sevenBit`.
-/

namespace DocLint

namespace Iso2022Jp

/-! ## The grammar -/

/-- What follows the escape byte in the escape sequences that select a set. -/
def CharSet.tails : CharSet → List Bytes
  | .ascii => [[0x28, 0x42]]
  | .roman => [[0x28, 0x4A]]
  | .katakana => [[0x28, 0x49]]
  | .kanji => [[0x24, 0x40], [0x24, 0x42]]

/-- Whether seven-bit bytes without an escape are characters of a set. -/
def CharSet.Spells : CharSet → Bytes → Prop
  | .ascii, body | .roman, body => ∀ byte ∈ body, byte ≠ 0x0E ∧ byte ≠ 0x0F
  | .katakana, body => ∀ byte ∈ body, 0x21 ≤ byte ∧ byte ≤ 0x5F
  | .kanji, body => ∃ pairs : List (UInt8 × UInt8), (∀ pair ∈ pairs, isMapped pair.1 pair.2) ∧
      body = pairs.flatMap fun pair => [pair.1, pair.2]

/-- An escape sequence, without its first byte, and what stands between it and the next one. -/
structure Passage where
  set : CharSet
  tail : Bytes
  body : Bytes
  deriving DecidableEq, Repr

namespace Passage

/-- The bytes of a passage. -/
def bytes (passage : Passage) : Bytes :=
  escape :: passage.tail ++ passage.body

/-- Whether the escape sequence selects the set, and the rest is made of characters of it. -/
structure WellFormed (passage : Passage) : Prop where
  selects : passage.tail ∈ passage.set.tails
  noEscape : escape ∉ passage.body
  spells : passage.set.Spells passage.body

/-- Whether passages can stand one after the other: only the last one may have nothing after its
escape sequence. -/
structure Chain (passages : List Passage) : Prop where
  wellFormed : ∀ passage ∈ passages, passage.WellFormed
  filled : ∀ passage ∈ passages.dropLast, passage.body ≠ []

theorem Chain.nil : Chain [] :=
  ⟨by simp, by simp⟩

theorem chain_cons_iff {passage : Passage} {rest : List Passage} :
    Chain (passage :: rest) ↔
      passage.WellFormed ∧ (passage.body = [] → rest = []) ∧ Chain rest := by
  constructor
  · intro chain
    obtain ⟨wellFormed, filled⟩ := chain
    rw [List.forall_mem_cons] at wellFormed
    cases rest with
    | nil => exact ⟨wellFormed.1, fun _ => rfl, .nil⟩
    | cons next rest =>
        rw [List.dropLast_cons_cons, List.forall_mem_cons] at filled
        exact ⟨wellFormed.1, fun empty => absurd empty filled.1, wellFormed.2, filled.2⟩
  · intro given
    obtain ⟨wellFormed, last, others, filled⟩ := given
    refine ⟨List.forall_mem_cons.2 ⟨wellFormed, others⟩, ?_⟩
    cases rest with
    | nil => simp
    | cons next rest =>
        rw [List.dropLast_cons_cons, List.forall_mem_cons]
        exact ⟨fun empty => List.cons_ne_nil _ _ (last empty), filled⟩

end Passage

/-- Whether bytes are Japanese mail text by the grammar: plain bytes, of which the last two shift
between no sets, and then passages. -/
def IsMail (bytes : Bytes) : Prop :=
  ∃ (plain : Bytes) (passages : List Passage),
    bytes = plain ++ passages.flatMap Passage.bytes ∧ passages ≠ [] ∧ escape ∉ plain ∧
      (∀ byte ∈ plain.drop (plain.length - 2), byte ≠ 0x0E ∧ byte ≠ 0x0F) ∧
      (∀ passage ∈ passages, passage.WellFormed) ∧ ∀ passage ∈ passages.dropLast, passage.body ≠ []

/-! ## What the decoder accepts -/

/-- What can come while a set is selected. Right after an escape sequence no other one can. -/
inductive Continues : CharSet → Bool → Bytes → Prop where
  | done (set : CharSet) (fresh : Bool) : Continues set fresh []
  | single {set : CharSet} {fresh : Bool} {byte : UInt8} {rest : Bytes} (narrow : set ≠ .kanji)
      (other : byte ≠ escape) (admitted : set.admits byte) (onward : Continues set false rest) :
      Continues set fresh (byte :: rest)
  | pair {fresh : Bool} {lead trail : UInt8} {rest : Bytes} (mapped : isMapped lead trail)
      (onward : Continues .kanji false rest) : Continues .kanji fresh (lead :: trail :: rest)
  | switch {set next : CharSet} {tail rest : Bytes} (selects : tail ∈ next.tails)
      (onward : Continues next true rest) : Continues set false (escape :: tail ++ rest)

/-- What can come in a state. -/
def State.Accepts : State → Bytes → Prop
  | .reading set fresh, bytes => Continues set fresh bytes
  | .halfway lead, bytes => ∃ trail rest, bytes = trail :: rest ∧
      isMapped lead trail ∧ Continues .kanji false rest
  | .escaping fresh, bytes => ∃ first rest, bytes = first :: rest ∧
      ∃ second others, rest = second :: others ∧ fresh = false ∧
        ∃ next : CharSet, [first, second] ∈ next.tails ∧ Continues next true others
  | .escapingSingle fresh, bytes => ∃ second rest, bytes = second :: rest ∧ fresh = false ∧
      ∃ next : CharSet, [0x28, second] ∈ next.tails ∧ Continues next true rest
  | .escapingDouble fresh, bytes => ∃ second rest, bytes = second :: rest ∧ fresh = false ∧
      ∃ next : CharSet, [0x24, second] ∈ next.tails ∧ Continues next true rest

theorem CharSet.exists_iff {holds : CharSet → Prop} :
    (∃ set, holds set) ↔ holds .ascii ∨ holds .roman ∨ holds .katakana ∨ holds .kanji := by
  constructor
  · intro there
    obtain ⟨set, held⟩ := there
    cases set <;> simp [held]
  · rintro (held | held | held | held)
    all_goals exact ⟨_, held⟩

theorem CharSet.of_mem_tails {set : CharSet} {tail : Bytes} (selects : tail ∈ set.tails) :
    (∃ first second, tail = [first, second]) ∧ escape ∉ tail := by
  have known : ∀ tail ∈ set.tails, tail.length = 2 ∧ escape ∉ tail := by
    cases set <;> decide
  obtain ⟨two, noEscape⟩ := known tail selects
  exact ⟨List.length_eq_two.1 two, noEscape⟩

theorem isMapped_range {lead trail : UInt8} (mapped : isMapped lead trail) :
    (0x21 ≤ lead ∧ lead ≤ 0x7E) ∧ 0x21 ≤ trail ∧ trail ≤ 0x7E := by
  have rows : mappedRows.all (fun row => decide (0x21 ≤ row.1.1 ∧ row.1.2 ≤ 0x7E) &&
      row.2.all fun range => decide (0x21 ≤ range.1 ∧ range.2 ≤ 0x7E)) := by decide
  simp only [List.all_eq_true, Bool.and_eq_true, decide_eq_true_eq] at rows
  obtain ⟨row, member, within⟩ := List.any_eq_true.1 mapped
  simp only [inRange, Bool.and_eq_true, decide_eq_true_eq, List.any_eq_true] at within
  obtain ⟨⟨leadAbove, leadBelow⟩, range, among, trailAbove, trailBelow⟩ := within
  obtain ⟨⟨least, most⟩, ranges⟩ := rows row member
  exact ⟨⟨UInt8.le_trans least leadAbove, UInt8.le_trans leadBelow most⟩,
    UInt8.le_trans (ranges range among).1 trailAbove,
    UInt8.le_trans trailBelow (ranges range among).2⟩

theorem isMapped_ne_escape {lead trail : UInt8} (mapped : isMapped lead trail) :
    lead ≠ escape ∧ trail ≠ escape := by
  obtain ⟨⟨leadAbove, _⟩, trailAbove, _⟩ := isMapped_range mapped
  constructor
  · rintro rfl
    exact absurd leadAbove (by decide)
  · rintro rfl
    exact absurd trailAbove (by decide)

theorem continues_cons_iff {set : CharSet} {fresh : Bool} {byte : UInt8} {rest : Bytes} :
    Continues set fresh (byte :: rest) ↔
      (set ≠ .kanji ∧ byte ≠ escape ∧ set.admits byte ∧ Continues set false rest) ∨
      (set = .kanji ∧ byte ≠ escape ∧ (State.halfway byte).Accepts rest) ∨
      (byte = escape ∧ (State.escaping fresh).Accepts rest) := by
  constructor
  · intro continues
    generalize whole : byte :: rest = bytes at continues
    cases continues with
    | done => exact absurd whole (List.cons_ne_nil _ _)
    | single narrow other admitted onward =>
        obtain ⟨rfl, rfl⟩ := List.cons.inj whole
        exact Or.inl ⟨narrow, other, admitted, onward⟩
    | pair mapped onward =>
        obtain ⟨rfl, rfl⟩ := List.cons.inj whole
        exact Or.inr (Or.inl ⟨rfl, (isMapped_ne_escape mapped).1, _, _, rfl, mapped, onward⟩)
    | @switch set next tail others selects onward =>
        obtain ⟨rfl, rfl⟩ := List.cons.inj whole
        obtain ⟨⟨first, second, rfl⟩, _⟩ := CharSet.of_mem_tails selects
        exact Or.inr (Or.inr ⟨rfl, _, _, rfl, _, _, rfl, rfl, next, selects, onward⟩)
  · rintro (⟨narrow, other, admitted, onward⟩ | ⟨rfl, _, trail, others, rfl, mapped, onward⟩ |
      ⟨rfl, _, _, rfl, _, _, rfl, rfl, next, selects, onward⟩)
    · exact .single narrow other admitted onward
    · exact .pair mapped onward
    · exact .switch selects onward

theorem exists_cons_eq_iff {holds : UInt8 → Bytes → Prop} {byte : UInt8} {rest : Bytes} :
    (∃ first others, byte :: rest = first :: others ∧ holds first others) ↔ holds byte rest := by
  constructor
  · intro there
    obtain ⟨first, others, same, held⟩ := there
    obtain ⟨rfl, rfl⟩ := List.cons.inj same
    exact held
  · intro held
    exact ⟨byte, rest, rfl, held⟩

theorem exists_select?_iff {set : CharSet} {fresh : Bool} {rest : Bytes} :
    (∃ next, select? fresh set = some next ∧ next.Accepts rest) ↔
      fresh = false ∧ Continues set true rest := by
  cases fresh <;> simp [select?, State.Accepts]

/-- What can come in a state, split at its first byte, is a step of the decoder. -/
theorem State.accepts_cons_iff {state : State} {byte : UInt8} {rest : Bytes} :
    state.Accepts (byte :: rest) ↔ ∃ next, state.step? byte = some next ∧ next.Accepts rest := by
  cases state with
  | reading set fresh =>
      rw [Accepts, continues_cons_iff, step?]
      by_cases escapes : byte = escape
      · simp [escapes]
      · by_cases admitted : set.admits byte
        · cases set <;> simp [escapes, admitted, CharSet.begin, Accepts]
        · have unmapped (kanji : set = .kanji) : ¬ (halfway byte).Accepts rest := by
            rintro ⟨trail, others, _, mapped, _⟩
            obtain ⟨least, most⟩ := (isMapped_range mapped).1
            exact admitted (by simp [kanji, CharSet.admits, inRange, least, most])
          simpa [escapes, admitted] using unmapped
  | halfway lead =>
      rw [Accepts, exists_cons_eq_iff]
      by_cases mapped : isMapped lead byte
      · simp [step?, mapped, Accepts]
      · simp [step?, mapped]
  | escaping fresh =>
      rw [Accepts, exists_cons_eq_iff, step?]
      by_cases single : byte = 0x28
      · simp [single, Accepts]
      · by_cases double : byte = 0x24
        · simp [double, Accepts]
        · simp [single, double, CharSet.exists_iff, CharSet.tails]
  | escapingSingle fresh =>
      rw [Accepts, exists_cons_eq_iff, step?]
      by_cases ascii : byte = 0x42
      · simp [ascii, exists_select?_iff, CharSet.exists_iff, CharSet.tails]
      · by_cases roman : byte = 0x4A
        · simp [roman, exists_select?_iff, CharSet.exists_iff, CharSet.tails]
        · by_cases katakana : byte = 0x49
          · simp [katakana, exists_select?_iff, CharSet.exists_iff, CharSet.tails]
          · simp [ascii, roman, katakana, CharSet.exists_iff, CharSet.tails]
  | escapingDouble fresh =>
      rw [Accepts, exists_cons_eq_iff, step?]
      by_cases kanji : byte = 0x40 ∨ byte = 0x42
      · simp [kanji, exists_select?_iff, CharSet.exists_iff, CharSet.tails]
      · simp [kanji, CharSet.exists_iff, CharSet.tails]

theorem State.decodes_iff_accepts {state : State} {bytes : Bytes} :
    state.decodes bytes ↔ state.Accepts bytes := by
  induction bytes generalizing state with
  | nil =>
      cases state with
      | reading set fresh => simpa [decodes, canEnd, Accepts] using Continues.done set fresh
      | _ => simp [decodes, canEnd, Accepts]
  | cons byte rest ih =>
      rw [accepts_cons_iff, decodes]
      cases stepped : state.step? byte with
      | none => simp
      | some next => simp [ih]

/-! ## Passages -/

theorem CharSet.spells_nil (set : CharSet) : set.Spells [] := by
  cases set with
  | kanji => exact ⟨[], by simp, rfl⟩
  | _ => simp [Spells]

theorem CharSet.spells_cons_iff {set : CharSet} (narrow : set ≠ .kanji) {byte : UInt8}
    (sevenBit : byte < 0x80) {rest : Bytes} :
    set.Spells (byte :: rest) ↔ set.admits byte ∧ set.Spells rest := by
  cases set with
  | kanji => exact absurd rfl narrow
  | katakana => simp [Spells, admits, inRange]
  | _ => simp [Spells, admits, sevenBit]

theorem CharSet.Spells.pair {lead trail : UInt8} {rest : Bytes}
    (spells : CharSet.Spells .kanji rest) (mapped : isMapped lead trail) :
    CharSet.Spells .kanji (lead :: trail :: rest) := by
  obtain ⟨pairs, others, rfl⟩ := spells
  exact ⟨(lead, trail) :: pairs, List.forall_mem_cons.2 ⟨mapped, others⟩, rfl⟩

theorem Continues.of_pairs {pairs : List (UInt8 × UInt8)} {fresh : Bool} {rest : Bytes}
    (mapped : ∀ pair ∈ pairs, isMapped pair.1 pair.2)
    (onward : Continues .kanji (fresh && pairs.isEmpty) rest) :
    Continues .kanji fresh ((pairs.flatMap fun pair => [pair.1, pair.2]) ++ rest) := by
  induction pairs generalizing fresh with
  | nil => simpa using onward
  | cons pair pairs ih =>
      rw [List.forall_mem_cons] at mapped
      exact .pair mapped.1 (ih mapped.2 (by simpa using onward))

/-- The decoder reads on through characters of a set, and any of them clears the mark of a fresh
escape sequence. -/
theorem Continues.of_spells {set : CharSet} {fresh : Bool} {body rest : Bytes}
    (spells : set.Spells body) (noEscape : escape ∉ body) (sevenBit : ∀ byte ∈ body, byte < 0x80)
    (onward : Continues set (fresh && body.isEmpty) rest) : Continues set fresh (body ++ rest) := by
  by_cases kanji : set = .kanji
  · subst kanji
    obtain ⟨pairs, mapped, rfl⟩ := spells
    refine .of_pairs mapped ?_
    cases pairs with
    | nil => exact onward
    | cons pair pairs => exact onward
  · induction body generalizing fresh with
    | nil => simpa using onward
    | cons byte body ih =>
        rw [List.forall_mem_cons] at sevenBit
        rw [List.mem_cons, not_or] at noEscape
        obtain ⟨admitted, spells⟩ := (CharSet.spells_cons_iff kanji sevenBit.1).1 spells
        exact .single kanji (Ne.symm noEscape.1) admitted
          (ih spells noEscape.2 sevenBit.2 (by simpa using onward))

theorem Continues.of_chain {set : CharSet} {passages : List Passage}
    (chain : Passage.Chain passages)
    (sevenBit : ∀ byte ∈ passages.flatMap Passage.bytes, byte < 0x80) :
    Continues set false (passages.flatMap Passage.bytes) := by
  induction passages generalizing set with
  | nil => exact .done set false
  | cons passage rest ih =>
      obtain ⟨⟨selects, noEscape, spells⟩, last, others⟩ := Passage.chain_cons_iff.1 chain
      rw [List.flatMap_cons, List.forall_mem_append, Passage.bytes, List.forall_mem_append]
        at sevenBit
      obtain ⟨⟨_, sevenBitBody⟩, sevenBitRest⟩ := sevenBit
      rw [List.flatMap_cons, Passage.bytes, List.append_assoc]
      refine .switch selects (.of_spells spells noEscape sevenBitBody ?_)
      by_cases empty : passage.body = []
      · rw [last empty]
        exact .done _ _
      · rw [Bool.true_and, List.isEmpty_eq_false_iff.2 empty]
        exact ih others sevenBitRest

/-- What can come while a set is selected is made of characters of the set, and of passages
after them. -/
theorem continues_iff {set : CharSet} {fresh : Bool} {bytes : Bytes}
    (sevenBit : ∀ byte ∈ bytes, byte < 0x80) :
    Continues set fresh bytes ↔ ∃ (body : Bytes) (passages : List Passage),
      bytes = body ++ passages.flatMap Passage.bytes ∧ escape ∉ body ∧ set.Spells body ∧
        Passage.Chain passages ∧ (fresh → body = [] → passages = []) := by
  constructor
  · intro continues
    induction continues with
    | done set fresh =>
        exact ⟨[], [], rfl, List.not_mem_nil, set.spells_nil, .nil, fun _ _ => rfl⟩
    | @single set fresh byte rest narrow other admitted onward ih =>
        rw [List.forall_mem_cons] at sevenBit
        obtain ⟨body, passages, rfl, noEscape, spells, chain, _⟩ := ih sevenBit.2
        refine ⟨byte :: body, passages, rfl, ?_, ?_, chain, fun _ empty => ?_⟩
        · exact List.not_mem_cons_of_ne_of_not_mem other.symm noEscape
        · exact (CharSet.spells_cons_iff narrow sevenBit.1).2 ⟨admitted, spells⟩
        · exact absurd empty (List.cons_ne_nil _ _)
    | @pair fresh lead trail rest mapped onward ih =>
        rw [List.forall_mem_cons, List.forall_mem_cons] at sevenBit
        obtain ⟨body, passages, rfl, noEscape, spells, chain, _⟩ := ih sevenBit.2.2
        obtain ⟨leadOther, trailOther⟩ := isMapped_ne_escape mapped
        refine ⟨lead :: trail :: body, passages, rfl, ?_, spells.pair mapped, chain,
          fun _ empty => absurd empty (List.cons_ne_nil _ _)⟩
        simp [leadOther.symm, trailOther.symm, noEscape]
    | @switch set next tail rest selects onward ih =>
        rw [List.forall_mem_append] at sevenBit
        obtain ⟨body, passages, rfl, noEscape, spells, chain, last⟩ := ih sevenBit.2
        refine ⟨[], ⟨next, tail, body⟩ :: passages, ?_, List.not_mem_nil, set.spells_nil, ?_, ?_⟩
        · simp [Passage.bytes]
        · exact Passage.chain_cons_iff.2 ⟨⟨selects, noEscape, spells⟩, last rfl, chain⟩
        · exact fun fresh => absurd fresh Bool.false_ne_true
  · rintro ⟨body, passages, rfl, noEscape, spells, chain, last⟩
    rw [List.forall_mem_append] at sevenBit
    refine .of_spells spells noEscape sevenBit.1 ?_
    cases pending : fresh && body.isEmpty with
    | false => exact .of_chain chain sevenBit.2
    | true =>
        rw [Bool.and_eq_true, List.isEmpty_iff] at pending
        rw [last pending.1 pending.2]
        exact .done _ _

/-! ## From the first escape on -/

theorem idxOf_append_escape {plain : Bytes} (noEscape : escape ∉ plain) (rest : Bytes) :
    (plain ++ escape :: rest).idxOf escape = plain.length := by
  rw [List.idxOf_append_of_notMem noEscape, List.idxOf_cons_self, Nat.add_zero]

/-- What stands before the first escape, and what after it, is determined by the whole. -/
theorem append_escape_inj {plain other rest others : Bytes} (noEscape : escape ∉ plain)
    (noEscapeOther : escape ∉ other) (same : plain ++ escape :: rest = other ++ escape :: others) :
    plain = other ∧ rest = others := by
  have length := congrArg (List.idxOf escape) same
  rw [idxOf_append_escape noEscape, idxOf_append_escape noEscapeOther] at length
  obtain ⟨before, after⟩ := List.append_inj same length
  exact ⟨before, List.tail_eq_of_cons_eq after⟩

theorem nearEscape_append {plain : Bytes} (noEscape : escape ∉ plain) (rest : Bytes) :
    Bytes.nearEscape (plain ++ escape :: rest) =
      plain.drop (plain.length - 2) ++ escape :: rest := by
  rw [Bytes.nearEscape, idxOf_append_escape noEscape,
    List.drop_append_of_le_length (Nat.sub_le _ _)]

theorem decodes_append_escape_iff {plain rest : Bytes} (noEscape : escape ∉ plain)
    (sevenBit : ∀ byte ∈ plain ++ escape :: rest, byte < 0x80) :
    decodes (plain ++ escape :: rest) ↔ (∀ byte ∈ plain, byte ≠ 0x0E ∧ byte ≠ 0x0F) ∧
      ∃ passages, Passage.Chain passages ∧ escape :: rest = passages.flatMap Passage.bytes := by
  rw [decodes, State.decodes_iff_accepts, State.Accepts, continues_iff sevenBit]
  constructor
  · intro there
    obtain ⟨body, passages, whole, noEscapeBody, spells, chain, _⟩ := there
    cases passages with
    | nil =>
        rw [List.flatMap_nil, List.append_nil] at whole
        exact absurd (whole ▸ List.mem_append_right plain List.mem_cons_self) noEscapeBody
    | cons passage passages =>
        rw [List.flatMap_cons, Passage.bytes, List.append_assoc, List.cons_append] at whole
        obtain ⟨rfl, onward⟩ := append_escape_inj noEscape noEscapeBody whole
        refine ⟨spells, passage :: passages, chain, ?_⟩
        rw [onward, List.flatMap_cons, Passage.bytes, List.append_assoc, List.cons_append]
  · intro there
    obtain ⟨spells, passages, chain, onward⟩ := there
    exact ⟨plain, passages, by rw [onward], noEscape, spells, chain, fun fresh => nomatch fresh⟩

theorem Passage.exists_flatMap_bytes_eq {passages : List Passage} (present : passages ≠ []) :
    ∃ rest, passages.flatMap Passage.bytes = escape :: rest := by
  obtain ⟨passage, others, rfl⟩ := List.exists_cons_of_ne_nil present
  exact ⟨_, rfl⟩

/-- The decoder takes bytes for mail text exactly when they are, by the grammar. -/
theorem isIso2022Jp_iff_isMail {bytes : Bytes} (sevenBit : ∀ byte ∈ bytes, byte < 0x80) :
    bytes.IsIso2022Jp ↔ IsMail bytes := by
  have near {plain rest : Bytes} (noEscape : escape ∉ plain)
      (sevenBit : ∀ byte ∈ plain ++ escape :: rest, byte < 0x80) :=
    @decodes_append_escape_iff (plain.drop (plain.length - 2)) rest
      (fun member => noEscape (List.mem_of_mem_drop member)) (fun byte member => sevenBit byte (by
        rw [List.mem_append] at member ⊢
        exact member.imp_left List.mem_of_mem_drop))
  constructor
  · intro mail
    obtain ⟨_, escaped, decoded⟩ := mail
    obtain ⟨plain, rest, rfl, noEscape⟩ := List.eq_append_cons_of_mem escaped
    rw [nearEscape_append noEscape, near noEscape sevenBit] at decoded
    obtain ⟨shifts, passages, chain, onward⟩ := decoded
    refine ⟨plain, passages, by rw [onward], ?_, noEscape, shifts, chain.wellFormed, chain.filled⟩
    rintro rfl
    exact List.cons_ne_nil _ _ onward
  · intro mail
    obtain ⟨plain, passages, rfl, present, noEscape, shifts, wellFormed, filled⟩ := mail
    obtain ⟨rest, onward⟩ := Passage.exists_flatMap_bytes_eq present
    rw [onward] at sevenBit ⊢
    refine ⟨sevenBit, by simp, ?_⟩
    rw [nearEscape_append noEscape, near noEscape sevenBit]
    exact ⟨shifts, passages, ⟨wellFormed, filled⟩, onward.symm⟩

/-- Every escape in mail text begins an escape sequence. -/
theorem exists_tail_prefix {passages : List Passage}
    (wellFormed : ∀ passage ∈ passages, passage.WellFormed) {plain before after : Bytes}
    (noEscape : escape ∉ plain)
    (whole : plain ++ passages.flatMap Passage.bytes = before ++ escape :: after) :
    ∃ set : CharSet, ∃ tail ∈ set.tails, tail <+: after := by
  induction passages generalizing plain before with
  | nil =>
      rw [List.flatMap_nil, List.append_nil] at whole
      exact absurd (by simp [whole]) noEscape
  | cons passage rest ih =>
      rw [List.forall_mem_cons] at wellFormed
      obtain ⟨selects, noEscapeBody, _⟩ := wellFormed.1
      rw [List.flatMap_cons, Passage.bytes, List.append_assoc, List.cons_append] at whole
      by_cases first : escape ∈ before
      · obtain ⟨start, between, rfl, noEscapeStart⟩ := List.eq_append_cons_of_mem first
        rw [List.append_assoc, List.cons_append] at whole
        obtain ⟨_, onward⟩ := append_escape_inj noEscape noEscapeStart whole
        rw [← List.append_assoc] at onward
        refine ih wellFormed.2 (fun member => ?_) onward
        rcases List.mem_append.1 member with inTail | inBody
        · exact (CharSet.of_mem_tails selects).2 inTail
        · exact noEscapeBody inBody
      · obtain ⟨_, onward⟩ := append_escape_inj noEscape first whole
        exact ⟨passage.set, passage.tail, selects, _, onward⟩

/-- Two bytes before the first escape are all that is looked at. -/
theorem nearEscape_append_append {far near : Bytes} (noEscape : escape ∉ far ++ near)
    (wide : 2 ≤ near.length) (rest : Bytes) :
    Bytes.nearEscape (far ++ near ++ escape :: rest) =
      near.drop (near.length - 2) ++ escape :: rest := by
  rw [nearEscape_append noEscape, List.length_append, Nat.add_sub_assoc wide,
    List.drop_length_add_append]

end Iso2022Jp

namespace Document

open Iso2022Jp (CharSet IsMail escape)

/-- Seven-bit bytes with an escape are judged by what is near the first one. -/
theorem encodingFindings_of_escape {name : Text} {content : Bytes}
    (sevenBit : ∀ byte ∈ content, byte < 0x80) (escaped : escape ∈ content) :
    (Document.mk name content).encodingFindings =
      if Iso2022Jp.decodes content.nearEscape then [.wholeFile name .notUtf8] else [] := by
  rw [← Bytes.isSevenBit_iff] at sevenBit
  have judged : content.encoding =
      if Iso2022Jp.decodes content.nearEscape then .iso2022Jp else .utf8 := by
    simp [Bytes.encoding, Bytes.isPlain, sevenBit, escaped]
  rw [encodingFindings, judged]
  by_cases decoded : Iso2022Jp.decodes content.nearEscape
  · rw [if_pos decoded, if_pos decoded]
  · rw [if_neg decoded, if_neg decoded]

theorem encodingFindings_of_not_isMail {name : Text} {content : Bytes}
    (sevenBit : ∀ byte ∈ content, byte < 0x80) (other : ¬ IsMail content) :
    (Document.mk name content).encodingFindings = [] := by
  rw [encodingFindings_eq_nil_iff, Bytes.encoding_eq_utf8_iff,
    Iso2022Jp.isIso2022Jp_iff_isMail sevenBit]
  exact ⟨(Bytes.wellFormed_iff_exists_encode content).1
    (Bytes.wellFormed_of_isSevenBit (Bytes.isSevenBit_iff.2 sevenBit)), other⟩

theorem encodingFindings_of_isMail {name : Text} {content : Bytes}
    (sevenBit : ∀ byte ∈ content, byte < 0x80) (mail : IsMail content) :
    (Document.mk name content).encodingFindings = [.wholeFile name .notUtf8] := by
  refine encodingFindings_of_encoding_ne fun accepted => ?_
  exact (Bytes.encoding_eq_utf8_iff.1 accepted).2
    ((Iso2022Jp.isIso2022Jp_iff_isMail sevenBit).2 mail)

/-- **A seven-bit document is rejected exactly when it is mail text by the grammar.** An escape
that begins no escape sequence lets it pass, and what stands further back than two bytes before
the first escape does not matter. -/
theorem encodingFindings_sevenBit (name : Text) {content : Bytes}
    (sevenBit : ∀ byte ∈ content, byte < 0x80) :
    let found (content : Bytes) := (Document.mk name content).encodingFindings
    (found content = [.wholeFile name .notUtf8] ↔ IsMail content) ∧
      (¬ IsMail content → found content = []) ∧
      (∀ before after, content = before ++ escape :: after →
        (∀ set : CharSet, ∀ tail ∈ set.tails, ¬ tail <+: after) → found content = []) ∧
      ∀ far other near after, content = far ++ near ++ escape :: after → escape ∉ far ++ near →
        2 ≤ near.length → (∀ byte ∈ other, byte < 0x80 ∧ byte ≠ escape) →
          found (other ++ near ++ escape :: after) = found content := by
  intro found
  have mail : IsMail content → found content = [.wholeFile name .notUtf8] :=
    encodingFindings_of_isMail sevenBit
  have passes : ¬ IsMail content → found content = [] := encodingFindings_of_not_isMail sevenBit
  refine ⟨⟨fun rejected => ?_, mail⟩, passes, ?_, ?_⟩
  · refine Classical.byContradiction fun other => ?_
    exact List.cons_ne_nil _ _ (rejected.symm.trans (passes other))
  · rintro before after whole stray
    refine passes fun isMail => ?_
    obtain ⟨plain, passages, split, _, noEscape, _, wellFormed, _⟩ := isMail
    obtain ⟨set, tail, selects, follows⟩ :=
      Iso2022Jp.exists_tail_prefix wellFormed noEscape (split.symm.trans whole)
    exact stray set tail selects follows
  · rintro far other near after rfl noEscape wide plain
    have noEscapeOther : escape ∉ other ++ near := by
      rw [List.mem_append, not_or] at noEscape ⊢
      exact ⟨fun member => (plain _ member).2 rfl, noEscape.2⟩
    have sevenBitOther : ∀ byte ∈ other ++ near ++ escape :: after, byte < 0x80 := by
      rw [List.append_assoc, List.forall_mem_append] at sevenBit ⊢
      exact ⟨fun byte member => (plain byte member).1, sevenBit.2⟩
    change (Document.mk name _).encodingFindings = (Document.mk name _).encodingFindings
    rw [encodingFindings_of_escape sevenBitOther (by simp),
      encodingFindings_of_escape sevenBit (by simp),
      Iso2022Jp.nearEscape_append_append noEscapeOther wide,
      Iso2022Jp.nearEscape_append_append noEscape wide]

/-- Mail text of two passages is rejected, and so it is with other bytes in front, be there a shift
among them or not. -/
theorem encodingFindings_sevenBit_kanji :
    let near : Bytes := [0x6F, 0x6B]
    let mail : Bytes := [0x24, 0x42, 0x4A, 0x38, 0x1B, 0x28, 0x42, 0x0A]
    let content : Bytes := 0x0E :: near ++ escape :: mail
    (∀ byte ∈ content, byte < 0x80) ∧
      (Document.mk [] content).encodingFindings = [.wholeFile [] .notUtf8] ∧
      (Document.mk [] (near ++ escape :: mail)).encodingFindings =
        (Document.mk [] content).encodingFindings := by
  intro near mail content
  have sevenBit : ∀ byte ∈ content, byte < 0x80 := Bytes.isSevenBit_iff.1 (by decide)
  obtain ⟨rejected, _, _, farther⟩ := encodingFindings_sevenBit [] sevenBit
  refine ⟨sevenBit, rejected.2 ?_, farther [0x0E] [] near mail rfl (by decide) (by decide) nofun⟩
  refine ⟨[0x0E, 0x6F, 0x6B],
    [⟨.kanji, [0x24, 0x42], [0x4A, 0x38]⟩, ⟨.ascii, [0x28, 0x42], [0x0A]⟩],
    rfl, List.cons_ne_nil _ _, by decide, by simp, ?_, by simp⟩
  have mapped : ∀ pair ∈ [(0x4A, 0x38)], Iso2022Jp.isMapped pair.1 pair.2 :=
    List.forall_mem_singleton.2 (by decide)
  refine List.forall_mem_cons.2 ⟨⟨by decide, by decide, [(0x4A, 0x38)], mapped, rfl⟩, ?_⟩
  exact List.forall_mem_singleton.2 ⟨by decide, by decide, by simp [CharSet.Spells]⟩

end Document

end DocLint
