import DocLint.Lint
import Mathlib.Logic.Basic

/-!
# Attempts

An attempt that follows another one succeeds if both do, the second on what the first has left.
Attempts made at the same time succeed if each of them does (`together_eq_ok_iff`); otherwise any
of those that fail can be the one whose failure they come to
(`exists_together_eq_error_iff`).
-/

namespace DocLint

variable {ε α β : Type}

theorem bind_eq_ok_iff {attempt : Except ε α} {next : α → Except ε β} {result : β} :
    attempt.bind next = .ok result ↔ ∃ value, attempt = .ok value ∧ next value = .ok result := by
  cases attempt with
  | error failure => simp [Except.bind]
  | ok value => simp [Except.bind]

theorem map_eq_ok_iff {attempt : Except ε α} {change : α → β} {result : β} :
    attempt.map change = .ok result ↔ ∃ value, attempt = .ok value ∧ change value = result := by
  cases attempt with
  | error failure => simp [Except.map]
  | ok value => simp [Except.map]

/-! ## Attempts made at the same time -/

variable {attempts : List (Except ε α)} {failure : ε} {turn : Nat}

theorem mem_failures_iff : failure ∈ failures attempts ↔ .error failure ∈ attempts := by
  rw [failures, List.mem_filterMap]
  constructor
  · intro there
    obtain ⟨attempt, member, failed⟩ := there
    cases attempt with
    | error other => exact Option.some.inj failed ▸ member
    | ok result => cases failed
  · intro member
    exact ⟨_, member, rfl⟩

theorem eq_map_results (free : failures attempts = []) : attempts = (results attempts).map .ok := by
  induction attempts with
  | nil => rfl
  | cons attempt rest ih =>
      cases attempt with
      | error failure => cases free
      | ok result => exact congrArg (.ok result :: ·) (ih free)

/-- Attempts come to results if these are what each of them comes to. -/
theorem together_eq_ok_iff {all : List α} :
    together turn attempts = .ok all ↔ attempts = all.map .ok := by
  constructor
  · intro done
    unfold together at done
    split at done
    case h_1 => cases done
    case h_2 beyond =>
      -- The turn is taken among the failures, so that it can only miss them if there are none.
      have free : failures attempts = [] := by
        rw [List.getElem?_eq_none_iff] at beyond
        refine Classical.byContradiction fun present => ?_
        exact absurd (Nat.mod_lt turn (List.length_pos_iff.2 present)) (Nat.not_lt.2 beyond)
      obtain rfl := Except.ok.inj done
      exact eq_map_results free
  · rintro rfl
    have free : failures (all.map Except.ok : List (Except ε α)) = [] := by
      rw [failures, List.filterMap_map, List.filterMap_eq_nil_iff]
      exact fun _ _ => rfl
    have kept : results (all.map Except.ok : List (Except ε α)) = all := by
      rw [results, List.filterMap_map]
      exact List.filterMap_some
    rw [together, free, kept]
    rfl

/-- The failures that attempts can come to are those of the attempts that fail. -/
theorem exists_together_eq_error_iff :
    (∃ turn, together turn attempts = .error failure) ↔ .error failure ∈ attempts := by
  rw [← mem_failures_iff]
  constructor
  · rintro ⟨turn, failed⟩
    unfold together at failed
    split at failed
    case h_1 found =>
      obtain rfl := Except.error.inj failed
      exact List.mem_of_getElem? found
    case h_2 => cases failed
  · intro member
    obtain ⟨index, inside, found⟩ := List.mem_iff_getElem.1 member
    refine ⟨index, ?_⟩
    rw [together, Nat.mod_eq_of_lt inside, List.getElem?_eq_getElem inside, found]

end DocLint
