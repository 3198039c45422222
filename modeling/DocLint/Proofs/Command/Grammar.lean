import DocLint.Lint
import DocLint.Proofs.Attempt
import Mathlib.Data.List.TakeWhile

/-!
# The arguments that start a run

A run starts only if the arguments are the input option and a directory that is not empty, apart
or attached to each other, and nothing else. What can still follow is known at every place of the
arguments: it depends on the option that waits for its value, or on the value that was read. Main
statement: `Command.parse_eq_ok_iff`.
-/

namespace DocLint.Command

variable {argument directory value : Bytes} {rest arguments : List Bytes}

/-! ## Arguments -/

/-- Whether an argument does not look like an option. A dash alone does not. -/
def IsPlain (argument : Bytes) : Prop :=
  argument = [dash] ∨ argument.head? ≠ some dash

instance (argument : Bytes) : Decidable (IsPlain argument) :=
  inferInstanceAs (Decidable (_ ∨ _))

/-- Whether an argument is the input option alone, so that its value is the next argument. -/
def IsInputOption (argument : Bytes) : Prop :=
  argument = word "-i" ∨ argument = word "--input"

/-- Whether an argument is the input option with a value. Right after the letter a value does not
begin with an equals sign, because that would separate the two. -/
inductive Attaches (value : Bytes) : Bytes → Prop
  | short (present : value ≠ []) (other : value.head? ≠ some equals) :
      Attaches value (word "-i" ++ value)
  | shortEquals : Attaches value (word "-i=" ++ value)
  | longEquals : Attaches value (word "--input=" ++ value)

/-- Whether arguments are the input option with a directory, and nothing else. -/
inductive AsksFor (directory : Bytes) : List Bytes → Prop
  | apart {option : Bytes} (input : IsInputOption option) (plain : IsPlain directory) :
      AsksFor directory [option, directory]
  | attached {argument : Bytes} (attaches : Attaches directory argument) :
      AsksFor directory [argument]

theorem IsPlain.ne_dashes (plain : IsPlain argument) : argument ≠ [dash, dash] := by
  rintro rfl
  rcases plain with alone | other
  · cases alone
  · exact other rfl

theorem IsInputOption.ne_dashes (option : IsInputOption argument) : argument ≠ [dash, dash] := by
  rintro rfl
  rcases option with short | long
  · exact absurd short (by decide)
  · exact absurd long (by decide)

theorem Attaches.ne_dashes (attaches : Attaches value argument) : argument ≠ [dash, dash] := by
  have second : [dash, dash][1]? ≠ some 0x69 := by decide
  have third : [dash, dash][2]? ≠ some 0x69 := by decide
  intro same
  rw [← same] at second third
  cases attaches with
  | short _ _ => exact second rfl
  | shortEquals => exact second rfl
  | longEquals => exact third rfl

/-- Arguments that ask for a directory do not end the options. -/
theorem AsksFor.not_mem (asks : AsksFor directory arguments) : [dash, dash] ∉ arguments := by
  cases asks with
  | apart option plain => simp [option.ne_dashes.symm, plain.ne_dashes.symm]
  | attached attaches => simp [attaches.ne_dashes.symm]

namespace Progress

variable {progress next settled : Progress}

/-! ## Reading one argument -/

theorem ask_ne_ok (progress : Progress) (info : Info) : progress.ask info ≠ .ok next := by
  intro asked
  obtain ⟨_, _, replied⟩ := bind_eq_ok_iff.1 asked
  cases replied

theorem read_of_isPlain (plain : IsPlain argument) (progress : Progress) :
    progress.read argument = progress.readValue argument := by
  cases argument with
  | nil => rfl
  | cons first rest =>
      have taken : first ≠ dash ∨ rest = [] := by
        rcases plain with alone | other
        · exact Or.inr (List.cons.inj alone).2
        · exact Or.inl fun same => other (congrArg some same)
      rw [read, if_pos taken]

theorem read_of_isInputOption (option : IsInputOption argument) (progress : Progress) :
    progress.read argument = progress.await := by
  rcases option with rfl | rfl
  · rfl
  · rfl

theorem read_of_attaches (attaches : Attaches value argument) (progress : Progress) :
    progress.read argument = progress.attach value := by
  cases attaches with
  | short present other =>
      have short : progress.read (word "-i" ++ value) = progress.readShortInput value := rfl
      rw [short, readShortInput, if_neg present, if_neg other]
  | shortEquals => rfl
  | longEquals => rfl

/-- A long option that can be read is the input option, and what follows its first equals sign is
the value. -/
theorem readLong_cases (option : Bytes) : option = word "input" ∨
    (∃ value, option = word "input=" ++ value) ∨
      ∀ progress next, readLong progress option ≠ .ok next := by
  have whole := List.takeWhile_append_dropWhile (p := (· ≠ equals)) (l := option)
  have head := List.head?_dropWhile_not (· ≠ equals) option
  by_cases named : option.takeWhile (· ≠ equals) = word "input"
  · rw [named] at whole
    cases after : option.dropWhile (· ≠ equals) with
    | nil =>
        rw [after, List.append_nil] at whole
        exact Or.inl whole.symm
    | cons first value =>
        rw [after] at whole head
        obtain rfl : first = equals := by simpa using head
        exact Or.inr (Or.inl ⟨value, whole.symm⟩)
  · refine Or.inr (Or.inr fun progress next => ?_)
    rw [readLong, if_neg named]
    split
    · exact ask_ne_ok progress _
    · nofun
    · nofun

/-- A short option that can be read is the input option. -/
theorem readShort_cases (first : UInt8) (attached : Bytes) :
    [first] = word "i" ∨ ∀ progress next, readShort progress (first :: attached) ≠ .ok next := by
  by_cases input : [first] = word "i"
  · exact Or.inl input
  · refine Or.inr fun progress next => ?_
    rw [readShort, if_neg input]
    split
    · exact ask_ne_ok progress _
    · split
      · exact ask_ne_ok progress _
      · intro replied
        cases replied

/-- After the letter of the input option there is nothing or a value. -/
theorem attached_cases (attached : Bytes) : IsInputOption (word "-i" ++ attached) ∨
    ∃ value, Attaches value (word "-i" ++ attached) := by
  by_cases alone : attached = []
  · rw [alone]
    exact Or.inl (Or.inl rfl)
  · by_cases separated : attached.head? = some equals
    · obtain ⟨value, rfl⟩ := List.head?_eq_some_iff.1 separated
      exact Or.inr ⟨value, .shortEquals⟩
    · exact Or.inr ⟨attached, .short alone separated⟩

/-- An argument that can be read is plain, the input option alone or that option with a value. -/
theorem read_cases (argument : Bytes) : IsPlain argument ∨ IsInputOption argument ∨
    (∃ value, Attaches value argument) ∨ ∀ progress next, read progress argument ≠ .ok next := by
  match argument with
  | [] => exact Or.inl (Or.inr nofun)
  | [first] =>
      by_cases starts : first = dash
      · exact Or.inl (Or.inl (congrArg (fun byte => [byte]) starts))
      · exact Or.inl (Or.inr fun same => starts (Option.some.inj same))
  | first :: second :: others =>
      by_cases starts : first = dash
      · subst starts
        refine Or.inr ?_
        by_cases long : second = dash
        · subst long
          rcases readLong_cases others with rfl | ⟨value, rfl⟩ | other
          · exact Or.inl (Or.inr rfl)
          · exact Or.inr (Or.inl ⟨value, .longEquals⟩)
          · exact Or.inr (Or.inr other)
        · rcases readShort_cases second others with input | other
          · obtain rfl := (List.cons.inj input).1
            rcases attached_cases others with alone | attaches
            · exact Or.inl alone
            · exact Or.inr (Or.inl attaches)
          · refine Or.inr (Or.inr fun progress next => ?_)
            have short : read progress (dash :: second :: others) =
                readShort progress (second :: others) := by simp [read, long]
            rw [short]
            exact other progress next
      · exact Or.inl (Or.inr fun same => starts (Option.some.inj same))

/-! ## Accepting a value -/

theorem accept_eq_ok_iff : progress.accept value = .ok next ↔
    progress.accepted? = none ∧ value ≠ [] ∧ next = ⟨some value, .nothing⟩ := by
  unfold accept
  split
  · rename_i taken
    simp [Option.isSome_iff_ne_none.1 taken]
  · rename_i free
    rw [Option.not_isSome_iff_eq_none] at free
    split
    · rename_i empty
      simp [empty]
    · rename_i present
      simp [free, present, eq_comm]

theorem settle_eq_ok_iff : progress.settle = .ok settled ↔
    progress.pending = .nothing ∧ settled = progress ∨
      ∃ value, progress.pending = .value value ∧ progress.accept value = .ok settled := by
  obtain ⟨accepted?, pending⟩ := progress
  cases pending with
  | nothing => simp [settle, eq_comm]
  | awaiting => simp [settle]
  | value value => simp [settle]

/-- What is settled without a value had no option before. -/
theorem eq_start_of_settle (settles : progress.settle = .ok settled)
    (free : settled.accepted? = none) : progress = start ∧ settled = start := by
  rcases settle_eq_ok_iff.1 settles with ⟨nothing, rfl⟩ | ⟨value, _, accepts⟩
  · obtain ⟨accepted?, pending⟩ := settled
    obtain rfl : accepted? = none := free
    obtain rfl : pending = .nothing := nothing
    exact ⟨rfl, rfl⟩
  · obtain ⟨_, _, rfl⟩ := accept_eq_ok_iff.1 accepts
    cases free

/-! ## What can follow -/

/-- Whether the arguments to come make what has been read end in a directory. -/
def Expects (directory : Bytes) (arguments : List Bytes) : Progress → Prop
  | ⟨none, .nothing⟩ => directory ≠ [] ∧ AsksFor directory arguments
  | ⟨none, .awaiting⟩ => directory ≠ [] ∧ IsPlain directory ∧ arguments = [directory]
  | ⟨none, .value value⟩ => directory ≠ [] ∧ value = directory ∧ arguments = []
  | ⟨some value, .nothing⟩ => value = directory ∧ arguments = []
  | ⟨some _, _⟩ => False

/-- The arguments can end where no more are expected. -/
theorem finish_eq_ok_iff : progress.finish = .ok directory ↔ progress.Expects directory [] := by
  obtain ⟨accepted?, pending⟩ := progress
  cases accepted? with
  | none =>
      cases pending with
      | nothing =>
          have unasked : ¬ AsksFor directory [] := nofun
          simp [finish, settle, Except.bind, Expects, unasked]
      | awaiting => simp [finish, settle, Except.bind, Expects]
      | value value =>
          by_cases empty : value = []
          · simp [finish, settle, accept, Except.bind, Expects, empty, eq_comm]
          · have present : value = directory → directory ≠ [] := fun same => same ▸ empty
            simpa [finish, settle, accept, Except.bind, Expects, empty] using present
  | some accepted =>
      cases pending with
      | nothing => simp [finish, settle, Except.bind, Expects]
      | awaiting => simp [finish, settle, Except.bind, Expects]
      | value value => simp [finish, settle, accept, Except.bind, Expects]

/-- An argument that is expected is read, and what is expected after it comes to be. -/
theorem Expects.read (expects : progress.Expects directory (argument :: rest)) :
    ∃ next, progress.read argument = .ok next ∧ next.Expects directory rest := by
  obtain ⟨accepted?, pending⟩ := progress
  cases accepted? with
  | none =>
      cases pending with
      | nothing =>
          obtain ⟨present, asks⟩ := expects
          cases asks with
          | apart option plain =>
              exact ⟨_, read_of_isInputOption option _, present, plain, rfl⟩
          | attached attaches =>
              have accepts : start.accept directory = .ok ⟨some directory, .nothing⟩ :=
                accept_eq_ok_iff.2 ⟨rfl, present, rfl⟩
              exact ⟨_, (read_of_attaches attaches _).trans accepts, rfl, rfl⟩
      | awaiting =>
          obtain ⟨present, plain, rfl, rfl⟩ := expects
          exact ⟨_, read_of_isPlain plain _, present, rfl, rfl⟩
      | value value => cases expects.2.2
  | some accepted =>
      cases pending with
      | nothing => cases expects.2
      | awaiting => cases expects
      | value value => cases expects

/-- Only an argument that is expected can be read so that the rest is. -/
theorem expects_of_read (done : progress.read argument = .ok next)
    (expects : next.Expects directory rest) : progress.Expects directory (argument :: rest) := by
  rcases read_cases argument with plain | option | ⟨value, attaches⟩ | other
  · rw [read_of_isPlain plain] at done
    obtain ⟨accepted?, pending⟩ := progress
    cases pending with
    | nothing => cases done
    | value value => cases done
    | awaiting =>
        obtain rfl := Except.ok.inj done
        cases accepted? with
        | some accepted => cases expects
        | none =>
            obtain ⟨present, rfl, rfl⟩ := expects
            exact ⟨present, plain, rfl⟩
  · rw [read_of_isInputOption option] at done
    obtain ⟨settled, settles, rfl⟩ := map_eq_ok_iff.1 done
    obtain ⟨accepted?, pending⟩ := settled
    cases accepted? with
    | some accepted => cases expects
    | none =>
        obtain ⟨rfl, _⟩ := eq_start_of_settle settles rfl
        obtain ⟨present, plain, rfl⟩ := expects
        exact ⟨present, .apart option plain⟩
  · rw [read_of_attaches attaches] at done
    obtain ⟨settled, settles, accepts⟩ := bind_eq_ok_iff.1 done
    obtain ⟨free, present, rfl⟩ := accept_eq_ok_iff.1 accepts
    obtain ⟨rfl, rfl⟩ := eq_start_of_settle settles free
    obtain ⟨rfl, rfl⟩ := expects
    exact ⟨present, .attached attaches⟩
  · exact absurd done (other progress next)

/-- Arguments are read to a directory if they are what is expected. -/
theorem readAll_eq_ok_iff (single : [dash, dash] ∉ arguments) :
    (progress.readAll arguments).bind finish = .ok directory ↔
      progress.Expects directory arguments := by
  induction arguments generalizing progress with
  | nil => exact finish_eq_ok_iff
  | cons argument rest ih =>
      rw [List.mem_cons, not_or] at single
      rw [readAll, if_neg (Ne.symm single.1)]
      constructor
      · intro done
        obtain ⟨last, whole, ends⟩ := bind_eq_ok_iff.1 done
        obtain ⟨next, first, others⟩ := bind_eq_ok_iff.1 whole
        exact expects_of_read first ((ih single.2).1 (bind_eq_ok_iff.2 ⟨last, others, ends⟩))
      · intro expects
        obtain ⟨next, first, onward⟩ := expects.read
        obtain ⟨last, others, ends⟩ := bind_eq_ok_iff.1 ((ih single.2).2 onward)
        exact bind_eq_ok_iff.2 ⟨last, bind_eq_ok_iff.2 ⟨next, first, others⟩, ends⟩

end Progress

/-! ## All arguments -/

theorem parse_of_asksFor (present : directory ≠ []) (asks : AsksFor directory arguments) :
    parse arguments = .ok directory :=
  (Progress.readAll_eq_ok_iff asks.not_mem).2 ⟨present, asks⟩

theorem parse_input (present : directory ≠ []) (plain : IsPlain directory) :
    parse [word "-i", directory] = .ok directory :=
  parse_of_asksFor present (.apart (Or.inl rfl) plain)

/-- **The arguments that start a run.** Without two dashes alone among them, arguments are read
to a directory if it is not empty and they are the input option with that directory, and nothing
else. All others are replied to, and start no run. -/
theorem parse_eq_ok_iff (single : [dash, dash] ∉ arguments) :
    (∀ directory, parse arguments = .ok directory ↔
      directory ≠ [] ∧ AsksFor directory arguments) ∧
    ((¬ ∃ directory, directory ≠ [] ∧ AsksFor directory arguments) ↔
      ∃ reply, parse arguments = .error reply ∧
        ∀ system turn, run system turn arguments = .reply reply) := by
  have parsed (directory : Bytes) : parse arguments = .ok directory ↔
      directory ≠ [] ∧ AsksFor directory arguments := Progress.readAll_eq_ok_iff single
  refine ⟨parsed, ?_⟩
  simp only [← parsed]
  cases result : parse arguments with
  | ok directory => simp
  | error reply => simp [run, result]

/-- What is attached to the letter without a separator is the directory as it stands, and what
follows a separator can begin with another one. -/
theorem parse_attached :
    [dash, dash] ∉ [word "-i-=x"] ∧ parse [word "-i-=x"] = .ok (word "-=x") ∧
      [dash, dash] ∉ [word "-i==x"] ∧ parse [word "-i==x"] = .ok (word "=x") := by
  have first : [dash, dash] ∉ [word "-i-=x"] := by decide
  have second : [dash, dash] ∉ [word "-i==x"] := by decide
  have attached : AsksFor (word "-=x") [word "-i-=x"] :=
    .attached (@Attaches.short (word "-=x") (by decide) (by decide))
  have separated : AsksFor (word "=x") [word "-i==x"] :=
    .attached (@Attaches.shortEquals (word "=x"))
  exact ⟨first, ((parse_eq_ok_iff first).1 _).2 ⟨by decide, attached⟩,
    second, ((parse_eq_ok_iff second).1 _).2 ⟨by decide, separated⟩⟩

end DocLint.Command
