import DocLint.Report.Sink

/-!
# What a sink receives

A sink takes bytes in pieces, and it does not matter how long these are, as long as it takes at
least one byte when it can (`Sink.Offers`). However the bytes are cut, it ends up with the same
ones, and they are the first ones (`Sink.offers_iff`). Whether a report is delivered depends on
its length and on the flush at the end alone. Main statement: `Sink.deliver_report`.
-/

namespace DocLint

namespace Sink

variable {sink : Sink} {taken count total : Nat} {bytes : Bytes} {delivery : Delivery}

/-! ## Room -/

/-- Whether a sink that has taken some bytes already can take a number of bytes at a time. -/
structure Admits (sink : Sink) (taken count : Nat) : Prop where
  atOnce : ∀ most, sink.chunk? = some most → count ≤ most
  inAll : ∀ limit, sink.limit? = some limit → taken + count ≤ limit

/-- Whether a sink that has taken some bytes already can take no other. -/
def IsFull (sink : Sink) (taken : Nat) : Prop :=
  sink.chunk? = some 0 ∨ ∃ limit, sink.limit? = some limit ∧ limit ≤ taken

/-- How many out of a number of bytes a sink takes in the end when it has taken some already. -/
def capacity (sink : Sink) (taken total : Nat) : Nat :=
  if sink.chunk? = some 0 then 0 else (sink.limit?.map (· - taken)).getD total

/-- A sink can take some bytes at a time if it has room for them. -/
theorem admits_iff (positive : 0 < count) :
    sink.Admits taken count ↔ ∀ room, sink.room? taken = some room → count ≤ room := by
  have left (limit : Nat) : count ≤ limit - taken ↔ taken + count ≤ limit := by omega
  have parts : sink.Admits taken count ↔ (∀ most, sink.chunk? = some most → count ≤ most) ∧
      ∀ limit, sink.limit? = some limit → taken + count ≤ limit :=
    ⟨fun admits => ⟨admits.atOnce, admits.inAll⟩, fun both => ⟨both.1, both.2⟩⟩
  rw [parts, room?]
  cases sink.chunk? with
  | none =>
      cases sink.limit? with
      | none => simp
      | some limit => simp [left]
  | some most =>
      cases sink.limit? with
      | none => simp
      | some limit =>
          simp only [Option.map_some, Option.some.injEq, forall_eq', ← left]
          exact Nat.le_min.symm

theorem isFull_iff : sink.IsFull taken ↔ sink.room? taken = some 0 := by
  unfold IsFull room?
  cases sink.chunk? with
  | none =>
      cases sink.limit? with
      | none => simp
      | some limit => simp [Nat.sub_eq_zero_iff_le]
  | some most =>
      cases sink.limit? with
      | none => simp
      | some limit => simp [Nat.sub_eq_zero_iff_le]

theorem capacity_of_isFull (full : sink.IsFull taken) : sink.capacity taken total = 0 := by
  unfold capacity
  rcases full with chunk | ⟨limit, limited, reached⟩
  · rw [if_pos chunk]
  · simp [limited, Nat.sub_eq_zero_of_le reached]

/-- A piece that a sink can take is part of what it takes in the end. -/
theorem capacity_of_admits (positive : 0 < count) (offered : count ≤ total)
    (admits : sink.Admits taken count) :
    sink.capacity taken total = count + sink.capacity (taken + count) (total - count) := by
  have chunk : sink.chunk? ≠ some 0 :=
    fun none => Nat.not_le_of_lt positive (admits.atOnce 0 none)
  unfold capacity
  rw [if_neg chunk, if_neg chunk]
  cases limited : sink.limit? with
  | none => exact (Nat.add_sub_of_le offered).symm
  | some limit =>
      have inAll := admits.inAll limit limited
      change limit - taken = count + (limit - (taken + count))
      omega

/-! ## Pieces -/

/-- What can come of offering bytes to a sink that has taken some already, when it takes them in
pieces of any length. -/
inductive Offers (sink : Sink) : Nat → Bytes → Delivery → Prop where
  | done (taken : Nat) : Offers sink taken [] ⟨[], .ok ()⟩
  | piece {taken count : Nat} {bytes : Bytes} {delivery : Delivery} (positive : 0 < count)
      (offered : count ≤ bytes.length) (admits : sink.Admits taken count)
      (onward : Offers sink (taken + count) (bytes.drop count) delivery) :
      Offers sink taken bytes ⟨bytes.take count ++ delivery.received, delivery.result⟩
  | full {taken : Nat} {bytes : Bytes} (left : bytes ≠ []) (full : sink.IsFull taken) :
      Offers sink taken bytes ⟨[], .error (.io sink.fullMessage)⟩

/-- What comes of offering bytes to a sink that takes as many of them as it has room for. -/
def offered (sink : Sink) (taken : Nat) (bytes : Bytes) : Delivery where
  received := bytes.take (sink.capacity taken bytes.length)
  result :=
    if bytes.length ≤ sink.capacity taken bytes.length then .ok ()
    else .error (.io sink.fullMessage)

/-- The pieces make no difference. -/
theorem Offers.eq_offered (offers : sink.Offers taken bytes delivery) :
    delivery = sink.offered taken bytes := by
  induction offers with
  | done taken => simp [offered]
  | @piece taken count bytes delivery positive inside admits onward ih =>
      have whole := capacity_of_admits positive inside admits
      rw [ih, offered, offered, whole, List.length_drop, List.take_add]
      simp only [Nat.sub_le_iff_le_add']
  | @full taken bytes left full =>
      have some := List.length_pos_iff.2 left
      rw [offered, capacity_of_isFull full, if_neg (by omega), List.take_zero]

theorem eq_of_offers_nil (offers : sink.Offers taken [] delivery) :
    delivery = ⟨[], .ok ()⟩ := by
  rw [offers.eq_offered]
  simp [offered]

/-- A sink that can take all bytes at a time can take them in one piece. -/
theorem offers_whole (some : bytes ≠ []) (admits : sink.Admits taken bytes.length) :
    sink.Offers taken bytes ⟨bytes, .ok ()⟩ := by
  have last : sink.Offers (taken + bytes.length) (bytes.drop bytes.length) ⟨[], .ok ()⟩ := by
    rw [List.drop_length]
    exact .done _
  have whole := Offers.piece (List.length_pos_iff.2 some) (Nat.le_refl _) admits last
  rwa [List.take_length, List.append_nil] at whole

/-- A sink that takes as many bytes at a time as it can is one of those that take pieces of some
length. -/
theorem exists_offers_offer (sink : Sink) (taken : Nat) (received bytes : Bytes) :
    ∃ delivery, sink.Offers taken bytes delivery ∧
      sink.offer taken received bytes =
        ⟨received.reverse ++ delivery.received, delivery.result⟩ := by
  fun_induction offer sink taken received bytes with
  | case1 taken received => exact ⟨_, .done taken, by simp⟩
  | case2 taken received byte rest boundless =>
      have admits : sink.Admits taken (byte :: rest).length :=
        (admits_iff (Nat.succ_pos _)).2 (by simp [boundless])
      exact ⟨_, offers_whole (List.cons_ne_nil _ _) admits, by simp⟩
  | case3 taken received byte rest full =>
      exact ⟨_, .full (List.cons_ne_nil _ _) (isFull_iff.2 full), by simp⟩
  | case4 taken received byte rest count room ih =>
      obtain ⟨delivery, onward, same⟩ := ih
      rw [same]
      have admits {length : Nat} (positive : 0 < length) (within : length ≤ count + 1) :
          sink.Admits taken length :=
        (admits_iff positive).2 fun other found => by
          obtain rfl := Option.some.inj (room.symm.trans found)
          exact within
      by_cases inside : count ≤ rest.length
      · have admits := admits (Nat.succ_pos count) (Nat.le_refl _)
        refine ⟨_, .piece (Nat.succ_pos count) (by simpa using inside) admits onward, ?_⟩
        simp
      · -- The sink has room for more than is left, so that this piece is the last.
        have short := Nat.le_of_not_le inside
        have admits := admits (Nat.succ_pos rest.length) (Nat.succ_le_succ short)
        rw [List.drop_of_length_le short] at onward
        rw [eq_of_offers_nil onward, List.take_of_length_le short]
        exact ⟨_, offers_whole (List.cons_ne_nil _ _) admits, by simp⟩

/-- Whatever pieces a sink takes, the outcome is that of taking as many bytes as it can. -/
theorem offers_iff : sink.Offers 0 bytes delivery ↔ delivery = sink.writeAll bytes := by
  obtain ⟨greedy, offers, same⟩ := exists_offers_offer sink 0 [] bytes
  obtain rfl : greedy = sink.writeAll bytes := same.symm
  constructor
  · exact fun other => other.eq_offered.trans offers.eq_offered.symm
  · rintro rfl
    exact offers

theorem writeAll_eq (sink : Sink) (bytes : Bytes) : sink.writeAll bytes = sink.offered 0 bytes :=
  (offers_iff.2 rfl).eq_offered

/-! ## Reports -/

/-- Whether a sink takes all of some bytes in the end. -/
def Holds (sink : Sink) (bytes : Bytes) : Prop :=
  bytes = [] ∨ sink.chunk? ≠ some 0 ∧ ∀ limit, sink.limit? = some limit → bytes.length ≤ limit

theorem holds_iff : sink.Holds bytes ↔ bytes.length ≤ sink.capacity 0 bytes.length := by
  unfold Holds capacity
  by_cases chunk : sink.chunk? = some 0
  · simp [chunk]
  · cases limited : sink.limit? with
    | none => simp [chunk]
    | some limit =>
        simp only [chunk, ↓reduceIte, Option.map_some, Nat.sub_zero, Option.getD_some, ne_eq,
          not_false_eq_true, true_and, Option.some.injEq, forall_eq']
        constructor
        · rintro (rfl | inside)
          · exact Nat.zero_le _
          · exact inside
        · exact Or.inr

section Deliver

variable {findings : List Finding}

theorem deliver_of_holds (holds : sink.Holds (report findings).encode) :
    sink.deliver findings = ⟨(report findings).encode, sink.flush⟩ := by
  have room := holds_iff.1 holds
  rw [deliver, writeAll_eq, settle, offered, if_pos room, List.take_of_length_le room]

theorem deliver_of_not_holds (holds : ¬ sink.Holds (report findings).encode) :
    sink.deliver findings =
      ⟨(report findings).encode.take (sink.capacity 0 (report findings).encode.length),
        .error (.io sink.fullMessage)⟩ := by
  rw [deliver, writeAll_eq, settle, offered, if_neg (mt holds_iff.2 holds)]

theorem received_deliver (sink : Sink) (findings : List Finding) :
    (sink.deliver findings).received =
      (report findings).encode.take (sink.capacity 0 (report findings).encode.length) := by
  by_cases holds : sink.Holds (report findings).encode
  · rw [deliver_of_holds holds, List.take_of_length_le (holds_iff.1 holds)]
  · rw [deliver_of_not_holds holds]

theorem result_deliver_eq_ok_iff : (sink.deliver findings).result = .ok () ↔
    sink.Holds (report findings).encode ∧ sink.flush = .ok () := by
  by_cases holds : sink.Holds (report findings).encode
  · rw [deliver_of_holds holds]
    exact (and_iff_right holds).symm
  · rw [deliver_of_not_holds holds]
    simp [holds]

theorem flush_eq_error {failure : Failure} (failed : sink.flush = .error failure) :
    failure = .io sink.message := by
  unfold flush at failed
  cases mode : sink.mode with
  | stall | fail =>
      rw [mode] at failed
      cases failed
  | stallFailFlush | failFlush =>
      rw [mode] at failed
      exact (Except.error.inj failed).symm

theorem exists_io_of_deliver {failure : Failure}
    (failed : (sink.deliver findings).result = .error failure) :
    ∃ cause, failure = .io cause := by
  by_cases holds : sink.Holds (report findings).encode
  · rw [deliver_of_holds holds] at failed
    exact ⟨_, flush_eq_error failed⟩
  · rw [deliver_of_not_holds holds] at failed
    exact ⟨_, (Except.error.inj failed).symm⟩

end Deliver

/-- What can come of delivering the report on some findings to a sink that takes pieces of any
length. -/
def Delivers (sink : Sink) (findings : List Finding) (delivery : Delivery) : Prop :=
  ∃ offered, sink.Offers 0 (report findings).encode offered ∧ delivery = sink.settle offered

/-- **What a sink receives of a report is a beginning of it.** It does not depend on the pieces
that the sink takes, as long as it takes some. The delivery is a success exactly if the sink has
room for the whole report and flushes well. Otherwise the sink fails with a text of its own, and it
has got as much as it had room for. -/
theorem deliver_report (sink : Sink) (findings : List Finding) :
    let bytes := (report findings).encode
    let delivery := sink.deliver findings
    (∀ other, sink.Delivers findings other ↔ other = delivery) ∧
      (delivery.result = .ok () ↔
        (bytes = [] ∨ sink.chunk? ≠ some 0 ∧
          ∀ limit, sink.limit? = some limit → bytes.length ≤ limit) ∧ sink.flush = .ok ()) ∧
      (delivery.result = .ok () → delivery.received = bytes) ∧
      (∀ failure, delivery.result = .error failure → (∃ cause, failure = .io cause) ∧
        delivery.received =
          if sink.chunk? = some 0 then [] else sink.limit?.elim bytes fun limit =>
            bytes.take (min limit bytes.length)) ∧
      delivery.received <+: bytes ∧
      ∀ chunk?, chunk? ≠ some 0 → sink.chunk? ≠ some 0 →
        ({ sink with chunk? }.deliver findings).received = delivery.received := by
  intro bytes delivery
  have received := received_deliver sink findings
  refine ⟨fun other => ?_, result_deliver_eq_ok_iff, fun succeeded => ?_, fun failure failed => ?_,
    ?_, fun chunk? some someSink => ?_⟩
  · unfold Delivers
    simp only [offers_iff, exists_eq_left]
    rfl
  · have holds := (result_deliver_eq_ok_iff.1 succeeded).1
    exact congrArg Delivery.received (deliver_of_holds holds)
  · refine ⟨exists_io_of_deliver failed, received.trans ?_⟩
    by_cases chunk : sink.chunk? = some 0
    · rw [if_pos chunk, capacity, if_pos chunk, List.take_zero]
    · rw [if_neg chunk, capacity, if_neg chunk]
      cases sink.limit? with
      | none => exact List.take_length
      | some limit => exact List.take_eq_take_min
  · exact received ▸ List.take_prefix _ _
  · rw [received_deliver, received, capacity, if_neg some, capacity, if_neg someSink]

end Sink

end DocLint
