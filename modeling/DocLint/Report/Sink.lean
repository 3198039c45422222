import DocLint.Failure
import DocLint.Report

/-!
# Delivering a report

A sink takes bytes in pieces. It may take only so many at a time and only so many in all;
asked for more than that, it takes nothing or fails. A report is offered until all of it
is taken, and the sink is then flushed. Nothing is offered for an empty report, which is
flushed all the same.
-/

namespace DocLint

/-- What a sink does when it can take nothing more, and on a flush. -/
inductive Sink.Mode where
  /-- Takes no byte, without failing; flushes well. -/
  | stall
  /-- Takes no byte, without failing; fails to flush. -/
  | stallFailFlush
  /-- Fails; flushes well. -/
  | fail
  /-- Fails, and fails to flush. -/
  | failFlush
  deriving DecidableEq, Repr

/-- Something that a report can be delivered to. A missing bound is no bound. -/
structure Sink where
  /-- The most bytes taken at a time. -/
  chunk? : Option Nat
  /-- The most bytes taken in all. -/
  limit? : Option Nat
  mode : Sink.Mode
  /-- The text that the sink fails with. -/
  message : Text
  deriving DecidableEq, Repr

namespace Sink

/-- How many bytes a sink takes at most when it has `taken` some already. A missing bound
is no bound. -/
def room? (sink : Sink) (taken : Nat) : Option Nat :=
  match sink.chunk?, sink.limit?.map (· - taken) with
  | some atOnce, some left => some (min atOnce left)
  | some atOnce, none => some atOnce
  | none, left? => left?

/-- The text of the failure of a sink that takes nothing more. -/
def fullMessage (sink : Sink) : Text :=
  match sink.mode with
  | .stall | .stallFailFlush => "failed to write whole buffer".toList
  | .fail | .failFlush => sink.message

/-- What a sink received, and its failure if it failed. -/
structure Delivery where
  received : Bytes
  result : Except Failure Unit

/-- Offers the rest of some bytes until all are taken or the sink takes none. The bytes
received so far are given last first, together with their number. -/
def offer (sink : Sink) (taken : Nat) (received : Bytes) : Bytes → Delivery
  | [] => ⟨received.reverse, .ok ()⟩
  | byte :: rest =>
      match sink.room? taken with
      | none => ⟨(rest.reverse ++ byte :: received).reverse, .ok ()⟩
      | some 0 => ⟨received.reverse, .error (.io sink.fullMessage)⟩
      | some (count + 1) =>
          sink.offer (taken + count + 1) ((rest.take count).reverse ++ byte :: received)
            (rest.drop count)
termination_by rest => rest.length
decreasing_by simp only [List.length_drop, List.length_cons]; omega

/-- Offers bytes to a sink that has taken none. -/
def writeAll (sink : Sink) (bytes : Bytes) : Delivery :=
  sink.offer 0 [] bytes

/-- Flushes a sink. -/
def flush (sink : Sink) : Except Failure Unit :=
  match sink.mode with
  | .stallFailFlush | .failFlush => .error (.io sink.message)
  | .stall | .fail => .ok ()

/-- Flushes a sink after a delivery, unless that failed. -/
def settle (sink : Sink) (delivery : Delivery) : Delivery :=
  match delivery.result with
  | .error failure => ⟨delivery.received, .error failure⟩
  | .ok () => ⟨delivery.received, sink.flush⟩

/-- Delivers the report on some findings. -/
def deliver (sink : Sink) (findings : List Finding) : Delivery :=
  sink.settle (sink.writeAll (report findings).encode)

end Sink

end DocLint
