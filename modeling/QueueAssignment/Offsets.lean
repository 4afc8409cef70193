import QueueAssignment.Broker

/-!
Where the range of a queue starts or stops. A policy looks offsets up queue by queue, so one
failing queue does not touch the others; a batch as a whole fails only when the broker is
down.
-/
namespace QueueAssignment
open Std

/-- What stands in for an offset that was never committed. -/
inductive Fallback where
  | earliest
  | latest
  deriving DecidableEq, Repr

inductive OffsetPolicy where
  | earliest
  | latest
  | committed (fallback : Fallback)
  | timestamp (time : Int64)
  | fixed (offsets : ExtTreeMap Queue Offset)
  /-- Resolves nothing: a range that stops there is read forever. -/
  | unbounded

abbrev OffsetMap := ExtTreeMap Queue Offset

/-- The offsets of a batch and the number of queues whose look-up failed. A queue without an offset
    need not have failed. -/
structure Resolution where
  offsets : OffsetMap := ∅
  failures : Nat := 0

namespace OffsetPolicy

def offset (policy : OffsetPolicy) (group : String) (broker : Broker) (queue : Queue) :
    Except Error (Option Offset) :=
  match policy with
  | earliest => (broker.minOffset queue).map some
  | latest => (broker.maxOffset queue).map some
  | committed fallback =>
      match broker.committedOffset group queue with
      | .error e => .error e
      | .ok (some found) => .ok (some found)
      | .ok none =>
          match fallback with
          | .earliest => (broker.minOffset queue).map some
          | .latest => (broker.maxOffset queue).map some
  | timestamp time => (broker.offsetAt queue time).map some
  | fixed offsets => .ok offsets[queue]?
  | unbounded => .ok none

def resolve (policy : OffsetPolicy) (group : String) (broker : Broker) (queues : QueueSet) :
    Resolution where
  offsets := Table.tabulate queues fun queue =>
    match policy.offset group broker queue with
    | .ok found => found
    | .error _ => none
  failures := queues.toList.countP fun queue =>
    match policy.offset group broker queue with
    | .ok _ => false
    | .error _ => true

end OffsetPolicy

inductive OffsetResolver where
  | policy (policy : OffsetPolicy)
  /-- Every batch fails for this reason. -/
  | down (reason : String)

namespace OffsetResolver

def resolve (resolver : OffsetResolver) (group : String) (broker : Broker) (queues : QueueSet) :
    Except Error Resolution :=
  match resolver with
  | policy p => .ok (p.resolve group broker queues)
  | down reason => .error (.offsetResolution reason)

/-- A batch that fails counts each of its queues and resolves none. -/
def resolveOrNothing (resolver : OffsetResolver) (group : String) (broker : Broker)
    (queues : QueueSet) : Resolution :=
  if queues.isEmpty then {}
  else match resolver.resolve group broker queues with
    | .ok resolution => resolution
    | .error _ => { failures := queues.size }

end OffsetResolver

end QueueAssignment
