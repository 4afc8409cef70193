import QueueAssignment.Error
import QueueAssignment.Split

/-!
What a broker knows at one moment: the queues of each topic and the offsets of each queue.
-/
namespace QueueAssignment
open Std

/-- How a broker answers for a topic. Where it crashes the scan that asked goes down with it. -/
inductive Route where
  | queues (found : QueueSet)
  | refused
  | crash

/-- The offsets that a broker has for a queue. A missing one is a failed look-up, but a group
    without an entry in `committed` has just not committed anything. -/
structure OffsetRecord where
  min : Option Offset := none
  max : Option Offset := none
  committed : Option (ExtTreeMap String Offset) := none
  times : ExtTreeMap Int64 Offset := ∅

structure Broker where
  routes : ExtTreeMap String Route := ∅
  offsets : ExtTreeMap Queue OffsetRecord := ∅
  refusesClose : Bool := false
  /-- How often the connection was released. -/
  closes : Nat := 0

namespace Broker

def update (broker : Broker) (routes : ExtTreeMap String Route)
    (offsets : ExtTreeMap Queue OffsetRecord) : Broker :=
  { broker with routes := broker.routes ∪ routes, offsets := broker.offsets ∪ offsets }

def route (broker : Broker) (topic : String) : Route := broker.routes[topic]?.getD .refused

def record (broker : Broker) (queue : Queue) : OffsetRecord := broker.offsets[queue]?.getD {}

def required (what : String) (queue : Queue) : Option Offset → Except Error Offset
  | some offset => .ok offset
  | none => .error (.broker ("no " ++ what ++ " offset of " ++ queue.text))

def minOffset (broker : Broker) (queue : Queue) : Except Error Offset :=
  required "first" queue (broker.record queue).min

def maxOffset (broker : Broker) (queue : Queue) : Except Error Offset :=
  required "last" queue (broker.record queue).max

def offsetAt (broker : Broker) (queue : Queue) (time : Int64) : Except Error Offset :=
  required "timed" queue (broker.record queue).times[time]?

def committedOffset (broker : Broker) (group : String) (queue : Queue) :
    Except Error (Option Offset) :=
  match (broker.record queue).committed with
  | some groups => .ok groups[group]?
  | none => .error (.broker ("no committed offset of " ++ queue.text))

/-- Releases the connection. An attempt counts whether or not it is refused. -/
def close (broker : Broker) : Broker × Except Error Unit :=
  ({ broker with closes := broker.closes + 1 },
    if broker.refusesClose then .error (.broker "connection reset") else .ok ())

end Broker

end QueueAssignment
