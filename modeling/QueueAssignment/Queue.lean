import QueueAssignment.Table

/-!
A queue is one partition of a topic on one broker, the unit of ownership. Queues sort by
topic, then broker, then index, and names compare by code point; every placement goes
through them in this order.
-/
namespace QueueAssignment
open Std

/-- The number of a worker. A job of parallelism `p` has the workers `0, …, p - 1`. -/
abbrev Worker := UInt32

structure Queue where
  topic : String
  broker : String
  index : UInt32
  deriving DecidableEq, Repr

namespace Queue

def order : Queue → Queue → Ordering :=
  compareLex (compareOn topic) (compareLex (compareOn broker) (compareOn index))

instance : Ord Queue := ⟨order⟩

instance : TransOrd Queue :=
  inferInstanceAs (TransCmp (compareLex (compareOn topic)
    (compareLex (compareOn broker) (compareOn index))))

instance : LawfulEqOrd Queue where
  eq_of_compare {a b} same := by
    change order a b = .eq at same
    simp only [order, compareLex, compareOn, Ordering.then_eq_eq, Std.compare_eq_iff_eq] at same
    cases a; cases b
    simp_all only

def text (queue : Queue) : String :=
  queue.topic ++ "@" ++ queue.broker ++ "#" ++ toString queue.index.toNat

end Queue

abbrev QueueSet := ExtTreeSet Queue

abbrev WorkerSet := ExtTreeSet Worker

end QueueAssignment
