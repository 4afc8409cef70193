import QueueAssignment.Queue

/-!
How the queues that a scan found differ from those that are owned.
-/
namespace QueueAssignment
open Std

structure QueueChange where
  increased : QueueSet := ∅
  decreased : QueueSet := ∅
  latest : QueueSet := ∅

namespace QueueChange

def isEmpty (change : QueueChange) : Bool := change.increased.isEmpty && change.decreased.isEmpty

def between (latest owned : QueueSet) : QueueChange where
  increased := latest \ owned
  decreased := owned \ latest
  latest := latest

end QueueChange

end QueueAssignment
