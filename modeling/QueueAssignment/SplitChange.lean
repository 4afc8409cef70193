import QueueAssignment.Offsets
import QueueAssignment.Topology

/-!
A change of the topology with offsets attached. A new queue without a starting offset is
left out and found again by the next scan, an unchanged queue keeps the range it had, and a
queue that went away is revoked in any case.
-/
namespace QueueAssignment
open Std

structure SplitChange where
  increased : SplitMap := ∅
  decreased : SplitMap := ∅
  latest : SplitMap := ∅

namespace QueueChange

def wanted (change : QueueChange) : QueueSet := change.latest ∪ change.decreased

end QueueChange

namespace SplitChange

def resolvedSplit (starting stopping : OffsetMap) (queue : Queue) : Option Split :=
  starting[queue]?.map fun start => .assign queue start stopping[queue]?

def latestSplit (change : QueueChange) (known : SplitMap) (starting stopping : OffsetMap)
    (queue : Queue) : Option Split :=
  match resolvedSplit starting stopping queue with
  | some split => some split
  | none => if queue ∈ change.increased then none else known[queue]?.map Split.toAssign

def goneSplit (known : SplitMap) (starting stopping : OffsetMap) (queue : Queue) : Split :=
  ((resolvedSplit starting stopping queue).or known[queue]?).getD (.unresolved queue) |>.toRevoke

/-- Attaches offsets to a change. `known` holds the splits of the topology before. -/
def ofOffsets (change : QueueChange) (known : SplitMap) (starting stopping : OffsetMap) :
    SplitChange :=
  let latest := Table.tabulate change.latest (latestSplit change known starting stopping)
  { increased := latest.filter fun queue _ => queue ∈ change.increased
    decreased := Table.tabulate change.decreased fun queue =>
      some (goneSplit known starting stopping queue)
    latest }

theorem getElem?_latest (change : QueueChange) (known : SplitMap) (starting stopping : OffsetMap)
    (queue : Queue) :
    (ofOffsets change known starting stopping).latest[queue]? =
      if queue ∈ change.latest then latestSplit change known starting stopping queue else none :=
  Table.getElem?_tabulate _ _ _

theorem getElem?_decreased (change : QueueChange) (known : SplitMap)
    (starting stopping : OffsetMap) (queue : Queue) :
    (ofOffsets change known starting stopping).decreased[queue]? =
      if queue ∈ change.decreased then some (goneSplit known starting stopping queue) else none :=
  Table.getElem?_tabulate _ _ _

def dropped (change : QueueChange) (known : SplitMap) (starting stopping : OffsetMap) : Nat :=
  change.latest.toList.countP fun queue =>
    (latestSplit change known starting stopping queue).isNone

def queues (change : SplitChange) : QueueSet := Table.keys change.latest

end SplitChange

end QueueAssignment
