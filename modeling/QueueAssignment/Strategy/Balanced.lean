import QueueAssignment.Strategy

/-!
Placement in blocks: the sorted queues are dealt out in runs as equal as possible, the
longer runs to the first workers.
-/
namespace QueueAssignment.Strategy
open Std

def share (base extra worker : Nat) : Nat := if worker < extra then base + 1 else base

/-- Deals to the workers from `worker` on, of which `left` are left, until one would get nothing. -/
def deal (base extra : Nat) : Nat → Nat → List Queue → List (Worker × QueueSet)
  | _, 0, _ => []
  | worker, left + 1, queues =>
      let size := share base extra worker
      if size = 0 then []
      else (UInt32.ofNat worker, ExtTreeSet.ofList (queues.take size)) ::
        deal base extra (worker + 1) left (queues.drop size)

def balancedBlocks (queues : QueueSet) (parallelism : UInt32) : Assignment :=
  let workers := parallelism.toNat
  Table.ofEntries (deal (queues.size / workers) (queues.size % workers) 0 workers queues.toList)

def balanced : Strategy := fun _ queues parallelism =>
  if parallelism = 0 then .error (.allocation .noWorkers)
  else .ok (balancedBlocks queues parallelism)

end QueueAssignment.Strategy
