import QueueAssignment.Hash.Jump
import QueueAssignment.QueueKey
import QueueAssignment.Strategy

/-!
Placement by consistent hashing: the worker of a queue depends only on the queue and on the
number of workers.
-/
namespace QueueAssignment.Strategy

def hashedWorker (parallelism : UInt32) (queue : Queue) : Worker :=
  UInt32.ofNat (Jump.bucket queue.key parallelism.toNat)

def hashedOwners (queues : QueueSet) (parallelism : UInt32) : OwnerMap :=
  Table.tabulate queues fun queue => some (hashedWorker parallelism queue)

def hashed : Strategy := fun _ queues parallelism =>
  if parallelism = 0 then .error (.allocation .noWorkers)
  else .ok (hashedOwners queues parallelism).byWorker

end QueueAssignment.Strategy
