import QueueAssignment.Coordinator

/-!
A coordinator that starts from a checkpoint. Recorded owners are the baseline as they are.
Owned queues without a recorded owner are held, and the first target that places them names
their owner. Queues recorded for a worker that the job does not have are dropped; a scan
finds them as new.
-/
namespace QueueAssignment
open Std

namespace Checkpoint

def ownersBelow (checkpoint : Checkpoint) (parallelism : UInt32) : OwnerMap :=
  checkpoint.ownerMap.filter fun _ worker => worker < parallelism

def ownerless (checkpoint : Checkpoint) : QueueSet :=
  checkpoint.owned.filter fun queue => queue ∉ checkpoint.ownerMap

end Checkpoint

namespace Coordinator

def unresolvedSplits (queues : QueueSet) : SplitMap :=
  Table.tabulate queues fun queue => some (.unresolved queue)

def restore (job : Job) (checkpoint : Checkpoint) (metrics : Metrics) :
    Except Error Coordinator :=
  if job.settings.parallelism = 0 then .error (.allocation .noWorkers)
  else
    let owned := checkpoint.ownersBelow job.settings.parallelism
    let held := checkpoint.ownerless
    let known := unresolvedSplits (Table.keys owned ∪ held)
    let reconciler := Reconciler.restore owned.byWorker held known
    let dispatcher := Dispatcher.restore owned held job.settings.signals
    .ok { job, desk := Desk.start reconciler dispatcher metrics }

end Coordinator

end QueueAssignment
