import QueueAssignment.Delta

/-!
The reconciler keeps who should have which queue and what the workers have not been told
yet. Between cycles, what is pending for a worker is the exact difference between what it
holds and what it should have, even when it misses several cycles.
-/
namespace QueueAssignment
open Std

structure Reconciler where
  /-- The last target that was merged. -/
  current : Assignment := ∅
  /-- What is still to be told, per worker and queue. -/
  pending : PlacedSplits := ∅
  /-- The splits of the latest topology. -/
  known : SplitMap := ∅
  /-- Restored queues whose owner is not recorded. -/
  held : QueueSet := ∅

namespace Reconciler

/-- Starts from a checkpoint. Nothing is pending: the workers still hold what `current` says. -/
def restore (current : Assignment) (held : QueueSet) (known : SplitMap) : Reconciler :=
  { current, held, known }

def ownerOf (r : Reconciler) (queue : Queue) : Option Worker := r.current.firstOwner queue

def pendingCount (r : Reconciler) : Nat := r.pending.size

def move (r : Reconciler) (change : SplitChange) (target : OwnerMap) : Move where
  baseline := r.current.owners
  target := target
  held := r.held
  known := r.known
  change := change

def merged (r : Reconciler) (change : SplitChange) (target : Assignment) (delta : Delta) :
    Reconciler where
  current := target.withoutIdle
  pending := r.pending.merge delta.splits
  known := change.latest
  held := (r.held \ Table.keys delta.adopted) \ delta.forgotten

/-- Merges a target for the latest topology and makes it the new baseline. A target that is refused
    changes nothing. -/
def apply (r : Reconciler) (change : SplitChange) (target : Assignment) :
    Except Error (Reconciler × Delta) :=
  match target.targetOwners change.latest with
  | .error violation => .error (.invalidState violation)
  | .ok owners =>
      let delta := (r.move change owners).delta
      .ok (r.merged change target delta, delta)

def pendingFor (r : Reconciler) (worker : Worker) : List Split :=
  let splits := r.pending.ofWorker worker
  splits.filter Split.isRevoke ++ splits.filter Split.isAssign

def drain (r : Reconciler) (workers : WorkerSet) : Reconciler :=
  { r with pending := r.pending.filter fun placement _ => placement.worker ∉ workers }

def queuesOf (splits : List Split) : QueueSet := ExtTreeSet.ofList (splits.map Split.queue)

/-- Forgets that a worker has the queues of `splits`: it lost them. What was pending for it about
    them is dropped too. -/
def release (r : Reconciler) (worker : Worker) (splits : List Split) : Reconciler :=
  let lost := queuesOf splits
  { r with
    current := r.current.release worker lost
    pending := r.pending.filter fun placement _ =>
      ¬ (placement.worker = worker ∧ placement.queue ∈ lost)
    held := r.held \ lost }

/-- Returned splits as queues that are new on top of the known topology. Their ranges carry the
    worker's progress, so they count before the known ones. -/
def returnedChange (r : Reconciler) (splits : List Split) : SplitChange :=
  let returned := SplitMap.ofSplits (splits.map Split.toAssign)
  { increased := returned
    latest := r.known ∪ returned }

end Reconciler

end QueueAssignment
