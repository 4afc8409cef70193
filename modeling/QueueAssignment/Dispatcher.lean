import QueueAssignment.Delta
import QueueAssignment.Registry

/-!
The dispatcher delivers splits and records which worker each delivered queue went to. A
revoke clears a queue only for the worker it is sent to, so a late revoke of a former owner
does not erase a newer delivery.
-/
namespace QueueAssignment
open Std

abbrev Batch := List (Worker × List Split)

namespace Batch

def tagged (batch : Batch) (tag : Tag) : List Placement :=
  batch.flatMap fun part =>
    (part.2.filter fun split => split.tag = tag).map fun split => ⟨part.1, split.queue⟩

end Batch

/-- The owners after some deliveries, and how many of these went out while another worker was
    recorded as the owner. -/
structure Ownership where
  owners : OwnerMap
  early : Nat := 0

namespace Ownership

/-- A revoked queue has no owner any more where it is the recorded owner that loses it. -/
def revoke (owners : OwnerMap) (revoked : List Placement) : OwnerMap :=
  let gone := ExtTreeSet.ofList revoked
  owners.filter fun queue owner => (Placement.mk owner queue) ∉ gone

def assign (ownership : Ownership) (placement : Placement) : Ownership where
  owners := ownership.owners.insert placement.queue placement.worker
  early :=
    match ownership.owners[placement.queue]? with
    | some owner => if owner = placement.worker then ownership.early else ownership.early + 1
    | none => ownership.early

/-- The ownership after a batch: all of its revokes first, then its assigns one by one. -/
def after (owners : OwnerMap) (batch : Batch) : Ownership :=
  (batch.tagged .assign).foldl assign ⟨revoke owners (batch.tagged .revoke), 0⟩

end Ownership

structure Dispatcher where
  registry : Registry := {}
  /-- The worker that each delivered queue went to. -/
  owned : OwnerMap := ∅
  /-- Restored queues whose owner is not recorded. -/
  held : QueueSet := ∅
  /-- The workers of this job are told when no more splits will come. -/
  signals : Bool := false
  /-- The one discovery of the job is done. -/
  complete : Bool := false
  /-- The workers that were told so since they registered. -/
  signalled : WorkerSet := ∅

namespace Dispatcher

def restore (owned : OwnerMap) (held : QueueSet) (signals : Bool) : Dispatcher :=
  { owned, held, signals }

def ownedQueues (d : Dispatcher) : QueueSet := Table.keys d.owned ∪ d.held

def ownedCount (d : Dispatcher) : Nat := d.owned.size + d.held.size

def ownerOf (d : Dispatcher) (queue : Queue) : Option Worker := d.owned[queue]?

/-- A worker that registers again is a new instance and may be signalled again. -/
def register (d : Dispatcher) (worker : Worker) (isOpen : Bool) : Dispatcher :=
  { d with
    registry := d.registry.register worker isOpen
    signalled := d.signalled.erase worker }

def unregister (d : Dispatcher) (worker : Worker) : Dispatcher :=
  { d with
    registry := d.registry.unregister worker
    signalled := d.signalled.erase worker }

/-- Records the owners that held queues got, and drops the held queues that are gone. -/
def settle (d : Dispatcher) (delta : Delta) : Dispatcher :=
  { d with
    owned := d.owned ∪ delta.adopted.filter fun queue _ => queue ∈ d.held
    held := (d.held \ Table.keys delta.adopted) \ delta.forgotten }

def shouldSignal (d : Dispatcher) : Bool := d.signals && d.complete

/-- Tells one worker that no more splits will come, once per registration. -/
def signalOne (d : Dispatcher) (worker : Worker) : Dispatcher :=
  if worker ∈ d.signalled then d
  else
    { d with
      registry := d.registry.send worker .noMoreSplits
      signalled := d.signalled.insert worker }

def signal (d : Dispatcher) (workers : WorkerSet) : Dispatcher :=
  workers.toList.foldl signalOne d

def deliver (d : Dispatcher) (batch : Batch) : Dispatcher :=
  { d with
    registry := batch.foldl (fun registry part => registry.send part.1 (.assign part.2)) d.registry
    owned := (Ownership.after d.owned batch).owners
    held := d.held \ ExtTreeSet.ofList ((batch.tagged .assign).map Placement.queue) }

end Dispatcher

end QueueAssignment
