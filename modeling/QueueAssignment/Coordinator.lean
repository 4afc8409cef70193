import QueueAssignment.Checkpoint
import QueueAssignment.Desk
import QueueAssignment.Job
import QueueAssignment.Scan

/-!
A coordinator keeps the workers of a job supplied: it follows the topology, decides who
should have which queue and tells the workers. Each operation leaves a coordinator that can
be used further, also where it fails.
-/
namespace QueueAssignment
open Std

structure Coordinator where
  job : Job
  /-- How often the strategy was asked. -/
  calls : Nat := 0
  desk : Desk := {}

structure Outcome where
  coordinator : Coordinator
  result : Except Error Unit

namespace Outcome

def andThen (outcome : Outcome) (next : Coordinator → Outcome) : Outcome :=
  match outcome.result with
  | .ok () => next outcome.coordinator
  | .error _ => outcome

end Outcome

namespace Coordinator

def start (job : Job) : Coordinator where
  job := job
  desk := { dispatcher := { signals := job.settings.signals } }

def count (c : Coordinator) (change : Metrics → Metrics) : Coordinator :=
  { c with desk := { c.desk with metrics := change c.desk.metrics } }

def flush (c : Coordinator) (workers : WorkerSet) : Outcome :=
  match c.desk.flush workers with
  | .ok (desk, _) => ⟨{ c with desk }, .ok ()⟩
  | .error e => ⟨c, .error e⟩

/-- Registers a worker and delivers what is pending for it. Where its receiver is gone already
    everything stays pending. -/
def addWorker (c : Coordinator) (worker : Worker) (isOpen : Bool) : Outcome :=
  let c := { c with desk := c.desk.register worker isOpen }
  if c.desk.dispatcher.registry.isRegistered worker then c.flush (ExtTreeSet.ofList [worker])
  else ⟨c, .ok ()⟩

/-- Forgets the channel of a worker. What is pending for it waits for its next registration. -/
def removeWorker (c : Coordinator) (worker : Worker) : Coordinator :=
  { c with desk := c.desk.unregister worker }

/-- The receiver of a worker goes away, and the coordinator is not told. -/
def hangUp (c : Coordinator) (worker : Worker) : Coordinator :=
  { c with desk := c.desk.hangUp worker }

/-- Asks the strategy for a target and merges it. A target that fails or is refused changes
    nothing but the number of calls. -/
def reconcile (c : Coordinator) (change : SplitChange) : Coordinator × Except Error Delta :=
  let asked := { c with calls := c.calls + 1 }
  match c.desk.reconcile change c.job.strategy c.calls c.job.settings.parallelism with
  | .ok (desk, delta) => ({ asked with desk := desk.settle delta }, .ok delta)
  | .error e => (asked, .error e)

def reachable (c : Coordinator) (delta : Delta) : WorkerSet :=
  delta.workers.filter fun worker => c.desk.dispatcher.registry.isRegistered worker

/-- Takes back splits that a worker lost and places them anew. They are taken from the worker first,
    also where the new placement then fails. -/
def returnSplits (c : Coordinator) (worker : Worker) (splits : List Split) : Outcome :=
  if splits.isEmpty then ⟨c, .ok ()⟩
  else
    let released := { c with desk := c.desk.release worker splits }
    match released.reconcile (released.desk.reconciler.returnedChange splits) with
    | (placed, .ok delta) => placed.flush (placed.reachable delta)
    | (failed, .error e) => ⟨failed, .error e⟩

/-- What the workers hold now. What they were not told yet is left out. -/
def snapshot (c : Coordinator) : Checkpoint :=
  let dispatcher := c.desk.dispatcher
  .ofOwners dispatcher.owned (dispatcher.ownedQueues.filter fun queue =>
    (dispatcher.ownerOf queue).isNone)

def changeTo (c : Coordinator) (latest : QueueSet) : Option QueueChange :=
  let change := QueueChange.between latest c.desk.dispatcher.ownedQueues
  if change.isEmpty then none else some change

/-- Attaches offsets to a change and merges the target for it. `known` holds the splits of the
    topology that the change was computed from. -/
def place (c : Coordinator) (change : QueueChange) (known : SplitMap) (lookup : Lookup) : Outcome :=
  let starting := lookup.starting.offsets
  let stopping := lookup.stopping.offsets
  let dropped := SplitChange.dropped change known starting stopping
  let counted := c.count fun m => m.countMissing dropped
  match counted.reconcile (.ofOffsets change known starting stopping) with
  | (placed, .ok _) => ⟨placed, .ok ()⟩
  | (failed, .error e) => ⟨failed, .error e⟩

/-- The end of a cycle: delivers to every worker that can be reached. The first cycle of a job that
    scans once completes its discovery. -/
def completeCycle (c : Coordinator) : Outcome :=
  let c := if c.job.settings.isOneShot then { c with desk := c.desk.complete } else c
  c.flush c.desk.dispatcher.registry.workers

def cycleOver (c : Coordinator) (latest : QueueSet) (lookUp : QueueSet → Lookup) : Outcome :=
  match c.changeTo latest with
  | none => c.completeCycle
  | some change =>
      let lookup := lookUp change.wanted
      let counted := c.count fun m => m.countMissing lookup.failures
      (counted.place change c.desk.reconciler.known lookup).andThen completeCycle

def cycle (c : Coordinator) (broker : Broker) : Outcome :=
  match Scan.run broker c.job.topics with
  | .error e => ⟨c, .error e⟩
  | .ok scan =>
      let counted := c.count fun m => (m.countRefusals scan.refused).countScan scan.queues.size
      counted.cycleOver scan.queues (c.job.lookUp broker)

end Coordinator

end QueueAssignment
