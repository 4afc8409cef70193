import QueueAssignment.Dispatcher
import QueueAssignment.Metrics
import QueueAssignment.Reconciler
import QueueAssignment.Strategy

/-!
The desk is the reconciler and the dispatcher at work together, under the instruments.
-/
namespace QueueAssignment
open Std

structure Desk where
  reconciler : Reconciler := {}
  dispatcher : Dispatcher := {}
  metrics : Metrics := {}

namespace Desk

def setOwned (desk : Desk) : Desk :=
  { desk with metrics := { desk.metrics with owned := desk.dispatcher.ownedCount } }

def setPending (desk : Desk) : Desk :=
  { desk with metrics := { desk.metrics with pending := desk.reconciler.pendingCount } }

def setRegistered (desk : Desk) : Desk :=
  { desk with metrics := { desk.metrics with registered := desk.dispatcher.registry.size } }

def start (reconciler : Reconciler) (dispatcher : Dispatcher) (metrics : Metrics) : Desk :=
  setOwned { reconciler, dispatcher, metrics }

def register (desk : Desk) (worker : Worker) (isOpen : Bool) : Desk :=
  setRegistered { desk with dispatcher := desk.dispatcher.register worker isOpen }

def unregister (desk : Desk) (worker : Worker) : Desk :=
  setRegistered { desk with dispatcher := desk.dispatcher.unregister worker }

def mapRegistry (desk : Desk) (f : Registry → Registry) : Desk :=
  { desk with dispatcher := { desk.dispatcher with registry := f desk.dispatcher.registry } }

def hangUp (desk : Desk) (worker : Worker) : Desk :=
  desk.mapRegistry fun registry => registry.hangUp worker

/-- Merges a target; the dispatcher does not know of it yet. -/
def apply (desk : Desk) (change : SplitChange) (target : Assignment) :
    Except Error (Desk × Delta) :=
  match desk.reconciler.apply change target with
  | .error e => .error e
  | .ok (reconciler, delta) =>
      let metrics :=
        { desk.metrics with
          reconciliations := desk.metrics.reconciliations + 1
          transfers := desk.metrics.transfers + delta.transfers }
      .ok (setPending { desk with reconciler, metrics }, delta)

def reconcile (desk : Desk) (change : SplitChange) (strategy : Strategy) (call : Nat)
    (parallelism : UInt32) : Except Error (Desk × Delta) :=
  match strategy call change.queues parallelism with
  | .error e => .error e
  | .ok target => desk.apply change target

def settle (desk : Desk) (delta : Delta) : Desk :=
  setOwned { desk with dispatcher := desk.dispatcher.settle delta }

def release (desk : Desk) (worker : Worker) (splits : List Split) : Desk :=
  { desk with reconciler := desk.reconciler.release worker splits }

def take (desk : Desk) (worker : Worker) : Desk × List Split :=
  (setPending { desk with reconciler := desk.reconciler.drain (ExtTreeSet.ofList [worker]) },
    desk.reconciler.pendingFor worker)

def batchFor (desk : Desk) (workers : WorkerSet) : Batch :=
  (workers.toList.map fun worker => (worker, desk.reconciler.pendingFor worker)).filter
    fun part => !part.2.isEmpty

def drain (desk : Desk) (workers : WorkerSet) : Desk :=
  if workers.isEmpty then desk
  else setPending { desk with reconciler := desk.reconciler.drain workers }

def deliver (desk : Desk) (batch : Batch) : Desk :=
  if batch.isEmpty then desk
  else
    let metrics :=
      { desk.metrics with
        assigned := desk.metrics.assigned + (batch.tagged .assign).length
        revoked := desk.metrics.revoked + (batch.tagged .revoke).length
        earlyAssigns := desk.metrics.earlyAssigns +
          (Ownership.after desk.dispatcher.owned batch).early }
    setOwned { desk with dispatcher := desk.dispatcher.deliver batch, metrics }

def signal (desk : Desk) (workers : WorkerSet) : Desk :=
  { desk with dispatcher := desk.dispatcher.signal workers }

def signalIfDue (desk : Desk) (workers : WorkerSet) : Desk :=
  if desk.dispatcher.shouldSignal then desk.signal workers else desk

def complete (desk : Desk) : Desk :=
  { desk with dispatcher := { desk.dispatcher with complete := true } }

/-- Delivers what is pending for these workers. All of them must be registered with their receivers
    in place; otherwise nothing is drained or sent. -/
def flush (desk : Desk) (workers : WorkerSet) : Except Error (Desk × Batch) :=
  match workers.toList.find? fun worker => !desk.dispatcher.registry.isRegistered worker with
  | some missing => .error (.workerNotRegistered missing)
  | none =>
      let batch := desk.batchFor workers
      .ok (((desk.drain workers).deliver batch).signalIfDue workers, batch)

end Desk

end QueueAssignment
