import QueueAssignment.Json.Failure
import QueueAssignment.Queue

/-!
Why an operation fails. Causes are data; their wording is fixed here once.
-/
namespace QueueAssignment

/-- Why no target assignment was computed. `reported` is a reason that a strategy gives itself. -/
inductive AllocationFailure where
  | unknownStrategy (name : String)
  | noWorkers
  | crashed
  | reported (reason : String)
  deriving DecidableEq, Repr

inductive Violation where
  | unknownQueue (queue : Queue) (worker : Worker)
  | placedTwice (queue : Queue) (first second : Worker)
  | scanCrashed
  | reported (reason : String)
  deriving DecidableEq, Repr

inductive Error where
  | workerNotRegistered (worker : Worker)
  | allocation (failure : AllocationFailure)
  | discovery (topic reason : String)
  | offsetResolution (reason : String)
  | broker (reason : String)
  | invalidState (violation : Violation)
  | coordinatorStopped
  | unreadable (failure : Json.Failure)
  deriving DecidableEq, Repr

def workerText (worker : Worker) : String := toString worker.toNat

def AllocationFailure.message : AllocationFailure → String
  | unknownStrategy name =>
      "unknown allocation strategy '" ++ name ++ "' (expected 'hash' or 'average')"
  | noWorkers => "parallelism must be at least 1"
  | crashed => "allocation task panicked"
  | reported reason => reason

def Violation.message : Violation → String
  | unknownQueue queue worker =>
      "strategy placed unknown queue " ++ queue.text ++ " on worker " ++ workerText worker
  | placedTwice queue first second =>
      "strategy placed queue " ++ queue.text ++ " on both worker " ++ workerText first ++
        " and worker " ++ workerText second
  | scanCrashed => "discovery task panicked"
  | reported reason => reason

def Error.message : Error → String
  | workerNotRegistered worker =>
      "worker " ++ workerText worker ++ " is not registered with the coordinator"
  | allocation failure => "allocation failed: " ++ failure.message
  | discovery topic reason => "failed to fetch queues for topic " ++ topic ++ ": " ++ reason
  | offsetResolution reason => "offset resolution failed: " ++ reason
  | broker reason => "broker client error: " ++ reason
  | invalidState violation => "invalid state: " ++ violation.message
  | coordinatorStopped => "coordinator is no longer running"
  | unreadable failure => failure.name

end QueueAssignment
