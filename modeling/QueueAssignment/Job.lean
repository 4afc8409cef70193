import QueueAssignment.Offsets
import QueueAssignment.Settings
import QueueAssignment.Strategy

/-!
A job is what a coordinator is given and never changes: the topics to read, how to place
their queues, and where the range of a queue starts and stops.
-/
namespace QueueAssignment

structure Job where
  settings : Settings
  topics : List String
  strategy : Strategy
  starting : OffsetResolver
  stopping : OffsetResolver

structure Lookup where
  starting : Resolution := {}
  stopping : Resolution := {}

namespace Lookup

def failures (lookup : Lookup) : Nat := lookup.starting.failures + lookup.stopping.failures

end Lookup

namespace Job

def lookUpStarting (job : Job) (broker : Broker) (queues : QueueSet) : Resolution :=
  job.starting.resolveOrNothing job.settings.group broker queues

def lookUpStopping (job : Job) (broker : Broker) (queues : QueueSet) : Resolution :=
  job.stopping.resolveOrNothing job.settings.group broker queues

def lookUp (job : Job) (broker : Broker) (queues : QueueSet) : Lookup where
  starting := job.lookUpStarting broker queues
  stopping := job.lookUpStopping broker queues

end Job

end QueueAssignment
