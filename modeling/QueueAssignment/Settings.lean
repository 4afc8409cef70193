import QueueAssignment.Split

/-!
How a job runs. A job without a scan interval discovers its queues once; if such a job is
bounded too, its workers can be told that no more splits will come.
-/
namespace QueueAssignment

structure Settings where
  group : String := "split-coordinator"
  /-- The number of workers. -/
  parallelism : UInt32 := 1
  /-- The time from one scan to the next, in milliseconds. -/
  interval : Option UInt64 := some 30000
  boundedness : Boundedness := .continuousUnbounded
  deriving DecidableEq, Repr

namespace Settings

def isOneShot (settings : Settings) : Bool := settings.interval.isNone

/-- The workers of this job are told when no more splits will come. -/
def signals (settings : Settings) : Bool :=
  settings.isOneShot && settings.boundedness = .bounded

end Settings

end QueueAssignment
