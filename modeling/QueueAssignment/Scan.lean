import QueueAssignment.Broker

/-!
A scan asks the broker for the queues of every topic. A topic that is refused adds nothing
and is tried again by the next scan; a scan as a whole fails only when the broker crashes.
-/
namespace QueueAssignment

structure Scan where
  queues : QueueSet := ∅
  refused : Nat := 0

namespace Scan

def add (scan : Scan) : Route → Except Error Scan
  | .queues found => .ok { scan with queues := scan.queues ∪ found }
  | .refused => .ok { scan with refused := scan.refused + 1 }
  | .crash => .error (.invalidState .scanCrashed)

def extend (broker : Broker) : Scan → List String → Except Error Scan
  | scan, [] => .ok scan
  | scan, topic :: rest =>
      match scan.add (broker.route topic) with
      | .ok scan => extend broker scan rest
      | .error e => .error e

def run (broker : Broker) (topics : List String) : Except Error Scan := extend broker {} topics

end Scan

end QueueAssignment
