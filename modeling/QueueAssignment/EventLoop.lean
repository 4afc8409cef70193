import QueueAssignment.Coordinator

/-!
The event loop of a coordinator. Scans and offset look-ups run beside it as tasks, so that
workers are served while a cycle is under way. One cycle runs at a time: ticks that fire
during it become one scan after it.
-/
namespace QueueAssignment

inductive Task where
  | scan
  /-- Looks up the offsets for a change. `known` are the splits at the time of the change. -/
  | lookUp (change : QueueChange) (known : SplitMap)

inductive Request where
  | join (worker : Worker) (isOpen : Bool)
  | leave (worker : Worker)
  | takeBack (worker : Worker) (splits : List Split)
  | snapshot
  | close

inductive Signal where
  | tick
  | scanned (latest : QueueSet)
  | lookedUp (lookup : Lookup)
  | crashed
  | request (request : Request)
  | cancelled
  /-- Nobody holds the handle any more. -/
  | abandoned

inductive Ending where
  | returned (result : Except Error Unit)
  /-- No timer ticks at an interval of zero: the loop crashes before its first turn. -/
  | crashed

structure EventLoop where
  coordinator : Coordinator
  tasks : List Task := []
  /-- A cycle is under way. -/
  inFlight : Bool := false
  /-- A tick fired during the cycle that is under way. -/
  rescan : Bool := false
  ended : Option Ending := none

namespace EventLoop

def isRunning (loop : EventLoop) : Bool := loop.ended.isNone

def startCycle (loop : EventLoop) : EventLoop :=
  { loop with tasks := loop.tasks ++ [.scan], inFlight := true }

/-- Ends the loop and whatever still runs beside it. -/
def stop (loop : EventLoop) (result : Except Error Unit) : EventLoop :=
  { loop with tasks := [], ended := some (.returned result) }

def resume (loop : EventLoop) (outcome : Outcome) (next : EventLoop → EventLoop) : EventLoop :=
  let loop := { loop with coordinator := outcome.coordinator }
  match outcome.result with
  | .ok () => next loop
  | .error e => loop.stop (.error e)

/-- The loop of a coordinator. A job that scans once starts its cycle here; any other waits for the
    first tick, for which it needs a timer. -/
def start (coordinator : Coordinator) : EventLoop :=
  let loop := { coordinator }
  if coordinator.job.settings.isOneShot then loop.startCycle
  else if coordinator.job.settings.interval = some 0 then { loop with ended := some .crashed }
  else loop

def tick (loop : EventLoop) : EventLoop :=
  if loop.inFlight then { loop with rescan := true } else loop.startCycle

/-- The cycle is over; a tick that fired meanwhile starts the next one. -/
def finishCycle (loop : EventLoop) : EventLoop :=
  loop.resume loop.coordinator.completeCycle fun loop =>
    let idle := { loop with inFlight := false }
    if loop.rescan then { idle with rescan := false }.startCycle else idle

def scanned (loop : EventLoop) (latest : QueueSet) : EventLoop :=
  match loop.coordinator.changeTo latest with
  | some change =>
      let known := loop.coordinator.desk.reconciler.known
      { loop with tasks := loop.tasks ++ [.lookUp change known] }
  | none => loop.finishCycle

def lookedUp (loop : EventLoop) (change : QueueChange) (known : SplitMap) (lookup : Lookup) :
    EventLoop :=
  loop.resume (loop.coordinator.place change known lookup) finishCycle

def reply (loop : EventLoop) : Request → Option Checkpoint
  | .snapshot => some loop.coordinator.snapshot
  | _ => none

def serve (loop : EventLoop) : Request → EventLoop
  | .join worker isOpen => loop.resume (loop.coordinator.addWorker worker isOpen) id
  | .leave worker => { loop with coordinator := loop.coordinator.removeWorker worker }
  | .takeBack worker splits => loop.resume (loop.coordinator.returnSplits worker splits) id
  | .snapshot => loop
  | .close => loop.stop (.ok ())

/-- One turn of a running loop. A task can only be done where it runs. -/
def turn (loop : EventLoop) (signal : Signal) : EventLoop :=
  match signal, loop.tasks with
  | .tick, _ => if loop.coordinator.job.settings.isOneShot then loop else loop.tick
  | .scanned latest, .scan :: rest => { loop with tasks := rest }.scanned latest
  | .scanned _, _ => loop
  | .lookedUp lookup, .lookUp change known :: rest =>
      { loop with tasks := rest }.lookedUp change known lookup
  | .lookedUp _, _ => loop
  | .crashed, _ :: _ => loop.stop (.error (.invalidState .scanCrashed))
  | .crashed, [] => loop
  | .request request, _ => loop.serve request
  | .cancelled, _ => loop.stop (.ok ())
  | .abandoned, _ => loop.stop (.ok ())

def step (loop : EventLoop) (signal : Signal) : EventLoop :=
  if loop.isRunning then loop.turn signal else loop

end EventLoop

end QueueAssignment
