import QueueAssignment.EventLoop
import QueueAssignment.Gate

/-!
An event loop in a world where time passes only on demand and calls for topics and offsets
can be held back. After every step the loop runs until it has nothing left to do.
-/
namespace QueueAssignment

/-- The call that the task beside the loop waits for, and what the task has gathered before it. -/
inductive Progress where
  | idle
  | fetching (scan : Scan) (topic : String) (rest : List String) (place : GateNumber)
  | starting (queues : QueueSet) (place : GateNumber)
  | stopping (queues : QueueSet) (found : Resolution) (place : GateNumber)

inductive Held where
  | fetches
  | lookups
  deriving DecidableEq, Repr

structure Simulation where
  loop : EventLoop
  broker : Broker
  fetchGate : Gate := {}
  lookupGate : Gate := {}
  progress : Progress := .idle
  /-- How many calls for a topic were begun. -/
  fetches : Nat := 0
  /-- Somebody holds the handle of the loop. -/
  hasHandle : Bool := true

namespace Simulation

def count (s : Simulation) (change : Metrics → Metrics) : Simulation :=
  { s with loop := { s.loop with coordinator := s.loop.coordinator.count change } }

/-- Gives the loop a signal. A loop that ends gives up its task and releases the broker. -/
def signal (s : Simulation) (signal : Signal) : Simulation :=
  let loop := s.loop.step signal
  if s.loop.isRunning && !loop.isRunning then
    { s with loop, progress := .idle, broker := s.broker.close.1 }
  else { s with loop }

def fetchNext (s : Simulation) (scan : Scan) : List String → Simulation
  | topic :: rest =>
      { s with
        progress := .fetching scan topic rest s.fetchGate.current
        fetches := s.fetches + 1 }
  | [] =>
      { s.count (fun m => m.countScan scan.queues.size) with progress := .idle }.signal
        (.scanned scan.queues)

def fetched (s : Simulation) (scan : Scan) (topic : String) (rest : List String) : Simulation :=
  match scan.add (s.broker.route topic) with
  | .ok extended =>
      (s.count fun m => m.countRefusals (extended.refused - scan.refused)).fetchNext extended rest
  | .error _ => { s with progress := .idle }.signal .crashed

def begin (s : Simulation) : Task → Simulation
  | .scan => s.fetchNext {} s.loop.coordinator.job.topics
  | .lookUp change _ => { s with progress := .starting change.wanted s.lookupGate.current }

def startingFound (s : Simulation) (queues : QueueSet) : Simulation :=
  let found := s.loop.coordinator.job.lookUpStarting s.broker queues
  { s.count (fun m => m.countMissing found.failures) with
    progress := .stopping queues found s.lookupGate.current }

def stoppingFound (s : Simulation) (queues : QueueSet) (starting : Resolution) : Simulation :=
  let stopping := s.loop.coordinator.job.lookUpStopping s.broker queues
  { s.count (fun m => m.countMissing stopping.failures) with progress := .idle }.signal
    (.lookedUp ⟨starting, stopping⟩)

def advance (s : Simulation) : Option Simulation :=
  match s.progress with
  | .idle => s.loop.tasks.head?.map s.begin
  | .fetching scan topic rest place =>
      (s.fetchGate.pass? place).map fun gate => { s with fetchGate := gate }.fetched scan topic rest
  | .starting queues place =>
      (s.lookupGate.pass? place).map fun gate => { s with lookupGate := gate }.startingFound queues
  | .stopping queues found place =>
      (s.lookupGate.pass? place).map fun gate =>
        { s with lookupGate := gate }.stoppingFound queues found

def run : Nat → Simulation → Simulation
  | 0, s => s
  | left + 1, s =>
      match s.advance with
      | some next => run left next
      | none => s

/-- One cycle makes a call per topic and two for the offsets, and its two tasks begin once each. At
    most the cycle under way and the one after it can run without another tick. -/
def settle (s : Simulation) : Simulation :=
  run (2 * (s.loop.coordinator.job.topics.length + 4)) s

/-- Starts the loop of a coordinator with the given kinds of calls held back. The first tick of a
    job that scans again and again fires at once. -/
def start (coordinator : Coordinator) (broker : Broker) (held : List Held) : Simulation :=
  let gateOf kind := if kind ∈ held then Gate.hold {} else {}
  let s : Simulation :=
    { loop := .start coordinator
      broker
      fetchGate := gateOf .fetches
      lookupGate := gateOf .lookups }
  (s.signal .tick).settle

def tick : Nat → Simulation → Simulation
  | 0, s => s
  | left + 1, s => tick left (s.signal .tick).settle

def mapGate (s : Simulation) (change : Gate → Gate) : Held → Simulation
  | .fetches => { s with fetchGate := change s.fetchGate }
  | .lookups => { s with lookupGate := change s.lookupGate }

def hold (s : Simulation) (kind : Held) : Simulation := s.mapGate Gate.hold kind

def release (s : Simulation) (kind : Held) (permits : Nat) : Simulation :=
  (s.mapGate (fun gate => gate.release permits) kind).settle

def freed (s : Simulation) : Held → Progress
  | .fetches =>
      match s.progress with
      | .fetching scan topic rest place => .fetching scan topic rest (s.fetchGate.freed place)
      | other => other
  | .lookups =>
      match s.progress with
      | .starting queues place => .starting queues (s.lookupGate.freed place)
      | .stopping queues found place => .stopping queues found (s.lookupGate.freed place)
      | other => other

def lift (s : Simulation) (kind : Held) : Simulation :=
  ({ s with progress := s.freed kind }.mapGate Gate.lift kind).settle

def hangUp (s : Simulation) (worker : Worker) : Simulation :=
  { s with loop := { s.loop with coordinator := s.loop.coordinator.hangUp worker } }

abbrev Reply := Except Error (Option Checkpoint)

def joining (requests : List Request) : List Worker :=
  requests.filterMap fun request =>
    match request with
    | .join worker _ => some worker
    | _ => none

/-- Requests that were made before the loop could serve any. A worker that joins twice has only the
    receiver of its last channel. -/
def queued : List Request → List Request
  | [] => []
  | .join worker isOpen :: rest =>
      .join worker (isOpen && !(joining rest).contains worker) :: queued rest
  | request :: rest => request :: queued rest

/-- The loop comes to a request. One that it does not come to any more is lost with its reply. -/
def serve (s : Simulation) (request : Request) : Simulation × Reply :=
  if s.loop.isRunning then (s.signal (.request request), .ok (s.loop.reply request))
  else match request with
    | .snapshot => (s, .error .coordinatorStopped)
    | _ => (s, .ok none)

def serveAll (s : Simulation) : List Request → Simulation × List Reply
  | [] => (s, [])
  | request :: rest =>
      let (served, reply) := s.serve request
      let (done, replies) := served.serveAll rest
      (done, reply :: replies)

/-- Makes requests one right after the other; the loop runs when all are made. A worker that joins
    gives up the receiver it had. -/
def ask (s : Simulation) (requests : List Request) : Simulation × List Reply :=
  if s.loop.isRunning then
    let (served, replies) := ((joining requests).foldl hangUp s).serveAll (queued requests)
    (served.settle, replies)
  else (s, requests.map fun _ => .error .coordinatorStopped)

def cancel (s : Simulation) : Simulation := s.signal .cancelled

def abandon (s : Simulation) : Simulation := { s with hasHandle := false }.signal .abandoned

end Simulation

end QueueAssignment
