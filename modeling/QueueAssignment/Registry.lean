import QueueAssignment.Split

/-!
The registered workers and the channels that reach them. Every registration opens a channel
of its own. A channel whose receiver is gone is closed: it stays registered and takes no
command.
-/
namespace QueueAssignment
open Std

/-- Channels are numbered in the order in which they were opened. -/
structure Channel where
  number : Nat
  isOpen : Bool
  deriving DecidableEq, Repr

structure Delivery where
  worker : Worker
  channel : Nat
  command : Command
  deriving DecidableEq, Repr

structure Registry where
  connections : ExtTreeMap Worker Channel := ∅
  /-- How many channels were ever opened. -/
  opened : Nat := 0
  /-- All that went out on any channel, in order. -/
  sent : List Delivery := []

namespace Registry

/-- Registers a worker with a new channel, which replaces the one it had. -/
def register (r : Registry) (worker : Worker) (isOpen : Bool) : Registry :=
  { r with
    connections := r.connections.insert worker ⟨r.opened, isOpen⟩
    opened := r.opened + 1 }

def unregister (r : Registry) (worker : Worker) : Registry :=
  { r with connections := r.connections.erase worker }

def hangUp (r : Registry) (worker : Worker) : Registry :=
  { r with
    connections := r.connections.map fun w channel =>
      if w = worker then { channel with isOpen := false } else channel }

def contains (r : Registry) (worker : Worker) : Bool := r.connections.contains worker

/-- Registered, and its receiver is still there. -/
def isRegistered (r : Registry) (worker : Worker) : Bool :=
  match r.connections[worker]? with
  | some channel => channel.isOpen
  | none => false

def workers (r : Registry) : WorkerSet :=
  Table.keys (r.connections.filter fun _ channel => channel.isOpen)

def size (r : Registry) : Nat := r.connections.size

def isEmpty (r : Registry) : Bool := r.connections.isEmpty

/-- Sends a command to a registered worker. Where the receiver is gone nothing goes out. -/
def send (r : Registry) (worker : Worker) (command : Command) : Registry :=
  match r.connections[worker]? with
  | some channel =>
      if channel.isOpen then
        { r with sent := r.sent ++ [⟨worker, channel.number, command⟩] }
      else r
  | none => r

def reaches? (r : Registry) (worker : Worker) : Option Bool :=
  r.connections[worker]?.map Channel.isOpen

end Registry

end QueueAssignment
