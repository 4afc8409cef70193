import QueueAssignment.Assignment
import QueueAssignment.SplitCodec

/-!
What a coordinator saves: the queues that its workers hold, and who holds each of them where
that is known. What the workers were not told yet is not saved; it is found again after a
restart.
-/
namespace QueueAssignment
open Std Json

structure Checkpoint where
  owned : QueueSet := ∅
  /-- The queues of each worker. An owned queue that is in none of them has an unknown owner. -/
  owners : Assignment := ∅
  deriving DecidableEq, Repr

namespace Checkpoint

def ofQueues (owned : QueueSet) : Checkpoint := { owned }

def ofOwners (owners : OwnerMap) (unplaced : QueueSet) : Checkpoint where
  owned := Table.keys owners ∪ unplaced
  owners := owners.byWorker

def ownerMap (checkpoint : Checkpoint) : OwnerMap :=
  Table.tabulate checkpoint.owned checkpoint.owners.firstOwner

/-- The name of a worker among the owners: a JSON number that the closing quote follows at once. -/
def readWorker : Reader Worker := fun bytes =>
  match bytes with
  | [] => .error .malformed
  | b :: _ =>
      if isDigit b ∨ b = 0x2d then
        match word32 bytes with
        | .error failure => .error failure
        | .ok (worker, q :: rest) => if q = quote then .ok (worker, rest) else .error .malformed
        | .ok (_, []) => .error .malformed
      else .error .malformed

def readQueues : Reader QueueSet := do
  let queues ← list Queue.read
  pure (ExtTreeSet.ofList queues)

def readOwners : Reader Assignment := do
  let owners ← entries readWorker readQueues
  pure (Table.ofEntries owners)

structure Draft where
  owned : Option QueueSet := none
  owners : Option Assignment := none

namespace Draft

def ownedMember : Member Draft where
  name := "owned_queues"
  isGiven := fun draft => draft.owned.isSome
  read := fun draft => do let owned ← readQueues; pure { draft with owned := some owned }

def ownersMember : Member Draft where
  name := "owners"
  isGiven := fun draft => draft.owners.isSome
  read := fun draft => do let owners ← readOwners; pure { draft with owners := some owners }
  trailing := true

/-- Without owners every owner is unknown. -/
def checkpoint? (draft : Draft) : Option Checkpoint :=
  draft.owned.map fun owned => { owned, owners := draft.owners.getD ∅ }

end Draft

def shape : Shape Draft Checkpoint where
  members := [Draft.ownedMember, Draft.ownersMember]
  blank := {}
  finish? := Draft.checkpoint?

def read : Reader Checkpoint := shape.read

def writeQueues (queues : QueueSet) : List Char := writeList (queues.toList.map Queue.write)

def write (checkpoint : Checkpoint) : List Char :=
  writeObject
    [ ("owned_queues", writeQueues checkpoint.owned),
      ("owners", writeObject (checkpoint.owners.toList.map fun entry =>
        (String.ofList (writeNat entry.1.toNat), writeQueues entry.2))) ]

def toBytes (checkpoint : Checkpoint) : Bytes :=
  (String.ofList checkpoint.write).toUTF8.data.toList

def ofBytes (bytes : Bytes) : Except Failure Checkpoint := readAll read bytes

end Checkpoint

end QueueAssignment
