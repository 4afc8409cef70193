import QueueAssignment.Json.Reader
import QueueAssignment.Json.Writer
import QueueAssignment.Split

/-!
The JSON form of queues, splits, tags and boundedness.
-/
namespace QueueAssignment
open Json

namespace Queue

structure Draft where
  topic : Option String := none
  broker : Option String := none
  index : Option UInt32 := none

namespace Draft

def topicMember : Member Draft where
  name := "topic"
  isGiven := fun draft => draft.topic.isSome
  read := fun draft => do let topic ← string; pure { draft with topic := some topic }

def brokerMember : Member Draft where
  name := "broker_name"
  isGiven := fun draft => draft.broker.isSome
  read := fun draft => do let broker ← string; pure { draft with broker := some broker }

def indexMember : Member Draft where
  name := "queue_id"
  isGiven := fun draft => draft.index.isSome
  read := fun draft => do let index ← word32; pure { draft with index := some index }

def queue? (draft : Draft) : Option Queue := do
  let topic ← draft.topic
  let broker ← draft.broker
  let index ← draft.index
  pure { topic, broker, index }

end Draft

def shape : Shape Draft Queue where
  members := [Draft.topicMember, Draft.brokerMember, Draft.indexMember]
  blank := {}
  finish? := Draft.queue?

def read : Reader Queue := shape.read

def write (queue : Queue) : List Char :=
  writeObject
    [ ("topic", writeText queue.topic),
      ("broker_name", writeText queue.broker),
      ("queue_id", writeNat queue.index.toNat) ]

end Queue

namespace Tag

def read : Reader Tag := do
  let n ← natural 0x100
  match ofByte (UInt8.ofNat n) with
  | .ok tag => pure tag
  | .error _ => throw .mismatched

def write (tag : Tag) : List Char := writeNat tag.byte.toNat

end Tag

namespace Split

/-- The stopping offset may be absent, which is the same as null. -/
structure Draft where
  queue : Option Queue := none
  start : Option Offset := none
  stop : Option (Option Offset) := none
  tag : Option Tag := none

namespace Draft

def queueMember : Member Draft where
  name := "queue"
  isGiven := fun draft => draft.queue.isSome
  read := fun draft => do let queue ← Queue.read; pure { draft with queue := some queue }

def startMember : Member Draft where
  name := "starting_offset"
  isGiven := fun draft => draft.start.isSome
  read := fun draft => do let start ← int64; pure { draft with start := some start }

def stopMember : Member Draft where
  name := "stopping_offset"
  isGiven := fun draft => draft.stop.isSome
  read := fun draft => do let stop ← optional int64; pure { draft with stop := some stop }

def tagMember : Member Draft where
  name := "tag"
  isGiven := fun draft => draft.tag.isSome
  read := fun draft => do let tag ← Tag.read; pure { draft with tag := some tag }

def split? (draft : Draft) : Option Split := do
  let queue ← draft.queue
  let start ← draft.start
  let tag ← draft.tag
  pure { queue, start, stop := draft.stop.join, tag }

end Draft

def shape : Shape Draft Split where
  members := [Draft.queueMember, Draft.startMember, Draft.stopMember, Draft.tagMember]
  blank := {}
  finish? := Draft.split?

def read : Reader Split := shape.read

def writeStop : Option Offset → List Char
  | some offset => writeInt offset.toInt
  | none => writeNull

def write (split : Split) : List Char :=
  writeObject
    [ ("queue", split.queue.write),
      ("starting_offset", writeInt split.start.toInt),
      ("stopping_offset", writeStop split.stop),
      ("tag", split.tag.write) ]

end Split

namespace Boundedness

def named (name : String) : Reader Boundedness :=
  if name = bounded.name then pure bounded
  else if name = continuousUnbounded.name then pure continuousUnbounded
  else throw .mismatched

/-- A name, or an object whose one member has that name and is null. Anything else is malformed. -/
def read : Reader Boundedness := do
  let b ← peek
  if b = quote then
    let name ← string
    named name
  else if b = 0x7b then
    advance
    openName
    let name ← text
    let found ← named name
    colon
    let b ← peek
    if b = 0x6e then advance; literal (ascii "ull") else refuse
    closeObject
    pure found
  else throw .malformed

def write (boundedness : Boundedness) : List Char := writeText boundedness.name

end Boundedness

end QueueAssignment
