import QueueAssignment.Hash.Sip
import QueueAssignment.Queue

/-!
The stable key of a queue: the hash of its name, the same in every process.
-/
namespace QueueAssignment.Queue

/-- No byte of a name, so it ends one. -/
def nameEnd : UInt8 := 0xff

def indexBytes (index : UInt32) : List UInt8 :=
  [index.toUInt8, (index >>> 8).toUInt8, (index >>> 16).toUInt8, (index >>> 24).toUInt8]

/-- What identifies a queue, as bytes: both names with their ends, then the index. -/
def keyBytes (queue : Queue) : List UInt8 :=
  queue.topic.toUTF8.data.toList ++ nameEnd :: (queue.broker.toUTF8.data.toList ++
    nameEnd :: indexBytes queue.index)

def key (queue : Queue) : UInt64 := Sip.hash 0 0 queue.keyBytes

end QueueAssignment.Queue
