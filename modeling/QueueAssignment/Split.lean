import QueueAssignment.Queue

/-!
A split is a queue with the range of offsets to read, tagged as given to a worker or taken
away from it. Offsets are words: they are carried, never computed with.
-/
namespace QueueAssignment
open Std

abbrev Offset := Int64

/-- The starting offset of a queue whose position is unknown: readers resume where they committed.
    -/
def unresolvedOffset : Offset := -1

inductive Tag where
  | revoke
  | assign
  deriving DecidableEq, Repr

namespace Tag

def byte : Tag → UInt8
  | revoke => 0
  | assign => 1

structure Unknown where
  byte : UInt8
  deriving DecidableEq, Repr

def Unknown.message (unknown : Unknown) : String :=
  "unknown split tag " ++ toString unknown.byte.toNat

def ofByte (byte : UInt8) : Except Unknown Tag :=
  if byte = 0 then .ok revoke
  else if byte = 1 then .ok assign
  else .error ⟨byte⟩

theorem ofByte_byte (tag : Tag) : ofByte tag.byte = .ok tag := by cases tag <;> rfl

end Tag

/-- Without a stopping offset the range has no end. -/
structure Split where
  queue : Queue
  start : Offset
  stop : Option Offset
  tag : Tag
  deriving DecidableEq, Repr

namespace Split

def assign (queue : Queue) (start : Offset) (stop : Option Offset) : Split :=
  ⟨queue, start, stop, .assign⟩

def revoke (queue : Queue) (start : Offset) (stop : Option Offset) : Split :=
  ⟨queue, start, stop, .revoke⟩

def unresolved (queue : Queue) : Split := assign queue unresolvedOffset none

def toRevoke (split : Split) : Split := { split with tag := .revoke }

def toAssign (split : Split) : Split := { split with tag := .assign }

def isAssign (split : Split) : Bool := split.tag = .assign

def isRevoke (split : Split) : Bool := split.tag = .revoke

end Split

abbrev SplitMap := ExtTreeMap Queue Split

/-- Splits by queue, where a later split replaces an earlier one of its queue. -/
def SplitMap.ofSplits (splits : List Split) : SplitMap :=
  Table.ofEntries (splits.map fun split => (split.queue, split))

inductive Command where
  | assign (splits : List Split)
  | noMoreSplits
  deriving DecidableEq, Repr

inductive Boundedness where
  | bounded
  | continuousUnbounded
  deriving DecidableEq, Repr

def Boundedness.name : Boundedness → String
  | bounded => "Bounded"
  | continuousUnbounded => "ContinuousUnbounded"

end QueueAssignment
