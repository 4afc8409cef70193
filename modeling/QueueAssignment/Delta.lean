import QueueAssignment.Assignment
import QueueAssignment.Error
import QueueAssignment.Placement
import QueueAssignment.SplitChange

/-!
The difference between who has which queue and who should have it, as splits to send. A
queue that moves is revoked from its old owner and assigned to the new one in the same
delta. Queues that are held by an unknown owner are adopted by their target worker without a
word.
-/
namespace QueueAssignment
open Std

structure Delta where
  splits : PlacedSplits := ∅
  /-- Held queues that the target places. -/
  adopted : OwnerMap := ∅
  /-- Held queues that left the topology. -/
  forgotten : QueueSet := ∅
  /-- Queues that move from one worker to another. -/
  transfers : Nat := 0

/-- What a delta is computed from. `baseline` and `target` are the owners before and after. -/
structure Move where
  baseline : OwnerMap
  target : OwnerMap
  held : QueueSet
  known : SplitMap
  change : SplitChange

namespace Move

/-- The range that a revoke carries: as taken away, else the latest, else the last one known. -/
def lastRange (move : Move) (queue : Queue) : Split :=
  ((move.change.decreased[queue]?.or move.change.latest[queue]?).or move.known[queue]?).getD
    (.unresolved queue)

/-- What the owner of a queue in the baseline is told. Where it stays the owner, a queue counted as
    gone is revoked all the same. -/
def toOwner (move : Move) (queue : Queue) (owner : Worker) : Option Split :=
  match move.target[queue]? with
  | some worker =>
      if worker = owner then move.change.decreased[queue]?.map Split.toRevoke
      else move.change.latest[queue]?.map Split.toRevoke
  | none => some (move.lastRange queue).toRevoke

def toTarget (move : Move) (queue : Queue) : Option Split :=
  if move.baseline[queue]? = none ∧ queue ∈ move.held then none
  else move.change.latest[queue]?.map Split.toAssign

def split? (move : Move) (placement : Placement) : Option Split :=
  if move.baseline[placement.queue]? = some placement.worker then
    move.toOwner placement.queue placement.worker
  else if move.target[placement.queue]? = some placement.worker then
    move.toTarget placement.queue
  else none

def placements (owners : OwnerMap) : PlacementSet :=
  ExtTreeSet.ofList (owners.toList.map fun entry => Placement.mk entry.2 entry.1)

theorem mem_placements {owners : OwnerMap} {placement : Placement} :
    placement ∈ placements owners ↔ owners[placement.queue]? = some placement.worker := by
  cases placement with
  | mk worker queue =>
    simp only [placements, Table.mem_ofList, List.mem_map,
      ExtTreeMap.mem_toList_iff_getElem?_eq_some, Prod.exists, Placement.mk.injEq]
    constructor
    · rintro ⟨q, w, found, rfl, rfl⟩
      exact found
    · intro found
      exact ⟨queue, worker, found, rfl, rfl⟩

/-- A held queue whose owner the baseline does not know. -/
def isOrphan (move : Move) (queue : Queue) : Bool :=
  move.baseline[queue]? = none && move.held.contains queue

def delta (move : Move) : Delta where
  splits := Table.tabulate (placements move.baseline ∪ placements move.target) move.split?
  adopted := move.target.filter fun queue _ => move.isOrphan queue
  forgotten := (Table.keys move.change.decreased).filter move.isOrphan
  transfers := move.target.toList.countP fun entry =>
    match move.baseline[entry.1]? with
    | some owner => owner ≠ entry.2
    | none => false

/-- What a delta says about a placement, as `split?` has it: only placements of the baseline or of
    the target are told anything. -/
theorem getElem?_delta (move : Move) (placement : Placement) :
    move.delta.splits[placement]? = move.split? placement := by
  simp only [delta, Table.getElem?_tabulate, ExtTreeSet.mem_union_iff, mem_placements]
  split
  · rfl
  · rename_i outside
    simp only [not_or] at outside
    simp [split?, outside.1, outside.2]

end Move

namespace Delta

def size (delta : Delta) : Nat := delta.splits.size

def isEmpty (delta : Delta) : Bool := delta.splits.isEmpty

def workers (delta : Delta) : WorkerSet := delta.splits.workers

def toList (delta : Delta) : List (Worker × Split) :=
  delta.splits.toList.map fun entry => (entry.1.worker, entry.2)

def get? (delta : Delta) (worker : Worker) (queue : Queue) : Option Split :=
  delta.splits[(⟨worker, queue⟩ : Placement)]?

end Delta

namespace Assignment

/-- The owners of a list of placements, unless one is of a queue without a range or gives a queue a
    second worker. The first such placement is reported. -/
def checkedOwners (latest : SplitMap) :
    OwnerMap → List (Worker × Queue) → Except Violation OwnerMap
  | owners, [] => .ok owners
  | owners, (worker, queue) :: rest =>
      if queue ∈ latest then
        match owners[queue]? with
        | some other => .error (.placedTwice queue other worker)
        | none => checkedOwners latest (owners.insert queue worker) rest
      else .error (.unknownQueue queue worker)

def targetOwners (target : Assignment) (latest : SplitMap) : Except Violation OwnerMap :=
  checkedOwners latest ∅ target.placements

end Assignment

end QueueAssignment
