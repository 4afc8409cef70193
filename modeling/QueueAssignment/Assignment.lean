import QueueAssignment.Queue

/-!
Who holds what. An assignment lists the queues of each worker, an owner map the worker of
each queue. An assignment may list a queue twice or a worker with no queue; an owner map
cannot.
-/
namespace QueueAssignment
open Std

abbrev Assignment := ExtTreeMap Worker QueueSet

abbrev OwnerMap := ExtTreeMap Queue Worker

namespace Assignment

def queuesOf (assignment : Assignment) (worker : Worker) : QueueSet := assignment[worker]?.getD ∅

def placements (assignment : Assignment) : List (Worker × Queue) :=
  assignment.toList.flatMap fun entry => entry.2.toList.map fun queue => (entry.1, queue)

def firstOwner (assignment : Assignment) (queue : Queue) : Option Worker :=
  (assignment.toList.find? fun entry => entry.2.contains queue).map (·.1)

/-- The owner of each queue; of several workers that list a queue the last one counts. -/
def owners (assignment : Assignment) : OwnerMap :=
  Table.ofEntries (assignment.placements.map fun placement => (placement.2, placement.1))

def withoutIdle (assignment : Assignment) : Assignment :=
  assignment.filter fun _ queues => !queues.isEmpty

/-- Takes `queues` away from one worker and drops the workers left without any. -/
def release (assignment : Assignment) (worker : Worker) (queues : QueueSet) : Assignment :=
  withoutIdle (assignment.map fun w held => if w = worker then held \ queues else held)

end Assignment

namespace OwnerMap

def queuesOf (owners : OwnerMap) (worker : Worker) : QueueSet :=
  Table.keys (owners.filter fun _ owner => owner = worker)

theorem mem_queuesOf {owners : OwnerMap} {worker : Worker} {queue : Queue} :
    queue ∈ owners.queuesOf worker ↔ owners[queue]? = some worker := by
  simp only [queuesOf, Table.mem_keys, ExtTreeMap.mem_filter]
  constructor
  · rintro ⟨member, same⟩
    rw [ExtTreeMap.getElem?_eq_some_getElem member]
    simpa using same
  · intro found
    obtain ⟨member, same⟩ := ExtTreeMap.getElem?_eq_some_iff.1 found
    exact ⟨member, by simpa using same⟩

def byWorker (owners : OwnerMap) : Assignment :=
  Table.tabulate (ExtTreeSet.ofList owners.values) fun worker => some (owners.queuesOf worker)

end OwnerMap

end QueueAssignment
