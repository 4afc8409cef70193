import QueueAssignment.Delta
import QueueAssignment.Proofs.Table

/-!
Assignments that give no queue to two workers. Such an assignment and its owner map say the
same, and a target that is accepted is one.
-/
namespace QueueAssignment
open Std

namespace Assignment

def Exclusive (assignment : Assignment) : Prop :=
  ∀ {v w : Worker} {queue : Queue},
    queue ∈ assignment.queuesOf v → queue ∈ assignment.queuesOf w → v = w

theorem mem_queuesOf {assignment : Assignment} {worker : Worker} {queue : Queue} :
    queue ∈ assignment.queuesOf worker ↔
      ∃ queues, assignment[worker]? = some queues ∧ queue ∈ queues := by
  unfold queuesOf
  cases assignment[worker]? with
  | none => simp
  | some queues => simp

theorem mem_placements_iff {assignment : Assignment} {worker : Worker} {queue : Queue} :
    (worker, queue) ∈ assignment.placements ↔ queue ∈ assignment.queuesOf worker := by
  rw [mem_queuesOf]
  simp only [placements, List.mem_flatMap, List.mem_map, Prod.exists, Prod.mk.injEq,
    ExtTreeMap.mem_toList_iff_getElem?_eq_some, ExtTreeSet.mem_toList]
  constructor
  · intro listing
    obtain ⟨w, queues, found, q, member, rfl, rfl⟩ := listing
    exact ⟨queues, found, member⟩
  · intro entry
    obtain ⟨queues, found, member⟩ := entry
    exact ⟨worker, queues, found, queue, member, rfl, rfl⟩

theorem mem_queuesOf_withoutIdle {assignment : Assignment} {worker : Worker} {queue : Queue} :
    queue ∈ assignment.withoutIdle.queuesOf worker ↔ queue ∈ assignment.queuesOf worker := by
  simp only [mem_queuesOf, withoutIdle, ExtTreeMap.getElem?_filter', Option.filter_eq_some_iff]
  constructor
  · intro entry
    obtain ⟨queues, ⟨found, _⟩, member⟩ := entry
    exact ⟨queues, found, member⟩
  · intro entry
    obtain ⟨queues, found, member⟩ := entry
    refine ⟨queues, ⟨found, ?_⟩, member⟩
    have busy : queues ≠ ∅ := by
      rintro rfl
      simp at member
    simpa using busy

theorem busy_withoutIdle {assignment : Assignment} {worker : Worker} {queues : QueueSet}
    (found : assignment.withoutIdle[worker]? = some queues) : queues ≠ ∅ := by
  rw [withoutIdle, ExtTreeMap.getElem?_filter', Option.filter_eq_some_iff] at found
  simpa using found.2

theorem mem_queuesOf_release {assignment : Assignment} {worker other : Worker} {lost : QueueSet}
    {queue : Queue} :
    queue ∈ (assignment.release worker lost).queuesOf other ↔
      queue ∈ assignment.queuesOf other ∧ ¬ (other = worker ∧ queue ∈ lost) := by
  rw [release, mem_queuesOf_withoutIdle]
  simp only [mem_queuesOf, ExtTreeMap.getElem?_map, Option.map_eq_some_iff]
  constructor
  · intro entry
    obtain ⟨_, ⟨queues, found, rfl⟩, member⟩ := entry
    split at member
    · rw [ExtTreeSet.mem_diff_iff] at member
      exact ⟨⟨queues, found, member.1⟩, fun both => member.2 both.2⟩
    · rename_i elsewhere
      exact ⟨⟨queues, found, member⟩, fun both => elsewhere both.1⟩
  · intro both
    obtain ⟨⟨queues, found, member⟩, kept⟩ := both
    refine ⟨_, ⟨queues, found, rfl⟩, ?_⟩
    split
    · rename_i same
      exact ExtTreeSet.mem_diff_iff.mpr ⟨member, fun gone => kept ⟨same, gone⟩⟩
    · exact member

theorem Exclusive.release {assignment : Assignment} (exclusive : assignment.Exclusive)
    (worker : Worker) (lost : QueueSet) : (assignment.release worker lost).Exclusive := by
  intro v w queue first second
  exact exclusive (mem_queuesOf_release.mp first).1 (mem_queuesOf_release.mp second).1

theorem owners_eq_some_iff {assignment : Assignment} (exclusive : assignment.Exclusive)
    {queue : Queue} {worker : Worker} :
    assignment.owners[queue]? = some worker ↔ queue ∈ assignment.queuesOf worker := by
  have listed : ∀ w, (queue, w) ∈ (assignment.placements.map fun p => (p.2, p.1)) ↔
      queue ∈ assignment.queuesOf w := by
    intro w
    rw [← mem_placements_iff, List.mem_map]
    constructor
    · intro listing
      obtain ⟨placement, member, eq⟩ := listing
      cases eq
      exact member
    · intro member
      exact ⟨(w, queue), member, rfl⟩
  constructor
  · intro found
    exact (listed worker).mp (Table.mem_of_getElem?_ofEntries found)
  · intro member
    apply Table.getElem?_ofEntries_of_agree ((listed worker).mpr member)
    intro w other
    exact exclusive ((listed w).mp other) member

theorem mem_queuesOf_of_firstOwner {assignment : Assignment} {queue : Queue} {worker : Worker}
    (found : assignment.firstOwner queue = some worker) : queue ∈ assignment.queuesOf worker := by
  obtain ⟨entry, first, rfl⟩ := Option.map_eq_some_iff.mp found
  have listed := ExtTreeMap.mem_toList_iff_getElem?_eq_some.mp (List.mem_of_find?_eq_some first)
  exact mem_queuesOf.mpr ⟨entry.2, listed, by simpa using List.find?_some first⟩

theorem firstOwner_eq_none_iff {assignment : Assignment} {queue : Queue} :
    assignment.firstOwner queue = none ↔ ∀ worker, queue ∉ assignment.queuesOf worker := by
  constructor
  · intro none worker placed
    obtain ⟨queues, found, inside⟩ := mem_queuesOf.mp placed
    have listed := ExtTreeMap.mem_toList_iff_getElem?_eq_some.mpr found
    have all := List.find?_eq_none.mp (Option.map_eq_none_iff.mp none) (worker, queues) listed
    exact absurd inside (by simpa using all)
  · intro unplaced
    rw [Option.eq_none_iff_forall_ne_some]
    intro worker found
    exact unplaced worker (mem_queuesOf_of_firstOwner found)

theorem firstOwner_eq_some_iff {assignment : Assignment} (exclusive : assignment.Exclusive)
    {queue : Queue} {worker : Worker} :
    assignment.firstOwner queue = some worker ↔ queue ∈ assignment.queuesOf worker := by
  constructor
  · exact mem_queuesOf_of_firstOwner
  · intro placed
    cases found : assignment.firstOwner queue with
    | none => exact absurd placed (firstOwner_eq_none_iff.mp found worker)
    | some other => rw [exclusive (mem_queuesOf_of_firstOwner found) placed]

theorem checkedOwners_ok {latest : SplitMap} {placements : List (Worker × Queue)}
    {owners result : OwnerMap} (accepted : checkedOwners latest owners placements = .ok result) :
    (∀ queue worker, result[queue]? = some worker ↔
      owners[queue]? = some worker ∨ (worker, queue) ∈ placements) ∧
    ∀ worker queue, (worker, queue) ∈ placements → queue ∈ latest := by
  induction placements generalizing owners with
  | nil =>
    cases accepted
    simp
  | cons placement rest ih =>
    obtain ⟨first, placed⟩ := placement
    simp only [checkedOwners] at accepted
    split at accepted
    · rename_i known
      split at accepted
      · cases accepted
      · rename_i fresh
        obtain ⟨lookup, covered⟩ := ih accepted
        constructor
        · intro queue worker
          rw [lookup, ExtTreeMap.getElem?_insert]
          by_cases same : placed = queue
          · subst same
            simp [fresh, eq_comm]
          · simp [same, Ne.symm same]
        · intro worker queue member
          rcases List.mem_cons.mp member with eq | member
          · cases eq
            exact known
          · exact covered worker queue member
    · cases accepted

theorem targetOwners_ok {target : Assignment} {latest : SplitMap} {owners : OwnerMap}
    (accepted : target.targetOwners latest = .ok owners) :
    (∀ queue worker, owners[queue]? = some worker ↔ queue ∈ target.queuesOf worker) ∧
    ∀ queue, queue ∈ owners → queue ∈ latest := by
  obtain ⟨lookup, covered⟩ := checkedOwners_ok accepted
  have same : ∀ queue worker,
      owners[queue]? = some worker ↔ queue ∈ target.queuesOf worker := by
    intro queue worker
    rw [lookup, ← mem_placements_iff]
    simp
  refine ⟨same, ?_⟩
  intro queue member
  have found := ExtTreeMap.getElem?_eq_some_getElem member
  exact covered _ queue (mem_placements_iff.mpr ((same queue _).mp found))

theorem exclusive_of_lookup {assignment : Assignment} {owners : OwnerMap}
    (same : ∀ queue worker, owners[queue]? = some worker ↔ queue ∈ assignment.queuesOf worker) :
    assignment.Exclusive := by
  intro v w queue first second
  rw [← same] at first second
  exact Option.some.inj (first.symm.trans second)

end Assignment

namespace OwnerMap

theorem mem_queuesOf_byWorker {owners : OwnerMap} {worker : Worker} {queue : Queue} :
    queue ∈ owners.byWorker.queuesOf worker ↔ owners[queue]? = some worker := by
  rw [Assignment.mem_queuesOf]
  simp only [byWorker, Table.getElem?_tabulate]
  constructor
  · intro entry
    obtain ⟨queues, found, member⟩ := entry
    split at found
    · cases found
      exact mem_queuesOf.mp member
    · cases found
  · intro found
    refine ⟨owners.queuesOf worker, ?_, mem_queuesOf.mpr found⟩
    have listed : worker ∈ ExtTreeSet.ofList owners.values :=
      Table.mem_ofList.mpr (Table.mem_values.mpr ⟨queue, found⟩)
    simp [listed]

theorem exclusive_byWorker (owners : OwnerMap) : owners.byWorker.Exclusive :=
  Assignment.exclusive_of_lookup fun _ _ => mem_queuesOf_byWorker.symm

end OwnerMap

end QueueAssignment
