import QueueAssignment.Proofs.Targets
import QueueAssignment.Proofs.Walk

/-!
Placement by hashing is stable. Queues that come or go leave the others where they are, and with more
workers a queue moves to a new one or not at all.
-/
namespace QueueAssignment
open Std

namespace Assignment

def restrict (assignment : Assignment) (queues : QueueSet) : Assignment :=
  withoutIdle (assignment.map fun _ held => held ∩ queues)

def Busy (assignment : Assignment) : Prop :=
  ∀ (worker : Worker) (queues : QueueSet), assignment[worker]? = some queues → queues ≠ ∅

variable {assignment other : Assignment}

theorem busy_restrict (queues : QueueSet) : (assignment.restrict queues).Busy :=
  fun _ _ => busy_withoutIdle

theorem mem_queuesOf_restrict {queues : QueueSet} {worker : Worker} {queue : Queue} :
    queue ∈ (assignment.restrict queues).queuesOf worker ↔
      queue ∈ assignment.queuesOf worker ∧ queue ∈ queues := by
  rw [restrict, mem_queuesOf_withoutIdle]
  simp only [mem_queuesOf, ExtTreeMap.getElem?_map, Option.map_eq_some_iff]
  constructor
  · intro entry
    obtain ⟨_, ⟨held, found, rfl⟩, inside⟩ := entry
    rw [ExtTreeSet.mem_inter_iff] at inside
    exact ⟨⟨held, found, inside.1⟩, inside.2⟩
  · intro both
    obtain ⟨⟨held, found, inside⟩, kept⟩ := both
    exact ⟨_, ⟨held, found, rfl⟩, ExtTreeSet.mem_inter_iff.mpr ⟨inside, kept⟩⟩

theorem Busy.getElem?_eq_none_iff (busy : assignment.Busy) {worker : Worker} :
    assignment[worker]? = none ↔ ∀ queue, queue ∉ assignment.queuesOf worker := by
  constructor
  · intro none queue placed
    obtain ⟨queues, found, _⟩ := mem_queuesOf.mp placed
    rw [none] at found
    cases found
  · intro unplaced
    rw [Option.eq_none_iff_forall_ne_some]
    intro queues found
    apply busy worker queues found
    apply ExtTreeSet.ext_mem
    intro queue
    simpa using fun inside => unplaced queue (mem_queuesOf.mpr ⟨queues, found, inside⟩)

theorem Busy.ext (busy : assignment.Busy) (also : other.Busy)
    (same : ∀ worker queue, queue ∈ assignment.queuesOf worker ↔ queue ∈ other.queuesOf worker) :
    assignment = other := by
  apply ExtTreeMap.ext_getElem?
  intro worker
  cases found : assignment[worker]? with
  | none =>
    symm
    rw [also.getElem?_eq_none_iff]
    intro queue
    rw [← same]
    exact busy.getElem?_eq_none_iff.mp found queue
  | some queues =>
    cases there : other[worker]? with
    | none =>
      have unplaced := also.getElem?_eq_none_iff.mp there
      simp only [← same] at unplaced
      rw [busy.getElem?_eq_none_iff.mpr unplaced] at found
      cases found
    | some others =>
      congr 1
      apply ExtTreeSet.ext_mem
      intro queue
      simpa [queuesOf, found, there] using same worker queue

end Assignment

theorem OwnerMap.busy_byWorker (owners : OwnerMap) : owners.byWorker.Busy := by
  rintro worker _ found rfl
  rw [byWorker, Table.getElem?_tabulate] at found
  split at found
  · rename_i listed
    obtain ⟨queue, owned⟩ := Table.mem_values.mp (Table.mem_ofList.mp listed)
    have inside := mem_queuesOf.mpr owned
    rw [Option.some.inj found] at inside
    simp at inside
  · cases found

namespace Strategy

variable {parallelism few many : UInt32} {queues rest : QueueSet}

theorem byWorker_hashedOwners_restrict (subset : ∀ queue ∈ rest, queue ∈ queues) :
    (hashedOwners rest parallelism).byWorker =
      (hashedOwners queues parallelism).byWorker.restrict rest := by
  apply (OwnerMap.busy_byWorker _).ext (Assignment.busy_restrict rest)
  intro worker queue
  rw [Assignment.mem_queuesOf_restrict, mem_queuesOf_hashedOwners, mem_queuesOf_hashedOwners]
  constructor
  · intro placed
    exact ⟨⟨subset queue placed.1, placed.2⟩, placed.1⟩
  · intro placed
    exact ⟨placed.2, placed.1.2⟩

theorem hashedWorker_stays_or_new (some_worker : few ≠ 0) (more : few ≤ many) (queue : Queue) :
    hashedWorker many queue = hashedWorker few queue ∨ few ≤ hashedWorker many queue := by
  have still : many ≠ 0 := by
    rintro rfl
    exact some_worker (UInt32.le_zero_iff.mp more)
  rw [← UInt32.toNat_inj, UInt32.le_iff_toNat_le, toNat_hashedWorker some_worker,
    toNat_hashedWorker still]
  exact Jump.bucket_stays_or_new queue.key (toNat_pos some_worker) (UInt32.le_iff_toNat_le.mp more)
    many.toNat_lt

/-- Of each queue hashing makes one placement, below the number of workers. Without some of the queues
    the others are placed as before, and with more workers a queue is placed as before or on a new
    one. -/
theorem hashed_stays_or_moves_out (some_worker : few ≠ 0) (more : few ≤ many)
    (subset : ∀ queue ∈ rest, queue ∈ queues) (i j k : Nat) :
    ∃ placed kept scaled,
      hashed i queues few = .ok placed ∧ hashed j rest few = .ok kept ∧
      hashed k queues many = .ok scaled ∧
      placed.Covers queues few ∧ placed.Busy ∧ kept = placed.restrict rest ∧
      scaled.Covers queues many ∧
      ∀ queue ∈ queues, ∃ v w, queue ∈ placed.queuesOf v ∧ queue ∈ scaled.queuesOf w ∧
        (w = v ∨ few ≤ w ∧ w < many) := by
  have still : many ≠ 0 := by
    rintro rfl
    exact some_worker (UInt32.le_zero_iff.mp more)
  obtain ⟨_, answered, covers⟩ := hashed_covering i queues some_worker
  obtain ⟨_, scaled, farther⟩ := hashed_covering k queues still
  cases (if_neg some_worker).symm.trans answered
  cases (if_neg still).symm.trans scaled
  refine ⟨_, _, _, answered, if_neg some_worker, scaled, covers, OwnerMap.busy_byWorker _,
    byWorker_hashedOwners_restrict subset, farther, ?_⟩
  intro queue member
  refine ⟨hashedWorker few queue, hashedWorker many queue, mem_queuesOf_hashedOwners.mpr ⟨member, rfl⟩,
    mem_queuesOf_hashedOwners.mpr ⟨member, rfl⟩, ?_⟩
  exact (hashedWorker_stays_or_new some_worker more queue).imp_right fun new =>
    ⟨new, hashedWorker_lt still queue⟩

theorem other_queue_stays_or_moves_out :
    let gone : Queue := ⟨"orders", "a", 0⟩
    let other : Queue := ⟨"orders", "a", 1⟩
    let both : QueueSet := ExtTreeSet.ofList [gone, other]
    ∃ placed kept scaled,
      hashed 0 both 2 = .ok placed ∧ hashed 1 (ExtTreeSet.ofList [other]) 2 = .ok kept ∧
      hashed 2 both 3 = .ok scaled ∧ kept = placed.restrict (ExtTreeSet.ofList [other]) ∧
      ∃ v w, other ∈ placed.queuesOf v ∧ other ∈ scaled.queuesOf w ∧ (w = v ∨ 2 ≤ w ∧ w < 3) := by
  intro gone other both
  have subset : ∀ queue ∈ ExtTreeSet.ofList [other], queue ∈ both := by
    intro queue rest
    rw [Table.mem_single.mp rest]
    exact Table.mem_ofList.mpr (by simp)
  obtain ⟨placed, kept, scaled, here, later, wider, _, _, restricted, _, moves⟩ :=
    @hashed_stays_or_moves_out 2 3 both (ExtTreeSet.ofList [other]) (by decide) (by decide) subset
      0 1 2
  exact ⟨placed, kept, scaled, here, later, wider, restricted,
    moves other (Table.mem_ofList.mpr (by simp))⟩

end Strategy

end QueueAssignment
