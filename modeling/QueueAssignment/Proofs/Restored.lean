import QueueAssignment.Proofs.Restart

/-!
What a coordinator makes of a checkpoint, also of one that contradicts itself. A queue that is
listed under several workers goes to the smallest one, owners of queues that are not owned are
passed over, and what is recorded for a worker that the job does not have is dropped.
-/
namespace QueueAssignment
open Std

theorem Assignment.firstOwner_eq_some_iff_least {assignment : Assignment} {queue : Queue}
    {worker : Worker} :
    assignment.firstOwner queue = some worker ↔ queue ∈ assignment.queuesOf worker ∧
      ∀ other, queue ∈ assignment.queuesOf other → worker ≤ other := by
  have ordered : assignment.toList.Pairwise fun a b => a.1 < b.1 :=
    ExtTreeMap.ordered_keys_toList.imp Std.compare_eq_lt.mp
  have listed : ∀ w, queue ∈ assignment.queuesOf w ↔
      ∃ queues, (w, queues) ∈ assignment.toList ∧ queues.contains queue = true := by
    simp only [mem_queuesOf, ExtTreeMap.mem_toList_iff_getElem?_eq_some,
      ExtTreeSet.contains_iff_mem, implies_true]
  simp only [firstOwner, Option.map_eq_some_iff,
    Table.find?_eq_some_iff_least ordered UInt32.lt_asymm]
  constructor
  · rintro ⟨entry, ⟨member, inside, least⟩, rfl⟩
    refine ⟨(listed _).mpr ⟨entry.2, member, inside⟩, ?_⟩
    intro other placed
    obtain ⟨queues, there, has⟩ := (listed other).mp placed
    rcases least _ there has with rfl | less
    · exact UInt32.le_refl _
    · exact UInt32.le_of_lt less
  · rintro ⟨placed, smallest⟩
    obtain ⟨queues, there, has⟩ := (listed worker).mp placed
    refine ⟨(worker, queues), ⟨there, has, ?_⟩, rfl⟩
    rintro ⟨w, others⟩ member inside
    rcases UInt32.le_iff_lt_or_eq.mp (smallest w ((listed w).mpr ⟨others, member, inside⟩)) with
      less | rfl
    · exact Or.inr less
    · rw [ExtTreeMap.mem_toList_iff_getElem?_eq_some] at there member
      rw [Option.some.inj (member.symm.trans there)]
      exact Or.inl rfl

namespace Checkpoint

variable {checkpoint : Checkpoint} {parallelism : UInt32} {queue : Queue} {worker : Worker}

/-- The queue is owned, and this is the smallest worker that it is listed under. -/
def Records (checkpoint : Checkpoint) (worker : Worker) (queue : Queue) : Prop :=
  queue ∈ checkpoint.owned ∧ queue ∈ checkpoint.owners.queuesOf worker ∧
    ∀ other, queue ∈ checkpoint.owners.queuesOf other → worker ≤ other

theorem getElem?_ownerMap :
    checkpoint.ownerMap[queue]? = some worker ↔ checkpoint.Records worker queue := by
  rw [ownerMap, Table.getElem?_tabulate, Records, ← Assignment.firstOwner_eq_some_iff_least]
  split
  · simp [*]
  · simp [*]

theorem mem_ownerless : queue ∈ checkpoint.ownerless ↔
    queue ∈ checkpoint.owned ∧ ∀ worker, ¬ checkpoint.Records worker queue := by
  rw [ownerless, Table.mem_filter, decide_eq_true_eq, ExtTreeMap.mem_iff_isSome_getElem?,
    Option.isSome_iff_exists, not_exists]
  simp only [getElem?_ownerMap]

theorem mem_ownersBelow : queue ∈ checkpoint.ownersBelow parallelism ↔
    ∃ worker, checkpoint.Records worker queue ∧ worker < parallelism := by
  rw [ExtTreeMap.mem_iff_isSome_getElem?, Option.isSome_iff_exists]
  simp only [getElem?_ownersBelow, getElem?_ownerMap]

end Checkpoint

structure Coordinator.Consistent (c : Coordinator) (parallelism : UInt32) : Prop where
  exclusive : c.desk.reconciler.current.Exclusive
  inverse : ∀ queue worker, c.desk.dispatcher.owned[queue]? = some worker ↔
    queue ∈ c.desk.reconciler.current.queuesOf worker
  held : c.desk.reconciler.held = c.desk.dispatcher.held
  apart : ∀ worker, ∀ queue ∈ c.desk.reconciler.current.queuesOf worker,
    queue ∉ c.desk.reconciler.held
  below : ∀ worker ∈ c.desk.reconciler.current, worker < parallelism
  known : ∀ queue ∈ c.desk.dispatcher.ownedQueues,
    c.desk.reconciler.known[queue]? = some (.unresolved queue)

namespace Coordinator

variable {job : Job} {checkpoint : Checkpoint} {metrics : Metrics} {fresh : Coordinator}

theorem consistent_restore (restored : restore job checkpoint metrics = .ok fresh) :
    fresh.Consistent job.settings.parallelism := by
  obtain ⟨reconciler, dispatcher⟩ := restore_ok restored
  refine
    { exclusive := ?exclusive
      inverse := ?inverse
      held := ?held
      apart := ?apart
      below := ?below
      known := ?known }
  case exclusive =>
    rw [reconciler]
    exact OwnerMap.exclusive_byWorker _
  case inverse =>
    intro queue worker
    rw [reconciler, dispatcher]
    exact OwnerMap.mem_queuesOf_byWorker.symm
  case held =>
    rw [reconciler, dispatcher]
    rfl
  case apart =>
    intro worker queue has
    rw [reconciler] at has ⊢
    exact not_ownerless (OwnerMap.mem_queuesOf_byWorker.mp has)
  case below =>
    intro worker listed
    rw [reconciler, Reconciler.restore, OwnerMap.byWorker, ExtTreeMap.mem_iff_isSome_getElem?,
      Table.getElem?_tabulate] at listed
    split at listed
    · rename_i value
      obtain ⟨queue, recorded⟩ := Table.mem_values.mp (Table.mem_ofList.mp value)
      exact Checkpoint.lt_of_ownersBelow recorded
    · cases listed
  case known =>
    intro queue owned
    rw [dispatcher] at owned
    rw [reconciler]
    exact (Table.getElem?_tabulate _ _ _).trans (if_pos owned)

theorem snapshot_restore (restored : restore job checkpoint metrics = .ok fresh) :
    fresh.snapshot =
      .ofOwners (checkpoint.ownersBelow job.settings.parallelism) checkpoint.ownerless := by
  have dispatcher := (restore_ok restored).2
  simp only [snapshot, dispatcher, Dispatcher.restore]
  congr 1
  apply ExtTreeSet.ext_mem
  intro queue
  rw [Table.mem_filter, Dispatcher.mem_ownedQueues, Dispatcher.ownerOf, Option.isNone_iff_eq_none]
  constructor
  · intro both
    obtain ⟨⟨worker, recorded⟩ | ownerless, none⟩ := both
    · rw [recorded] at none
      cases none
    · exact ownerless
  · intro ownerless
    refine ⟨Or.inr ownerless, ?_⟩
    rw [Option.eq_none_iff_forall_ne_some]
    exact fun worker recorded => not_ownerless recorded ownerless

end Coordinator

namespace Checkpoint

variable {checkpoint : Checkpoint} {parallelism : UInt32} {owners : OwnerMap}
  {unplaced : QueueSet}

theorem ownerMap_ofOwners : (ofOwners owners unplaced).ownerMap = owners := by
  apply ExtTreeMap.ext_getElem?
  intro queue
  apply Option.ext
  intro worker
  exact getElem?_ownerMap_ofOwners

theorem mem_owned_ofOwners {queue : Queue} :
    queue ∈ (ofOwners owners unplaced).owned ↔ queue ∈ owners ∨ queue ∈ unplaced := by
  rw [ofOwners, ExtTreeSet.mem_union_iff, Table.mem_keys]

theorem ofOwners_again
    (below : ∀ (queue : Queue) (worker : Worker), owners[queue]? = some worker →
      worker < parallelism) :
    ofOwners ((ofOwners owners unplaced).ownersBelow parallelism)
      (ofOwners owners unplaced).ownerless = ofOwners owners unplaced := by
  have same : (ofOwners owners unplaced).ownersBelow parallelism = owners := by
    apply ExtTreeMap.ext_getElem?
    intro queue
    apply Option.ext
    intro worker
    rw [getElem?_ownersBelow, ownerMap_ofOwners]
    exact and_iff_left_of_imp (below queue worker)
  have owned : (ofOwners owners (ofOwners owners unplaced).ownerless).owned =
      (ofOwners owners unplaced).owned := by
    apply ExtTreeSet.ext_mem
    intro queue
    rw [mem_owned_ofOwners, ownerless, Table.mem_filter, mem_owned_ofOwners, ownerMap_ofOwners]
    by_cases recorded : queue ∈ owners
    · simp [recorded]
    · simp [recorded]
  rw [same]
  simp only [ofOwners, mk.injEq, and_true]
  exact owned

end Checkpoint

/-- Every checkpoint opens a consistent coordinator. What that saves again is the normal form of the
    checkpoint: the recorded owners that the job has, and the owned queues without those whose
    recorded owner it has not. A checkpoint of owners that the job has is its own normal form. -/
theorem restore_normalizes {job : Job} (some_worker : job.settings.parallelism ≠ 0)
    (checkpoint : Checkpoint) (metrics : Metrics) :
    ∃ fresh, Coordinator.restore job checkpoint metrics = .ok fresh ∧
      fresh.Consistent job.settings.parallelism ∧
      fresh.snapshot.ownerMap =
        checkpoint.ownerMap.filter (fun _ worker => worker < job.settings.parallelism) ∧
      (∀ queue, queue ∈ fresh.snapshot.owned ↔ queue ∈ checkpoint.owned ∧
        ∀ worker, checkpoint.Records worker queue → worker < job.settings.parallelism) ∧
      ∀ owners unplaced, checkpoint = .ofOwners owners unplaced →
        (∀ (queue : Queue) (worker : Worker), owners[queue]? = some worker →
          worker < job.settings.parallelism) → fresh.snapshot = checkpoint := by
  obtain ⟨fresh, restored⟩ := Coordinator.restore_some some_worker checkpoint metrics
  have saved := Coordinator.snapshot_restore restored
  refine ⟨fresh, restored, Coordinator.consistent_restore restored, ?owners, ?owned, ?fixed⟩
  case owners =>
    rw [saved, Checkpoint.ownerMap_ofOwners]
    rfl
  case owned =>
    intro queue
    rw [saved, Checkpoint.mem_owned_ofOwners, Checkpoint.mem_ownersBelow, Checkpoint.mem_ownerless]
    constructor
    · intro either
      rcases either with ⟨worker, recorded, below⟩ | ⟨owned, unrecorded⟩
      · refine ⟨recorded.1, fun other again => ?_⟩
        -- The recorded owner is the smallest one, so there is just one.
        have same := UInt32.le_antisymm (again.2.2 worker recorded.2.1)
          (recorded.2.2 other again.2.1)
        rw [same]
        exact below
      · exact ⟨owned, fun worker recorded => absurd recorded (unrecorded worker)⟩
    · intro both
      obtain ⟨owned, below⟩ := both
      by_cases recorded : ∃ worker, checkpoint.Records worker queue
      · obtain ⟨worker, recorded⟩ := recorded
        exact Or.inl ⟨worker, recorded, below worker recorded⟩
      · exact Or.inr ⟨owned, not_exists.mp recorded⟩
  case fixed =>
    rintro owners unplaced rfl below
    rw [saved, Checkpoint.ofOwners_again below]

namespace Sample

/-- A checkpoint that contradicts itself: the first queue is listed under two workers, the second
    one under a worker that the job does not have, the third one is not owned, and one worker is
    listed without any. -/
def damaged : Checkpoint where
  owned := ExtTreeSet.ofList [queue 0, queue 1, queue 3]
  owners := Table.ofEntries [((0 : Worker), (ExtTreeSet.ofList [queue 2] : QueueSet)),
    (1, ExtTreeSet.ofList [queue 0]), (4, ∅), (7, ExtTreeSet.ofList [queue 0, queue 1])]

end Sample

theorem damaged_checkpoint_normalized :
    ∃ fresh, Coordinator.restore Sample.job Sample.damaged {} = .ok fresh ∧
      fresh.Consistent Sample.job.settings.parallelism ∧
      Sample.queue 1 ∉ fresh.snapshot.owned ∧ Sample.queue 3 ∈ fresh.snapshot.owned := by
  obtain ⟨fresh, restored, consistent, _, owned, _⟩ :=
    restore_normalizes (by decide : Sample.job.settings.parallelism ≠ 0) Sample.damaged {}
  refine ⟨fresh, restored, consistent, ?_, ?_⟩
  · intro saved
    have seventh : Sample.damaged.Records 7 (Sample.queue 1) := by
      rw [← Checkpoint.getElem?_ownerMap]
      decide +kernel
    exact absurd (((owned _).mp saved).2 7 seventh) (by decide)
  · refine (owned _).mpr ⟨by decide +kernel, fun worker recorded => ?_⟩
    rw [← Checkpoint.getElem?_ownerMap] at recorded
    have unrecorded : Sample.damaged.ownerMap[Sample.queue 3]? = none := by decide +kernel
    rw [unrecorded] at recorded
    cases recorded

end QueueAssignment
