import QueueAssignment.Proofs.Delivery

/-!
How far the record of owners agrees with what the workers hold. A worker stays on record from
the moment it is given a queue until the queue is given to anyone again or the worker is told
to give it up. What it holds ends, in contrast, when it hands the queue back, and goes on
when the queue goes to another worker and comes back before it is told anything.
-/
namespace QueueAssignment
open Std

theorem Coordinator.mem_snapshot {c : Coordinator} {worker : Worker} {queue : Queue} :
    queue ∈ c.snapshot.owners.queuesOf worker ↔
      c.desk.dispatcher.ownerOf queue = some worker :=
  OwnerMap.mem_queuesOf_byWorker

/-- A worker that should have a queue and waits for nothing about it holds it, but is its owner on
    record only while nobody was given the queue after it. -/
theorem owner_recorded_iff_newest {site : Site} {journal : Journal}
    (reached : Reached site journal) {worker : Worker} {queue : Queue}
    (should : queue ∈ site.coordinator.desk.reconciler.current.queuesOf worker)
    (settled : site.coordinator.desk.reconciler.pending[(⟨worker, queue⟩ : Placement)]? = none) :
    queue ∈ journal.heldBy worker ∧
      (site.coordinator.desk.dispatcher.ownerOf queue = some worker ↔
        journal.Newest ⟨worker, queue⟩) ∧
      (queue ∈ site.coordinator.snapshot.owners.queuesOf worker ↔
        journal.Newest ⟨worker, queue⟩) := by
  have accounted := reached.sound.accounted
  have net := accounted.balanced.net ⟨worker, queue⟩
  rw [settled, Option.map_none, eq_comm, Reconciler.due_eq_none_iff] at net
  have has : queue ∈ journal.heldBy worker := net.mp should
  have unrevoked : journal.Unrevoked ⟨worker, queue⟩ :=
    (Journal.inForce_iff.mp (Journal.mem_heldBy.mp has)).1
  have recorded : site.coordinator.desk.dispatcher.ownerOf queue = some worker ↔
      journal.Newest ⟨worker, queue⟩ := by
    rw [Dispatcher.ownerOf, accounted.owned]
    exact and_iff_left unrevoked
  exact ⟨has, recorded, Coordinator.mem_snapshot.trans recorded⟩

theorem recorded_after_first_cycle :
    let acts := [Act.join 0 true, .join 1 true, .cycle (Sample.broker [0, 1])]
    (Sample.journal acts).Newest ⟨1, Sample.queue 1⟩ :=
  (owner_recorded_iff_newest (Sample.reached _) (by decide +kernel) (by decide +kernel)).2.1.mp
    (by decide +kernel)

/-- While a worker is away its queue goes to the other worker and comes back. Its revoke is never
    sent, and neither is the assign that follows, but the revoke of the other worker leaves the
    queue without an owner on record. -/
theorem moved_away_and_back_unrecorded :
    let acts := [Act.join 0 true, .join 1 true, .cycle (Sample.broker [0, 1]), .leave 1,
      .cycle (Sample.broker [1]), .cycle (Sample.broker [0, 1])]
    let c := (Sample.site acts).coordinator
    Sample.queue 1 ∈ c.desk.reconciler.current.queuesOf 1 ∧
      c.desk.reconciler.pending[(⟨1, Sample.queue 1⟩ : Placement)]? = none ∧
      Sample.queue 1 ∈ (Sample.journal acts).heldBy 1 ∧
      c.desk.dispatcher.ownerOf (Sample.queue 1) = none ∧
      Sample.queue 1 ∉ c.snapshot.owned := by
  decide +kernel

/-- A checkpoint lists a queue under the last worker it was given to, until that worker is told to
    give it up. Such a delivery is in force as long as the worker has not handed the queue back. -/
theorem snapshot_lists_last_delivery {site : Site} {journal : Journal}
    (reached : Reached site journal) (worker : Worker) (queue : Queue) :
    let listed := queue ∈ site.coordinator.snapshot.owners.queuesOf worker
    (listed ↔ journal.Newest ⟨worker, queue⟩ ∧ journal.Unrevoked ⟨worker, queue⟩) ∧
      (listed → (journal.InForce ⟨worker, queue⟩ ↔ journal.Unreturned ⟨worker, queue⟩)) := by
  intro listed
  have recorded : listed ↔ journal.Newest ⟨worker, queue⟩ ∧ journal.Unrevoked ⟨worker, queue⟩ :=
    Coordinator.mem_snapshot.trans reached.sound.accounted.owned
  refine ⟨recorded, ?_⟩
  intro present
  rw [Journal.inForce_iff]
  exact and_iff_right (recorded.mp present).2

theorem listed_delivery_in_force :
    let acts := [Act.join 0 true, .join 1 true, .cycle (Sample.broker [0, 1])]
    (Sample.journal acts).Newest ⟨1, Sample.queue 1⟩ ∧
      (Sample.journal acts).Unrevoked ⟨1, Sample.queue 1⟩ :=
  (snapshot_lists_last_delivery (Sample.reached _) 1 (Sample.queue 1)).1.mp (by decide +kernel)

/-- A queue that a worker handed back waits for the worker to register again, and is listed under it
    all the same. -/
theorem returned_queue_still_listed :
    let acts := [Act.join 0 true, .join 1 true, .cycle (Sample.broker [0, 1]), .leave 1,
      .takeBack 1 [.assign (Sample.queue 1) 5 none]]
    let c := (Sample.site acts).coordinator
    Sample.queue 1 ∈ c.snapshot.owners.queuesOf 1 ∧
      c.desk.reconciler.pending[(⟨1, Sample.queue 1⟩ : Placement)]? =
        some (.assign (Sample.queue 1) 5 none) ∧
      ¬ (Sample.journal acts).InForce ⟨1, Sample.queue 1⟩ := by
  intro acts c
  refine ⟨by decide +kernel, by decide +kernel, ?_⟩
  rw [← Journal.mem_heldBy]
  decide +kernel

end QueueAssignment
