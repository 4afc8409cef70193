import QueueAssignment.Proofs.Scanned

/-!
Revokes that were not delivered before a restart. A checkpoint lists a queue under the last worker
that was given it, so a worker that holds a queue which somebody else was given after it is not told
to give the queue up any more.
-/
namespace QueueAssignment
open Std

namespace Checkpoint

theorem getElem?_ownerMap_ofOwners {owners : OwnerMap} {unplaced : QueueSet} {queue : Queue}
    {worker : Worker} :
    (ofOwners owners unplaced).ownerMap[queue]? = some worker ↔ owners[queue]? = some worker := by
  have owner : owners.byWorker.firstOwner queue = some worker ↔ owners[queue]? = some worker := by
    rw [Assignment.firstOwner_eq_some_iff owners.exclusive_byWorker,
      OwnerMap.mem_queuesOf_byWorker]
  rw [ownerMap, Table.getElem?_tabulate, ← owner]
  split
  · rfl
  · rename_i unlisted
    constructor
    · exact nofun
    · intro found
      have recorded : queue ∈ owners := by
        rw [ExtTreeMap.mem_iff_isSome_getElem?, owner.mp found]
        rfl
      have listed : queue ∈ (ofOwners owners unplaced).owned :=
        ExtTreeSet.mem_union_iff.mpr (Or.inl (Table.mem_keys.mpr recorded))
      exact absurd listed unlisted

theorem getElem?_ownersBelow {checkpoint : Checkpoint} {parallelism : UInt32} {queue : Queue}
    {worker : Worker} :
    (checkpoint.ownersBelow parallelism)[queue]? = some worker ↔
      checkpoint.ownerMap[queue]? = some worker ∧ worker < parallelism := by
  rw [ownersBelow, ExtTreeMap.getElem?_filter', Option.filter_eq_some_iff, decide_eq_true_eq]

end Checkpoint

namespace Coordinator

variable {c : Coordinator} {journal : Journal}

theorem restore_some {job : Job} (some_worker : job.settings.parallelism ≠ 0)
    (checkpoint : Checkpoint) (metrics : Metrics) :
    ∃ fresh, restore job checkpoint metrics = .ok fresh := by
  simp only [restore, some_worker, if_false]
  exact ⟨_, rfl⟩

theorem addWorker_flushes (c : Coordinator) (worker : Worker) :
    ∃ batch, (c.desk.register worker true).Flushes (ExtTreeSet.ofList [worker])
        (c.addWorker worker true).coordinator.desk batch ∧
      c.addWorkerEvents worker true = batch.events ∧ (c.addWorker worker true).result = .ok () := by
  have here : (c.desk.register worker true).dispatcher.registry.isRegistered worker = true := by
    have same := Registry.isRegistered_register c.desk.dispatcher.registry worker worker true
    rwa [if_pos rfl] at same
  have served : ∀ other ∈ ExtTreeSet.ofList [worker],
      (c.desk.register worker true).dispatcher.registry.isRegistered other = true :=
    Registry.isRegistered_of_mem_single here
  obtain ⟨next, batch, flushed⟩ := Desk.flush_registered served
  simp only [addWorker, addWorkerEvents, here, if_true, flush, flushEvents, flushed]
  exact ⟨batch, Desk.flush_ok flushed, rfl, trivial⟩

theorem registered_addWorker (c : Coordinator) (worker : Worker) :
    (c.addWorker worker true).coordinator.desk.dispatcher.registry.isRegistered worker = true := by
  obtain ⟨batch, flushes, _⟩ := c.addWorker_flushes worker
  rw [flushes.isRegistered]
  exact flushes.registered worker (Table.mem_ofList.mpr List.mem_cons_self)

theorem addWorkerEvents_of_idle (idle : c.desk.reconciler.pending = ∅) (worker : Worker) :
    c.addWorkerEvents worker true = [] := by
  obtain ⟨batch, flushes, told, _⟩ := c.addWorker_flushes worker
  have none : ∀ other, (c.desk.register worker true).reconciler.pendingFor other = [] := by
    intro other
    rw [Reconciler.pendingFor_eq_nil_iff]
    simp [Desk.register, Desk.setRegistered, idle]
  rw [told, flushes.drained]
  simp [Desk.batchFor, none, Batch.events]

theorem Finishes.revoked_iff {change : SplitChange} {target : Assignment} {delta : Delta}
    {placed next : Desk} {batch : Batch}
    (finishes : c.Finishes change target delta placed batch next)
    (accounted : c.desk.Accounted journal) (fits : change.Fits) {worker : Worker}
    (registered : c.desk.dispatcher.registry.isRegistered worker = true) {queue : Queue} :
    (delta.adoptions ++ batch.events).Revoked ⟨worker, queue⟩ ↔
      queue ∈ journal.heldBy worker ∧ queue ∉ next.reconciler.current.queuesOf worker := by
  have merges := Reconciler.merges_of_apply accounted.balanced fits finishes.applied
  have after := accounted.merge fits finishes.applied finishes.settled
  have served : worker ∈ placed.dispatcher.registry.workers := by
    rw [Registry.mem_workers, finishes.settled]
    exact registered
  simp only [Journal.occurs_append, Batch.revoked_events]
  rw [finishes.flushes.mem_revoked after, finishes.flushes.reconciler, Reconciler.current_drain]
  rw [Delta.mem_heldBy_adoptions, merges.adopted]
  simp only [Delta.not_revoked_adoptions, served, true_and, false_or]
  -- What the merge lets it adopt, it is to have.
  constructor
  · intro both
    obtain ⟨held | adopted, unwanted⟩ := both
    · exact ⟨held, unwanted⟩
    · exact absurd adopted.1 unwanted
  · intro both
    exact ⟨Or.inl both.1, both.2⟩

/-- Where targets are accepted a cycle goes through, and a worker that can be reached is told to
    give up just what it holds and should not have any more. -/
theorem Sound.revoked_cycle_iff (sound : c.Sound journal)
    (accepted : c.job.strategy.Accepted c.job.settings.parallelism) {broker : Broker} {scan : Scan}
    (scanned : Scan.run broker c.job.topics = .ok scan) {worker : Worker}
    (registered : c.desk.dispatcher.registry.isRegistered worker = true) (queue : Queue) :
    (c.cycle broker).result = .ok () ∧
      ((c.cycleEvents broker).Revoked ⟨worker, queue⟩ ↔ queue ∈ journal.heldBy worker ∧
        queue ∉ (c.cycle broker).coordinator.desk.reconciler.current.queuesOf worker) := by
  cases cycle_cycles scanned with
  | same unchanged flushes done told =>
    refine ⟨done, ?_⟩
    rw [told, Batch.revoked_events, flushes.mem_revoked sound.accounted, flushes.reconciler,
      Reconciler.current_drain]
    exact and_iff_right (Registry.mem_workers.mpr registered)
  | differs found ends =>
    obtain ⟨target, delta, placed, batch, finishes, done, told⟩ := ends.finishes accepted
    refine ⟨done, ?_⟩
    rw [told]
    exact finishes.revoked_iff sound.accounted
      (SplitChange.fits_ofOffsets sound.accounted.balanced.known (apart_of_changeTo found) _ _)
      registered

end Coordinator

theorem Reached.mem_heldBy_restored {site : Site} {journal : Journal}
    (reached : Reached site journal) {metrics : Metrics} {fresh : Coordinator}
    (restored : Coordinator.restore site.coordinator.job site.coordinator.snapshot metrics =
      .ok fresh) {worker : Worker} {queue : Queue} :
    queue ∈ fresh.restoredEvents.heldBy worker ↔
      (journal.Newest ⟨worker, queue⟩ ∧ journal.Unrevoked ⟨worker, queue⟩) ∧
        worker < site.coordinator.job.settings.parallelism := by
  have reconciler := (Coordinator.restore_ok restored).1
  rw [Coordinator.mem_heldBy_restoredEvents, reconciler, ← reached.sound.accounted.owned]
  exact OwnerMap.mem_queuesOf_byWorker.trans (Checkpoint.getElem?_ownersBelow.trans
    (and_congr_left fun _ => Checkpoint.getElem?_ownerMap_ofOwners))

/-- A worker waits for a revoke when the coordinator restarts. It is sent one in the next cycle that
    it is there for, just if nobody was given the queue after it, it is a worker of the job, and the
    new target does not give it the queue again. -/
theorem revoked_after_restart_iff {site : Site} {journal : Journal} (reached : Reached site journal)
    {worker : Worker} {queue : Queue} {split : Split}
    (waits : site.coordinator.desk.reconciler.pending[(⟨worker, queue⟩ : Placement)]? = some split)
    (revoke : split.tag = .revoke)
    (some_worker : site.coordinator.job.settings.parallelism ≠ 0)
    (accepted : site.coordinator.job.strategy.Accepted site.coordinator.job.settings.parallelism)
    {broker : Broker} {scan : Scan}
    (scanned : Scan.run broker site.coordinator.job.topics = .ok scan) (metrics : Metrics) :
    ∃ fresh, Coordinator.restore site.coordinator.job site.coordinator.snapshot metrics =
        .ok fresh ∧
      let joined := (fresh.addWorker worker true).coordinator
      let after := (joined.cycle broker).coordinator.desk.reconciler
      (fresh.addWorker worker true).result = .ok () ∧ (joined.cycle broker).result = .ok () ∧
        (((Site.direct fresh).journal [.join worker true, .cycle broker]).Revoked ⟨worker, queue⟩ ↔
          journal.Newest ⟨worker, queue⟩ ∧ worker < site.coordinator.job.settings.parallelism ∧
            queue ∉ after.current.queuesOf worker) := by
  obtain ⟨fresh, restored⟩ := Coordinator.restore_some some_worker site.coordinator.snapshot metrics
  refine ⟨fresh, restored, ?_⟩
  intro joined after
  have job : fresh.job = site.coordinator.job := Coordinator.job_of_restore restored
  -- Nothing waits after a restart, so the worker joins in silence and the cycle decides.
  have silent : fresh.addWorkerEvents worker true = [] := by
    apply Coordinator.addWorkerEvents_of_idle
    rw [(Coordinator.restore_ok restored).1]
    rfl
  have sound := (Coordinator.sound_restore restored).addWorker worker true
  have same : joined.job = site.coordinator.job := (fresh.goes_addWorker worker true).job.trans job
  rw [silent, List.append_nil] at sound
  rw [← same] at scanned accepted
  obtain ⟨done, told⟩ :=
    sound.revoked_cycle_iff accepted scanned (fresh.registered_addWorker worker) queue
  obtain ⟨_, _, _, added⟩ := fresh.addWorker_flushes worker
  refine ⟨added, done, ?_⟩
  have events : (Site.direct fresh).journal [.join worker true, .cycle broker] =
      joined.cycleEvents broker := by
    simp only [Site.journal, Site.events, Site.after, silent, List.nil_append, List.append_nil]
    rfl
  rw [events, told, reached.mem_heldBy_restored restored]
  have unrevoked : journal.Unrevoked ⟨worker, queue⟩ := by
    have net := reached.sound.accounted.balanced.net ⟨worker, queue⟩
    rw [waits, Option.map_some, revoke, eq_comm, Reconciler.due_eq_revoke_iff] at net
    exact (Journal.inForce_iff.mp (Journal.mem_heldBy.mp net.1)).1
  simp only [unrevoked, and_true, and_assoc]
  rfl

theorem absent_worker_told_after_restart :
    let acts := [Act.join 0 true, .join 1 true, .cycle (Sample.broker [0, 1]), .leave 1,
      .cycle (Sample.broker [0])]
    ∃ fresh, Coordinator.restore Sample.job (Sample.site acts).coordinator.snapshot {} =
        .ok fresh ∧
      (((Site.direct fresh).journal [.join 1 true, .cycle (Sample.broker [0])]).Revoked
          ⟨1, Sample.queue 1⟩ ∨
        Sample.queue 1 ∈ ((fresh.addWorker 1 true).coordinator.cycle
          (Sample.broker [0])).coordinator.desk.reconciler.current.queuesOf 1) := by
  intro acts
  have some_worker := Sample.parallelism_site acts
  have covering : (Sample.site acts).coordinator.job.strategy.Covering := by
    rw [Sample.strategy_site]
    exact Strategy.BuiltIn.average.covering
  have waits : (Sample.site acts).coordinator.desk.reconciler.pending[
      (⟨1, Sample.queue 1⟩ : Placement)]? = some (.revoke (Sample.queue 1) 0 none) := by
    decide +kernel
  obtain ⟨fresh, restored, _, _, told⟩ := revoked_after_restart_iff (Sample.reached acts) waits rfl
    some_worker (covering.accepted some_worker) (Sample.run_scan acts [0]) {}
  rw [Sample.job_site] at restored told
  refine ⟨fresh, restored, ?_⟩
  by_cases again : Sample.queue 1 ∈ ((fresh.addWorker 1 true).coordinator.cycle
      (Sample.broker [0])).coordinator.desk.reconciler.current.queuesOf 1
  · exact Or.inr again
  · have owned : (Sample.site acts).coordinator.desk.dispatcher.owned[Sample.queue 1]? =
        some 1 := by decide +kernel
    have newest := (Sample.reached acts).sound.accounted.owned.mp owned
    exact Or.inl (told.mpr ⟨newest.1, by decide, again⟩)

/-- While a worker is away its queue goes to the other worker. The worker comes back after a
    restart, and is not told that it lost the queue. -/
theorem overtaken_worker_not_told_after_restart :
    let acts := [Act.join 0 true, .join 1 true, .cycle (Sample.broker [0, 1]), .leave 1,
      .cycle (Sample.broker [1])]
    let c := (Sample.site acts).coordinator
    let again := [Act.join 1 true, .cycle (Sample.broker [1])]
    let restarted := Sample.resumed c.snapshot again
    Sample.queue 1 ∈ (Sample.journal acts).heldBy 1 ∧
      c.desk.reconciler.pending[(⟨1, Sample.queue 1⟩ : Placement)]? =
        some (.revoke (Sample.queue 1) 0 none) ∧
      (∀ event ∈ (Site.direct (Sample.reopened c.snapshot)).journal again,
        event.revokes ≠ some ⟨1, Sample.queue 1⟩) ∧
      Sample.queue 1 ∉ restarted.coordinator.desk.reconciler.current.queuesOf 1 := by
  decide +kernel

end QueueAssignment
