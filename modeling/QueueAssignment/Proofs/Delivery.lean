import QueueAssignment.Proofs.Sound

/-!
Who holds what after any run: what is pending is the net difference to what each worker holds,
and the workers that can be reached hold exactly what they should.
-/
namespace QueueAssignment
open Std

namespace Coordinator

theorem sound_start (job : Job) : (start job).Sound [] where
  accounted :=
    { balanced := by
        have none : ∀ worker queue, queue ∉ Assignment.queuesOf ∅ worker := by
          simp [Assignment.mem_queuesOf]
        apply Reconciler.balanced_restore
        · exact fun has => absurd has (none _ _)
        · exact fun has => absurd has (none _ _)
        · simp [SplitMap.Keyed]
        · simp [none, Journal.heldBy]
      owned := by simp [start, Journal.Newest, Journal.not_since_nil]
      held := by simp [start]
      told := rfl }
  caughtUp := by simp [Desk.CaughtUp, start]

theorem given_restoredEvents (c : Coordinator) (placement : Placement) :
    c.restoredEvents.Given placement ↔
      placement.queue ∈ c.desk.reconciler.current.queuesOf placement.worker := by
  rw [restoredEvents, Journal.Given, Journal.occurs_map, ← Assignment.mem_placements_iff]
  constructor
  · intro given
    obtain ⟨placed, listed, gives⟩ := given
    cases gives
    exact listed
  · intro listed
    exact ⟨_, listed, rfl⟩

theorem not_revoked_restoredEvents (c : Coordinator) (placement : Placement) :
    ¬ c.restoredEvents.Revoked placement :=
  Journal.not_occurs_map fun _ => rfl

theorem mem_heldBy_restoredEvents (c : Coordinator) (worker : Worker) (queue : Queue) :
    queue ∈ c.restoredEvents.heldBy worker ↔
      queue ∈ c.desk.reconciler.current.queuesOf worker := by
  have unreturned : ¬ c.restoredEvents.Returned ⟨worker, queue⟩ :=
    Journal.not_occurs_map fun _ => rfl
  rw [Journal.mem_heldBy_iff_given (not_revoked_restoredEvents c _) unreturned]
  exact given_restoredEvents c _

theorem keyed_unresolvedSplits (queues : QueueSet) : (unresolvedSplits queues).Keyed := by
  intro queue split found
  rw [unresolvedSplits, Table.getElem?_tabulate] at found
  split at found
  · cases found
    rfl
  · cases found

theorem restore_ok {job : Job} {checkpoint : Checkpoint} {metrics : Metrics} {c : Coordinator}
    (restored : restore job checkpoint metrics = .ok c) :
    let owned := checkpoint.ownersBelow job.settings.parallelism
    let held := checkpoint.ownerless
    c.desk.reconciler =
        .restore owned.byWorker held (unresolvedSplits (Table.keys owned ∪ held)) ∧
      c.desk.dispatcher = .restore owned held job.settings.signals := by
  simp only [restore] at restored
  split at restored
  · cases restored
  · rw [← Except.ok.inj restored]
    exact ⟨rfl, rfl⟩

theorem not_ownerless {checkpoint : Checkpoint} {parallelism : UInt32} {queue : Queue}
    {worker : Worker} (owned : (checkpoint.ownersBelow parallelism)[queue]? = some worker) :
    queue ∉ checkpoint.ownerless := by
  rw [Checkpoint.ownersBelow, ExtTreeMap.getElem?_filter', Option.filter_eq_some_iff] at owned
  intro unknown
  have unrecorded := (Table.mem_filter.mp unknown).2
  simp [ExtTreeMap.mem_iff_isSome_getElem?, owned.1] at unrecorded

theorem sound_restore {job : Job} {checkpoint : Checkpoint} {metrics : Metrics} {c : Coordinator}
    (restored : restore job checkpoint metrics = .ok c) : c.Sound c.restoredEvents := by
  have given := given_restoredEvents c
  have holds := mem_heldBy_restoredEvents c
  obtain ⟨reconciler, dispatcher⟩ := restore_ok restored
  have owned : ∀ {worker queue}, queue ∈ c.desk.reconciler.current.queuesOf worker ↔
      c.desk.dispatcher.owned[queue]? = some worker := by
    intro worker queue
    rw [reconciler, dispatcher]
    exact OwnerMap.mem_queuesOf_byWorker
  have exclusive : c.desk.reconciler.current.Exclusive :=
    Assignment.exclusive_of_lookup fun _ _ => owned.symm
  refine ⟨⟨?balanced, ?owners, ?held, ?told⟩, ?caughtUp⟩
  case balanced =>
    rw [reconciler] at holds ⊢
    apply Reconciler.balanced_restore (OwnerMap.exclusive_byWorker _) _ _ holds
    · intro worker queue has
      exact not_ownerless (OwnerMap.mem_queuesOf_byWorker.mp has)
    · exact keyed_unresolvedSplits _
  case owners =>
    intro queue worker
    rw [← owned, Journal.newest_iff_given, Journal.Unrevoked,
      Journal.lasts_iff_given (not_revoked_restoredEvents c _), given]
    · exact and_self_iff.symm
    · intro other first second
      exact exclusive ((given _).mp second) ((given _).mp first)
  case held =>
    rw [reconciler, dispatcher]
    exact fun _ member => member
  case told =>
    rw [dispatcher, restoredEvents, Journal.filter_map_untold fun _ => rfl]
    rfl
  case caughtUp =>
    intro worker _ queue
    rw [reconciler]
    exact ExtTreeMap.getElem?_empty

end Coordinator

theorem Reached.sound {site : Site} {journal : Journal} (reached : Reached site journal) :
    site.coordinator.Sound journal :=
  reached.kept kept_sound Coordinator.sound_start Coordinator.sound_restore

/-- What is pending for a worker about a queue is an assign when it should have the queue and has
    it not, a revoke when it has the queue and should not, and nothing otherwise. A merge cancels
    opposite splits and never meets two of the same tag. -/
theorem pending_is_difference {site : Site} {journal : Journal} (reached : Reached site journal) :
    let r := site.coordinator.desk.reconciler
    (∀ worker queue,
      let waiting := r.pending[(⟨worker, queue⟩ : Placement)]?
      let should := queue ∈ r.current.queuesOf worker
      let has := queue ∈ journal.heldBy worker
      ((∃ split, waiting = some split ∧ split.tag = .assign) ↔ should ∧ ¬ has) ∧
      ((∃ split, waiting = some split ∧ split.tag = .revoke) ↔ has ∧ ¬ should) ∧
      (waiting = none ↔ (should ↔ has)) ∧
      ∀ split, waiting = some split → split.queue = queue) ∧
    r.FoldsApart ∧ ∀ worker splits, (r.release worker splits).FoldsApart := by
  intro r
  have balanced := reached.sound.accounted.balanced
  refine ⟨?_, balanced.foldsApart, ?_⟩
  · intro worker queue waiting should has
    have net : waiting.map Split.tag = r.due (journal.heldBy worker) ⟨worker, queue⟩ :=
      balanced.net ⟨worker, queue⟩
    refine ⟨?assign, ?revoke, ?none, fun split found => balanced.pending found⟩
    case assign => rw [← Option.map_eq_some_iff, net, Reconciler.due_eq_assign_iff]
    case revoke => rw [← Option.map_eq_some_iff, net, Reconciler.due_eq_revoke_iff]
    case none => rw [← Option.map_eq_none_iff, net, Reconciler.due_eq_none_iff]
  · intro worker splits
    have released := reached.sound.accounted.release worker splits
    exact released.balanced.foldsApart

theorem pending_for_absent_worker :
    let acts := [Act.join 0 true, .cycle (Sample.broker [0, 1])]
    Sample.queue 1 ∈ (Sample.site acts).coordinator.desk.reconciler.current.queuesOf 1 ∧
      Sample.queue 1 ∉ (Sample.journal acts).heldBy 1 :=
  ((pending_is_difference (Sample.reached _)).1 1 (Sample.queue 1)).1.mp
    ⟨.assign (Sample.queue 1) 0 none, by decide +kernel, rfl⟩

/-- A worker that can be reached holds exactly what it should have, so no two of them share a queue.
    Of all workers at most one has a queue that it is not about to lose. What the journal says the
    workers were told is what went out to them. -/
theorem reachable_workers_hold_target {site : Site} {journal : Journal}
    (reached : Reached site journal) :
    let r := site.coordinator.desk.reconciler
    let registry := site.coordinator.desk.dispatcher.registry
    (∀ worker, registry.isRegistered worker = true →
      r.pendingFor worker = [] ∧ journal.heldBy worker = r.current.queuesOf worker) ∧
    (∀ v w, registry.isRegistered v = true → registry.isRegistered w = true → v ≠ w →
      ∀ queue ∈ journal.heldBy v, queue ∉ journal.heldBy w) ∧
    (∀ v w queue, queue ∈ journal.heldBy v → queue ∈ journal.heldBy w →
      r.pending[(⟨v, queue⟩ : Placement)]?.map Split.tag ≠ some .revoke →
      r.pending[(⟨w, queue⟩ : Placement)]?.map Split.tag ≠ some .revoke → v = w) ∧
    registry.told = journal.filter Event.isTold := by
  intro r registry
  obtain ⟨accounted, caughtUp⟩ := reached.sound
  have balanced := accounted.balanced
  have served : ∀ worker, registry.isRegistered worker = true →
      journal.heldBy worker = r.current.queuesOf worker := by
    intro worker registered
    apply ExtTreeSet.ext_mem
    intro queue
    have net := balanced.net ⟨worker, queue⟩
    rw [caughtUp registered queue, Option.map_none, eq_comm, Reconciler.due_eq_none_iff] at net
    exact net.symm
  have keeps : ∀ worker queue, queue ∈ journal.heldBy worker →
      r.pending[(⟨worker, queue⟩ : Placement)]?.map Split.tag ≠ some .revoke →
        queue ∈ r.current.queuesOf worker := by
    intro worker queue has unrevoked
    by_contra lost
    apply unrevoked
    rw [balanced.net, Reconciler.due_eq_revoke_iff]
    exact ⟨has, lost⟩
  refine ⟨?_, ?_, ?_, accounted.told⟩
  · intro worker registered
    exact ⟨Reconciler.pendingFor_eq_nil_iff.mpr (caughtUp registered), served worker registered⟩
  · intro v w first second different queue left right
    rw [served v first] at left
    rw [served w second] at right
    exact different (balanced.exclusive left right)
  · intro v w queue first second left right
    exact balanced.exclusive (keeps v queue first left) (keeps w queue second right)

theorem two_workers_hold_target :
    let acts := [Act.join 0 true, .join 1 true, .cycle (Sample.broker [0, 1])]
    (Sample.journal acts).heldBy 1 =
        (Sample.site acts).coordinator.desk.reconciler.current.queuesOf 1 ∧
      Sample.queue 0 ∉ (Sample.journal acts).heldBy 1 := by
  intro acts
  obtain ⟨served, apart, _⟩ := reachable_workers_hold_target (Sample.reached acts)
  exact ⟨(served 1 (by decide +kernel)).2,
    apart 0 1 (by decide +kernel) (by decide +kernel) (by decide) _ (by decide +kernel)⟩

end QueueAssignment
