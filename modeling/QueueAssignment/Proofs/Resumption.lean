import QueueAssignment.Proofs.Restored
import QueueAssignment.Proofs.Settled

/-!
The first cycle after a restart. Workers that join before it are told nothing, and the cycle itself
says how the target differs from what the checkpoint records. Of a queue whose owner is not recorded
nobody is told anything.
-/
namespace QueueAssignment
open Std

namespace Desk

variable {desk next : Desk} {workers : WorkerSet} {batch : Batch}

/-- A split of this tag for this queue went out to the worker, or waits for it. -/
def Tells (desk : Desk) (worker : Worker) (queue : Queue) (tag : Tag) : Prop :=
  ∃ split, split.tag = tag ∧
    (Event.told worker split ∈ desk.dispatcher.registry.told ∧ split.queue = queue ∨
      desk.reconciler.pending[(⟨worker, queue⟩ : Placement)]? = some split)

theorem Flushes.tells_iff (flushes : desk.Flushes workers next batch)
    (keyed : desk.reconciler.pending.Keyed) {worker : Worker} {queue : Queue} {tag : Tag} :
    next.Tells worker queue tag ↔ desk.Tells worker queue tag := by
  refine exists_congr fun split => and_congr_right fun _ => ?_
  rw [flushes.told, List.mem_append, flushes.drained, told_mem_batchFor keyed, flushes.reconciler,
    Reconciler.getElem?_pending_drain]
  have sends : desk.reconciler.pending[(⟨worker, split.queue⟩ : Placement)]? = some split ∧
      split.queue = queue ↔
        desk.reconciler.pending[(⟨worker, queue⟩ : Placement)]? = some split := by
    constructor
    · intro both
      obtain ⟨waiting, rfl⟩ := both
      exact waiting
    · intro waiting
      have same : split.queue = queue := keyed waiting
      exact ⟨same ▸ waiting, same⟩
  by_cases served : worker ∈ workers
  · simp only [served, true_and, if_true, reduceCtorEq, or_false, or_and_right, sends]
  · simp [served]

theorem Flushes.same_record (flushes : desk.Flushes workers next batch)
    (keyed : desk.reconciler.pending.Keyed) {queue : Queue}
    (nothing : ∀ worker, desk.reconciler.pending[(⟨worker, queue⟩ : Placement)]? = none) :
    next.dispatcher.owned[queue]? = desk.dispatcher.owned[queue]? ∧
      (queue ∈ next.dispatcher.held ↔ queue ∈ desk.dispatcher.held) := by
  have untagged : ∀ worker tag, ⟨worker, queue⟩ ∉ batch.tagged tag := by
    intro worker tag tagged
    rw [flushes.drained, mem_tagged_batchFor keyed, nothing] at tagged
    cases tagged.2
  constructor
  · apply Option.ext
    intro worker
    rw [flushes.owned, Ownership.getElem?_after fun v _ first => absurd first (untagged v _)]
    simp [untagged]
  · rw [flushes.mem_held]
    exact and_iff_left fun worker given => untagged worker _ (Batch.given_events.mp given)

end Desk

namespace Checkpoint

/-- The queue is recorded for this worker, which the job has. -/
def Owns (checkpoint : Checkpoint) (parallelism : UInt32) (worker : Worker) (queue : Queue) :
    Prop :=
  checkpoint.Records worker queue ∧ worker < parallelism

theorem mem_queuesOf_ownersBelow {checkpoint : Checkpoint} {parallelism : UInt32} {worker : Worker}
    {queue : Queue} :
    queue ∈ (checkpoint.ownersBelow parallelism).byWorker.queuesOf worker ↔
      checkpoint.Owns parallelism worker queue := by
  rw [OwnerMap.mem_queuesOf_byWorker, getElem?_ownersBelow, getElem?_ownerMap, Owns]

structure Resumes (checkpoint : Checkpoint) (parallelism : UInt32) (latest : QueueSet)
    (target : Assignment) (next : Desk) : Prop where
  assigns : ∀ worker queue, next.Tells worker queue .assign ↔ queue ∈ target.queuesOf worker ∧
    ¬ checkpoint.Owns parallelism worker queue ∧ queue ∉ checkpoint.ownerless
  revokes : ∀ worker queue, next.Tells worker queue .revoke ↔
    checkpoint.Owns parallelism worker queue ∧ queue ∉ target.queuesOf worker
  left : ∀ worker queue, checkpoint.Owns parallelism worker queue →
    queue ∈ target.queuesOf worker → ∀ other tag, ¬ next.Tells other queue tag
  unsaid : ∀ queue ∈ checkpoint.ownerless, ∀ worker tag, ¬ next.Tells worker queue tag
  adopted : ∀ queue ∈ checkpoint.ownerless, ∀ worker, queue ∈ target.queuesOf worker →
    queue ∈ next.reconciler.current.queuesOf worker ∧
      next.dispatcher.owned[queue]? = some worker ∧
      queue ∉ next.reconciler.held ∧ queue ∉ next.dispatcher.held
  dropped : ∀ queue ∈ checkpoint.ownerless, queue ∉ latest →
    queue ∉ next.dispatcher.ownedQueues ∧ queue ∉ next.reconciler.held
  stays : ∀ queue ∈ checkpoint.ownerless, queue ∈ latest →
    (∀ worker, queue ∉ target.queuesOf worker) →
      queue ∈ next.reconciler.held ∧ queue ∈ next.dispatcher.held

end Checkpoint

namespace Coordinator

variable {c next : Coordinator}

structure SameBooks (c next : Coordinator) : Prop where
  job : next.job = c.job
  reconciler : next.desk.reconciler = c.desk.reconciler
  owned : next.desk.dispatcher.owned = c.desk.dispatcher.owned
  held : next.desk.dispatcher.held = c.desk.dispatcher.held
  told : next.desk.dispatcher.registry.told = c.desk.dispatcher.registry.told

theorem SameBooks.trans {middle : Coordinator} (first : c.SameBooks middle)
    (second : middle.SameBooks next) : c.SameBooks next where
  job := second.job.trans first.job
  reconciler := second.reconciler.trans first.reconciler
  owned := second.owned.trans first.owned
  held := second.held.trans first.held
  told := second.told.trans first.told

theorem sameBooks_addWorker (idle : c.desk.reconciler.pending = ∅) (worker : Worker)
    (isOpen : Bool) : c.SameBooks (c.addWorker worker isOpen).coordinator := by
  simp only [addWorker]
  split
  · unfold flush
    cases flushed : (c.desk.register worker isOpen).flush (ExtTreeSet.ofList [worker]) with
    | error e => exact ⟨rfl, rfl, rfl, rfl, rfl⟩
    | ok pair =>
      have nothing : (c.desk.register worker isOpen).reconciler.Idle
          (ExtTreeSet.ofList [worker]) := by
        intro other _ queue
        have same : (c.desk.register worker isOpen).reconciler = c.desk.reconciler := rfl
        simp [same, idle]
      obtain ⟨reconciler, owned, held, told⟩ := (Desk.flush_ok flushed).idle nothing
      exact ⟨rfl, reconciler, owned, held, told⟩
  · exact ⟨rfl, rfl, rfl, rfl, rfl⟩

def joins (workers : List (Worker × Bool)) : List Act :=
  workers.map fun entry => .join entry.1 entry.2

theorem sameBooks_joins (idle : c.desk.reconciler.pending = ∅) (workers : List (Worker × Bool)) :
    c.SameBooks ((Site.direct c).run (joins workers)).coordinator := by
  induction workers generalizing c with
  | nil => exact ⟨rfl, rfl, rfl, rfl, rfl⟩
  | cons entry rest ih =>
    have first := sameBooks_addWorker idle entry.1 entry.2
    exact first.trans (ih (first.reconciler ▸ idle))

variable {latest : QueueSet} {lookUp : QueueSet → Lookup} {journal : Journal} {delta : Delta}
  {target : Assignment} {placed : Coordinator}

namespace Places

theorem tells_iff {change : SplitChange} (places : c.Places change target delta placed)
    (accounted : c.desk.Accounted journal) (fits : change.Fits)
    (idle : c.desk.reconciler.pending = ∅) (untold : c.desk.dispatcher.registry.told = [])
    {worker : Worker} {queue : Queue} {tag : Tag} :
    placed.completeCycle.coordinator.desk.Tells worker queue tag ↔
      delta.splits[(⟨worker, queue⟩ : Placement)]?.map Split.tag = some tag := by
  obtain ⟨batch, flushes, _⟩ := placed.completeCycle_flushes
  have after := accounted.merge fits places.applied places.settled
  have silent : placed.desk.dispatcher.registry.told = [] := by
    rw [places.settled]
    exact untold
  have nothing : c.desk.reconciler.pending[(⟨worker, queue⟩ : Placement)]? = none := by
    rw [idle, ExtTreeMap.getElem?_empty]
  rw [flushes.tells_iff after.balanced.pending, Desk.Tells, silent,
    places.pending_eq accounted fits nothing, Option.map_eq_some_iff]
  simp [and_comm]

theorem mem_latest (places : c.Places (c.changeOver latest lookUp) target delta placed)
    {worker : Worker} {queue : Queue} (has : queue ∈ target.queuesOf worker) : queue ∈ latest := by
  obtain ⟨owners, accepted⟩ := places.accepted
  obtain ⟨lookup, covered⟩ := Assignment.targetOwners_ok accepted
  have owned := (lookup queue worker).mpr has
  have there := covered queue (ExtTreeMap.mem_iff_isSome_getElem?.mpr (by simp [owned]))
  have asked : queue ∈ c.asked latest lookUp := queues_changeOver ▸ Table.mem_keys.mpr there
  exact (Table.mem_filter.mp asked).1

theorem held_settles (places : c.Places (c.changeOver latest lookUp) target delta placed)
    (accounted : c.desk.Accounted journal)
    (alike : c.desk.reconciler.held = c.desk.dispatcher.held) {queue : Queue}
    (held : queue ∈ c.desk.reconciler.held) (unowned : c.desk.dispatcher.owned[queue]? = none)
    (nothing : ∀ worker, placed.desk.reconciler.pending[(⟨worker, queue⟩ : Placement)]? = none) :
    let next := placed.completeCycle.coordinator.desk
    (∀ worker, next.dispatcher.owned[queue]? = some worker ↔ queue ∈ target.queuesOf worker) ∧
      (queue ∈ next.reconciler.held ↔ queue ∈ latest ∧ ∀ worker, queue ∉ target.queuesOf worker) ∧
      (queue ∈ next.dispatcher.held ↔
        queue ∈ latest ∧ ∀ worker, queue ∉ target.queuesOf worker) := by
  intro next
  have fits : (c.changeOver latest lookUp).Fits := fits_changeOver accounted.balanced.known
  have merges := places.merges accounted fits
  have after := accounted.merge fits places.applied places.settled
  obtain ⟨batch, flushes, _⟩ := placed.completeCycle_flushes
  obtain ⟨owned, kept⟩ := flushes.same_record after.balanced.pending nothing
  have adopted : ∀ worker, delta.adopted[queue]? = some worker ↔
      queue ∈ target.queuesOf worker := by
    intro worker
    rw [merges.adopted, places.mem_queuesOf]
    exact and_iff_left held
  have unadopted : queue ∉ delta.adopted ↔ ∀ worker, queue ∉ target.queuesOf worker := by
    rw [ExtTreeMap.mem_iff_isSome_getElem?, Option.isSome_iff_exists, not_exists]
    simp only [adopted]
  have unforgotten : queue ∉ delta.forgotten ↔ queue ∈ latest := by
    have counts : queue ∈ c.desk.dispatcher.ownedQueues :=
      Dispatcher.mem_ownedQueues.mpr (Or.inr (alike ▸ held))
    rw [places.mem_forgotten accounted, mem_decreased_changeOver]
    simp [held, counts]
  refine ⟨?_, ?_, ?_⟩
  · intro worker
    rw [owned, places.settled, Desk.getElem?_owned_settle fun _ _ => alike ▸ held, adopted,
      unowned]
    simp
  · rw [flushes.reconciler]
    change queue ∈ placed.desk.reconciler.held ↔ _
    rw [merges.held, unadopted, unforgotten]
    simp [held, and_comm]
  · rw [kept, places.settled, Desk.mem_held_settle, unadopted, unforgotten, ← alike]
    simp [held, and_comm]

end Places

structure Opened (c : Coordinator) (checkpoint : Checkpoint) (parallelism : UInt32) : Prop where
  idle : c.desk.reconciler.pending = ∅
  untold : c.desk.dispatcher.registry.told = []
  current : ∀ worker queue, queue ∈ c.desk.reconciler.current.queuesOf worker ↔
    checkpoint.Owns parallelism worker queue
  owned : c.desk.dispatcher.owned = checkpoint.ownersBelow parallelism
  held : c.desk.reconciler.held = checkpoint.ownerless
  alike : c.desk.dispatcher.held = checkpoint.ownerless

theorem opened_joins {job : Job} {checkpoint : Checkpoint} {metrics : Metrics} {fresh : Coordinator}
    (restored : restore job checkpoint metrics = .ok fresh) (workers : List (Worker × Bool))
    (meter : Metrics → Metrics) :
    let joined := ((Site.direct fresh).run (joins workers)).coordinator.count meter
    joined.job = job ∧ joined.Opened checkpoint job.settings.parallelism := by
  intro joined
  obtain ⟨reconciler, dispatcher⟩ := restore_ok restored
  have idle : fresh.desk.reconciler.pending = ∅ := by
    rw [reconciler]
    rfl
  have books := sameBooks_joins idle workers
  have same : joined.desk.reconciler = fresh.desk.reconciler := books.reconciler
  refine ⟨books.job.trans (job_of_restore restored), ?_⟩
  refine
    { idle := same ▸ idle
      untold := books.told.trans ?_
      current := ?_
      owned := books.owned.trans ?_
      held := ?_
      alike := books.held.trans ?_ }
  · rw [dispatcher]
    rfl
  · intro worker queue
    rw [same, reconciler]
    exact Checkpoint.mem_queuesOf_ownersBelow
  · rw [dispatcher]
    rfl
  · rw [same, reconciler]
    rfl
  · rw [dispatcher]
    rfl

section First

variable {checkpoint : Checkpoint} {parallelism : UInt32} {worker : Worker} {queue : Queue}

theorem Opened.tells_assign_iff (opened : c.Opened checkpoint parallelism)
    (accounted : c.desk.Accounted journal)
    (places : c.Places (c.changeOver latest lookUp) target delta placed) :
    placed.completeCycle.coordinator.desk.Tells worker queue .assign ↔
      queue ∈ target.queuesOf worker ∧ ¬ checkpoint.Owns parallelism worker queue ∧
        queue ∉ checkpoint.ownerless := by
  have fits : (c.changeOver latest lookUp).Fits := fits_changeOver accounted.balanced.known
  rw [places.tells_iff accounted fits opened.idle opened.untold,
    (places.merges accounted fits).tag_eq_assign_iff, places.mem_queuesOf, opened.current,
    opened.held]

theorem Opened.tells_revoke_iff (opened : c.Opened checkpoint parallelism)
    (accounted : c.desk.Accounted journal)
    (places : c.Places (c.changeOver latest lookUp) target delta placed) :
    placed.completeCycle.coordinator.desk.Tells worker queue .revoke ↔
      checkpoint.Owns parallelism worker queue ∧ queue ∉ target.queuesOf worker := by
  have fits : (c.changeOver latest lookUp).Fits := fits_changeOver accounted.balanced.known
  rw [places.tells_iff accounted fits opened.idle opened.untold,
    (places.merges accounted fits).tag_eq_revoke_iff, places.mem_queuesOf, opened.current]

theorem Opened.not_tells_of_left (opened : c.Opened checkpoint parallelism)
    (accounted : c.desk.Accounted journal)
    (places : c.Places (c.changeOver latest lookUp) target delta placed)
    (owns : checkpoint.Owns parallelism worker queue) (has : queue ∈ target.queuesOf worker)
    (other : Worker) (tag : Tag) :
    ¬ placed.completeCycle.coordinator.desk.Tells other queue tag := by
  have merges := places.merges accounted (fits_changeOver accounted.balanced.known)
  intro told
  cases tag with
  | assign =>
    obtain ⟨again, unowned, _⟩ := (opened.tells_assign_iff accounted places).mp told
    have same : worker = other :=
      merges.exclusive (places.mem_queuesOf.mpr has) (places.mem_queuesOf.mpr again)
    exact unowned (same ▸ owns)
  | revoke =>
    obtain ⟨before, lost⟩ := (opened.tells_revoke_iff accounted places).mp told
    have same : worker = other := accounted.balanced.exclusive
      ((opened.current _ _).mpr owns) ((opened.current _ _).mpr before)
    exact lost (same ▸ has)

theorem Opened.not_tells_of_ownerless (opened : c.Opened checkpoint parallelism)
    (accounted : c.desk.Accounted journal)
    (places : c.Places (c.changeOver latest lookUp) target delta placed)
    (ownerless : queue ∈ checkpoint.ownerless) (worker : Worker) (tag : Tag) :
    ¬ placed.completeCycle.coordinator.desk.Tells worker queue tag := by
  intro told
  cases tag with
  | assign => exact ((opened.tells_assign_iff accounted places).mp told).2.2 ownerless
  | revoke =>
    have had := (opened.current worker queue).mpr
      ((opened.tells_revoke_iff accounted places).mp told).1
    exact accounted.balanced.free had (opened.held ▸ ownerless)

theorem Opened.ownerless_settles (opened : c.Opened checkpoint parallelism)
    (accounted : c.desk.Accounted journal)
    (places : c.Places (c.changeOver latest lookUp) target delta placed)
    (ownerless : queue ∈ checkpoint.ownerless) :
    let next := placed.completeCycle.coordinator.desk
    (∀ worker, next.dispatcher.owned[queue]? = some worker ↔ queue ∈ target.queuesOf worker) ∧
      (queue ∈ next.reconciler.held ↔ queue ∈ latest ∧ ∀ worker, queue ∉ target.queuesOf worker) ∧
      (queue ∈ next.dispatcher.held ↔
        queue ∈ latest ∧ ∀ worker, queue ∉ target.queuesOf worker) := by
  have fits : (c.changeOver latest lookUp).Fits := fits_changeOver accounted.balanced.known
  have alike := opened.held.trans opened.alike.symm
  apply places.held_settles accounted alike (opened.held ▸ ownerless)
  · rw [opened.owned, Option.eq_none_iff_forall_ne_some]
    exact fun worker recorded => not_ownerless recorded ownerless
  · intro worker
    have idle : c.desk.reconciler.pending[(⟨worker, queue⟩ : Placement)]? = none := by
      rw [opened.idle, ExtTreeMap.getElem?_empty]
    rw [places.pending_eq accounted fits idle, ← Option.map_eq_none_iff,
      Option.eq_none_iff_forall_ne_some]
    intro tag tagged
    exact opened.not_tells_of_ownerless accounted places ownerless worker tag
      ((places.tells_iff accounted fits opened.idle opened.untold).mpr tagged)

theorem Opened.resumes (opened : c.Opened checkpoint parallelism)
    (accounted : c.desk.Accounted journal)
    (places : c.Places (c.changeOver latest lookUp) target delta placed) :
    checkpoint.Resumes parallelism latest target placed.completeCycle.coordinator.desk := by
  refine
    { assigns := fun _ _ => opened.tells_assign_iff accounted places
      revokes := fun _ _ => opened.tells_revoke_iff accounted places
      left := fun _ _ => opened.not_tells_of_left accounted places
      unsaid := fun _ => opened.not_tells_of_ownerless accounted places
      adopted := ?adopted
      dropped := ?dropped
      stays := ?stays }
  case adopted =>
    intro queue held worker has
    obtain ⟨owned, reconciler, dispatcher⟩ := opened.ownerless_settles accounted places held
    refine ⟨?_, (owned worker).mpr has, fun still => ?_, fun still => ?_⟩
    · obtain ⟨batch, flushes, _⟩ := placed.completeCycle_flushes
      rw [flushes.reconciler, Reconciler.current_drain, places.mem_queuesOf]
      exact has
    · exact (reconciler.mp still).2 worker has
    · exact (dispatcher.mp still).2 worker has
  case dropped =>
    intro queue held gone
    obtain ⟨owned, reconciler, dispatcher⟩ := opened.ownerless_settles accounted places held
    refine ⟨fun counts => ?_, fun still => gone (reconciler.mp still).1⟩
    rcases Dispatcher.mem_ownedQueues.mp counts with ⟨worker, recorded⟩ | still
    · exact gone (places.mem_latest ((owned worker).mp recorded))
    · exact gone (dispatcher.mp still).1
  case stays =>
    intro queue held found unplaced
    obtain ⟨_, reconciler, dispatcher⟩ := opened.ownerless_settles accounted places held
    exact ⟨reconciler.mpr ⟨found, unplaced⟩, dispatcher.mpr ⟨found, unplaced⟩⟩

end First

end Coordinator

/-- After a restart any workers join, and a cycle over `latest` goes through. If the scan differs
    from what counts as owned, the target decides: a worker is given just what it gets and is not
    recorded for, and told to give up just what it is recorded for and does not get. Queues whose
    owner is not recorded go over to the target without a word, stay held, or are dropped with the
    topology. If the scan does not differ nobody is told anything and the held queues stay. -/
theorem first_cycle_after_restart {job : Job} (some_worker : job.settings.parallelism ≠ 0)
    (checkpoint : Checkpoint) (metrics : Metrics) (workers : List (Worker × Bool))
    (meter : Metrics → Metrics) (latest : QueueSet) (lookUp : QueueSet → Lookup) :
    ∃ fresh, Coordinator.restore job checkpoint metrics = .ok fresh ∧
      let joined := ((Site.direct fresh).run (Coordinator.joins workers)).coordinator.count meter
      let next := (joined.cycleOver latest lookUp).coordinator.desk
      (joined.cycleOver latest lookUp).result = .ok () →
        (joined.changeTo latest = none → (∀ worker queue tag, ¬ next.Tells worker queue tag) ∧
          next.reconciler.held = checkpoint.ownerless ∧
          next.dispatcher.held = checkpoint.ownerless) ∧
        (joined.changeTo latest ≠ none → ∃ target,
          job.strategy joined.calls (joined.asked latest lookUp) job.settings.parallelism =
              .ok target ∧
            checkpoint.Resumes job.settings.parallelism latest target next) := by
  obtain ⟨fresh, restored⟩ := Coordinator.restore_some some_worker checkpoint metrics
  refine ⟨fresh, restored, ?_⟩
  intro joined next done
  have sound : joined.Sound _ :=
    ((Reached.restore restored).run (Coordinator.joins workers)).sound.count meter
  obtain ⟨same, opened⟩ := Coordinator.opened_joins restored workers meter
  constructor
  · intro unchanged
    have cycled : next = joined.completeCycle.coordinator.desk := by
      simp only [next, Coordinator.cycleOver_unchanged unchanged]
    obtain ⟨reconciler, _, held, told⟩ := Coordinator.completeCycle_idle sound.caughtUp
    rw [cycled, reconciler, held]
    refine ⟨?_, opened.held, opened.alike⟩
    intro worker queue tag tells
    obtain ⟨split, _, ⟨sent, _⟩ | waits⟩ := tells
    · rw [told, opened.untold] at sent
      cases sent
    · rw [reconciler, opened.idle, ExtTreeMap.getElem?_empty] at waits
      cases waits
  · intro changed
    obtain ⟨target, delta, placed, places, finished⟩ := Coordinator.cycleOver_ok done changed
    have cycled : next = placed.completeCycle.coordinator.desk := by
      simp only [next, finished]
    have answered := places.answered
    rw [Coordinator.queues_changeOver, same] at answered
    rw [cycled]
    exact ⟨target, answered, opened.resumes sound.accounted places⟩

namespace Sample

/-- The first queue is recorded for the second worker, the second queue for nobody. -/
def halfRecorded : Checkpoint :=
  .ofOwners (Table.ofEntries [(queue 0, (1 : Worker))]) (ExtTreeSet.ofList [queue 1])

end Sample

/-- The first worker joins, and a third queue is found. The second queue is its own from now on, and
    it is not told. -/
theorem unrecorded_queue_adopted :
    ∃ fresh, Coordinator.restore Sample.job Sample.halfRecorded {} = .ok fresh ∧
      let joined := ((Site.direct fresh).run (Coordinator.joins [(0, true)])).coordinator.count id
      let next := (joined.cycleOver (Sample.scan [0, 1, 2]).queues
        (Sample.job.lookUp (Sample.broker [0, 1, 2]))).coordinator.desk
      next.dispatcher.owned[Sample.queue 1]? = some 0 ∧
        ∀ worker tag, ¬ next.Tells worker (Sample.queue 1) tag := by
  obtain ⟨fresh, restored, law⟩ := first_cycle_after_restart
    (by decide : Sample.job.settings.parallelism ≠ 0) Sample.halfRecorded {} [(0, true)] id
    (Sample.scan [0, 1, 2]).queues (Sample.job.lookUp (Sample.broker [0, 1, 2]))
  obtain rfl := Except.ok.inj (restored.symm.trans (Sample.restore_reopened Sample.halfRecorded))
  have differs : (((Site.direct (Sample.reopened Sample.halfRecorded)).run
      (Coordinator.joins [(0, true)])).coordinator.count id).changeTo
        (Sample.scan [0, 1, 2]).queues ≠ none := by
    rw [Ne, Coordinator.changeTo_eq_none_iff]
    decide +kernel
  obtain ⟨target, _, resumes⟩ := (law (by decide +kernel)).2 differs
  exact ⟨_, restored, by decide +kernel, resumes.unsaid (Sample.queue 1) (by decide +kernel)⟩

end QueueAssignment
