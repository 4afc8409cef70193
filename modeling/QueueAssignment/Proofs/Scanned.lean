import QueueAssignment.Proofs.Held
import QueueAssignment.Proofs.Targets

/-!
Whether a cycle places what its scan found. It does whenever it asks the strategy. It does not ask
where the scan finds exactly what counts as owned, and a queue that its worker handed back counts
as owned without being placed or held.
-/
namespace QueueAssignment
open Std

def Job.startOf (job : Job) (broker : Broker) (queue : Queue) : Option Offset :=
  match job.starting with
  | .down _ => none
  | .policy policy =>
      match policy.offset job.settings.group broker queue with
      | .ok found => found
      | .error _ => none

theorem Job.getElem?_starting {job : Job} {broker : Broker} {queues : QueueSet} {queue : Queue}
    (wanted : queue ∈ queues) :
    (job.lookUp broker queues).starting.offsets[queue]? = job.startOf broker queue := by
  have some_queue : queues.isEmpty = false := by
    rw [← Bool.not_eq_true, ExtTreeSet.isEmpty_iff]
    rintro rfl
    simp at wanted
  simp only [lookUp, lookUpStarting, OffsetResolver.resolveOrNothing, some_queue, startOf]
  cases job.starting with
  | down reason => simp [OffsetResolver.resolve]
  | policy policy =>
    simp only [OffsetResolver.resolve, OffsetPolicy.resolve, Bool.false_eq_true, if_false]
    exact (Table.getElem?_tabulate _ _ _).trans (if_pos wanted)

namespace SplitChange

theorem mem_queues_ofOffsets {change : QueueChange} {known : SplitMap}
    {starting stopping : OffsetMap}
    (resolved : ∀ queue ∈ change.latest, starting[queue]?.isSome) {queue : Queue} :
    queue ∈ (ofOffsets change known starting stopping).queues ↔ queue ∈ change.latest := by
  rw [queues, Table.mem_keys, ExtTreeMap.mem_iff_isSome_getElem?, getElem?_latest]
  by_cases there : queue ∈ change.latest
  · obtain ⟨start, found⟩ := Option.isSome_iff_exists.mp (resolved queue there)
    simp [there, latestSplit, resolvedSplit, found]
  · simp [there]

end SplitChange

theorem Dispatcher.mem_ownedQueues {d : Dispatcher} {queue : Queue} :
    queue ∈ d.ownedQueues ↔ (∃ worker, d.owned[queue]? = some worker) ∨ queue ∈ d.held := by
  rw [ownedQueues, ExtTreeSet.mem_union_iff, Table.mem_keys, ExtTreeMap.mem_iff_isSome_getElem?,
    Option.isSome_iff_exists]

namespace Coordinator

variable {c : Coordinator} {latest : QueueSet}

theorem between_of_changeTo {change : QueueChange} (found : c.changeTo latest = some change) :
    change = .between latest c.desk.dispatcher.ownedQueues := by
  simp only [changeTo] at found
  split at found
  · cases found
  · exact (Option.some.inj found).symm

theorem changeTo_eq_none_iff :
    c.changeTo latest = none ↔ latest = c.desk.dispatcher.ownedQueues := by
  have unchanged : c.changeTo latest = none ↔
      (QueueChange.between latest c.desk.dispatcher.ownedQueues).isEmpty = true := by
    simp only [changeTo]
    split <;> simp [*]
  rw [unchanged]
  simp only [QueueChange.isEmpty, QueueChange.between, Bool.and_eq_true, ExtTreeSet.isEmpty_iff]
  constructor
  · intro both
    obtain ⟨came, went⟩ := both
    apply ExtTreeSet.ext_mem
    intro queue
    constructor
    · intro there
      by_contra unowned
      have new := ExtTreeSet.mem_diff_iff.mpr ⟨there, unowned⟩
      simp [came] at new
    · intro owned
      by_contra missing
      have gone := ExtTreeSet.mem_diff_iff.mpr ⟨owned, missing⟩
      simp [went] at gone
  · rintro rfl
    exact ⟨ExtTreeSet.ext_mem (by simp), ExtTreeSet.ext_mem (by simp)⟩

end Coordinator

namespace Desk

variable {job : Job} {desk next : Desk} {journal : Journal}

/-- A strategy that covers its queues places them, and so gives them, to workers of the job only. -/
def Within (job : Job) (desk : Desk) (journal : Journal) : Prop :=
  job.strategy.Covering → job.settings.parallelism ≠ 0 →
    (∀ {worker queue}, queue ∈ desk.reconciler.current.queuesOf worker →
      worker < job.settings.parallelism) ∧
    ∀ {placement}, journal.Given placement → placement.worker < job.settings.parallelism

theorem covers_of_merge {change : SplitChange} {target : Assignment} {r : Reconciler}
    {delta : Delta} (covering : job.strategy.Covering) (some_worker : job.settings.parallelism ≠ 0)
    (answers : job.Answers change target)
    (applied : desk.reconciler.apply change target = .ok (r, delta)) :
    r.current.Covers change.queues job.settings.parallelism := by
  obtain ⟨call, answered⟩ := answers
  obtain ⟨_, same, covers⟩ := covering call change.queues some_worker
  obtain rfl := Except.ok.inj (answered.symm.trans same)
  obtain ⟨owners, _, _, rfl⟩ := Reconciler.apply_ok applied
  simp only [Reconciler.merged]
  refine { exclusive := ?_, placed := ?_, below := ?_ }
  · intro v w queue first second
    rw [Assignment.mem_queuesOf_withoutIdle] at first second
    exact covers.exclusive first second
  · intro queue
    simp only [Assignment.mem_queuesOf_withoutIdle]
    exact covers.placed queue
  · intro worker queue placed
    rw [Assignment.mem_queuesOf_withoutIdle] at placed
    exact covers.below placed

theorem steady_within : Steady Within := by
  intro job desk next journal events accounted within step covering some_worker
  obtain ⟨placed, gave⟩ := within covering some_worker
  cases step with
  | aside reconciler owned held told =>
    rw [reconciler, List.append_nil]
    exact ⟨placed, gave⟩
  | flush flushes =>
    rw [flushes.reconciler, Reconciler.current_drain]
    refine ⟨placed, fun given => ?_⟩
    rcases Journal.occurs_append.mp given with before | now
    · exact gave before
    · have sent := Batch.given_events.mp now
      exact placed ((flushes.mem_assigned accounted _).mp sent).2.1
  | merge fits answers applied settled =>
    have covers := covers_of_merge covering some_worker answers applied
    have merges := Reconciler.merges_of_apply accounted.balanced fits applied
    refine ⟨covers.below, fun given => ?_⟩
    rcases Journal.occurs_append.mp given with before | adopted
    · exact gave before
    · exact covers.below (merges.adopted.mp (Delta.given_adoptions.mp adopted)).1
  | release worker splits =>
    refine ⟨fun has => placed (Assignment.mem_queuesOf_release.mp has).1, fun given => ?_⟩
    rcases Journal.occurs_append.mp given with before | lost
    · exact gave before
    · exact absurd lost Journal.not_given_losses

end Desk

theorem Checkpoint.lt_of_ownersBelow {checkpoint : Checkpoint} {parallelism : UInt32}
    {queue : Queue} {worker : Worker}
    (owned : (checkpoint.ownersBelow parallelism)[queue]? = some worker) :
    worker < parallelism := by
  rw [ownersBelow, ExtTreeMap.getElem?_filter', Option.filter_eq_some_iff] at owned
  simpa using owned.2

theorem Coordinator.job_of_restore {job : Job} {checkpoint : Checkpoint} {metrics : Metrics}
    {c : Coordinator} (restored : restore job checkpoint metrics = .ok c) : c.job = job := by
  simp only [restore] at restored
  split at restored
  · cases restored
  · rw [← Except.ok.inj restored]

theorem Reached.within {site : Site} {journal : Journal} (reached : Reached site journal) :
    site.coordinator.desk.Within site.coordinator.job journal := by
  refine reached.steady (P := Desk.Within) Desk.steady_within ?_ ?_
  · intro job _ _
    simp [Coordinator.start, Assignment.mem_queuesOf]
  · intro job checkpoint metrics c opened _ _
    obtain ⟨reconciler, _⟩ := Coordinator.restore_ok opened
    have placed : ∀ {worker queue}, queue ∈ c.desk.reconciler.current.queuesOf worker →
        worker < c.job.settings.parallelism := by
      intro worker queue has
      rw [reconciler] at has
      rw [Coordinator.job_of_restore opened]
      exact Checkpoint.lt_of_ownersBelow (OwnerMap.mem_queuesOf_byWorker.mp has)
    exact ⟨placed, fun given => placed ((Coordinator.given_restoredEvents c _).mp given)⟩

namespace Coordinator

theorem Ends.finishes {c : Coordinator} {change : SplitChange} {outcome : Outcome}
    {events : Journal} (ends : c.Ends change outcome events)
    (accepted : c.job.strategy.Accepted c.job.settings.parallelism) :
    ∃ target delta placed batch,
      c.Finishes change target delta placed batch outcome.coordinator.desk ∧
        outcome.result = .ok () ∧ events = delta.adoptions ++ batch.events := by
  cases ends with
  | merged finishes done told => exact ⟨_, _, _, _, finishes, done, told⟩
  | refused no _ _ _ _ =>
    obtain ⟨target, owners, answered, passed⟩ := accepted c.calls change
    exact absurd passed (no target owners answered)

theorem Ends.placed {c : Coordinator} {change : SplitChange} {outcome : Outcome} {events : Journal}
    (ends : c.Ends change outcome events) (covering : c.job.strategy.Covering)
    (some_worker : c.job.settings.parallelism ≠ 0) :
    outcome.result = .ok () ∧ ∀ queue ∈ change.queues,
      ∃ worker, queue ∈ outcome.coordinator.desk.reconciler.current.queuesOf worker := by
  obtain ⟨target, delta, placed, batch, finishes, done, _⟩ :=
    ends.finishes (covering.accepted some_worker)
  have covers := Desk.covers_of_merge covering some_worker ⟨_, finishes.answered⟩ finishes.applied
  refine ⟨done, fun queue there => ?_⟩
  rw [finishes.flushes.reconciler, Reconciler.current_drain]
  exact (covers.placed queue).mp there

theorem mem_queues_of_changeTo {c : Coordinator} {latest : QueueSet} {change : QueueChange}
    (found : c.changeTo latest = some change) {broker : Broker} {known : SplitMap}
    {stopping : OffsetMap}
    (resolvable : ∀ queue ∈ latest, (c.job.startOf broker queue).isSome) {queue : Queue}
    (there : queue ∈ latest) :
    queue ∈ (SplitChange.ofOffsets change known
      (c.job.lookUp broker change.wanted).starting.offsets stopping).queues := by
  have between := between_of_changeTo found
  have same : change.latest = latest := by rw [between]; rfl
  refine (SplitChange.mem_queues_ofOffsets ?_).mpr (same ▸ there)
  intro other present
  have wanted : other ∈ change.wanted := ExtTreeSet.mem_union_iff.mpr (Or.inl present)
  rw [Job.getElem?_starting wanted]
  exact resolvable other (same ▸ present)

end Coordinator

/-- With all workers of the job in place, everyone holds what it should: they are served, and nobody
    else is given anything. -/
theorem Reached.mem_heldBy_iff {site : Site} {journal : Journal} (reached : Reached site journal)
    (covering : site.coordinator.job.strategy.Covering)
    (some_worker : site.coordinator.job.settings.parallelism ≠ 0)
    (registered : ∀ worker < site.coordinator.job.settings.parallelism,
      site.coordinator.desk.dispatcher.registry.isRegistered worker = true)
    (worker : Worker) (queue : Queue) :
    queue ∈ journal.heldBy worker ↔
      queue ∈ site.coordinator.desk.reconciler.current.queuesOf worker := by
  obtain ⟨below, gave⟩ := reached.within covering some_worker
  have served : worker < site.coordinator.job.settings.parallelism →
      (queue ∈ site.coordinator.desk.reconciler.current.queuesOf worker ↔
        queue ∈ journal.heldBy worker) := by
    intro ours
    have net := reached.sound.accounted.balanced.net ⟨worker, queue⟩
    rw [reached.sound.caughtUp (registered worker ours) queue, Option.map_none, eq_comm,
      Reconciler.due_eq_none_iff] at net
    exact net
  constructor
  · exact fun has => (served (gave (Journal.given_of_mem_heldBy has))).mpr has
  · exact fun should => (served (below should)).mp should

/-- A queue that counts as owned though nobody holds it was handed back. -/
theorem Reached.returned_of_owned {site : Site} {journal : Journal} (reached : Reached site journal)
    {queue : Queue} (owned : queue ∈ site.coordinator.desk.dispatcher.ownedQueues)
    (unheld : queue ∉ site.coordinator.desk.reconciler.held)
    (unread : ∀ worker, queue ∉ journal.heldBy worker) :
    ∃ worker, journal.Returned ⟨worker, queue⟩ := by
  rcases Dispatcher.mem_ownedQueues.mp owned with ⟨worker, recorded⟩ | unknown
  · have unrevoked := (reached.sound.accounted.owned.mp recorded).2
    rcases Journal.mem_heldBy_or_returned unrevoked with has | back
    · exact absurd has (unread worker)
    · exact ⟨worker, back⟩
  · by_contra never
    exact unheld ((reached.heldUnreturned queue).mpr
      ⟨unknown, fun worker back => never ⟨worker, back⟩⟩)

/-- With a built-in strategy and all workers of the job in place, a cycle leaves out a queue that it
    found and could read just where it took what counts as owned for the whole topology although
    nobody holds the queue: its last worker has handed it back. -/
theorem scanned_queue_unplaced_iff {site : Site} {journal : Journal}
    (reached : Reached site journal) {builtIn : Strategy.BuiltIn}
    (chosen : site.coordinator.job.strategy = builtIn.strategy)
    (some_worker : site.coordinator.job.settings.parallelism ≠ 0)
    (registered : ∀ worker < site.coordinator.job.settings.parallelism,
      site.coordinator.desk.dispatcher.registry.isRegistered worker = true)
    {broker : Broker} {scan : Scan}
    (scanned : Scan.run broker site.coordinator.job.topics = .ok scan)
    (resolvable : ∀ queue ∈ scan.queues, (site.coordinator.job.startOf broker queue).isSome) :
    let c := site.coordinator
    let after := (c.cycle broker).coordinator.desk.reconciler
    (c.cycle broker).result = .ok () ∧ ∀ queue ∈ scan.queues,
      ((∀ worker, queue ∉ after.current.queuesOf worker) ∧ queue ∉ after.held ↔
        c.changeTo scan.queues = none ∧ (∀ worker, queue ∉ journal.heldBy worker) ∧
          ∃ worker, journal.Returned ⟨worker, queue⟩) := by
  intro c after
  have covering : c.job.strategy.Covering := chosen ▸ builtIn.covering
  cases Coordinator.cycle_cycles scanned with
  | differs found ends =>
    -- The strategy is asked and covers all that was found.
    obtain ⟨done, placed⟩ := ends.placed covering some_worker
    refine ⟨done, fun queue there => ?_⟩
    obtain ⟨worker, has⟩ := placed queue (Coordinator.mem_queues_of_changeTo found resolvable there)
    constructor
    · exact fun unplaced => absurd has (unplaced.1 worker)
    · intro unread
      rw [found] at unread
      cases unread.1
  | same unchanged flushes done told =>
    -- Nobody is asked, so the queue is where it was, and it counted as owned.
    refine ⟨done, fun queue there => ?_⟩
    have still : after = c.desk.reconciler.drain c.desk.dispatcher.registry.workers :=
      flushes.reconciler
    have held : after.held = c.desk.reconciler.held := by rw [still]; rfl
    have current : after.current = c.desk.reconciler.current := by rw [still]; rfl
    have owned : queue ∈ c.desk.dispatcher.ownedQueues :=
      Coordinator.changeTo_eq_none_iff.mp unchanged ▸ there
    have served := fun worker =>
      reached.mem_heldBy_iff covering some_worker registered worker queue
    rw [held, current]
    constructor
    · intro unplaced
      have unread : ∀ worker, queue ∉ journal.heldBy worker :=
        fun worker has => unplaced.1 worker ((served worker).mp has)
      exact ⟨unchanged, unread, reached.returned_of_owned owned unplaced.2 unread⟩
    · intro unread
      obtain ⟨_, unread, worker, back⟩ := unread
      refine ⟨fun worker has => unread worker ((served worker).mpr has), fun held => ?_⟩
      exact ((reached.heldUnreturned queue).mp held).2 worker back

namespace Sample

def scan (indices : List UInt32) : Scan :=
  match Scan.run (broker indices) job.topics with
  | .ok scan => scan
  | .error _ => {}

theorem startOf_isSome :
    ∀ queue ∈ (scan [0, 1]).queues, (job.startOf (broker [0, 1]) queue).isSome := by
  have listed : ∀ queue ∈ (scan [0, 1]).queues.toList,
      (job.startOf (broker [0, 1]) queue).isSome := by decide +kernel
  exact fun queue there => listed queue (ExtTreeSet.mem_toList.mpr there)

theorem forall_worker {P : Worker → Prop} (first : P 0) (second : P 1) :
    ∀ worker < job.settings.parallelism, P worker := by
  intro worker below
  have number : worker.toNat < 2 := UInt32.lt_iff_toNat_lt.mp below
  have either : worker = 0 ∨ worker = 1 := by
    rw [← UInt32.toNat_inj, ← UInt32.toNat_inj]
    change worker.toNat = 0 ∨ worker.toNat = 1
    omega
  rcases either with rfl | rfl
  · exact first
  · exact second

variable (acts : List Act)

theorem job_site : (site acts).coordinator.job = job := ((Reached.start job).goes_run acts).job

theorem strategy_site :
    (site acts).coordinator.job.strategy = Strategy.BuiltIn.average.strategy := by
  rw [job_site]
  rfl

theorem parallelism_site : (site acts).coordinator.job.settings.parallelism ≠ 0 := by
  rw [job_site]
  decide

theorem run_scan (indices : List UInt32) :
    Scan.run (broker indices) (site acts).coordinator.job.topics = .ok (scan indices) := by
  rw [job_site]
  rfl

end Sample

theorem both_queues_placed :
    let acts := [Act.join 0 true, .join 1 true]
    ¬ ((∀ worker, Sample.queue 1 ∉ ((Sample.site acts).coordinator.cycle
        (Sample.broker [0, 1])).coordinator.desk.reconciler.current.queuesOf worker) ∧
      Sample.queue 1 ∉ ((Sample.site acts).coordinator.cycle
        (Sample.broker [0, 1])).coordinator.desk.reconciler.held) := by
  intro acts left_out
  have registered : ∀ worker < (Sample.site acts).coordinator.job.settings.parallelism,
      (Sample.site acts).coordinator.desk.dispatcher.registry.isRegistered worker = true := by
    rw [Sample.job_site]
    exact Sample.forall_worker (by decide +kernel) (by decide +kernel)
  have resolvable : ∀ queue ∈ (Sample.scan [0, 1]).queues,
      ((Sample.site acts).coordinator.job.startOf (Sample.broker [0, 1]) queue).isSome := by
    rw [Sample.job_site]
    exact Sample.startOf_isSome
  obtain ⟨_, unplaced⟩ := scanned_queue_unplaced_iff (Sample.reached acts)
    (Sample.strategy_site acts) (Sample.parallelism_site acts) registered
    (Sample.run_scan acts [0, 1]) resolvable
  have unread := (unplaced (Sample.queue 1) (by decide +kernel)).mp left_out
  exact absurd unread.1 (by decide +kernel)

/-- A worker that is away hands its queue back, the queue leaves the topology and comes back with
    the worker. The scan then finds what counts as owned, and nobody reads the queue. -/
theorem reappearing_queue_unplaced :
    let acts := [Act.join 0 true, .join 1 true, .cycle (Sample.broker [0, 1]), .leave 1,
      .takeBack 1 [.assign (Sample.queue 1) 5 none], .cycle (Sample.broker [0]), .join 1 true]
    let c := (Sample.site acts).coordinator
    let after := (c.cycle (Sample.broker [0, 1])).coordinator.desk.reconciler
    c.job = Sample.job ∧ (∀ worker < Sample.job.settings.parallelism,
        c.desk.dispatcher.registry.isRegistered worker = true) ∧
      Sample.queue 1 ∈ (Sample.scan [0, 1]).queues ∧
      (∀ queue ∈ (Sample.scan [0, 1]).queues,
        (Sample.job.startOf (Sample.broker [0, 1]) queue).isSome) ∧
      (∀ worker, Sample.queue 1 ∉ after.current.queuesOf worker) ∧
      Sample.queue 1 ∉ after.held := by
  intro acts c after
  refine ⟨Sample.job_site acts, Sample.forall_worker (by decide +kernel) (by decide +kernel),
    by decide +kernel, Sample.startOf_isSome, ?_, by decide +kernel⟩
  exact Assignment.firstOwner_eq_none_iff.mp (by decide +kernel)

end QueueAssignment
