import QueueAssignment.Proofs.Scanned

/-!
What a cycle leaves behind. Once it is over every worker that can be reached has been told all it is
due, and either the scan found just what counts as owned, or the target is what the strategy says of
the queues that were found.
-/
namespace QueueAssignment
open Std

namespace Dispatcher

variable {d : Dispatcher} {workers : WorkerSet} {worker : Worker}

theorem mem_signalled_signalOne {first : Worker} :
    worker ∈ (d.signalOne first).signalled ↔ worker = first ∨ worker ∈ d.signalled := by
  unfold signalOne
  split
  · rename_i already
    constructor
    · exact Or.inr
    · rintro (rfl | before)
      · exact already
      · exact before
  · simp only [ExtTreeSet.mem_insert, Std.compare_eq_iff_eq]
    rw [eq_comm]

theorem mem_signalled_signal :
    worker ∈ (d.signal workers).signalled ↔ worker ∈ workers ∨ worker ∈ d.signalled := by
  rw [signal, ← ExtTreeSet.mem_toList (t := workers)]
  induction workers.toList generalizing d with
  | nil => simp
  | cons first rest ih =>
    rw [List.foldl_cons, ih, mem_signalled_signalOne, List.mem_cons]
    constructor
    · rintro (later | rfl | before)
      · exact Or.inl (Or.inr later)
      · exact Or.inl (Or.inl rfl)
      · exact Or.inr before
    · rintro ((rfl | later) | before)
      · exact Or.inr (Or.inl rfl)
      · exact Or.inl later
      · exact Or.inr (Or.inr before)

theorem signal_of_signalled (already : ∀ worker ∈ workers, worker ∈ d.signalled) :
    d.signal workers = d := by
  have listed : ∀ worker ∈ workers.toList, worker ∈ d.signalled :=
    fun worker member => already worker (ExtTreeSet.mem_toList.mp member)
  unfold signal
  generalize workers.toList = list at listed
  induction list with
  | nil => rfl
  | cons first rest ih =>
    have same : d.signalOne first = d := if_pos (listed first List.mem_cons_self)
    rw [List.foldl_cons, same]
    exact ih fun worker member => listed worker (List.mem_cons_of_mem _ member)

theorem signal_flags (d : Dispatcher) (workers : WorkerSet) :
    (d.signal workers).complete = d.complete ∧ (d.signal workers).signals = d.signals := by
  unfold signal
  induction workers.toList generalizing d with
  | nil => exact ⟨rfl, rfl⟩
  | cons first rest ih =>
    have one : (d.signalOne first).complete = d.complete ∧
        (d.signalOne first).signals = d.signals := by
      unfold signalOne
      split <;> exact ⟨rfl, rfl⟩
    rw [List.foldl_cons, ← one.1, ← one.2]
    exact ih (d.signalOne first)

end Dispatcher

namespace SplitChange

theorem mem_queues_ofOffsets_iff {change : QueueChange} {known : SplitMap}
    {starting stopping : OffsetMap} {queue : Queue} :
    queue ∈ (ofOffsets change known starting stopping).queues ↔ queue ∈ change.latest ∧
      (starting[queue]?.isSome = true ∨ queue ∉ change.increased ∧ queue ∈ known) := by
  rw [queues, Table.mem_keys, ExtTreeMap.mem_iff_isSome_getElem?, getElem?_latest]
  by_cases there : queue ∈ change.latest
  · rw [if_pos there, latestSplit, resolvedSplit, ExtTreeMap.mem_iff_isSome_getElem?]
    cases starting[queue]? with
    | some start => simp [there]
    | none =>
      by_cases new : queue ∈ change.increased
      · simp [new]
      · simp [there, new]
  · simp [there]

theorem mem_decreased_ofOffsets {change : QueueChange} {known : SplitMap}
    {starting stopping : OffsetMap} {queue : Queue} :
    queue ∈ (ofOffsets change known starting stopping).decreased ↔ queue ∈ change.decreased := by
  rw [ExtTreeMap.mem_iff_isSome_getElem?, getElem?_decreased]
  split
  · simp [*]
  · simp [*]

end SplitChange

theorem Registry.workers_congr {r s : Registry} (same : s.connections = r.connections) :
    s.workers = r.workers := by
  rw [workers, same, workers]

theorem Desk.flush_eq {desk : Desk} {workers : WorkerSet}
    (registered : ∀ worker ∈ workers, desk.dispatcher.registry.isRegistered worker = true) :
    desk.flush workers = .ok
      (((desk.drain workers).deliver (desk.batchFor workers)).signalIfDue workers,
        desk.batchFor workers) := by
  have all : (workers.toList.find? fun worker =>
      !desk.dispatcher.registry.isRegistered worker) = none := by
    rw [List.find?_eq_none]
    intro worker member
    simpa using registered worker (ExtTreeSet.mem_toList.mp member)
  rw [flush, all]

def Reconciler.Idle (r : Reconciler) (workers : WorkerSet) : Prop :=
  ∀ worker ∈ workers, ∀ queue, r.pending[(⟨worker, queue⟩ : Placement)]? = none

theorem Reconciler.Idle.drain_eq {r : Reconciler} {workers : WorkerSet} (idle : r.Idle workers) :
    r.drain workers = r := by
  have pending : (r.drain workers).pending = r.pending := by
    apply ExtTreeMap.ext_getElem?
    intro placement
    rw [getElem?_pending_drain]
    split
    · rename_i served
      exact (idle placement.worker served placement.queue).symm
    · rfl
  calc r.drain workers
    _ = { r with pending := (r.drain workers).pending } := rfl
    _ = r := by rw [pending]

namespace Desk

variable {desk next : Desk} {workers : WorkerSet}

theorem CaughtUp.idle (caughtUp : desk.CaughtUp) :
    desk.reconciler.Idle desk.dispatcher.registry.workers :=
  fun _ member => caughtUp (Registry.mem_workers.mp member)

theorem batchFor_of_idle (idle : desk.reconciler.Idle workers) : desk.batchFor workers = [] := by
  rw [batchFor, List.filter_eq_nil_iff]
  intro part listed
  obtain ⟨worker, member, rfl⟩ := List.mem_map.mp listed
  have nothing := idle worker (ExtTreeSet.mem_toList.mp member)
  simp [Reconciler.pendingFor_eq_nil_iff.mpr nothing]

theorem Flushes.idle {batch : Batch} (flushes : desk.Flushes workers next batch)
    (idle : desk.reconciler.Idle workers) :
    next.reconciler = desk.reconciler ∧ next.dispatcher.owned = desk.dispatcher.owned ∧
      next.dispatcher.held = desk.dispatcher.held ∧
      next.dispatcher.registry.told = desk.dispatcher.registry.told := by
  have nothing : batch = [] := flushes.drained.trans (batchFor_of_idle idle)
  have same := Dispatcher.deliver_nil desk.dispatcher
  refine ⟨?_, ?_, ?_, ?_⟩
  · rw [flushes.reconciler, idle.drain_eq]
  · rw [flushes.owned, nothing]
    exact congrArg Dispatcher.owned same
  · rw [flushes.held, nothing]
    exact congrArg Dispatcher.held same
  · rw [flushes.told, nothing]
    exact List.append_nil _

end Desk

theorem Desk.signalIfDue_flags (desk : Desk) (workers : WorkerSet) :
    (desk.signalIfDue workers).dispatcher.complete = desk.dispatcher.complete ∧
      (desk.signalIfDue workers).dispatcher.signals = desk.dispatcher.signals := by
  unfold signalIfDue
  split
  · exact Dispatcher.signal_flags desk.dispatcher workers
  · exact ⟨rfl, rfl⟩

namespace Coordinator

variable {c : Coordinator}

structure Announced (c : Coordinator) : Prop where
  complete : c.job.settings.isOneShot = true → c.desk.dispatcher.complete = true
  signalled : c.desk.dispatcher.shouldSignal = true →
    ∀ worker ∈ c.desk.dispatcher.registry.workers, worker ∈ c.desk.dispatcher.signalled

theorem flush_workers (c : Coordinator) :
    let workers := c.desk.dispatcher.registry.workers
    let served := (c.desk.drain workers).deliver (c.desk.batchFor workers)
    c.flush workers = ⟨{ c with desk := served.signalIfDue workers }, .ok ()⟩ := by
  intro workers served
  rw [flush, Desk.flush_eq fun worker member => Registry.mem_workers.mp member]

theorem Announced.count (announced : c.Announced) (change : Metrics → Metrics) :
    (c.count change).Announced :=
  ⟨announced.complete, announced.signalled⟩

theorem announced_flush (c : Coordinator)
    (complete : c.job.settings.isOneShot = true → c.desk.dispatcher.complete = true) :
    (c.flush c.desk.dispatcher.registry.workers).coordinator.Announced := by
  rw [flush_workers]
  generalize delivery : (c.desk.drain _).deliver _ = desk
  have delivered : desk.dispatcher = c.desk.dispatcher.deliver
      (c.desk.batchFor c.desk.dispatcher.registry.workers) := by
    rw [← delivery, Desk.dispatcher_deliver, Desk.dispatcher_drain]
  obtain ⟨done, signals⟩ := desk.signalIfDue_flags c.desk.dispatcher.registry.workers
  obtain ⟨_, _, connections, _⟩ := desk.signalIfDue_same c.desk.dispatcher.registry.workers
  have same : (desk.signalIfDue c.desk.dispatcher.registry.workers).dispatcher.registry.workers =
      c.desk.dispatcher.registry.workers := by
    apply Registry.workers_congr
    rw [connections, delivered]
    exact Registry.connections_sendAll ..
  constructor
  · intro oneShot
    exact done.trans ((congrArg Dispatcher.complete delivered).trans (complete oneShot))
  · intro due worker member
    have due : desk.dispatcher.shouldSignal = true := by
      simpa only [Dispatcher.shouldSignal, done, signals] using due
    rw [Desk.signalIfDue, if_pos due]
    exact Dispatcher.mem_signalled_signal.mpr (Or.inl (same ▸ member))

theorem announced_completeCycle (c : Coordinator) : c.completeCycle.coordinator.Announced := by
  unfold completeCycle
  split
  · exact announced_flush _ fun _ => rfl
  · rename_i periodic
    exact announced_flush c fun oneShot => absurd oneShot periodic

theorem Announced.completeCycle (announced : c.Announced) :
    let workers := c.desk.dispatcher.registry.workers
    let desk := c.completeCycle.coordinator.desk
    c.completeCycle.result = .ok () ∧ desk.reconciler = c.desk.reconciler.drain workers ∧
      desk.dispatcher = c.desk.dispatcher.deliver (c.desk.batchFor workers) := by
  intro workers desk
  have still :
      (if c.job.settings.isOneShot then { c with desk := c.desk.complete } else c) = c := by
    split
    · rename_i oneShot
      simp only [Desk.complete, ← announced.complete oneShot]
    · rfl
  have flushed : c.completeCycle = c.flush workers := by
    rw [Coordinator.completeCycle, still]
  have delivered : ((c.desk.drain workers).deliver (c.desk.batchFor workers)).dispatcher =
      c.desk.dispatcher.deliver (c.desk.batchFor workers) := by
    rw [Desk.dispatcher_deliver, Desk.dispatcher_drain]
  simp only [desk, flushed, flush_workers, workers]
  refine ⟨trivial, ?_, ?_⟩
  · rw [Desk.reconciler_signalIfDue, Desk.reconciler_deliver, Desk.reconciler_drain]
  · rw [Desk.signalIfDue]
    split
    · rename_i due
      rw [delivered] at due
      rw [Desk.signal, delivered]
      exact Dispatcher.signal_of_signalled (announced.signalled due)
    · exact delivered

def wanted (c : Coordinator) (latest : QueueSet) : QueueSet :=
  latest ∪ c.desk.dispatcher.ownedQueues

/-- What a cycle merges after a scan that found `latest` and differs from what counts as owned. -/
def changeOver (c : Coordinator) (latest : QueueSet) (lookUp : QueueSet → Lookup) : SplitChange :=
  let lookup := lookUp (c.wanted latest)
  .ofOffsets (.between latest c.desk.dispatcher.ownedQueues) c.desk.reconciler.known
    lookup.starting.offsets lookup.stopping.offsets

/-- The queues that the strategy is asked for: those whose start is known now, and those that count
    as owned and keep the range they had. -/
def asked (c : Coordinator) (latest : QueueSet) (lookUp : QueueSet → Lookup) : QueueSet :=
  latest.filter fun queue => (lookUp (c.wanted latest)).starting.offsets[queue]?.isSome ||
    queue ∈ c.desk.dispatcher.ownedQueues && queue ∈ c.desk.reconciler.known

def Resolves (c : Coordinator) (latest : QueueSet) (lookUp : QueueSet → Lookup) : Prop :=
  ∀ queue ∈ latest, (lookUp (c.wanted latest)).starting.offsets[queue]?.isSome = true

variable {latest : QueueSet} {lookUp : QueueSet → Lookup}

theorem wanted_between :
    (QueueChange.between latest c.desk.dispatcher.ownedQueues).wanted = c.wanted latest := by
  apply ExtTreeSet.ext_mem
  intro queue
  simp only [QueueChange.wanted, QueueChange.between, wanted, ExtTreeSet.mem_union_iff,
    ExtTreeSet.mem_diff_iff]
  by_cases found : queue ∈ latest
  · simp [found]
  · simp [found]

theorem queues_changeOver : (c.changeOver latest lookUp).queues = c.asked latest lookUp := by
  apply ExtTreeSet.ext_mem
  intro queue
  rw [changeOver, SplitChange.mem_queues_ofOffsets_iff, asked, Table.mem_filter]
  simp only [QueueChange.between, ExtTreeSet.mem_diff_iff, Bool.or_eq_true, Bool.and_eq_true,
    decide_eq_true_eq]
  refine and_congr_right fun found => ?_
  simp [found]

theorem asked_of_resolves (resolves : c.Resolves latest lookUp) :
    c.asked latest lookUp = latest := by
  apply ExtTreeSet.ext_mem
  intro queue
  rw [asked, Table.mem_filter]
  refine and_iff_left_of_imp fun found => ?_
  rw [resolves queue found]
  rfl

theorem mem_decreased_changeOver {queue : Queue} : queue ∈ (c.changeOver latest lookUp).decreased ↔
    queue ∈ c.desk.dispatcher.ownedQueues ∧ queue ∉ latest := by
  rw [changeOver, SplitChange.mem_decreased_ofOffsets]
  exact ExtTreeSet.mem_diff_iff

theorem fits_changeOver (keyed : c.desk.reconciler.known.Keyed) :
    (c.changeOver latest lookUp).Fits := by
  apply SplitChange.fits_ofOffsets keyed
  intro queue gone there
  exact (ExtTreeSet.mem_diff_iff.mp gone).2 there

theorem cycleOver_unchanged (same : c.changeTo latest = none) :
    c.cycleOver latest lookUp = c.completeCycle := by
  simp only [cycleOver, same]

theorem changeOver_of_changeTo {change : QueueChange} (found : c.changeTo latest = some change) :
    c.changeOver latest lookUp = .ofOffsets change c.desk.reconciler.known
      (lookUp change.wanted).starting.offsets (lookUp change.wanted).stopping.offsets := by
  rw [changeOver, ← wanted_between, ← between_of_changeTo found]

theorem cycleOver_cases (changed : c.changeTo latest ≠ none) :
    (∃ target delta placed, c.Places (c.changeOver latest lookUp) target delta placed ∧
      c.cycleOver latest lookUp = placed.completeCycle) ∨
    ∃ failed e, c.Refuses (c.changeOver latest lookUp) failed ∧
      c.cycleOver latest lookUp = ⟨failed, .error e⟩ := by
  obtain ⟨change, found⟩ := Option.ne_none_iff_exists'.mp changed
  simp only [cycleOver, found, changeOver_of_changeTo found]
  rcases (c.count fun m => m.countMissing (lookUp change.wanted).failures).place_cases change
    c.desk.reconciler.known (lookUp change.wanted) with
    ⟨target, delta, placed, places, done, _⟩ | ⟨failed, e, refuses, done, _⟩
  · rw [done]
    exact Or.inl ⟨target, delta, placed,
      ⟨places.job, places.answered, places.applied, places.settled⟩, rfl⟩
  · rw [done]
    exact Or.inr ⟨failed, e,
      ⟨refuses.job, refuses.refused, refuses.reconciler, refuses.dispatcher⟩, rfl⟩

theorem cycleOver_ok (done : (c.cycleOver latest lookUp).result = .ok ())
    (changed : c.changeTo latest ≠ none) :
    ∃ target delta placed, c.Places (c.changeOver latest lookUp) target delta placed ∧
      c.cycleOver latest lookUp = placed.completeCycle := by
  rcases cycleOver_cases changed with placed | ⟨failed, e, _, refused⟩
  · exact placed
  · rw [refused] at done
    cases done

theorem cycleOver_accepted (changed : c.changeTo latest ≠ none) {target : Assignment}
    {owners : OwnerMap}
    (answered : c.job.strategy c.calls (c.changeOver latest lookUp).queues
      c.job.settings.parallelism = .ok target)
    (accepted : target.targetOwners (c.changeOver latest lookUp).latest = .ok owners) :
    ∃ delta placed, c.Places (c.changeOver latest lookUp) target delta placed ∧
      c.cycleOver latest lookUp = placed.completeCycle := by
  rcases cycleOver_cases changed with
    ⟨other, delta, placed, places, same⟩ | ⟨failed, e, refuses, _⟩
  · obtain rfl := Except.ok.inj (places.answered.symm.trans answered)
    exact ⟨delta, placed, places, same⟩
  · exact absurd accepted (refuses.refused target owners answered)

namespace Places

variable {journal : Journal} {change : SplitChange} {target : Assignment} {delta : Delta}
  {placed : Coordinator}

theorem merges (places : c.Places change target delta placed) (accounted : c.desk.Accounted journal)
    (fits : change.Fits) : c.desk.reconciler.Merges change placed.desk.reconciler delta :=
  Reconciler.merges_of_apply accounted.balanced fits places.applied

theorem pending_eq (places : c.Places change target delta placed)
    (accounted : c.desk.Accounted journal) (fits : change.Fits) {placement : Placement}
    (nothing : c.desk.reconciler.pending[placement]? = none) :
    placed.desk.reconciler.pending[placement]? = delta.splits[placement]? := by
  rw [(places.merges accounted fits).pending, PlacedSplits.getElem?_merge, nothing]
  cases delta.splits[placement]? with
  | some split => rfl
  | none => rfl

theorem accepted (places : c.Places change target delta placed) :
    ∃ owners, target.targetOwners change.latest = .ok owners := by
  obtain ⟨owners, accepted, _, _⟩ := Reconciler.apply_ok places.applied
  exact ⟨owners, accepted⟩

theorem current (places : c.Places change target delta placed) :
    placed.desk.reconciler.current = target.withoutIdle := by
  obtain ⟨owners, _, _, merged⟩ := Reconciler.apply_ok places.applied
  rw [merged]
  rfl

theorem mem_queuesOf (places : c.Places change target delta placed) {worker : Worker}
    {queue : Queue} :
    queue ∈ placed.desk.reconciler.current.queuesOf worker ↔ queue ∈ target.queuesOf worker := by
  rw [places.current, Assignment.mem_queuesOf_withoutIdle]

theorem mem_forgotten (places : c.Places change target delta placed)
    (accounted : c.desk.Accounted journal) {queue : Queue} :
    queue ∈ delta.forgotten ↔ queue ∈ change.decreased ∧ queue ∈ c.desk.reconciler.held :=
  Reconciler.mem_forgotten accounted.balanced.orderly places.applied

theorem announced (places : c.Places change target delta placed) (announced : c.Announced) :
    placed.Announced where
  complete := by
    rw [places.job, places.settled]
    exact announced.complete
  signalled := by
    rw [places.settled]
    exact announced.signalled

end Places

structure Merged (c : Coordinator) (latest : QueueSet) (target : Assignment) : Prop where
  answered : ∃ call, c.job.strategy call latest c.job.settings.parallelism = .ok target
  accepted : ∃ owners, target.targetOwners c.desk.reconciler.known = .ok owners
  known : Table.keys c.desk.reconciler.known = latest
  current : c.desk.reconciler.current = target.withoutIdle
  held : ∀ queue ∈ c.desk.reconciler.held, queue ∈ latest

def Settled (c : Coordinator) (latest : QueueSet) : Prop :=
  c.changeTo latest = none ∨ ∃ target, c.Merged latest target

theorem Settled.count (settled : c.Settled latest) (change : Metrics → Metrics) :
    (c.count change).Settled latest := by
  rcases settled with same | ⟨target, merged⟩
  · exact Or.inl same
  · exact Or.inr ⟨target, merged.answered, merged.accepted, merged.known, merged.current,
      merged.held⟩

theorem completeCycle_idle (caughtUp : c.desk.CaughtUp) :
    c.completeCycle.coordinator.desk.reconciler = c.desk.reconciler ∧
      c.completeCycle.coordinator.desk.dispatcher.owned = c.desk.dispatcher.owned ∧
      c.completeCycle.coordinator.desk.dispatcher.held = c.desk.dispatcher.held ∧
      c.completeCycle.coordinator.desk.dispatcher.registry.told =
        c.desk.dispatcher.registry.told := by
  obtain ⟨batch, flushes, _⟩ := c.completeCycle_flushes
  exact flushes.idle caughtUp.idle

theorem Announced.completeCycle_idle (announced : c.Announced) (caughtUp : c.desk.CaughtUp) :
    c.completeCycle.result = .ok () ∧
      c.completeCycle.coordinator.desk.reconciler = c.desk.reconciler ∧
      c.completeCycle.coordinator.desk.dispatcher = c.desk.dispatcher := by
  obtain ⟨done, reconciler, dispatcher⟩ := announced.completeCycle
  rw [caughtUp.idle.drain_eq] at reconciler
  rw [Desk.batchFor_of_idle caughtUp.idle, Dispatcher.deliver_nil] at dispatcher
  exact ⟨done, reconciler, dispatcher⟩

theorem announced_cycleOver (done : (c.cycleOver latest lookUp).result = .ok ()) :
    (c.cycleOver latest lookUp).coordinator.Announced := by
  by_cases same : c.changeTo latest = none
  · rw [cycleOver_unchanged same]
    exact c.announced_completeCycle
  · obtain ⟨target, delta, placed, _, finished⟩ := cycleOver_ok done same
    rw [finished]
    exact placed.announced_completeCycle

theorem Places.merged {journal : Journal} {target : Assignment} {delta : Delta}
    {placed : Coordinator} (places : c.Places (c.changeOver latest lookUp) target delta placed)
    (accounted : c.desk.Accounted journal) (asks : c.asked latest lookUp = latest) :
    placed.completeCycle.coordinator.Merged latest target := by
  have merges := places.merges accounted (fits_changeOver accounted.balanced.known)
  have queues : (c.changeOver latest lookUp).queues = latest := queues_changeOver.trans asks
  obtain ⟨batch, flushes, _, _, job⟩ := placed.completeCycle_flushes
  have known : placed.completeCycle.coordinator.desk.reconciler.known =
      (c.changeOver latest lookUp).latest := by
    rw [flushes.reconciler]
    exact merges.known
  refine
    { answered := ⟨c.calls, ?_⟩
      accepted := known ▸ places.accepted
      known := known ▸ queues
      current := ?_
      held := ?_ }
  · rw [job, places.job, ← queues]
    exact places.answered
  · rw [flushes.reconciler]
    exact places.current
  · -- A held queue that the scan did not find has been forgotten.
    intro queue held
    rw [flushes.reconciler] at held
    obtain ⟨before, _, kept⟩ := merges.held.mp held
    by_contra missing
    have owned : queue ∈ c.desk.dispatcher.ownedQueues :=
      Dispatcher.mem_ownedQueues.mpr (Or.inr (accounted.held queue before))
    have gone : queue ∈ (c.changeOver latest lookUp).decreased :=
      mem_decreased_changeOver.mpr ⟨owned, missing⟩
    exact kept ((places.mem_forgotten accounted).mpr ⟨gone, before⟩)

theorem settled_cycleOver {journal : Journal} (sound : c.Sound journal)
    (asks : c.asked latest lookUp = latest) (done : (c.cycleOver latest lookUp).result = .ok ()) :
    (c.cycleOver latest lookUp).coordinator.Settled latest := by
  by_cases same : c.changeTo latest = none
  · left
    obtain ⟨_, owned, held, _⟩ := completeCycle_idle sound.caughtUp
    rw [cycleOver_unchanged same, changeTo_eq_none_iff, Dispatcher.ownedQueues, owned, held]
    exact changeTo_eq_none_iff.mp same
  · right
    obtain ⟨target, delta, placed, places, finished⟩ := cycleOver_ok done same
    rw [finished]
    exact ⟨target, places.merged sound.accounted asks⟩

end Coordinator

end QueueAssignment
