import QueueAssignment.Proofs.Buffers
import QueueAssignment.Proofs.Settled

/-!
The form that the state of a coordinator always has. Most of it each step of the desk keeps. That a
held queue has a known range takes more: the change of a cycle may be old when it is merged, but a
queue that is still held then was held when the scan was compared, so the change keeps its range or
takes the queue away.
-/
namespace QueueAssignment
open Std

def SplitMap.Assigns (splits : SplitMap) : Prop :=
  ∀ (queue : Queue) (split : Split), splits[queue]? = some split → split.tag = .assign

namespace Desk

variable {job : Job} {desk next : Desk} {journal events : Journal}

/-- Nobody is listed without queues, what is placed has a range, and no held queue has an owner. -/
structure Tidy (_ : Job) (desk : Desk) (_ : Journal) : Prop where
  busy : ∀ (worker : Worker) (queues : QueueSet),
    desk.reconciler.current[worker]? = some queues → queues ≠ ∅
  ranged : ∀ {worker : Worker} {queue : Queue},
    queue ∈ desk.reconciler.current.queuesOf worker → queue ∈ desk.reconciler.known
  ownerless : ∀ queue ∈ desk.dispatcher.held, desk.dispatcher.owned[queue]? = none

theorem Flushes.ownerless {workers : WorkerSet} {batch : Batch}
    (flushes : desk.Flushes workers next batch) (accounted : desk.Accounted journal)
    (ownerless : ∀ queue ∈ desk.dispatcher.held, desk.dispatcher.owned[queue]? = none) :
    ∀ queue ∈ next.dispatcher.held, next.dispatcher.owned[queue]? = none := by
  intro queue held
  obtain ⟨before, ungiven⟩ := flushes.mem_held.mp held
  have single : ∀ v w, ⟨v, queue⟩ ∈ batch.tagged .assign → ⟨w, queue⟩ ∈ batch.tagged .assign →
      v = w := by
    intro v w first second
    rw [← Batch.given_events] at first second
    exact flushes.single accounted first second
  rw [Option.eq_none_iff_forall_ne_some]
  intro worker owned
  rw [flushes.owned, Ownership.getElem?_after single, ownerless queue before] at owned
  rcases owned with assigned | ⟨impossible, _⟩
  · exact ungiven worker (Batch.given_events.mpr assigned)
  · cases impossible

theorem ownerless_settle {d : Dispatcher} {delta : Delta}
    (ownerless : ∀ queue ∈ d.held, d.owned[queue]? = none) :
    ∀ queue ∈ (d.settle delta).held, (d.settle delta).owned[queue]? = none := by
  intro queue held
  obtain ⟨before, unadopted, _⟩ := mem_held_settle.mp held
  simp only [Dispatcher.settle, ExtTreeMap.getElem?_union, ExtTreeMap.getElem?_filter',
    ExtTreeMap.getElem?_eq_none unadopted, ownerless queue before]
  rfl

theorem steady_tidy : Steady Tidy := by
  intro job desk next journal events accounted tidy step
  cases step with
  | aside reconciler owned held told =>
    refine ⟨?_, ?_, ?_⟩
    · rw [reconciler]
      exact tidy.busy
    · rw [reconciler]
      exact tidy.ranged
    · rw [held, owned]
      exact tidy.ownerless
  | flush flushes =>
    refine ⟨?_, ?_, flushes.ownerless accounted tidy.ownerless⟩
    · rw [flushes.reconciler]
      exact tidy.busy
    · rw [flushes.reconciler]
      exact tidy.ranged
  | merge fits _ applied settled =>
    obtain ⟨owners, accepted, _, merged⟩ := Reconciler.apply_ok applied
    obtain ⟨lookup, covered⟩ := Assignment.targetOwners_ok accepted
    refine ⟨?_, ?_, ?_⟩
    · rw [merged]
      exact fun _ _ => Assignment.busy_withoutIdle
    · intro worker queue placed
      rw [merged] at placed ⊢
      -- The target passed the check, so each of its queues has a range in the change.
      have owned := (lookup queue worker).mpr (Assignment.mem_queuesOf_withoutIdle.mp placed)
      exact covered queue (ExtTreeMap.mem_iff_isSome_getElem?.mpr (by simp [owned]))
    · rw [settled]
      exact ownerless_settle tidy.ownerless
  | release worker splits =>
    exact ⟨fun _ _ => Assignment.busy_withoutIdle,
      fun placed => tidy.ranged (Assignment.mem_queuesOf_release.mp placed).1, tidy.ownerless⟩

theorem Step.held_subset (step : desk.Step job events next) {queue : Queue}
    (held : queue ∈ next.reconciler.held) : queue ∈ desk.reconciler.held := by
  cases step with
  | aside reconciler _ _ _ => exact reconciler ▸ held
  | flush flushes =>
    rw [flushes.reconciler] at held
    exact held
  | merge _ _ applied _ =>
    obtain ⟨owners, _, _, merged⟩ := Reconciler.apply_ok applied
    rw [merged] at held
    exact (ExtTreeSet.mem_diff_iff.mp (ExtTreeSet.mem_diff_iff.mp held).1).1
  | release worker splits => exact (ExtTreeSet.mem_diff_iff.mp held).1

theorem Steps.held_subset (steps : desk.Steps job events next) {queue : Queue}
    (held : queue ∈ next.reconciler.held) : queue ∈ desk.reconciler.held := by
  induction steps with
  | none => exact held
  | more before step ih => exact ih (step.held_subset held)

end Desk

theorem Reached.tidy {site : Site} {journal : Journal} (reached : Reached site journal) :
    site.coordinator.desk.Tidy site.coordinator.job journal := by
  refine reached.steady (P := Desk.Tidy) Desk.steady_tidy ?_ ?_
  · intro job
    refine ⟨?_, ?_, ?_⟩
    · simp [Coordinator.start]
    · simp [Coordinator.start, Assignment.mem_queuesOf]
    · simp [Coordinator.start]
  · intro job checkpoint metrics c opened
    obtain ⟨reconciler, dispatcher⟩ := Coordinator.restore_ok opened
    refine ⟨?_, ?_, ?_⟩
    · intro worker queues found
      rw [reconciler, Reconciler.restore, OwnerMap.byWorker, Table.getElem?_tabulate] at found
      split at found
      · rename_i listed
        obtain ⟨queue, owned⟩ := Table.mem_values.mp (Table.mem_ofList.mp listed)
        cases found
        intro empty
        have has := OwnerMap.mem_queuesOf.mpr owned
        simp [empty] at has
      · cases found
    · intro worker queue placed
      rw [reconciler] at placed ⊢
      have owned := OwnerMap.mem_queuesOf_byWorker.mp placed
      simp [Reconciler.restore, Coordinator.unresolvedSplits, ExtTreeMap.mem_iff_isSome_getElem?,
        Table.getElem?_tabulate, Table.mem_keys, owned]
    · rw [dispatcher]
      intro queue held
      rw [Option.eq_none_iff_forall_ne_some]
      exact fun worker owned => Coordinator.not_ownerless owned held

namespace Reconciler

structure Ranged (r : Reconciler) : Prop where
  assigns : r.known.Assigns
  held : ∀ queue ∈ r.held, queue ∈ r.known

variable {r next : Reconciler} {change : SplitChange} {target : Assignment} {delta : Delta}

theorem Ranged.release (ranged : r.Ranged) (worker : Worker) (splits : List Split) :
    (r.release worker splits).Ranged :=
  ⟨ranged.assigns, fun queue held => ranged.held queue (ExtTreeSet.mem_diff_iff.mp held).1⟩

/-- A change that takes a held queue away makes the reconciler forget it, so what stays held has a
    range in the change. -/
theorem Ranged.apply {holdings : Worker → QueueSet} (balanced : r.Balanced holdings)
    (assigns : change.latest.Assigns)
    (spares : ∀ queue ∈ r.held, queue ∈ change.decreased ∨ queue ∈ change.latest)
    (applied : r.apply change target = .ok (next, delta)) : next.Ranged := by
  have forgets : ∀ {queue}, queue ∈ change.decreased → queue ∈ r.held → queue ∈ delta.forgotten :=
    fun gone held => (mem_forgotten balanced.orderly applied).mpr ⟨gone, held⟩
  obtain ⟨owners, _, _, merged⟩ := apply_ok applied
  rw [merged]
  refine ⟨assigns, fun queue held => ?_⟩
  obtain ⟨still, kept⟩ := ExtTreeSet.mem_diff_iff.mp held
  have before := (ExtTreeSet.mem_diff_iff.mp still).1
  rcases spares queue before with gone | there
  · exact absurd (forgets gone before) kept
  · exact there

theorem assigns_returnedChange (ranged : r.Ranged) (splits : List Split) :
    (r.returnedChange splits).latest.Assigns := by
  intro queue split found
  rw [returnedChange, ExtTreeMap.getElem?_union, Option.or_eq_some_iff] at found
  rcases found with returned | ⟨_, before⟩
  · obtain ⟨listed, member, eq⟩ := List.mem_map.mp (Table.mem_of_getElem?_ofEntries returned)
    obtain ⟨one, _, rfl⟩ := List.mem_map.mp member
    cases eq
    rfl
  · exact ranged.assigns queue split before

end Reconciler

theorem SplitChange.assigns_ofOffsets (change : QueueChange) (known : SplitMap)
    (starting stopping : OffsetMap) :
    SplitMap.Assigns (ofOffsets change known starting stopping).latest := by
  intro queue split found
  rw [getElem?_latest] at found
  split at found
  · unfold latestSplit at found
    split at found
    · rename_i resolved
      cases found
      obtain ⟨_, _, rfl⟩ := Option.map_eq_some_iff.mp resolved
      rfl
    · split at found
      · cases found
      · obtain ⟨_, _, rfl⟩ := Option.map_eq_some_iff.mp found
        rfl
  · cases found

/-- Of each queue of `held` the change keeps the known range, or it takes the queue away. -/
def QueueChange.Spares (change : QueueChange) (known : SplitMap) (held : QueueSet) : Prop :=
  ∀ queue ∈ held, queue ∈ change.decreased ∨
    queue ∈ change.latest ∧ queue ∉ change.increased ∧ queue ∈ known

theorem QueueChange.Spares.ofOffsets {change : QueueChange} {known : SplitMap} {held : QueueSet}
    (spares : change.Spares known held) (starting stopping : OffsetMap) :
    let splits := SplitChange.ofOffsets change known starting stopping
    ∀ queue ∈ held, queue ∈ splits.decreased ∨ queue ∈ splits.latest := by
  intro splits queue there
  rcases spares queue there with gone | ⟨latest, old, before⟩
  · exact Or.inl (SplitChange.mem_decreased_ofOffsets.mpr gone)
  · right
    rw [← Table.mem_keys]
    exact SplitChange.mem_queues_ofOffsets_iff.mpr ⟨latest, Or.inr ⟨old, before⟩⟩

namespace Coordinator

variable {c next : Coordinator} {journal : Journal} {change : QueueChange} {known : SplitMap}

/-- What is held counts as owned, so a scan never finds it as new. -/
theorem spares_of_changeTo (accounted : c.desk.Accounted journal)
    (ranged : c.desk.reconciler.Ranged) {latest : QueueSet}
    (found : c.changeTo latest = some change) :
    change.Spares c.desk.reconciler.known c.desk.reconciler.held := by
  rw [between_of_changeTo found]
  intro queue held
  have owned := Dispatcher.mem_ownedQueues.mpr (Or.inr (accounted.held queue held))
  simp only [QueueChange.between, ExtTreeSet.mem_diff_iff]
  by_cases there : queue ∈ latest
  · exact Or.inr ⟨there, fun new => new.2 owned, ranged.held queue held⟩
  · exact Or.inl ⟨owned, there⟩

theorem ranged_flush (ranged : c.desk.reconciler.Ranged) (workers : WorkerSet) :
    (c.flush workers).coordinator.desk.reconciler.Ranged := by
  unfold flush
  cases flushed : c.desk.flush workers with
  | error e => exact ranged
  | ok pair =>
    have drained := (Desk.flush_ok flushed).reconciler
    dsimp only
    rw [drained]
    exact ⟨ranged.assigns, ranged.held⟩

theorem ranged_addWorker (ranged : c.desk.reconciler.Ranged) (worker : Worker) (isOpen : Bool) :
    (c.addWorker worker isOpen).coordinator.desk.reconciler.Ranged := by
  have registered : (c.desk.register worker isOpen).reconciler.Ranged := ranged
  simp only [addWorker]
  split
  · exact ranged_flush (c := { c with desk := c.desk.register worker isOpen }) registered _
  · exact registered

theorem ranged_returnSplits (ranged : c.desk.reconciler.Ranged)
    (accounted : c.desk.Accounted journal) (worker : Worker) (splits : List Split) :
    (c.returnSplits worker splits).coordinator.desk.reconciler.Ranged := by
  have released := ranged.release worker splits
  have kept : ∀ queue ∈ (c.desk.reconciler.release worker splits).held,
      queue ∈ (c.desk.reconciler.returnedChange splits).latest := fun queue held =>
    ExtTreeMap.mem_union_iff.mpr (Or.inl (released.held queue held))
  cases c.returnSplits_returns worker splits with
  | nothing _ outcome _ =>
    rw [outcome]
    exact ranged
  | placed places _ outcome _ _ =>
    rw [outcome]
    apply ranged_flush
    exact .apply (accounted.release worker splits).balanced
      (Reconciler.assigns_returnedChange released splits)
      (fun queue held => Or.inr (kept queue held)) places.applied
  | failed _ _ outcome _ =>
    rw [outcome]
    exact released

theorem ranged_completeCycle (ranged : c.desk.reconciler.Ranged) :
    c.completeCycle.coordinator.desk.reconciler.Ranged := by
  simp only [completeCycle]
  split
  · exact ranged_flush (c := { c with desk := c.desk.complete }) ranged _
  · exact ranged_flush ranged _

theorem ranged_finish (ranged : c.desk.reconciler.Ranged) (accounted : c.desk.Accounted journal)
    (spares : change.Spares known c.desk.reconciler.held) (lookup : Lookup) :
    (c.finish change known lookup).coordinator.desk.reconciler.Ranged := by
  rcases c.place_cases change known lookup with
    ⟨target, delta, placed, places, done, _⟩ | ⟨failed, e, refuses, done, _⟩
  · simp only [finish, Outcome.andThen, done]
    have assigns := SplitChange.assigns_ofOffsets change known lookup.starting.offsets
      lookup.stopping.offsets
    exact ranged_completeCycle
      (.apply accounted.balanced assigns (spares.ofOffsets _ _) places.applied)
  · simp only [finish, Outcome.andThen, done]
    rw [refuses.reconciler]
    exact ranged

theorem ranged_cycle (ranged : c.desk.reconciler.Ranged) (accounted : c.desk.Accounted journal)
    (broker : Broker) : (c.cycle broker).coordinator.desk.reconciler.Ranged := by
  unfold cycle
  cases Scan.run broker c.job.topics with
  | error e => exact ranged
  | ok scan =>
    simp only [cycleOver]
    generalize counted : c.count _ = d
    have same : d.desk.Accounted journal := by
      rw [← counted]
      exact accounted.congr rfl rfl rfl rfl
    have here : d.desk.reconciler.Ranged := by
      rw [← counted]
      exact ranged
    cases found : d.changeTo scan.queues with
    | none => exact ranged_completeCycle here
    | some change =>
      have spares := spares_of_changeTo same here found
      exact ranged_finish (c := d.count _) here (same.congr rfl rfl rfl rfl) spares _

end Coordinator

def Task.Spares (held : QueueSet) : Task → Prop
  | .scan => True
  | .lookUp change known => change.Spares known held

namespace EventLoop

variable {loop : EventLoop} {journal : Journal}

theorem ranged_turn (ranged : loop.coordinator.desk.reconciler.Ranged)
    (accounted : loop.coordinator.desk.Accounted journal)
    (spares : ∀ task ∈ loop.tasks, task.Spares loop.coordinator.desk.reconciler.held)
    (signal : Signal) : (loop.turn signal).coordinator.desk.reconciler.Ranged := by
  unfold turn
  split
  · split
    · exact ranged
    · unfold tick
      split <;> exact ranged
  · rename_i latest rest tasks
    unfold scanned
    split
    · exact ranged
    · rw [coordinator_finishCycle]
      exact Coordinator.ranged_completeCycle ranged
  · exact ranged
  · rename_i lookup change known rest tasks
    rw [coordinator_lookedUp]
    exact Coordinator.ranged_finish ranged accounted
      (spares (.lookUp change known) (by simp [tasks])) lookup
  · exact ranged
  · exact ranged
  · exact ranged
  · rename_i request
    cases request with
    | join worker isOpen =>
      rw [serve, coordinator_resume_id]
      exact Coordinator.ranged_addWorker ranged worker isOpen
    | leave worker => exact ranged
    | takeBack worker splits =>
      rw [serve, coordinator_resume_id]
      exact Coordinator.ranged_returnSplits ranged accounted worker splits
    | snapshot => exact ranged
    | close => exact ranged
  · exact ranged
  · exact ranged

theorem mem_tasks_resume {outcome : Outcome} {next : EventLoop → EventLoop} {task : Task}
    (later : ∀ {loop : EventLoop}, task ∈ (next loop).tasks → task ∈ loop.tasks ∨ task = .scan)
    (member : task ∈ (loop.resume outcome next).tasks) : task ∈ loop.tasks ∨ task = .scan := by
  unfold resume at member
  dsimp only at member
  cases result : outcome.result with
  | ok done =>
    rw [result] at member
    have moved := later member
    exact moved
  | error e =>
    rw [result] at member
    cases member

theorem mem_tasks_startCycle {task : Task} (member : task ∈ loop.startCycle.tasks) :
    task ∈ loop.tasks ∨ task = .scan := by
  rcases List.mem_append.mp member with running | fresh
  · exact Or.inl running
  · exact Or.inr (List.mem_singleton.mp fresh)

theorem mem_tasks_finishCycle {task : Task} (member : task ∈ loop.finishCycle.tasks) :
    task ∈ loop.tasks ∨ task = .scan := by
  refine mem_tasks_resume ?_ member
  intro loop member
  dsimp only at member
  split at member
  · exact mem_tasks_startCycle member
  · exact Or.inl member

theorem mem_tasks_turn {signal : Signal} {task : Task} (member : task ∈ (loop.turn signal).tasks) :
    (task ∈ loop.tasks ∨ task = .scan) ∨
      ∃ latest change, loop.coordinator.changeTo latest = some change ∧
        task = .lookUp change loop.coordinator.desk.reconciler.known := by
  unfold turn at member
  split at member
  · left
    split at member
    · exact Or.inl member
    · unfold tick at member
      split at member
      · exact Or.inl member
      · exact mem_tasks_startCycle member
  · rename_i latest rest tasks
    unfold scanned at member
    split at member
    · rename_i change found
      rcases List.mem_append.mp member with running | fresh
      · exact Or.inl (Or.inl (by simp [tasks, running]))
      · exact Or.inr ⟨latest, change, found, List.mem_singleton.mp fresh⟩
    · left
      rcases mem_tasks_finishCycle member with running | fresh
      · exact Or.inl (by simp [tasks, running])
      · exact Or.inr fresh
  · exact Or.inl (Or.inl member)
  · rename_i lookup change known rest tasks
    left
    rcases mem_tasks_resume mem_tasks_finishCycle member with running | fresh
    · exact Or.inl (by simp [tasks, running])
    · exact Or.inr fresh
  · exact Or.inl (Or.inl member)
  · cases member
  · exact Or.inl (Or.inl member)
  · rename_i request
    left
    cases request with
    | join | takeBack => exact mem_tasks_resume Or.inl member
    | leave | snapshot => exact Or.inl member
    | close => cases member
  · cases member
  · cases member

end EventLoop

def Site.Spares : Site → Prop
  | .direct _ => True
  | .spawned loop => ∀ task ∈ loop.tasks, task.Spares loop.coordinator.desk.reconciler.held

theorem Site.ranged_after {site : Site} {journal : Journal}
    (accounted : site.coordinator.desk.Accounted journal)
    (ranged : site.coordinator.desk.reconciler.Ranged) (spares : site.Spares) (act : Act) :
    (site.after act).coordinator.desk.reconciler.Ranged := by
  cases site with
  | direct c =>
    cases act with
    | join worker isOpen => exact Coordinator.ranged_addWorker ranged worker isOpen
    | takeBack worker splits => exact Coordinator.ranged_returnSplits ranged accounted worker splits
    | cycle broker => exact Coordinator.ranged_cycle ranged accounted broker
    | spawn => simpa [Site.after, Site.coordinator] using ranged
    | leave | hangUp | meter | signal => exact ranged
  | spawned loop =>
    cases act with
    | signal signal =>
      simp only [Site.after, EventLoop.step]
      split
      · exact EventLoop.ranged_turn ranged accounted spares signal
      · exact ranged
    | join | leave | takeBack | cycle | hangUp | meter | spawn => exact ranged

theorem Task.Spares.narrow {before after : QueueSet} {task : Task} (spares : task.Spares before)
    (fewer : ∀ queue ∈ after, queue ∈ before) : task.Spares after := by
  cases task with
  | scan => trivial
  | lookUp change known => exact fun queue held => spares queue (fewer queue held)

theorem Site.spares_after {site : Site} {journal : Journal}
    (accounted : site.coordinator.desk.Accounted journal)
    (ranged : site.coordinator.desk.reconciler.Ranged) (spares : site.Spares) (act : Act)
    (fewer : ∀ queue ∈ (site.after act).coordinator.desk.reconciler.held,
      queue ∈ site.coordinator.desk.reconciler.held) : (site.after act).Spares := by
  cases site with
  | direct c =>
    cases act with
    | spawn =>
      intro task member
      obtain rfl := EventLoop.eq_scan_of_mem_start member
      trivial
    | join | leave | takeBack | cycle | hangUp | meter | signal => trivial
  | spawned loop =>
    cases act with
    | signal signal =>
      intro task member
      simp only [Site.after] at fewer member
      have origin : (task ∈ loop.tasks ∨ task = .scan) ∨
          ∃ latest change, loop.coordinator.changeTo latest = some change ∧
            task = .lookUp change loop.coordinator.desk.reconciler.known := by
        unfold EventLoop.step at member
        split at member
        · exact EventLoop.mem_tasks_turn member
        · exact Or.inl (Or.inl member)
      rcases origin with (still | rfl) | ⟨latest, change, found, rfl⟩
      · exact (spares task still).narrow fewer
      · trivial
      · exact Task.Spares.narrow (Coordinator.spares_of_changeTo accounted ranged found) fewer
    | join | leave | takeBack | cycle | hangUp | meter | spawn => exact spares

theorem Reached.ranged {site : Site} {journal : Journal} (reached : Reached site journal) :
    site.coordinator.desk.reconciler.Ranged ∧ site.Spares := by
  induction reached with
  | start job =>
    refine ⟨⟨?_, ?_⟩, trivial⟩
    · intro queue split found
      simp [Site.coordinator, Coordinator.start] at found
    · simp [Site.coordinator, Coordinator.start]
  | @restore job checkpoint metrics c opened =>
    obtain ⟨reconciler, _⟩ := Coordinator.restore_ok opened
    refine ⟨?_, trivial⟩
    rw [Site.coordinator, reconciler]
    constructor
    · intro queue split found
      rw [Reconciler.restore, Coordinator.unresolvedSplits, Table.getElem?_tabulate] at found
      split at found
      · cases found
        rfl
      · cases found
    · intro queue held
      have ownerless : queue ∈ checkpoint.ownerless := held
      simp [Reconciler.restore, Coordinator.unresolvedSplits, ExtTreeMap.mem_iff_isSome_getElem?,
        Table.getElem?_tabulate, ownerless]
  | act before act ih =>
    obtain ⟨ranged, spares⟩ := ih
    have accounted := before.sound.accounted
    exact ⟨Site.ranged_after accounted ranged spares act,
      Site.spares_after accounted ranged spares act
        fun _ held => (before.goes act).steps.held_subset held⟩

namespace Reconciler

theorem hasPending_iff {r : Reconciler} {worker : Worker} :
    r.hasPending worker = true ↔ r.pendingFor worker ≠ [] := by
  rw [hasPending, buffers, PlacedSplits.contains_buffers, Ne, pendingFor_eq_nil_iff, not_forall]

/-- Whatever change comes next, what is placed has a range to be revoked with. -/
def RevokesRanged (r : Reconciler) : Prop :=
  ∀ (change : SplitChange) {worker : Worker} {queue : Queue},
    queue ∈ r.current.queuesOf worker → ∃ split,
      (change.decreased[queue]?.or change.latest[queue]?).or r.known[queue]? = some split ∧
        ∀ owners, (r.move change owners).lastRange queue = split

theorem revokesRanged {r : Reconciler}
    (ranged : ∀ {worker : Worker} {queue : Queue},
      queue ∈ r.current.queuesOf worker → queue ∈ r.known) : r.RevokesRanged := by
  intro change worker queue placed
  have there := ExtTreeMap.mem_iff_isSome_getElem?.mp (ranged placed)
  have some : ((change.decreased[queue]?.or change.latest[queue]?).or r.known[queue]?).isSome := by
    rw [Option.isSome_or, there, Bool.or_true]
  obtain ⟨split, found⟩ := Option.isSome_iff_exists.mp some
  refine ⟨split, found, fun owners => ?_⟩
  simp only [Move.lastRange, move, found, Option.getD_some]

/-- What each operation does to what is pending, it does buffer by buffer. -/
structure BufferWise (r : Reconciler) : Prop where
  apply : ∀ {change : SplitChange} {target : Assignment} {next : Reconciler} {delta : Delta},
    change.Suits target → r.apply change target = .ok (next, delta) →
      next.buffers = r.buffers.absorb delta.toList
  release : ∀ worker splits, (r.release worker splits).buffers = r.buffers.discard worker splits
  drain : ∀ workers, (r.drain workers).buffers = r.buffers.take workers

theorem Balanced.bufferWise {r : Reconciler} {holdings : Worker → QueueSet}
    (balanced : r.Balanced holdings) : r.BufferWise where
  apply suits applied :=
    let merges := merges_of_suits balanced.orderly suits applied
    buffers_merge merges.keyed merges.pending
  release := r.buffers_release
  drain := r.buffers_drain

end Reconciler

structure Desk.WellFormed (desk : Desk) : Prop where
  exclusive : desk.reconciler.current.Exclusive
  busy : ∀ (worker : Worker) (queues : QueueSet),
    desk.reconciler.current[worker]? = some queues → queues ≠ ∅
  tight : desk.reconciler.buffers.Tight
  pending : desk.reconciler.pending.Keyed
  known : desk.reconciler.known.Keyed
  assigns : desk.reconciler.known.Assigns
  placed : ∀ {worker : Worker} {queue : Queue},
    queue ∈ desk.reconciler.current.queuesOf worker → queue ∈ desk.reconciler.known
  held : ∀ queue ∈ desk.reconciler.held, queue ∈ desk.reconciler.known
  free : ∀ {worker : Worker} {queue : Queue},
    queue ∈ desk.reconciler.current.queuesOf worker → queue ∉ desk.reconciler.held
  counted : ∀ queue ∈ desk.reconciler.held, queue ∈ desk.dispatcher.held
  ownerless : ∀ queue ∈ desk.dispatcher.held, queue ∉ desk.dispatcher.owned

/-- After every run the books fit together, so a revoke never lacks a range, also right after splits
    were taken back, and a worker has a buffer exactly while there is something to deliver to it. -/
theorem books_well_formed {site : Site} {journal : Journal} (reached : Reached site journal) :
    let r := site.coordinator.desk.reconciler
    site.coordinator.desk.WellFormed ∧ r.BufferWise ∧
      (r.RevokesRanged ∧ ∀ worker splits, (r.release worker splits).RevokesRanged) ∧
      ∀ worker, r.hasPending worker = true ↔ r.pendingFor worker ≠ [] := by
  intro r
  have accounted := reached.sound.accounted
  have balanced := accounted.balanced
  have tidy := reached.tidy
  obtain ⟨ranged, _⟩ := reached.ranged
  refine ⟨?_, balanced.bufferWise, ⟨?_, ?_⟩, fun _ => Reconciler.hasPending_iff⟩
  · exact {
      exclusive := balanced.exclusive
      busy := tidy.busy
      tight := r.tight_buffers
      pending := balanced.pending
      known := balanced.known
      assigns := ranged.assigns
      placed := tidy.ranged
      held := ranged.held
      free := balanced.free
      counted := accounted.held
      ownerless := fun queue held owned => by
        rw [ExtTreeMap.mem_iff_isSome_getElem?, tidy.ownerless queue held] at owned
        cases owned }
  · exact Reconciler.revokesRanged tidy.ranged
  · exact fun worker splits => Reconciler.revokesRanged fun placed =>
      tidy.ranged (Assignment.mem_queuesOf_release.mp placed).1

/-- Two queues are read on after a restart and one of them leaves the topology. Its worker is not
    there, so the revoke waits in a buffer. -/
theorem revoke_waits_in_buffer :
    let saved := Checkpoint.ofOwners (Table.ofEntries [(Sample.queue 0, 0), (Sample.queue 1, 1)]) ∅
    let site := Sample.resumed saved [.cycle (Sample.broker [0])]
    site.coordinator.desk.WellFormed ∧
      site.coordinator.desk.reconciler.hasPending 1 = true := by
  intro saved site
  have laws := books_well_formed (Sample.reached_resumed saved [.cycle (Sample.broker [0])])
  exact ⟨laws.1, (laws.2.2.2 1).mpr (by decide +kernel)⟩

end QueueAssignment
