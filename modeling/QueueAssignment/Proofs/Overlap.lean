import QueueAssignment.Proofs.Dispatch
import QueueAssignment.Proofs.Recorded

/-!
What the counter of early assigns counts: the assigns of a batch whose queue is on record for another
worker once the revokes of the batch are out. That is the number of queues that two workers come to
hold as long as the record names the holders.
-/
namespace QueueAssignment
open Std

def Event.assigns : Event → Option Placement
  | .told worker split => if split.isAssign then some ⟨worker, split.queue⟩ else none
  | _ => none

namespace Journal

variable {journal events : Journal} {placement : Placement}

def assigns (events : Journal) : List Placement := events.filterMap Event.assigns

def unassigned (events : Journal) : Journal := events.filter fun event => event.assigns.isNone

def heldBeside (journal : Journal) (placement : Placement) : Bool :=
  (journal.holders placement.queue).toList.any fun worker => worker ≠ placement.worker

def ownedBeside (journal : Journal) (placement : Placement) : Bool :=
  (journal.ownerOf placement.queue).any fun worker => worker ≠ placement.worker

/-- How many assigns meet another holder, once all that is taken away in the same act is gone. -/
def overlaps (journal events : Journal) : Nat :=
  events.assigns.countP (journal ++ events.unassigned).heldBeside

/-- How many assigns meet another owner on record. -/
def early (journal events : Journal) : Nat :=
  events.assigns.countP (journal ++ events.unassigned).ownedBeside

theorem heldBeside_iff : journal.heldBeside placement = true ↔
    ∃ worker, worker ≠ placement.worker ∧ placement.queue ∈ journal.heldBy worker := by
  simp only [heldBeside, List.any_eq_true, ExtTreeSet.mem_toList, mem_holders, decide_eq_true_eq,
    and_comm]

theorem ownedBeside_iff : journal.ownedBeside placement = true ↔
    ∃ worker, worker ≠ placement.worker ∧ journal.ownerOf placement.queue = some worker := by
  unfold ownedBeside
  cases journal.ownerOf placement.queue with
  | none => simp
  | some owner => simp

theorem assigns_of_untold (untold : events.filter Event.isTold = []) : events.assigns = [] := by
  rw [assigns, List.filterMap_eq_nil_iff]
  intro event member
  have silent := List.filter_eq_nil_iff.mp untold event member
  cases event with
  | told => exact absurd rfl silent
  | restored | adopted | lost => rfl

theorem unassigned_of_untold (untold : events.filter Event.isTold = []) :
    events.unassigned = events := by
  have none := assigns_of_untold untold
  rw [assigns, List.filterMap_eq_nil_iff] at none
  rw [unassigned, List.filter_eq_self]
  intro event member
  rw [none event member]
  rfl

theorem unassigned_append (events later : Journal) :
    (events ++ later).unassigned = events.unassigned ++ later.unassigned :=
  List.filter_append ..

theorem assigns_append (events later : Journal) :
    (events ++ later).assigns = events.assigns ++ later.assigns :=
  List.filterMap_append

theorem early_append (untold : events.filter Event.isTold = []) (later : Journal) :
    journal.early (events ++ later) = (journal ++ events).early later := by
  unfold early
  rw [assigns_append, assigns_of_untold untold, unassigned_append, unassigned_of_untold untold,
    List.nil_append, List.append_assoc]

end Journal

namespace Batch

variable {batch : Batch} {placement : Placement}

theorem assigns_events (batch : Batch) : batch.events.assigns = batch.tagged .assign := by
  have parts : ∀ (worker : Worker) (splits : List Split),
      (splits.map (Event.told worker)).filterMap Event.assigns =
        (splits.filter fun split => split.tag = .assign).map
          fun split => ⟨worker, split.queue⟩ := by
    intro worker splits
    induction splits with
    | nil => rfl
    | cons split rest ih =>
      rw [List.map_cons, List.filterMap_cons, ih]
      cases tag : split.tag with
      | assign => simp [Event.assigns, Split.isAssign, tag]
      | revoke => simp [Event.assigns, Split.isAssign, tag]
  simp only [Journal.assigns, events, tagged, List.filterMap_flatMap, parts]

theorem not_given_unassigned (batch : Batch) (placement : Placement) :
    ¬ batch.events.unassigned.Given placement := by
  rintro ⟨event, member, gives⟩
  obtain ⟨told, silent⟩ := List.mem_filter.mp member
  obtain ⟨part, _, split, _, rfl⟩ := mem_events.mp told
  have same : (Event.told part.1 split).assigns = (Event.told part.1 split).gives := rfl
  rw [same, gives] at silent
  cases silent

theorem revoked_unassigned : batch.events.unassigned.Revoked placement ↔
    batch.events.Revoked placement := by
  constructor
  · rintro ⟨event, member, revokes⟩
    exact ⟨event, (List.mem_filter.mp member).1, revokes⟩
  · rintro ⟨event, member, revokes⟩
    refine ⟨event, List.mem_filter.mpr ⟨member, ?_⟩, revokes⟩
    obtain ⟨part, _, split, _, rfl⟩ := mem_events.mp member
    cases tag : split.tag with
    | assign => simp [Event.revokes, Split.isRevoke, tag] at revokes
    | revoke => simp [Event.assigns, Split.isAssign, tag]

end Batch

namespace Ownership

/-- Assigns of different queues are counted one by one: an owner that the count compares with was
    there before all of them. -/
theorem early_foldl_assign {placements : List Placement}
    (apart : placements.Pairwise fun a b => a.queue ≠ b.queue) (ownership : Ownership) :
    (placements.foldl assign ownership).early = ownership.early + placements.countP fun p =>
      ownership.owners[p.queue]?.any fun owner => owner ≠ p.worker := by
  induction placements generalizing ownership with
  | nil => rfl
  | cons first rest ih =>
    obtain ⟨others, apart⟩ := List.pairwise_cons.mp apart
    have later : ∀ p ∈ rest, (ownership.assign first).owners[p.queue]? =
        ownership.owners[p.queue]? := by
      intro p member
      simp [assign, ExtTreeMap.getElem?_insert, others p member]
    have counted : (ownership.assign first).early = ownership.early +
        if (ownership.owners[first.queue]?.any fun owner => owner ≠ first.worker) then 1 else 0 := by
      simp only [assign]
      cases ownership.owners[first.queue]? with
      | none => rfl
      | some owner =>
        by_cases same : owner = first.worker
        · simp [same]
        · simp [same]
    rw [List.foldl_cons, ih apart, counted, List.countP_cons, Nat.add_assoc, Nat.add_comm (ite ..)]
    congr 2
    apply List.countP_congr
    intro p member
    rw [later p member]

end Ownership

namespace Desk

variable {desk next : Desk} {workers : WorkerSet} {batch : Batch} {journal : Journal}

theorem early_deliver (desk : Desk) (batch : Batch) :
    (desk.deliver batch).metrics.earlyAssigns =
      desk.metrics.earlyAssigns + (Ownership.after desk.dispatcher.owned batch).early := by
  unfold deliver
  split
  · rename_i empty
    rw [List.isEmpty_iff.mp empty]
    rfl
  · rfl

theorem early_of_flush (flushed : desk.flush workers = .ok (next, batch)) :
    next.metrics.earlyAssigns =
      desk.metrics.earlyAssigns + (Ownership.after desk.dispatcher.owned batch).early := by
  have flushes := flush_ok flushed
  rw [flush_eq flushes.registered] at flushed
  cases flushed
  have signalled : ∀ d : Desk, (d.signalIfDue workers).metrics = d.metrics := by
    intro d
    unfold signalIfDue
    split <;> rfl
  have drained : (desk.drain workers).metrics.earlyAssigns = desk.metrics.earlyAssigns := by
    unfold drain
    split <;> rfl
  rw [signalled, early_deliver, drained, dispatcher_drain]

theorem Flushes.pairwise_assigns (flushes : desk.Flushes workers next batch)
    (accounted : desk.Accounted journal) :
    (batch.tagged .assign).Pairwise fun a b => a.queue ≠ b.queue := by
  have nodup : (batch.tagged .assign).Nodup := by
    rw [flushes.drained, List.nodup_iff_pairwise_ne, Batch.tagged, List.pairwise_flatMap]
    constructor
    · intro part member
      obtain ⟨_, _, same⟩ := mem_batchFor.mp member
      have ordered := (Reconciler.lists_pendingFor accounted.balanced.pending part.1).ordered
      rw [List.pairwise_map, same]
      apply (ordered.filter _).imp_of_mem
      intro a b here there before equal
      have queue : a.queue = b.queue := (Placement.mk.inj equal).2
      simp only [List.mem_filter, decide_eq_true_eq] at here there
      rcases before with ⟨revoked, _⟩ | ⟨_, less⟩
      · rw [here.2] at revoked
        cases revoked
      · rw [queue, ReflOrd.compare_self] at less
        cases less
    · apply (desk.pairwise_batchFor workers).imp
      intro first second less a here b there equal
      obtain ⟨_, _, rfl⟩ := List.mem_map.mp here
      obtain ⟨_, _, rfl⟩ := List.mem_map.mp there
      exact UInt32.lt_irrefl _ ((Placement.mk.inj equal).1 ▸ less)
  apply (List.nodup_iff_pairwise_ne.mp nodup).imp_of_mem
  intro a b here there apart same
  obtain ⟨v, queue⟩ := a
  obtain ⟨w, other⟩ := b
  cases same
  rw [← Batch.given_events] at here there
  exact apart (by rw [flushes.single accounted here there])

theorem early_flush (accounted : desk.Accounted journal)
    (flushed : desk.flush workers = .ok (next, batch)) :
    next.metrics.earlyAssigns = desk.metrics.earlyAssigns + journal.early batch.events := by
  have flushes := flush_ok flushed
  have record : ∀ queue, (Ownership.revoke desk.dispatcher.owned (batch.tagged .revoke))[queue]? =
      (journal ++ batch.events.unassigned).ownerOf queue := by
    intro queue
    apply Option.ext
    intro worker
    rw [Ownership.getElem?_revoke, accounted.owned, ← Journal.ownerOf_eq_some_iff,
      Journal.ownerOf_append_ungiven fun worker => batch.not_given_unassigned _,
      Batch.revoked_unassigned, Batch.revoked_events]
  have counted := Ownership.early_foldl_assign (flushes.pairwise_assigns accounted)
    ⟨Ownership.revoke desk.dispatcher.owned (batch.tagged .revoke), 0⟩
  rw [early_of_flush flushed, Ownership.after, counted, Nat.zero_add, Journal.early,
    Batch.assigns_events]
  simp only [record]
  rfl

end Desk

namespace Coordinator

variable {c next ready : Coordinator} {journal events quiet : Journal}

/-- On the way to what an operation delivers at its end: nobody is told anything, and no assign is
    counted. -/
structure Readies (c ready : Coordinator) (events : Journal) : Prop where
  goes : c.Goes ready events
  untold : events.filter Event.isTold = []
  early : ready.desk.metrics.earlyAssigns = c.desk.metrics.earlyAssigns

inductive Closes (c next : Coordinator) (events : Journal) : Prop where
  | quiet : c.Readies next events → Closes c next events
  | flush {ready : Coordinator} {quiet : Journal} {workers : WorkerSet} {batch : Batch} :
      c.Readies ready quiet → ready.desk.flush workers = .ok (next.desk, batch) →
      events = quiet ++ batch.events → Closes c next events

theorem Readies.rest (c : Coordinator) : c.Readies c [] := ⟨⟨rfl, .none⟩, rfl, rfl⟩

theorem Readies.before (readies : c.Readies ready quiet) (closes : ready.Closes next events) :
    c.Closes next (quiet ++ events) := by
  have append : ∀ {last later}, ready.Readies last later → c.Readies last (quiet ++ later) := by
    intro last later rest
    refine ⟨readies.goes.append rest.goes, ?_, rest.early.trans readies.early⟩
    rw [List.filter_append, readies.untold, rest.untold]
    rfl
  cases closes with
  | quiet rest => exact .quiet (append rest)
  | flush rest flushed told =>
    rw [told, ← List.append_assoc]
    exact .flush (append rest) flushed rfl

theorem Readies.closes (readies : c.Readies ready quiet) (workers : WorkerSet) :
    c.Closes (ready.flush workers).coordinator (quiet ++ ready.flushEvents workers) := by
  unfold flush flushEvents
  cases flushed : ready.desk.flush workers with
  | error e =>
    rw [List.append_nil]
    exact .quiet readies
  | ok pair => exact .flush readies flushed rfl

theorem closes_addWorker (c : Coordinator) (worker : Worker) (isOpen : Bool) :
    c.Closes (c.addWorker worker isOpen).coordinator (c.addWorkerEvents worker isOpen) := by
  have registered : c.Readies { c with desk := c.desk.register worker isOpen } [] :=
    ⟨.aside rfl rfl rfl rfl rfl, rfl, rfl⟩
  simp only [addWorker, addWorkerEvents]
  split
  · exact registered.closes _
  · exact .quiet registered

theorem Readies.completeCycle (readies : c.Readies ready quiet) :
    c.Closes ready.completeCycle.coordinator (quiet ++ ready.completeCycleEvents) := by
  unfold Coordinator.completeCycle completeCycleEvents
  split
  · have completed : ready.Goes { ready with desk := ready.desk.complete } [] :=
      .aside rfl rfl rfl rfl rfl
    have goes := readies.goes.append completed
    rw [List.append_nil] at goes
    exact Readies.closes ⟨goes, readies.untold, readies.early⟩ _
  · exact readies.closes _

theorem early_reconcile (c : Coordinator) (change : SplitChange) :
    (c.reconcile change).1.desk.metrics.earlyAssigns = c.desk.metrics.earlyAssigns := by
  simp only [reconcile, Desk.reconcile]
  cases c.job.strategy c.calls change.queues c.job.settings.parallelism with
  | error failure => rfl
  | ok target =>
    simp only [Desk.apply]
    cases c.desk.reconciler.apply change target with
    | error e => rfl
    | ok pair => rfl

theorem early_place (c : Coordinator) (change : QueueChange) (known : SplitMap)
    (lookup : Lookup) : (c.place change known lookup).coordinator.desk.metrics.earlyAssigns =
      c.desk.metrics.earlyAssigns := by
  simp only [place]
  generalize counted : c.count _ = d
  have before : d.desk.metrics.earlyAssigns = c.desk.metrics.earlyAssigns := by rw [← counted]; rfl
  rw [← before]
  generalize merged : d.reconcile _ = pair
  have same := congrArg (·.1.desk.metrics.earlyAssigns) merged
  simp only [early_reconcile] at same
  split <;> exact same.symm

theorem untold_adoptions (delta : Delta) : delta.adoptions.filter Event.isTold = [] :=
  Journal.filter_map_untold fun _ => rfl

theorem closes_finish (c : Coordinator) {change : QueueChange} {known : SplitMap}
    (apart : ∀ queue ∈ change.decreased, queue ∉ change.latest) (keyed : known.Keyed)
    (lookup : Lookup) : c.Closes (c.finish change known lookup).coordinator
      (c.finishEvents change known lookup) := by
  have early := c.early_place change known lookup
  rcases c.place_cases change known lookup with
    ⟨_, delta, placed, places, done, events⟩ | ⟨failed, _, refuses, done, events⟩
  · have fits := SplitChange.fits_ofOffsets keyed apart lookup.starting.offsets
      lookup.stopping.offsets
    simp only [finish, finishEvents, done, events, Outcome.andThen] at early ⊢
    exact Readies.completeCycle ⟨places.goes fits, untold_adoptions delta, early⟩
  · simp only [finish, finishEvents, done, events, Outcome.andThen, List.append_nil] at early ⊢
    refine .quiet ⟨.aside refuses.job refuses.reconciler ?_ ?_ ?_, rfl, early⟩
    · rw [refuses.dispatcher]
    · rw [refuses.dispatcher]
    · rw [refuses.dispatcher]

theorem readies_reconcile {change : SplitChange} {delta : Delta} (fits : change.Fits)
    (merged : c.reconcile change = (next, .ok delta)) : c.Readies next delta.adoptions := by
  obtain ⟨target, answered, applied, settled⟩ := reconcile_ok merged
  have job := c.job_reconcile change
  have early := c.early_reconcile change
  rw [merged] at job early
  have merge : c.desk.Step c.job delta.adoptions next.desk :=
    .merge fits ⟨_, answered⟩ applied settled
  exact ⟨⟨job, merge.steps⟩, untold_adoptions delta, early⟩

theorem closes_returnSplits (known : c.desk.reconciler.known.Keyed) (worker : Worker)
    (splits : List Split) :
    c.Closes (c.returnSplits worker splits).coordinator (c.returnSplitsEvents worker splits) := by
  have released : c.Readies (c.released worker splits) (Journal.losses worker splits) :=
    ⟨⟨rfl, (Desk.Step.release worker splits).steps⟩,
      Journal.filter_map_untold fun _ => rfl, rfl⟩
  have fits : (c.desk.reconciler.returnedChange splits).Fits :=
    Reconciler.fits_returnedChange known splits
  simp only [returnSplits, returnSplitsEvents]
  split
  · exact .quiet (.rest c)
  · generalize merged : reconcile { c with desk := c.desk.release worker splits } _ = pair
    obtain ⟨placed, result⟩ := pair
    cases result with
    | ok delta => exact released.before ((readies_reconcile fits merged).closes _)
    | error e =>
      rw [(reconcile_fails merged).1, List.append_nil]
      exact .quiet ⟨⟨rfl, released.goes.steps⟩, released.untold, rfl⟩

theorem readies_count (c : Coordinator) {change : Metrics → Metrics}
    (same : ∀ m, (change m).earlyAssigns = m.earlyAssigns) : c.Readies (c.count change) [] :=
  ⟨c.goes_count change, rfl, same c.desk.metrics⟩

theorem closes_cycleOver (c : Coordinator) (known : c.desk.reconciler.known.Keyed)
    (latest : QueueSet) (lookUp : QueueSet → Lookup) :
    c.Closes (c.cycleOver latest lookUp).coordinator (c.cycleOverEvents latest lookUp) := by
  unfold cycleOver cycleOverEvents
  cases found : c.changeTo latest with
  | none => exact (Readies.rest c).completeCycle
  | some change =>
    let missed := fun m : Metrics => m.countMissing (lookUp change.wanted).failures
    have counted : c.Readies (c.count missed) [] := c.readies_count fun _ => rfl
    have finished := counted.before ((c.count missed).closes_finish (apart_of_changeTo found) known
      (lookUp change.wanted))
    exact finished

theorem closes_cycle (known : c.desk.reconciler.known.Keyed) (broker : Broker) :
    c.Closes (c.cycle broker).coordinator (c.cycleEvents broker) := by
  unfold cycle cycleEvents
  cases Scan.run broker c.job.topics with
  | error e => exact .quiet (.rest c)
  | ok scan =>
    let scanned := fun m : Metrics => (m.countRefusals scan.refused).countScan scan.queues.size
    have counted : c.Readies (c.count scanned) [] := c.readies_count fun _ => rfl
    have cycled := counted.before ((c.count scanned).closes_cycleOver known scan.queues
      (c.job.lookUp broker))
    exact cycled

theorem Does.closes {surveys : List Survey} (does : c.Does False next events surveys)
    (known : c.desk.reconciler.known.Keyed) : c.Closes next events := by
  cases does with
  | rest => exact .quiet (.rest c)
  | addWorker worker isOpen => exact c.closes_addWorker worker isOpen
  | removeWorker worker => exact .quiet ⟨c.goes_removeWorker worker, rfl, rfl⟩
  | hangUp worker => exact .quiet ⟨c.goes_hangUp worker, rfl, rfl⟩
  | count counts => exact counts.elim
  | returnSplits worker splits => exact closes_returnSplits known worker splits
  | completeCycle latest => exact (Readies.rest c).completeCycle
  | finish apart keyed lookup => exact c.closes_finish apart keyed lookup
  | cycle broker => exact closes_cycle known broker

theorem Closes.early (closes : c.Closes next events) (accounted : c.desk.Accounted journal) :
    next.desk.metrics.earlyAssigns = c.desk.metrics.earlyAssigns + journal.early events := by
  cases closes with
  | quiet readies =>
    rw [readies.early, Journal.early, Journal.assigns_of_untold readies.untold]
    rfl
  | flush readies flushed told =>
    rw [told, Journal.early_append readies.untold, ← readies.early]
    exact Desk.early_flush (readies.goes.steps.accounted accounted) flushed

/-- A queue that is on record for its holder before an act is still so when the assigns of the act
    go out, unless it is handed back in the act. -/
theorem Closes.recorded_before {queue : Queue} (closes : c.Closes next events)
    (accounted : c.desk.Accounted journal) (recorded : journal.Recorded queue)
    (kept : ∀ worker, ¬ events.Returned ⟨worker, queue⟩) :
    (journal ++ events.unassigned).Recorded queue := by
  cases closes with
  | quiet readies =>
    rw [Journal.unassigned_of_untold readies.untold]
    exact readies.goes.steps.recorded accounted readies.untold kept recorded
  | @flush ready quiet workers batch readies flushed told =>
    subst told
    simp only [Journal.occurs_append, not_or] at kept
    have before := readies.goes.steps.recorded accounted readies.untold
      (fun worker => (kept worker).1) recorded
    rw [Journal.unassigned_append, Journal.unassigned_of_untold readies.untold,
      ← List.append_assoc]
    apply before.append_ungiven fun worker => batch.not_given_unassigned _
    rintro worker ⟨event, member, returns⟩
    exact (kept worker).2 ⟨event, (List.mem_filter.mp member).1, returns⟩

theorem Closes.recorded {queue : Queue} (closes : c.Closes next events)
    (accounted : c.desk.Accounted journal) (recorded : journal.Recorded queue)
    (kept : ∀ worker, ¬ events.Returned ⟨worker, queue⟩)
    (alone : ∀ v w, queue ∈ (journal ++ events).heldBy v → queue ∈ (journal ++ events).heldBy w →
      v = w) : (journal ++ events).Recorded queue := by
  cases closes with
  | quiet readies => exact readies.goes.steps.recorded accounted readies.untold kept recorded
  | flush readies flushed told =>
    subst told
    simp only [Journal.occurs_append, not_or] at kept
    have before := readies.goes.steps.recorded accounted readies.untold
      (fun worker => (kept worker).1) recorded
    rw [← List.append_assoc] at alone ⊢
    exact (Desk.flush_ok flushed).recorded (readies.goes.steps.accounted accounted) before alone

end Coordinator

theorem Reached.closes {site : Site} {journal : Journal} (reached : Reached site journal)
    {act : Act} (unmetered : ∀ change, act ≠ .meter change) :
    site.coordinator.Closes (site.after act).coordinator (site.events act) := by
  have does := Site.does reached.fits act
  rw [eq_false (not_exists.mpr unmetered)] at does
  exact does.closes reached.sound.accounted.balanced.known

/-- The runs in which a queue is never handed back and never with two workers between two acts. -/
inductive Undisputed (queue : Queue) : Site → Journal → Prop where
  | start (job : Job) : Undisputed queue (.direct (.start job)) []
  | restore {job : Job} {checkpoint : Checkpoint} {metrics : Metrics} {c : Coordinator} :
      Coordinator.restore job checkpoint metrics = .ok c →
      Undisputed queue (.direct c) c.restoredEvents
  | act {site : Site} {journal : Journal} (before : Undisputed queue site journal) (act : Act) :
      (∀ worker, ¬ (site.events act).Returned ⟨worker, queue⟩) →
      (∀ v w, queue ∈ (journal ++ site.events act).heldBy v →
        queue ∈ (journal ++ site.events act).heldBy w → v = w) →
      Undisputed queue (site.after act) (journal ++ site.events act)

namespace Undisputed

variable {queue : Queue} {site : Site} {journal : Journal}

theorem reached (undisputed : Undisputed queue site journal) : Reached site journal := by
  induction undisputed with
  | start job => exact .start job
  | restore opened => exact .restore opened
  | act before act _ _ ih => exact ih.act act

theorem recorded (undisputed : Undisputed queue site journal) : journal.Recorded queue := by
  induction undisputed with
  | start job =>
    intro worker
    simp [Journal.heldBy, Journal.ownerOf]
  | @restore job checkpoint metrics c opened =>
    have exclusive : c.desk.reconciler.current.Exclusive :=
      (Coordinator.sound_restore opened).accounted.balanced.exclusive
    apply Journal.recorded_of_given
    · intro v w first second
      exact exclusive ((c.given_restoredEvents _).mp first) ((c.given_restoredEvents _).mp second)
    · exact fun worker => c.not_revoked_restoredEvents _
    · exact fun worker => Journal.not_occurs_map fun _ => rfl
  | @act site journal before act kept alone ih =>
    by_cases metered : ∃ change, act = .meter change
    · obtain ⟨change, rfl⟩ := metered
      have nothing : site.events (.meter change) = [] := by
        cases site <;> rfl
      rw [nothing, List.append_nil]
      exact ih
    · exact (before.reached.closes (not_exists.mp metered)).recorded
        before.reached.sound.accounted ih kept alone

end Undisputed

/-- An act raises the counter of early assigns by the number of its assigns whose queue is on record
    for another worker. Such a worker still holds the queue or has handed it back. Where the queues
    of all its assigns are on record for their holders, and none of them is handed back in the act,
    that is the number of queues that another worker still holds. It is so for every queue that was
    never handed back and never with two workers. -/
theorem early_assigns_counted_by_record {site : Site} {journal : Journal}
    (reached : Reached site journal) {act : Act} (unmetered : ∀ change, act ≠ .meter change) :
    let events := site.events act
    let counter := fun site : Site => site.coordinator.desk.metrics.earlyAssigns
    counter (site.after act) = counter site + journal.early events ∧
    (∀ placement ∈ events.assigns, (journal ++ events.unassigned).ownedBeside placement = true →
      (journal ++ events.unassigned).heldBeside placement = true ∨
        ∃ worker ≠ placement.worker,
          (journal ++ events.unassigned).Returned ⟨worker, placement.queue⟩) ∧
    ((∀ placement ∈ events.assigns, journal.Recorded placement.queue ∧
        ∀ worker, ¬ events.Returned ⟨worker, placement.queue⟩) →
      counter (site.after act) = counter site + journal.overlaps events) ∧
    ∀ queue, Undisputed queue site journal → journal.Recorded queue := by
  intro events counter
  have closes := reached.closes unmetered
  have accounted := reached.sound.accounted
  refine ⟨closes.early accounted, ?_, ?_, fun queue undisputed => undisputed.recorded⟩
  · intro placement _ counted
    obtain ⟨worker, other, owned⟩ := Journal.ownedBeside_iff.mp counted
    rcases Journal.mem_heldBy_or_returned (Journal.ownerOf_eq_some_iff.mp owned).2 with held | back
    · exact Or.inl (Journal.heldBeside_iff.mpr ⟨worker, other, held⟩)
    · exact Or.inr ⟨worker, other, back⟩
  · intro recorded
    have same : journal.early events = journal.overlaps events := by
      apply List.countP_congr
      intro placement member
      obtain ⟨before, kept⟩ := recorded placement member
      have right : (journal ++ events.unassigned).Recorded placement.queue :=
        closes.recorded_before accounted before kept
      rw [Journal.ownedBeside_iff, Journal.heldBeside_iff]
      exact exists_congr fun worker => and_congr_right fun _ => (right worker).symm
    rw [← same]
    exact closes.early accounted

theorem early_assign_counted :
    let acts := [Act.join 0 true, .join 1 true, .cycle (Sample.broker [0, 1]), .leave 1]
    let act := Act.cycle (Sample.broker [1])
    ((Sample.site acts).after act).coordinator.desk.metrics.earlyAssigns =
        (Sample.site acts).coordinator.desk.metrics.earlyAssigns +
          (Sample.journal acts).overlaps ((Sample.site acts).events act) ∧
      (Sample.journal acts).overlaps ((Sample.site acts).events act) = 1 := by
  intro acts act
  have unmetered : ∀ change, act ≠ .meter change := by
    intro change
    simp [act]
  obtain ⟨_, _, exact, _⟩ := early_assigns_counted_by_record (Sample.reached acts) unmetered
  have assigns : ((Sample.site acts).events act).assigns = [⟨0, Sample.queue 1⟩] := by
    decide +kernel
  have kept : ∀ event ∈ (Sample.site acts).events act, event.returns = none := by decide +kernel
  refine ⟨exact ?_, by decide +kernel⟩
  intro placement assigned
  rw [assigns, List.mem_singleton] at assigned
  subst assigned
  refine ⟨Journal.recorded_of_holders (by decide +kernel), ?_⟩
  rintro worker ⟨event, member, returns⟩
  rw [kept event member] at returns
  cases returns

namespace Sample

def handedOn : Job :=
  { job with strategy := .scripted [
      .ok (Table.ofEntries [(0, ExtTreeSet.ofList [queue 0])]),
      .ok (Table.ofEntries [(1, ExtTreeSet.ofList [queue 0]), (2, ExtTreeSet.ofList [queue 1])]),
      .ok (Table.ofEntries [(2, ExtTreeSet.ofList [queue 0, queue 1])])] }

end Sample

/-- The record still names a worker that handed the queue back, and it forgets a worker that left with
    the queue once the next one is told to give it up. -/
theorem early_assigns_miscounted :
    let returned := [Act.join 0 true, .join 1 true, .cycle (Sample.broker [0, 1]), .leave 1,
      .takeBack 1 [.assign (Sample.queue 1) 5 none]]
    let shrink := Act.cycle (Sample.broker [1])
    let start := Site.direct (.start Sample.handedOn)
    let passed := [Act.join 0 true, .join 1 true, .join 2 true, .cycle (Sample.broker [0]), .leave 0,
      .cycle (Sample.broker [0, 1])]
    let grow := Act.cycle (Sample.broker [0, 1, 2])
    (((Sample.site returned).after shrink).coordinator.desk.metrics.earlyAssigns =
        (Sample.site returned).coordinator.desk.metrics.earlyAssigns + 1 ∧
      (Sample.journal returned).overlaps ((Sample.site returned).events shrink) = 0) ∧
    (((start.run passed).after grow).coordinator.desk.metrics.earlyAssigns =
        (start.run passed).coordinator.desk.metrics.earlyAssigns ∧
      (start.journal passed).overlaps ((start.run passed).events grow) = 1) := by
  decide +kernel

end QueueAssignment
