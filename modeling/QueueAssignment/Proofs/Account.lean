import QueueAssignment.Proofs.Flush

/-!
The books of a desk: what is pending is the difference to what the journal says the workers
hold, and an owner is on record for the last worker that a queue was given to, until that
worker is told to give it up.
-/
namespace QueueAssignment
open Std

def Delta.adoptions (delta : Delta) : Journal :=
  delta.adopted.toList.map fun entry => .adopted ⟨entry.2, entry.1⟩

def Journal.losses (worker : Worker) (splits : List Split) : Journal :=
  splits.map fun split => .lost ⟨worker, split.queue⟩

namespace Delta

theorem given_adoptions {delta : Delta} {placement : Placement} :
    delta.adoptions.Given placement ↔ delta.adopted[placement.queue]? = some placement.worker := by
  rw [adoptions, Journal.Given, Journal.occurs_map]
  constructor
  · intro given
    obtain ⟨⟨queue, worker⟩, listed, gives⟩ := given
    cases gives
    exact ExtTreeMap.mem_toList_iff_getElem?_eq_some.mp listed
  · intro found
    exact ⟨(placement.queue, placement.worker),
      ExtTreeMap.mem_toList_iff_getElem?_eq_some.mpr found, rfl⟩

theorem not_revoked_adoptions {delta : Delta} {placement : Placement} :
    ¬ delta.adoptions.Revoked placement :=
  Journal.not_occurs_map fun _ => rfl

theorem not_returned_adoptions {delta : Delta} {placement : Placement} :
    ¬ delta.adoptions.Returned placement :=
  Journal.not_occurs_map fun _ => rfl

theorem mem_heldBy_adoptions {delta : Delta} {journal : Journal} {worker : Worker}
    {queue : Queue} :
    queue ∈ (journal ++ delta.adoptions).heldBy worker ↔
      queue ∈ journal.heldBy worker ∨ delta.adopted[queue]? = some worker := by
  rw [Journal.mem_heldBy_append (fun _ => not_revoked_adoptions) fun _ => not_returned_adoptions,
    given_adoptions]
  simp only [not_revoked_adoptions, not_returned_adoptions, not_false_eq_true, and_true]
  exact or_comm

end Delta

namespace Journal

theorem not_given_losses {worker : Worker} {splits : List Split} {placement : Placement} :
    ¬ (losses worker splits).Given placement :=
  not_occurs_map fun _ => rfl

theorem not_revoked_losses {worker : Worker} {splits : List Split} {placement : Placement} :
    ¬ (losses worker splits).Revoked placement :=
  not_occurs_map fun _ => rfl

theorem returned_losses {worker : Worker} {splits : List Split} {placement : Placement} :
    (losses worker splits).Returned placement ↔
      placement.worker = worker ∧ placement.queue ∈ Reconciler.queuesOf splits := by
  rw [losses, Returned, occurs_map, Reconciler.queuesOf, Table.mem_ofList, List.mem_map]
  constructor
  · intro returned
    obtain ⟨split, listed, returns⟩ := returned
    cases returns
    exact ⟨rfl, split, listed, rfl⟩
  · intro reported
    obtain ⟨same, split, listed, queue⟩ := reported
    refine ⟨split, listed, ?_⟩
    rw [queue, ← same]
    rfl

theorem mem_heldBy_losses {journal : Journal} {worker other : Worker} {splits : List Split}
    {queue : Queue} :
    queue ∈ (journal ++ losses worker splits).heldBy other ↔
      queue ∈ journal.heldBy other ∧ ¬ (other = worker ∧ queue ∈ Reconciler.queuesOf splits) := by
  rw [mem_heldBy_append (fun _ => not_revoked_losses) fun given => absurd given not_given_losses,
    returned_losses]
  simp [not_given_losses, not_revoked_losses]

theorem newest_losses {journal : Journal} {worker : Worker} {splits : List Split}
    {placement : Placement} :
    (journal ++ losses worker splits).Newest placement ↔ journal.Newest placement := by
  rw [newest_append fun _ given => absurd given not_given_losses]
  simp [not_given_losses]

end Journal

theorem Batch.told_events (batch : Batch) : batch.events.filter Event.isTold = batch.events := by
  rw [List.filter_eq_self]
  intro event member
  obtain ⟨part, _, split, _, rfl⟩ := mem_events.mp member
  rfl

namespace Desk

structure Accounted (desk : Desk) (journal : Journal) : Prop where
  balanced : desk.reconciler.Balanced journal.heldBy
  owned : ∀ {queue worker}, desk.dispatcher.owned[queue]? = some worker ↔
    journal.Newest ⟨worker, queue⟩ ∧ journal.Unrevoked ⟨worker, queue⟩
  held : ∀ queue ∈ desk.reconciler.held, queue ∈ desk.dispatcher.held
  told : desk.dispatcher.registry.told = journal.filter Event.isTold

variable {desk next : Desk} {journal : Journal}

theorem Accounted.congr (accounted : desk.Accounted journal)
    (reconciler : next.reconciler = desk.reconciler)
    (owned : next.dispatcher.owned = desk.dispatcher.owned)
    (held : next.dispatcher.held = desk.dispatcher.held)
    (told : next.dispatcher.registry.told = desk.dispatcher.registry.told) :
    next.Accounted journal where
  balanced := reconciler ▸ accounted.balanced
  owned := owned ▸ accounted.owned
  held := by
    rw [reconciler, held]
    exact accounted.held
  told := told ▸ accounted.told

theorem Flushes.mem_assigned {workers : WorkerSet} {batch : Batch}
    (flushes : desk.Flushes workers next batch) (accounted : desk.Accounted journal)
    (placement : Placement) :
    placement ∈ batch.tagged .assign ↔ placement.worker ∈ workers ∧
      placement.queue ∈ desk.reconciler.current.queuesOf placement.worker ∧
        placement.queue ∉ journal.heldBy placement.worker := by
  rw [flushes.drained, mem_tagged_batchFor accounted.balanced.pending, accounted.balanced.net,
    Reconciler.due_eq_assign_iff]

theorem Flushes.mem_revoked {workers : WorkerSet} {batch : Batch}
    (flushes : desk.Flushes workers next batch) (accounted : desk.Accounted journal)
    (placement : Placement) :
    placement ∈ batch.tagged .revoke ↔ placement.worker ∈ workers ∧
      placement.queue ∈ journal.heldBy placement.worker ∧
        placement.queue ∉ desk.reconciler.current.queuesOf placement.worker := by
  rw [flushes.drained, mem_tagged_batchFor accounted.balanced.pending, accounted.balanced.net,
    Reconciler.due_eq_revoke_iff]

theorem Flushes.apart {workers : WorkerSet} {batch : Batch}
    (flushes : desk.Flushes workers next batch) (accounted : desk.Accounted journal)
    {placement : Placement} (given : batch.events.Given placement) :
    ¬ batch.events.Revoked placement := by
  intro revoked
  rw [Batch.given_events, flushes.mem_assigned accounted] at given
  rw [Batch.revoked_events, flushes.mem_revoked accounted] at revoked
  exact revoked.2.2 given.2.1

theorem Flushes.single {workers : WorkerSet} {batch : Batch}
    (flushes : desk.Flushes workers next batch) (accounted : desk.Accounted journal)
    {v w : Worker} {queue : Queue} (first : batch.events.Given ⟨v, queue⟩)
    (second : batch.events.Given ⟨w, queue⟩) : v = w := by
  rw [Batch.given_events, flushes.mem_assigned accounted] at first second
  exact accounted.balanced.exclusive first.2.1 second.2.1

theorem Flushes.mem_heldBy {workers : WorkerSet} {batch : Batch}
    (flushes : desk.Flushes workers next batch) (accounted : desk.Accounted journal)
    {worker : Worker} {queue : Queue} :
    queue ∈ (journal ++ batch.events).heldBy worker ↔ batch.events.Given ⟨worker, queue⟩ ∨
      queue ∈ journal.heldBy worker ∧ ¬ batch.events.Revoked ⟨worker, queue⟩ := by
  rw [Journal.mem_heldBy_append (flushes.apart accounted) fun _ => Batch.not_returned_events]
  simp only [Batch.not_returned_events, not_false_eq_true, and_true]

theorem Flushes.accounted {workers : WorkerSet} {batch : Batch}
    (flushes : desk.Flushes workers next batch) (accounted : desk.Accounted journal) :
    next.Accounted (journal ++ batch.events) := by
  have assigned := flushes.mem_assigned accounted
  have revoked := flushes.mem_revoked accounted
  refine { balanced := ?balanced, owned := ?owned, held := ?held, told := ?told }
  case balanced =>
    rw [flushes.reconciler]
    apply Reconciler.balanced_drain accounted.balanced
    intro worker queue
    rw [flushes.mem_heldBy accounted, Batch.given_events, Batch.revoked_events, assigned, revoked]
    by_cases served : worker ∈ workers
    · by_cases gets : queue ∈ desk.reconciler.current.queuesOf worker
      · simp [served, gets, Classical.or_iff_not_imp_left]
      · simp [served, gets]
    · simp [served]
  case owned =>
    intro queue worker
    have single : ∀ v w, ⟨v, queue⟩ ∈ batch.tagged .assign → ⟨w, queue⟩ ∈ batch.tagged .assign →
        v = w := by
      intro v w first second
      rw [← Batch.given_events] at first second
      exact flushes.single accounted first second
    rw [flushes.owned, Ownership.getElem?_after single, accounted.owned,
      Journal.newest_append fun _ given again => flushes.single accounted again given]
    simp only [Journal.lasts_append (flushes.apart accounted), Batch.given_events,
      Batch.revoked_events]
    by_cases given : ⟨worker, queue⟩ ∈ batch.tagged .assign
    · simp [given]
    · simp only [given, false_or]
      constructor
      · intro all
        obtain ⟨⟨newest, unrevoked⟩, kept, none⟩ := all
        exact ⟨⟨newest, none⟩, unrevoked, kept⟩
      · intro all
        obtain ⟨⟨newest, none⟩, unrevoked, kept⟩ := all
        exact ⟨⟨newest, unrevoked⟩, kept, none⟩
  case held =>
    intro queue member
    rw [flushes.reconciler] at member
    rw [flushes.held, ExtTreeSet.mem_diff_iff]
    refine ⟨accounted.held queue member, ?_⟩
    intro sent
    obtain ⟨placement, given, rfl⟩ := List.mem_map.mp (Table.mem_ofList.mp sent)
    exact accounted.balanced.free ((assigned placement).mp given).2.1 member
  case told =>
    rw [flushes.told, accounted.told, List.filter_append, Batch.told_events]

theorem getElem?_owned_settle {d : Dispatcher} {delta : Delta} {queue : Queue} {worker : Worker}
    (held : ∀ v, delta.adopted[queue]? = some v → queue ∈ d.held) :
    (d.settle delta).owned[queue]? = some worker ↔
      delta.adopted[queue]? = some worker ∨
        d.owned[queue]? = some worker ∧ ∀ v, delta.adopted[queue]? ≠ some v := by
  simp only [Dispatcher.settle, ExtTreeMap.getElem?_union, ExtTreeMap.getElem?_filter',
    Option.or_eq_some_iff]
  cases adopted : delta.adopted[queue]? with
  | none => simp
  | some v => simp [held v adopted]

theorem Accounted.merge (accounted : desk.Accounted journal) {change : SplitChange}
    (fits : change.Fits) {target : Assignment} {delta : Delta}
    (applied : desk.reconciler.apply change target = .ok (next.reconciler, delta))
    (settled : next.dispatcher = desk.dispatcher.settle delta) :
    next.Accounted (journal ++ delta.adoptions) := by
  have merges := Reconciler.merges_of_apply accounted.balanced fits applied
  have unrevoked : ∀ placement, delta.adoptions.Given placement →
      ¬ delta.adoptions.Revoked placement := fun _ _ => Delta.not_revoked_adoptions
  refine { balanced := ?balanced, owned := ?owned, held := ?held, told := ?told }
  case balanced =>
    exact Reconciler.balanced_apply accounted.balanced fits.latest merges
      fun _ _ => Delta.mem_heldBy_adoptions
  case owned =>
    intro queue worker
    rw [settled, getElem?_owned_settle, accounted.owned, Journal.newest_append]
    · simp only [Journal.lasts_append (unrevoked _), Delta.given_adoptions,
        Delta.not_revoked_adoptions, not_false_eq_true, and_true]
      by_cases given : delta.adopted[queue]? = some worker
      · simp [given]
      · simp only [given, false_or]
        exact and_right_comm
    · intro other given again
      rw [Delta.given_adoptions] at given again
      exact Option.some.inj (again.symm.trans given)
    · intro v adopted
      exact accounted.held queue (merges.adopted.mp adopted).2
  case held =>
    intro queue member
    obtain ⟨before, orphan, kept⟩ := merges.held.mp member
    rw [settled]
    simp only [Dispatcher.settle, ExtTreeSet.mem_diff_iff, Table.mem_keys]
    exact ⟨⟨accounted.held queue before, orphan⟩, kept⟩
  case told =>
    rw [settled, List.filter_append, Delta.adoptions, Journal.filter_map_untold fun _ => rfl,
      List.append_nil]
    exact accounted.told

theorem Accounted.release (accounted : desk.Accounted journal) (worker : Worker)
    (splits : List Split) :
    (desk.release worker splits).Accounted (journal ++ Journal.losses worker splits) where
  balanced := Reconciler.balanced_release accounted.balanced fun _ _ => Journal.mem_heldBy_losses
  owned := by
    intro queue other
    have ungiven : ∀ placement, ¬ (Journal.losses worker splits).Given placement :=
      fun _ => Journal.not_given_losses
    rw [Journal.newest_losses]
    simp only [Journal.lasts_append fun given => absurd given (ungiven _), ungiven,
      Journal.not_revoked_losses, false_or, not_false_eq_true, and_true]
    exact accounted.owned
  held := fun queue member => accounted.held queue (ExtTreeSet.mem_diff_iff.mp member).1
  told := by
    rw [List.filter_append, Journal.losses, Journal.filter_map_untold fun _ => rfl,
      List.append_nil]
    exact accounted.told

/-- Nothing is pending for the workers that can be reached. -/
def CaughtUp (desk : Desk) : Prop :=
  ∀ {worker}, desk.dispatcher.registry.isRegistered worker = true →
    ∀ queue, desk.reconciler.pending[(⟨worker, queue⟩ : Placement)]? = none

theorem CaughtUp.release (caughtUp : desk.CaughtUp) (worker : Worker) (splits : List Split) :
    (desk.release worker splits).CaughtUp := by
  intro other registered queue
  have nothing := caughtUp registered queue
  have left : (desk.release worker splits).reconciler.pending[(⟨other, queue⟩ : Placement)]? = _ :=
    Reconciler.getElem?_pending_release
  rw [left, nothing, ite_self]

theorem Flushes.isRegistered {workers : WorkerSet} {batch : Batch}
    (flushes : desk.Flushes workers next batch) (worker : Worker) :
    next.dispatcher.registry.isRegistered worker =
      desk.dispatcher.registry.isRegistered worker := by
  simp only [Registry.isRegistered, flushes.connections]

theorem Flushes.caughtUp {workers : WorkerSet} {batch : Batch}
    (flushes : desk.Flushes workers next batch)
    (others : ∀ {worker}, desk.dispatcher.registry.isRegistered worker = true →
      worker ∉ workers → ∀ queue, desk.reconciler.pending[(⟨worker, queue⟩ : Placement)]? = none) :
    next.CaughtUp := by
  intro worker registered queue
  rw [flushes.isRegistered] at registered
  rw [flushes.reconciler, Reconciler.getElem?_pending_drain]
  split
  · rfl
  · rename_i unserved
    exact others registered unserved queue

end Desk

end QueueAssignment
