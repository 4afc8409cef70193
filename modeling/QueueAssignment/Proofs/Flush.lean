import QueueAssignment.Desk
import QueueAssignment.Proofs.Balance
import QueueAssignment.Proofs.Journal

/-!
A flush sends its workers all that is pending for them and nothing else, and records the
owners of what it sent. The splits of a batch are for different placements, so the order
in which they are recorded does not matter.
-/
namespace QueueAssignment
open Std

namespace Batch

def events (batch : Batch) : Journal :=
  batch.flatMap fun part => part.2.map (Event.told part.1)

theorem mem_events {batch : Batch} {event : Event} :
    event ∈ batch.events ↔
      ∃ part ∈ batch, ∃ split ∈ part.2, event = .told part.1 split := by
  simp only [events, List.mem_flatMap, List.mem_map, eq_comm]

theorem occurs_events {batch : Batch} {select : Event → Option Placement} {placement : Placement} :
    batch.events.Occurs select placement ↔
      ∃ part ∈ batch, ∃ split ∈ part.2, select (.told part.1 split) = some placement := by
  constructor
  · intro found
    obtain ⟨event, member, selected⟩ := found
    obtain ⟨part, inside, split, listed, rfl⟩ := mem_events.mp member
    exact ⟨part, inside, split, listed, selected⟩
  · intro found
    obtain ⟨part, inside, split, listed, selected⟩ := found
    exact ⟨_, mem_events.mpr ⟨part, inside, split, listed, rfl⟩, selected⟩

theorem mem_tagged {batch : Batch} {tag : Tag} {placement : Placement} :
    placement ∈ batch.tagged tag ↔
      ∃ part ∈ batch, ∃ split ∈ part.2, split.tag = tag ∧
        Placement.mk part.1 split.queue = placement := by
  simp only [tagged, List.mem_flatMap, List.mem_map, List.mem_filter, decide_eq_true_eq, and_assoc]

theorem mem_tagged_iff_told {batch : Batch} {tag : Tag} {placement : Placement} :
    placement ∈ batch.tagged tag ↔ ∃ split, Event.told placement.worker split ∈ batch.events ∧
      split.tag = tag ∧ split.queue = placement.queue := by
  rw [mem_tagged]
  simp only [mem_events]
  constructor
  · intro listed
    obtain ⟨part, member, split, inside, tagged, rfl⟩ := listed
    exact ⟨split, ⟨part, member, split, inside, rfl⟩, tagged, rfl⟩
  · intro told
    obtain ⟨split, ⟨part, member, other, inside, same⟩, tagged, queue⟩ := told
    obtain ⟨worker, rfl⟩ := Event.told.inj same
    exact ⟨part, member, split, inside, tagged, by rw [← worker, queue]⟩

theorem given_events {batch : Batch} {placement : Placement} :
    batch.events.Given placement ↔ placement ∈ batch.tagged .assign := by
  rw [Journal.Given, occurs_events, mem_tagged]
  simp [Event.gives, Split.isAssign]

theorem revoked_events {batch : Batch} {placement : Placement} :
    batch.events.Revoked placement ↔ placement ∈ batch.tagged .revoke := by
  rw [Journal.Revoked, occurs_events, mem_tagged]
  simp [Event.revokes, Split.isRevoke]

theorem not_returned_events {batch : Batch} {placement : Placement} :
    ¬ batch.events.Returned placement := by
  rw [Journal.Returned, occurs_events]
  simp [Event.returns]

end Batch

namespace Ownership

theorem owners_foldl_assign (placements : List Placement) (ownership : Ownership) :
    (placements.foldl assign ownership).owners =
      (placements.map fun placement => (placement.queue, placement.worker)).foldl
        (fun owners entry => owners.insert entry.1 entry.2) ownership.owners := by
  induction placements generalizing ownership with
  | nil => rfl
  | cons placement rest ih =>
    simp only [List.foldl_cons, List.map_cons]
    rw [ih]
    rfl

theorem getElem?_revoke {owners : OwnerMap} {revoked : List Placement} {queue : Queue}
    {worker : Worker} :
    (revoke owners revoked)[queue]? = some worker ↔
      owners[queue]? = some worker ∧ ⟨worker, queue⟩ ∉ revoked := by
  simp only [revoke, ExtTreeMap.getElem?_filter', Option.filter_eq_some_iff, decide_eq_true_eq,
    Table.mem_ofList]

/-- A batch that assigns no queue to two workers leaves each queue with the worker it is assigned
    to, and any other with its owner unless that one is told to give it up. -/
theorem getElem?_after {owners : OwnerMap} {batch : Batch} {queue : Queue} {worker : Worker}
    (single : ∀ v w, ⟨v, queue⟩ ∈ batch.tagged .assign → ⟨w, queue⟩ ∈ batch.tagged .assign →
      v = w) :
    (after owners batch).owners[queue]? = some worker ↔
      ⟨worker, queue⟩ ∈ batch.tagged .assign ∨
        owners[queue]? = some worker ∧ ⟨worker, queue⟩ ∉ batch.tagged .revoke ∧
          ∀ other, ⟨other, queue⟩ ∉ batch.tagged .assign := by
  have listed : ∀ w, (queue, w) ∈ (batch.tagged .assign).map (fun p => (p.queue, p.worker)) ↔
      ⟨w, queue⟩ ∈ batch.tagged .assign := by
    intro w
    rw [List.mem_map]
    constructor
    · intro listing
      obtain ⟨placement, member, eq⟩ := listing
      cases eq
      exact member
    · intro member
      exact ⟨_, member, rfl⟩
  rw [after, owners_foldl_assign]
  rcases Table.foldl_insert_cases ((batch.tagged .assign).map fun p => (p.queue, p.worker))
    (revoke owners (batch.tagged .revoke)) queue with ⟨w, member, value⟩ | ⟨absent, value⟩
  · have given := (listed w).mp member
    rw [value, Option.some.injEq]
    constructor
    · intro same
      exact Or.inl (same ▸ given)
    · intro either
      rcases either with other | ⟨_, _, none⟩
      · exact single w worker given other
      · exact absurd given (none w)
  · have ungiven : ∀ w, ⟨w, queue⟩ ∉ batch.tagged .assign := by
      intro w member
      exact absent w ((listed w).mpr member)
    rw [value, getElem?_revoke]
    constructor
    · intro both
      obtain ⟨owned, kept⟩ := both
      exact Or.inr ⟨owned, kept, ungiven⟩
    · intro either
      rcases either with given | ⟨owned, kept, _⟩
      · exact absurd given (ungiven worker)
      · exact ⟨owned, kept⟩

end Ownership

def Delivery.events (delivery : Delivery) : Journal :=
  match delivery.command with
  | .assign splits => splits.map (Event.told delivery.worker)
  | .noMoreSplits => []

namespace Registry

def told (r : Registry) : Journal := r.sent.flatMap Delivery.events

theorem connections_send (r : Registry) (worker : Worker) (command : Command) :
    (r.send worker command).connections = r.connections := by
  unfold send
  split
  · split <;> rfl
  · rfl

theorem told_send_noMoreSplits (r : Registry) (worker : Worker) :
    (r.send worker .noMoreSplits).told = r.told := by
  unfold send
  split
  · split
    · simp [told, Delivery.events]
    · rfl
  · rfl

theorem told_send_assign {r : Registry} {worker : Worker} (there : r.isRegistered worker = true)
    (splits : List Split) :
    (r.send worker (.assign splits)).told = r.told ++ splits.map (Event.told worker) := by
  unfold isRegistered at there
  unfold send
  split at there
  · rename_i channel found
    simp [there, told, Delivery.events]
  · cases there

theorem isRegistered_send (r : Registry) (worker other : Worker) (command : Command) :
    (r.send worker command).isRegistered other = r.isRegistered other := by
  simp only [isRegistered, connections_send]

theorem connections_sendAll (r : Registry) (batch : Batch) :
    (batch.foldl (fun r part => r.send part.1 (.assign part.2)) r).connections =
      r.connections := by
  induction batch generalizing r with
  | nil => rfl
  | cons part rest ih => rw [List.foldl_cons, ih, connections_send]

theorem told_sendAll {r : Registry} {batch : Batch}
    (there : ∀ part ∈ batch, r.isRegistered part.1 = true) :
    (batch.foldl (fun r part => r.send part.1 (.assign part.2)) r).told =
      r.told ++ batch.events := by
  induction batch generalizing r with
  | nil => simp [Batch.events]
  | cons part rest ih =>
    rw [List.foldl_cons, ih]
    · rw [told_send_assign (there part (by simp))]
      simp [Batch.events]
    · intro other member
      rw [isRegistered_send]
      exact there other (by simp [member])

end Registry

namespace Dispatcher

theorem signalOne_same (d : Dispatcher) (worker : Worker) :
    (d.signalOne worker).owned = d.owned ∧ (d.signalOne worker).held = d.held ∧
      (d.signalOne worker).registry.connections = d.registry.connections ∧
      (d.signalOne worker).registry.told = d.registry.told := by
  unfold signalOne
  split
  · exact ⟨rfl, rfl, rfl, rfl⟩
  · exact ⟨rfl, rfl, Registry.connections_send .., Registry.told_send_noMoreSplits ..⟩

theorem signal_same (d : Dispatcher) (workers : WorkerSet) :
    (d.signal workers).owned = d.owned ∧ (d.signal workers).held = d.held ∧
      (d.signal workers).registry.connections = d.registry.connections ∧
      (d.signal workers).registry.told = d.registry.told := by
  unfold signal
  induction workers.toList generalizing d with
  | nil => exact ⟨rfl, rfl, rfl, rfl⟩
  | cons worker rest ih =>
    obtain ⟨owned, held, connections, told⟩ := signalOne_same d worker
    have later := ih (d.signalOne worker)
    rw [owned, held, connections, told] at later
    exact later

theorem deliver_nil (d : Dispatcher) : d.deliver [] = d := by
  have owned : (Ownership.after d.owned []).owners = d.owned := by
    apply ExtTreeMap.ext_getElem?
    intro queue
    apply Option.ext
    intro worker
    rw [Ownership.getElem?_after] <;> simp [Batch.tagged]
  have held : d.held \ ExtTreeSet.ofList ((Batch.tagged [] .assign).map Placement.queue) =
      d.held := by
    apply ExtTreeSet.ext_mem
    simp [Batch.tagged]
  unfold deliver
  rw [owned, held]
  rfl

end Dispatcher

namespace Reconciler

theorem drain_empty (r : Reconciler) : r.drain ∅ = r := by
  have pending : (r.drain ∅).pending = r.pending := by
    apply ExtTreeMap.ext_getElem?
    intro placement
    simp [getElem?_pending_drain]
  cases r
  simpa [drain] using pending

end Reconciler

namespace Reconciler

theorem mem_pendingFor {r : Reconciler} {worker : Worker} {split : Split} :
    split ∈ r.pendingFor worker ↔
      ∃ queue, r.pending[(⟨worker, queue⟩ : Placement)]? = some split := by
  have parts : split ∈ r.pendingFor worker ↔ split ∈ r.pending.ofWorker worker := by
    simp only [pendingFor, List.mem_append, List.mem_filter, Split.isRevoke, Split.isAssign,
      decide_eq_true_eq]
    cases split.tag with
    | assign => simp
    | revoke => simp
  rw [parts, PlacedSplits.ofWorker, Table.mem_values]
  simp only [ExtTreeMap.getElem?_filter', Option.filter_eq_some_iff, decide_eq_true_eq]
  constructor
  · intro found
    obtain ⟨⟨target, queue⟩, waiting, rfl⟩ := found
    exact ⟨queue, waiting⟩
  · intro found
    obtain ⟨queue, waiting⟩ := found
    exact ⟨⟨worker, queue⟩, waiting, rfl⟩

theorem pendingFor_eq_nil_iff {r : Reconciler} {worker : Worker} :
    r.pendingFor worker = [] ↔ ∀ queue, r.pending[(⟨worker, queue⟩ : Placement)]? = none := by
  rw [List.eq_nil_iff_forall_not_mem]
  simp only [mem_pendingFor, not_exists, Option.eq_none_iff_forall_ne_some]
  exact forall_comm

end Reconciler

namespace Desk

theorem told_mem_batchFor {desk : Desk} (keyed : desk.reconciler.pending.Keyed)
    {workers : WorkerSet} {worker : Worker} {split : Split} :
    Event.told worker split ∈ (desk.batchFor workers).events ↔ worker ∈ workers ∧
      desk.reconciler.pending[(⟨worker, split.queue⟩ : Placement)]? = some split := by
  have waiting : split ∈ desk.reconciler.pendingFor worker ↔
      desk.reconciler.pending[(⟨worker, split.queue⟩ : Placement)]? = some split := by
    rw [Reconciler.mem_pendingFor]
    constructor
    · intro found
      obtain ⟨queue, waits⟩ := found
      have same : split.queue = queue := keyed waits
      rwa [same]
    · exact fun waits => ⟨_, waits⟩
  rw [Batch.mem_events, ← waiting]
  simp only [batchFor, List.mem_filter, List.mem_map, ExtTreeSet.mem_toList]
  constructor
  · intro listed
    obtain ⟨_, ⟨⟨served, member, rfl⟩, _⟩, other, drained, same⟩ := listed
    cases same
    exact ⟨member, drained⟩
  · intro both
    obtain ⟨member, drained⟩ := both
    have some_split := List.ne_nil_of_mem drained
    exact ⟨_, ⟨⟨worker, member, rfl⟩, by simpa using some_split⟩, split, drained, rfl⟩

theorem mem_tagged_batchFor {desk : Desk} (keyed : desk.reconciler.pending.Keyed)
    {workers : WorkerSet} {tag : Tag} {placement : Placement} :
    placement ∈ (desk.batchFor workers).tagged tag ↔
      placement.worker ∈ workers ∧
        desk.reconciler.pending[placement]?.map Split.tag = some tag := by
  simp only [Batch.mem_tagged_iff_told, told_mem_batchFor keyed, Option.map_eq_some_iff]
  constructor
  · intro told
    obtain ⟨split, ⟨member, waiting⟩, tagged, same⟩ := told
    rw [same] at waiting
    exact ⟨member, split, waiting, tagged⟩
  · intro found
    obtain ⟨member, split, waiting, tagged⟩ := found
    have same : split.queue = placement.queue := keyed waiting
    exact ⟨split, ⟨member, same ▸ waiting⟩, tagged, same⟩

structure Flushes (desk : Desk) (workers : WorkerSet) (next : Desk) (batch : Batch) : Prop where
  registered : ∀ worker ∈ workers, desk.dispatcher.registry.isRegistered worker = true
  drained : batch = desk.batchFor workers
  reconciler : next.reconciler = desk.reconciler.drain workers
  owned : next.dispatcher.owned = (Ownership.after desk.dispatcher.owned batch).owners
  held : next.dispatcher.held =
    desk.dispatcher.held \ ExtTreeSet.ofList ((batch.tagged .assign).map Placement.queue)
  connections : next.dispatcher.registry.connections = desk.dispatcher.registry.connections
  told : next.dispatcher.registry.told = desk.dispatcher.registry.told ++ batch.events

theorem reconciler_drain (desk : Desk) (workers : WorkerSet) :
    (desk.drain workers).reconciler = desk.reconciler.drain workers := by
  unfold drain
  split
  · rename_i none
    rw [ExtTreeSet.isEmpty_iff] at none
    rw [none, Reconciler.drain_empty]
  · rfl

theorem dispatcher_drain (desk : Desk) (workers : WorkerSet) :
    (desk.drain workers).dispatcher = desk.dispatcher := by
  unfold drain
  split <;> rfl

theorem reconciler_deliver (desk : Desk) (batch : Batch) :
    (desk.deliver batch).reconciler = desk.reconciler := by
  unfold deliver
  split <;> rfl

theorem dispatcher_deliver (desk : Desk) (batch : Batch) :
    (desk.deliver batch).dispatcher = desk.dispatcher.deliver batch := by
  unfold deliver
  split
  · rename_i none
    rw [List.isEmpty_iff.mp none, Dispatcher.deliver_nil]
  · rfl

theorem reconciler_signalIfDue (desk : Desk) (workers : WorkerSet) :
    (desk.signalIfDue workers).reconciler = desk.reconciler := by
  unfold signalIfDue
  split <;> rfl

theorem signalIfDue_same (desk : Desk) (workers : WorkerSet) :
    (desk.signalIfDue workers).dispatcher.owned = desk.dispatcher.owned ∧
      (desk.signalIfDue workers).dispatcher.held = desk.dispatcher.held ∧
      (desk.signalIfDue workers).dispatcher.registry.connections =
        desk.dispatcher.registry.connections ∧
      (desk.signalIfDue workers).dispatcher.registry.told = desk.dispatcher.registry.told := by
  unfold signalIfDue
  split
  · exact Dispatcher.signal_same desk.dispatcher workers
  · exact ⟨rfl, rfl, rfl, rfl⟩

theorem fst_mem_of_mem_batchFor {desk : Desk} {workers : WorkerSet} {part : Worker × List Split}
    (member : part ∈ desk.batchFor workers) : part.1 ∈ workers := by
  obtain ⟨listed, _⟩ := List.mem_filter.mp member
  obtain ⟨worker, inside, rfl⟩ := List.mem_map.mp listed
  exact ExtTreeSet.mem_toList.mp inside

theorem registered_of_mem_batchFor {desk : Desk} {workers : WorkerSet}
    (registered : ∀ worker ∈ workers, desk.dispatcher.registry.isRegistered worker = true)
    {part : Worker × List Split} (member : part ∈ desk.batchFor workers) :
    desk.dispatcher.registry.isRegistered part.1 = true :=
  registered part.1 (fst_mem_of_mem_batchFor member)

theorem flush_ok {desk next : Desk} {workers : WorkerSet} {batch : Batch}
    (flushed : desk.flush workers = .ok (next, batch)) : desk.Flushes workers next batch := by
  unfold flush at flushed
  split at flushed
  · cases flushed
  · rename_i all
    cases flushed
    have registered :
        ∀ worker ∈ workers, desk.dispatcher.registry.isRegistered worker = true := by
      intro worker member
      have found := List.find?_eq_none.mp all worker (ExtTreeSet.mem_toList.mpr member)
      simpa using found
    obtain ⟨owned, held, connections, told⟩ :=
      signalIfDue_same ((desk.drain workers).deliver (desk.batchFor workers)) workers
    rw [dispatcher_deliver, dispatcher_drain] at owned held connections told
    refine
      { registered := registered
        drained := rfl
        reconciler := ?_
        owned := owned
        held := held
        connections := ?_
        told := ?_ }
    · rw [reconciler_signalIfDue, reconciler_deliver, reconciler_drain]
    · rw [connections]
      exact Registry.connections_sendAll ..
    · rw [told]
      exact Registry.told_sendAll fun part member => registered_of_mem_batchFor registered member

theorem flush_registered {desk : Desk} {workers : WorkerSet}
    (registered : ∀ worker ∈ workers, desk.dispatcher.registry.isRegistered worker = true) :
    ∃ next batch, desk.flush workers = .ok (next, batch) := by
  have all : (workers.toList.find? fun worker =>
      !desk.dispatcher.registry.isRegistered worker) = none := by
    rw [List.find?_eq_none]
    intro worker member
    simpa using registered worker (ExtTreeSet.mem_toList.mp member)
  unfold flush
  rw [all]
  exact ⟨_, _, rfl⟩

end Desk

end QueueAssignment
