import QueueAssignment.Proofs.Signals
import QueueAssignment.Proofs.Undelivered

/-!
A flush either names the first worker that it cannot reach and does nothing, or it serves all of its
workers: each gets its buffer as one command, revokes before assigns, and the owners are those of
the batch taken as a whole.
-/
namespace QueueAssignment
open Std

theorem WorkerSet.find?_eq_some_iff {workers : WorkerSet} {wanted : Worker → Bool}
    {worker : Worker} : workers.toList.find? wanted = some worker ↔
      worker ∈ workers ∧ wanted worker = true ∧
        ∀ other ∈ workers, wanted other = true → worker ≤ other := by
  have ordered : workers.toList.Pairwise (· < ·) :=
    ExtTreeSet.ordered_toList.imp Std.compare_eq_lt.mp
  simp only [Table.find?_eq_some_iff_least ordered UInt32.lt_asymm, ExtTreeSet.mem_toList,
    UInt32.le_iff_lt_or_eq, or_comm, eq_comm]

namespace Registry

variable {r s : Registry}

def deliveries (r : Registry) (commands : List (Worker × Command)) : List Delivery :=
  commands.filterMap fun part =>
    (r.channelOf part.1).map fun number => ⟨part.1, number, part.2⟩

theorem deliveries_congr (same : s.connections = r.connections)
    (commands : List (Worker × Command)) : s.deliveries commands = r.deliveries commands := by
  unfold deliveries
  simp only [channelOf_congr same]

theorem deliveries_append (r : Registry) (first second : List (Worker × Command)) :
    r.deliveries (first ++ second) = r.deliveries first ++ r.deliveries second :=
  List.filterMap_append

theorem sent_send_deliveries (r : Registry) (worker : Worker) (command : Command) :
    (r.send worker command).sent = r.sent ++ r.deliveries [(worker, command)] := by
  cases reached : r.channelOf worker with
  | none => simp [send_unreached reached, deliveries, reached]
  | some number => simp [sent_send_reached reached, deliveries, reached]

theorem sent_sendAll_deliveries (r : Registry) (batch : Batch) :
    (batch.foldl (fun r part => r.send part.1 (.assign part.2)) r).sent =
      r.sent ++ r.deliveries (batch.map fun part => (part.1, .assign part.2)) := by
  induction batch generalizing r with
  | nil => simp [deliveries]
  | cons part rest ih =>
    rw [List.foldl_cons, ih, sent_send_deliveries,
      deliveries_congr (connections_send r part.1 (.assign part.2)), List.append_assoc,
      ← deliveries_append]
    rfl

end Registry

namespace Dispatcher

def notices (d : Dispatcher) (workers : WorkerSet) : List (Worker × Command) :=
  if d.shouldSignal then
    (workers.toList.filter fun worker => worker ∉ d.signalled).map (·, .noMoreSplits)
  else []

theorem sent_foldl_signalOne {workers : List Worker} (nodup : workers.Nodup) (d : Dispatcher) :
    (workers.foldl signalOne d).registry.sent = d.registry.sent ++ d.registry.deliveries
      ((workers.filter fun worker => worker ∉ d.signalled).map (·, .noMoreSplits)) := by
  induction workers generalizing d with
  | nil => simp [Registry.deliveries]
  | cons first rest ih =>
    obtain ⟨fresh, nodup⟩ := List.nodup_cons.mp nodup
    -- What becomes of the first worker does not concern the others.
    have others : (rest.filter fun worker => worker ∉ (d.signalOne first).signalled) =
        rest.filter fun worker => worker ∉ d.signalled := by
      apply List.filter_congr
      intro worker member
      have apart : worker ≠ first := fun same => fresh (same ▸ member)
      simp [mem_signalled_signalOne, apart]
    rw [List.foldl_cons, ih nodup, others, Registry.deliveries_congr (signalOne_same d first).2.2.1]
    by_cases told : first ∈ d.signalled
    · simp [signalOne, told]
    · simp only [signalOne, told, if_false, Registry.sent_send_deliveries, List.append_assoc,
        ← Registry.deliveries_append]
      simp [told]

theorem sent_served (d : Dispatcher) (batch : Batch) (workers : WorkerSet) :
    (d.served batch workers).registry.sent = d.registry.sent ++ d.registry.deliveries
      (batch.map (fun part => (part.1, .assign part.2)) ++ d.notices workers) := by
  have delivered : (d.deliver batch).registry.sent = _ :=
    d.registry.sent_sendAll_deliveries batch
  have nodup := Table.nodup_toList workers
  rw [Registry.deliveries_append, ← List.append_assoc, ← delivered, served, notices]
  split
  · rw [signal, sent_foldl_signalOne nodup,
      Registry.deliveries_congr (d.connections_deliver batch)]
    rfl
  · simp [Registry.deliveries]

end Dispatcher

/-- The order in which a worker is told about its queues: revokes before assigns, and each of the
    two by queue. -/
def Split.Precedes (a b : Split) : Prop :=
  a.tag = .revoke ∧ b.tag = .assign ∨ a.tag = b.tag ∧ compare a.queue b.queue = .lt

namespace Reconciler

variable {r : Reconciler} {worker : Worker}

theorem pairwise_ofWorker (keyed : r.pending.Keyed) (worker : Worker) :
    (r.pending.ofWorker worker).Pairwise fun a b => compare a.queue b.queue = .lt := by
  rw [PlacedSplits.ofWorker, Table.values_eq_map_snd, List.pairwise_map]
  apply (ExtTreeMap.ordered_keys_toList).imp_of_mem
  intro first second here there before
  have entry : ∀ {entry : Placement × Split},
      entry ∈ (r.pending.filter fun placement _ => placement.worker = worker).toList →
        entry.1.worker = worker ∧ entry.2.queue = entry.1.queue := by
    intro entry listed
    rw [ExtTreeMap.mem_toList_iff_getElem?_eq_some, ExtTreeMap.getElem?_filter',
      Option.filter_eq_some_iff, decide_eq_true_eq] at listed
    exact ⟨listed.2, keyed listed.1⟩
  obtain ⟨one, first_queue⟩ := entry here
  obtain ⟨two, second_queue⟩ := entry there
  have order : Placement.order first.1 second.1 = .lt := before
  rw [Placement.order, compareLex, compareOn, compareOn, one, two, ReflOrd.compare_self] at order
  rw [first_queue, second_queue]
  exact order

structure Lists (r : Reconciler) (worker : Worker) (splits : List Split) : Prop where
  ordered : splits.Pairwise Split.Precedes
  mem : ∀ split, split ∈ splits ↔
    r.pending[(⟨worker, split.queue⟩ : Placement)]? = some split

theorem mem_pendingFor_iff (keyed : r.pending.Keyed) {split : Split} :
    split ∈ r.pendingFor worker ↔
      r.pending[(⟨worker, split.queue⟩ : Placement)]? = some split := by
  rw [mem_pendingFor]
  constructor
  · rintro ⟨queue, waits⟩
    have same : split.queue = queue := keyed waits
    rwa [same]
  · exact fun waits => ⟨_, waits⟩

theorem lists_pendingFor (keyed : r.pending.Keyed) (worker : Worker) :
    r.Lists worker (r.pendingFor worker) where
  ordered := by
    have sorted := pairwise_ofWorker keyed worker
    rw [pendingFor, List.pairwise_append]
    refine ⟨?_, ?_, ?_⟩
    · apply (sorted.filter _).imp_of_mem
      intro a b here there before
      simp only [List.mem_filter, Split.isRevoke, decide_eq_true_eq] at here there
      exact Or.inr ⟨here.2.trans there.2.symm, before⟩
    · apply (sorted.filter _).imp_of_mem
      intro a b here there before
      simp only [List.mem_filter, Split.isAssign, decide_eq_true_eq] at here there
      exact Or.inr ⟨here.2.trans there.2.symm, before⟩
    · intro a here b there
      simp only [List.mem_filter, Split.isRevoke, Split.isAssign, decide_eq_true_eq] at here there
      exact Or.inl ⟨here.2, there.2⟩
  mem := fun _ => mem_pendingFor_iff keyed

end Reconciler

namespace Batch

/-- Of the workers that a batch assigns a queue to, this is the greatest. -/
def Gives (batch : Batch) (worker : Worker) (queue : Queue) : Prop :=
  ⟨worker, queue⟩ ∈ batch.tagged .assign ∧
    ∀ other, ⟨other, queue⟩ ∈ batch.tagged .assign → other ≤ worker

theorem pairwise_tagged {batch : Batch} (ascending : batch.Pairwise fun a b => a.1 < b.1)
    (tag : Tag) : (batch.tagged tag).Pairwise fun a b => a.worker ≤ b.worker := by
  rw [tagged, List.pairwise_flatMap]
  constructor
  · intro part _
    simp [List.pairwise_map, List.pairwise_of_forall]
  · apply ascending.imp
    intro first second before a here b there
    obtain ⟨_, _, rfl⟩ := List.mem_map.mp here
    obtain ⟨_, _, rfl⟩ := List.mem_map.mp there
    exact UInt32.le_of_lt before

end Batch

namespace Ownership

theorem listed_iff {placements : List Placement} {queue : Queue} {worker : Worker} :
    (queue, worker) ∈ placements.map (fun p => (p.queue, p.worker)) ↔
      (⟨worker, queue⟩ : Placement) ∈ placements := by
  simp only [List.mem_map, Prod.mk.injEq]
  constructor
  · rintro ⟨placement, member, rfl, rfl⟩
    exact member
  · exact fun member => ⟨_, member, rfl, rfl⟩

theorem owners_unassigned {placements : List Placement} {queue : Queue}
    (absent : ∀ worker, (⟨worker, queue⟩ : Placement) ∉ placements) (ownership : Ownership) :
    (placements.foldl assign ownership).owners[queue]? = ownership.owners[queue]? := by
  rw [owners_foldl_assign]
  rcases Table.foldl_insert_cases (placements.map fun p => (p.queue, p.worker)) ownership.owners
    queue with ⟨worker, member, _⟩ | ⟨_, same⟩
  · exact absurd (listed_iff.mp member) (absent worker)
  · exact same

theorem owners_greatest {placements : List Placement}
    (ascending : placements.Pairwise fun a b => a.worker ≤ b.worker) {queue : Queue}
    (given : ∃ worker, (⟨worker, queue⟩ : Placement) ∈ placements) (ownership : Ownership) :
    ∃ worker, ⟨worker, queue⟩ ∈ placements ∧ (∀ other, ⟨other, queue⟩ ∈ placements →
        other ≤ worker) ∧ (placements.foldl assign ownership).owners[queue]? = some worker := by
  induction placements generalizing ownership with
  | nil => simp at given
  | cons first rest ih =>
    obtain ⟨before, ascending⟩ := List.pairwise_cons.mp ascending
    rw [List.foldl_cons]
    by_cases later : ∃ worker, (⟨worker, queue⟩ : Placement) ∈ rest
    · obtain ⟨worker, member, greatest, found⟩ := ih ascending later (ownership.assign first)
      refine ⟨worker, List.mem_cons_of_mem _ member, ?_, found⟩
      intro other listed
      rcases List.mem_cons.mp listed with rfl | listed
      · exact before _ member
      · exact greatest other listed
    · have absent := not_exists.mp later
      obtain ⟨worker, member⟩ := given
      have here := (List.mem_cons.mp member).resolve_right (absent worker)
      refine ⟨worker, member, ?_, ?_⟩
      · intro other listed
        have same := (List.mem_cons.mp listed).resolve_right (absent other)
        rw [← here] at same
        cases same
        exact UInt32.le_refl _
      · rw [owners_unassigned absent, ← here]
        simp [assign]

/-- The owners after a batch: the greatest worker that it assigns the queue to, and where there is
    none the owner before, unless that one has to give the queue up. -/
theorem owners_after {batch : Batch} (ascending : batch.Pairwise fun a b => a.1 < b.1)
    (owners : OwnerMap) (queue : Queue) (worker : Worker) :
    (after owners batch).owners[queue]? = some worker ↔ batch.Gives worker queue ∨
      (∀ other, ⟨other, queue⟩ ∉ batch.tagged .assign) ∧ owners[queue]? = some worker ∧
        ⟨worker, queue⟩ ∉ batch.tagged .revoke := by
  by_cases given : ∃ other, ⟨other, queue⟩ ∈ batch.tagged .assign
  · obtain ⟨last, member, greatest, found⟩ := owners_greatest (Batch.pairwise_tagged ascending _)
      given ⟨revoke owners (batch.tagged .revoke), 0⟩
    rw [after, found, Option.some.injEq]
    constructor
    · rintro rfl
      exact Or.inl ⟨member, greatest⟩
    · rintro (⟨listed, above⟩ | ⟨absent, _⟩)
      · exact UInt32.le_antisymm (above last member) (greatest worker listed)
      · exact absurd member (absent last)
  · have absent := not_exists.mp given
    rw [after, owners_unassigned absent, getElem?_revoke]
    simp only [Batch.Gives, absent, false_and, false_or, not_false_eq_true, implies_true, true_and]

end Ownership

namespace Desk

variable {desk next : Desk} {workers : WorkerSet} {worker : Worker} {batch : Batch}

theorem pairwise_batchFor (desk : Desk) (workers : WorkerSet) :
    (desk.batchFor workers).Pairwise fun a b => a.1 < b.1 := by
  apply List.Pairwise.filter
  rw [List.pairwise_map]
  exact (ExtTreeSet.ordered_toList (t := workers)).imp Std.compare_eq_lt.mp

/-- What a flush leaves that serves all of its workers. The parts of the batch and the buffers that
    it took them from say the same, and nothing else of the reconciler changes. What goes out are
    the parts, one command each, and after them the notices that are due. -/
structure Serves (desk : Desk) (workers : WorkerSet) (next : Desk) (batch : Batch) : Prop where
  ascending : batch.Pairwise fun a b => a.1 < b.1
  parts : ∀ part ∈ batch, part.1 ∈ workers ∧ part.2 ≠ [] ∧ desk.reconciler.Lists part.1 part.2
  waiting : ∀ worker ∈ workers, ∀ queue,
    desk.reconciler.pending[(⟨worker, queue⟩ : Placement)]? ≠ none → ∃ part ∈ batch, part.1 = worker
  pending : ∀ placement : Placement, next.reconciler.pending[placement]? =
    if placement.worker ∈ workers then none else desk.reconciler.pending[placement]?
  kept : next.reconciler = { desk.reconciler with pending := next.reconciler.pending }
  reached : ∀ worker ∈ workers, ∃ number,
    desk.dispatcher.registry.channelOf worker = some number
  sent : next.dispatcher.registry.sent = desk.dispatcher.registry.sent ++
    desk.dispatcher.registry.deliveries
      (batch.map (fun part => (part.1, .assign part.2)) ++ desk.dispatcher.notices workers)
  connections : next.dispatcher.registry.connections = desk.dispatcher.registry.connections
  owned : ∀ queue worker, next.dispatcher.owned[queue]? = some worker ↔
    batch.Gives worker queue ∨ (∀ other, ⟨other, queue⟩ ∉ batch.tagged .assign) ∧
      desk.dispatcher.owned[queue]? = some worker ∧ ⟨worker, queue⟩ ∉ batch.tagged .revoke
  held : ∀ queue, queue ∈ next.dispatcher.held ↔
    queue ∈ desk.dispatcher.held ∧ ∀ worker, ⟨worker, queue⟩ ∉ batch.tagged .assign

theorem mem_batchFor {part : Worker × List Split} : part ∈ desk.batchFor workers ↔
    part.1 ∈ workers ∧ part.2 ≠ [] ∧ part.2 = desk.reconciler.pendingFor part.1 := by
  obtain ⟨worker, splits⟩ := part
  simp only [batchFor, List.mem_filter, List.mem_map, ExtTreeSet.mem_toList, Bool.not_eq_true',
    List.isEmpty_eq_false_iff, Prod.mk.injEq]
  constructor
  · rintro ⟨⟨_, member, rfl, rfl⟩, some_split⟩
    exact ⟨member, some_split, rfl⟩
  · rintro ⟨member, some_split, rfl⟩
    exact ⟨⟨worker, member, rfl, rfl⟩, some_split⟩

theorem serves_of_flush (keyed : desk.reconciler.pending.Keyed)
    (flushed : desk.flush workers = .ok (next, batch)) : desk.Serves workers next batch := by
  have flushes := flush_ok flushed
  have ascending : batch.Pairwise fun a b => a.1 < b.1 :=
    flushes.drained ▸ desk.pairwise_batchFor workers
  refine
    { ascending := ascending
      parts := ?parts
      waiting := ?waiting
      pending := ?pending
      kept := ?kept
      reached := fun worker member => Registry.isRegistered_iff.mp (flushes.registered worker member)
      sent := ?sent
      connections := flushes.connections
      owned := ?owned
      held := ?held }
  case parts =>
    intro part member
    obtain ⟨served, some_split, same⟩ := mem_batchFor.mp (flushes.drained ▸ member)
    exact ⟨served, some_split, same ▸ Reconciler.lists_pendingFor keyed part.1⟩
  case waiting =>
    intro worker member queue waits
    have listed : worker ∈ (desk.batchFor workers).map Prod.fst :=
      mem_batchFor_fst.mpr ⟨member, queue, waits⟩
    rw [flushes.drained]
    simpa using listed
  case pending =>
    intro placement
    rw [flushes.reconciler, Reconciler.getElem?_pending_drain]
  case kept =>
    rw [flushes.reconciler]
    rfl
  case sent =>
    rw [dispatcher_of_flush flushed, Dispatcher.sent_served, flushes.drained]
  case owned =>
    intro queue worker
    rw [flushes.owned, Ownership.owners_after ascending]
  case held =>
    intro queue
    rw [flushes.held, ExtTreeSet.mem_diff_iff, Table.mem_ofList, List.mem_map, not_exists]
    refine and_congr_right fun _ => ⟨?_, ?_⟩
    · exact fun none worker listed => none _ ⟨listed, rfl⟩
    · rintro none placement ⟨listed, rfl⟩
      exact none _ listed

def FirstMissing (desk : Desk) (workers : WorkerSet) (missing : Worker) : Prop :=
  missing ∈ workers ∧ desk.dispatcher.registry.channelOf missing = none ∧
    ∀ other ∈ workers, desk.dispatcher.registry.channelOf other = none → missing ≤ other

theorem flush_missing (missing : ∃ worker ∈ workers,
      desk.dispatcher.registry.channelOf worker = none) :
    ∃ first, desk.FirstMissing workers first ∧
      desk.flush workers = .error (.workerNotRegistered first) := by
  have unreached : ∀ worker, (!desk.dispatcher.registry.isRegistered worker) = true ↔
      desk.dispatcher.registry.channelOf worker = none := by
    intro worker
    rw [Bool.not_eq_true', ← Bool.not_eq_true, Registry.isRegistered_iff,
      Option.eq_none_iff_forall_ne_some, not_exists]
  unfold flush
  cases found : workers.toList.find? fun worker =>
      !desk.dispatcher.registry.isRegistered worker with
  | none =>
    obtain ⟨worker, member, gone⟩ := missing
    have passed := List.find?_eq_none.mp found worker (ExtTreeSet.mem_toList.mpr member)
    exact absurd ((unreached worker).mpr gone) passed
  | some first =>
    rw [WorkerSet.find?_eq_some_iff] at found
    simp only [unreached] at found
    exact ⟨first, found, rfl⟩

end Desk

/-- A flush fails just where one of its workers has no open channel. It then names the smallest such
    worker, and nothing has changed. Otherwise it goes through and serves all of them. -/
theorem flush_all_or_nothing (c : Coordinator) (keyed : c.desk.reconciler.pending.Keyed)
    (workers : WorkerSet) :
    let channelOf := c.desk.dispatcher.registry.channelOf
    ((∃ worker ∈ workers, channelOf worker = none) →
      ∃ missing, c.desk.FirstMissing workers missing ∧
        c.flush workers = ⟨c, .error (.workerNotRegistered missing)⟩) ∧
    ((∀ worker ∈ workers, channelOf worker ≠ none) →
      ∃ next batch, c.desk.flush workers = .ok (next, batch) ∧
        c.flush workers = ⟨{ c with desk := next }, .ok ()⟩ ∧
        c.desk.Serves workers next batch) := by
  intro channelOf
  constructor
  · intro missing
    obtain ⟨first, smallest, failed⟩ := Desk.flush_missing missing
    refine ⟨first, smallest, ?_⟩
    rw [Coordinator.flush, failed]
  · intro reached
    obtain ⟨next, batch, flushed⟩ := Desk.flush_registered fun worker member =>
      Registry.isRegistered_iff.mpr (Option.ne_none_iff_exists'.mp (reached worker member))
    refine ⟨next, batch, flushed, ?_, Desk.serves_of_flush keyed flushed⟩
    rw [Coordinator.flush, flushed]

namespace Sample

/-- One queue is pending for two workers at once, and another one moves from the first to the second
    of them. A third worker is not there. -/
def crossed : Desk where
  reconciler :=
    { pending := Table.ofEntries [
        (⟨0, queue 0⟩, .assign (queue 0) 0 none),
        (⟨0, queue 1⟩, .revoke (queue 1) 0 none),
        (⟨1, queue 0⟩, .assign (queue 0) 0 none),
        (⟨1, queue 1⟩, .assign (queue 1) 0 none),
        (⟨2, queue 2⟩, .assign (queue 2) 0 none)] }
  dispatcher :=
    { registry := (({} : Registry).register 0 true).register 1 true
      owned := Table.ofEntries [(queue 1, 0)]
      held := ExtTreeSet.ofList [queue 0, queue 2] }

theorem keyed_crossed : crossed.reconciler.pending.Keyed := by
  intro placement split waits
  have listed := Table.mem_of_getElem?_ofEntries waits
  simp only [List.mem_cons, Prod.mk.injEq, List.not_mem_nil, or_false] at listed
  rcases listed with ⟨rfl, rfl⟩ | ⟨rfl, rfl⟩ | ⟨rfl, rfl⟩ | ⟨rfl, rfl⟩ | ⟨rfl, rfl⟩
  all_goals rfl

end Sample

theorem crossed_flush :
    let c := { Coordinator.start Sample.job with desk := Sample.crossed }
    let parted := ExtTreeSet.ofList [(0 : Worker), 2]
    let both := ExtTreeSet.ofList [(0 : Worker), 1]
    (∃ missing, c.desk.FirstMissing parted missing ∧
      c.flush parted = ⟨c, .error (.workerNotRegistered missing)⟩) ∧
    ∃ next batch, c.desk.flush both = .ok (next, batch) ∧ c.desk.Serves both next batch ∧
      next.dispatcher.owned.toList = [(Sample.queue 0, 1), (Sample.queue 1, 1)] := by
  intro c parted both
  refine ⟨(flush_all_or_nothing c Sample.keyed_crossed parted).1
    ⟨2, by decide +kernel, by decide +kernel⟩, ?_⟩
  have reached : ∀ worker ∈ both, c.desk.dispatcher.registry.channelOf worker ≠ none := by
    intro worker member
    rw [Table.mem_ofList, List.mem_pair] at member
    rcases member with rfl | rfl
    · decide +kernel
    · decide +kernel
  obtain ⟨next, batch, flushed, _, serves⟩ :=
    (flush_all_or_nothing c Sample.keyed_crossed both).2 reached
  refine ⟨next, batch, flushed, serves, ?_⟩
  have owners : (c.desk.flush both).map (fun done => done.1.dispatcher.owned.toList) =
      .ok [(Sample.queue 0, 1), (Sample.queue 1, 1)] := by decide +kernel
  rw [flushed] at owners
  exact Except.ok.inj owners

end QueueAssignment
