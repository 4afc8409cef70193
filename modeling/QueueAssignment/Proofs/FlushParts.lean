import Mathlib.Logic.Equiv.Basic
import QueueAssignment.Proofs.Finality

/-!
Flushing workers in parts. What a flush sends to a worker depends on nothing that a flush of others
changes. At most one worker waits for the assign of a queue, and a revoke clears a queue only for
the worker it is sent to. So flushing some workers and then others is flushing all of them at once.
-/
namespace QueueAssignment
open Std

namespace Reconciler

variable {worker : Worker} {A : WorkerSet}

theorem drain_drain (r : Reconciler) (A B : WorkerSet) :
    (r.drain A).drain B = r.drain (A ∪ B) := by
  have pending : ((r.drain A).drain B).pending = (r.drain (A ∪ B)).pending := by
    apply ExtTreeMap.ext_getElem?
    intro placement
    simp only [getElem?_pending_drain, ExtTreeSet.mem_union_iff]
    by_cases served : placement.worker ∈ A
    · simp [served]
    · simp [served]
  calc (r.drain A).drain B
    _ = { r with pending := ((r.drain A).drain B).pending } := rfl
    _ = r.drain (A ∪ B) := by rw [pending]; rfl

theorem pendingFor_drain (r : Reconciler) (unserved : worker ∉ A) :
    (r.drain A).pendingFor worker = r.pendingFor worker := by
  have same : (r.drain A).pending.filter (fun placement _ => placement.worker = worker) =
      r.pending.filter fun placement _ => placement.worker = worker := by
    apply ExtTreeMap.ext_getElem?
    intro placement
    simp only [ExtTreeMap.getElem?_filter', getElem?_pending_drain]
    split
    · rename_i served
      have other : placement.worker ≠ worker := fun own => unserved (own ▸ served)
      cases r.pending[placement]? with
      | none => rfl
      | some split => simp [Option.filter_some, other]
    · rfl
  simp only [pendingFor, PlacedSplits.ofWorker, same]

end Reconciler

namespace Ownership

theorem owners_after_after {owners : OwnerMap} {first second whole : Batch}
    (parts : ∀ tag placement, placement ∈ whole.tagged tag ↔
      placement ∈ first.tagged tag ∨ placement ∈ second.tagged tag)
    (apart : ∀ {tag other : Tag} {p q : Placement}, p ∈ first.tagged tag →
      q ∈ second.tagged other → p.worker ≠ q.worker)
    (single : ∀ {v w : Worker} {queue : Queue}, ⟨v, queue⟩ ∈ whole.tagged .assign →
      ⟨w, queue⟩ ∈ whole.tagged .assign → v = w) :
    (after (after owners first).owners second).owners = (after owners whole).owners := by
  apply ExtTreeMap.ext_getElem?
  intro queue
  apply Option.ext
  intro worker
  have early : ∀ v, ⟨v, queue⟩ ∈ first.tagged .assign → ⟨v, queue⟩ ∈ whole.tagged .assign :=
    fun v member => (parts _ _).mpr (Or.inl member)
  have late : ∀ v, ⟨v, queue⟩ ∈ second.tagged .assign → ⟨v, queue⟩ ∈ whole.tagged .assign :=
    fun v member => (parts _ _).mpr (Or.inr member)
  rw [getElem?_after fun v w one two => single (late v one) (late w two),
    getElem?_after fun v w one two => single (early v one) (early w two),
    getElem?_after fun v w => single]
  simp only [parts, not_or]
  constructor
  · rintro (assigned | ⟨assigned | ⟨owned, kept, none⟩, still, never⟩)
    · exact Or.inl (Or.inr assigned)
    · exact Or.inl (Or.inl assigned)
    · exact Or.inr ⟨owned, ⟨kept, still⟩, fun other => ⟨none other, never other⟩⟩
  · rintro ((assigned | assigned) | ⟨owned, ⟨kept, still⟩, none⟩)
    -- The later batch is not for this worker, so it neither takes the queue away nor assigns it.
    · refine Or.inr ⟨Or.inl assigned, fun revoked => apart assigned revoked rfl, ?_⟩
      intro other again
      have same := single (early worker assigned) (late other again)
      exact apart assigned again same
    · exact Or.inl assigned
    · exact Or.inr ⟨Or.inr ⟨owned, kept, fun other => (none other).1⟩, still,
        fun other => (none other).2⟩

end Ownership

namespace Dispatcher

variable {d : Dispatcher} {batch : Batch} {workers : WorkerSet} {worker : Worker} {number : Nat}

theorem shouldSignal_served : (d.served batch workers).shouldSignal = d.shouldSignal := by
  obtain ⟨complete, signals⟩ := d.served_flags batch workers
  rw [shouldSignal, complete, signals, shouldSignal]

theorem mem_signalled_served : worker ∈ (d.served batch workers).signalled ↔
    (d.shouldSignal = true ∧ worker ∈ workers) ∨ worker ∈ d.signalled := by
  unfold served
  split
  · rename_i due
    simp only [mem_signalled_signal, due, true_and]
    rfl
  · rename_i undue
    simp only [undue, Bool.false_eq_true, false_and, false_or]
    rfl

theorem opened_sendAll (r : Registry) (batch : Batch) :
    (batch.foldl (fun r part => r.send part.1 (.assign part.2)) r).opened = r.opened := by
  induction batch generalizing r with
  | nil => rfl
  | cons part rest ih => rw [List.foldl_cons, ih, Registry.opened_send]

theorem opened_signal (d : Dispatcher) (workers : WorkerSet) :
    (d.signal workers).registry.opened = d.registry.opened := by
  unfold signal
  induction workers.toList generalizing d with
  | nil => rfl
  | cons first rest ih =>
    rw [List.foldl_cons, ih, signalOne]
    split
    · rfl
    · exact d.registry.opened_send first .noMoreSplits

theorem opened_served : (d.served batch workers).registry.opened = d.registry.opened := by
  unfold served
  split
  · rw [opened_signal]
    exact opened_sendAll d.registry batch
  · exact opened_sendAll d.registry batch

theorem numbered_signal (numbered : d.registry.Numbered) (workers : WorkerSet) :
    (d.signal workers).registry.Numbered := by
  unfold signal
  induction workers.toList generalizing d with
  | nil => exact numbered
  | cons first rest ih =>
    apply ih
    unfold signalOne
    split
    · exact numbered
    · exact numbered.send first .noMoreSplits

theorem numbered_served (numbered : d.registry.Numbered) :
    (d.served batch workers).registry.Numbered := by
  unfold served
  split
  · exact numbered_signal (numbered.sendAll batch) workers
  · exact numbered.sendAll batch

theorem commandsOn_signal_reached (d : Dispatcher)
    (alone : ∀ {other}, d.registry.channelOf other = some number → other = worker)
    (reached : d.registry.channelOf worker = some number) (member : worker ∈ workers) :
    (d.signal workers).registry.commandsOn number = d.registry.commandsOn number ++
      if worker ∈ d.signalled then [] else [.noMoreSplits] := by
  have listed : ∀ (list : List Worker) (d : Dispatcher),
      (∀ {other}, d.registry.channelOf other = some number → other = worker) →
      d.registry.channelOf worker = some number →
      (list.foldl signalOne d).registry.commandsOn number = d.registry.commandsOn number ++
        if worker ∈ list ∧ worker ∉ d.signalled then [.noMoreSplits] else [] := by
    intro list
    induction list with
    | nil => simp
    | cons first rest ih =>
      intro d alone reached
      rw [List.foldl_cons, ih (d.signalOne first), commandsOn_signalOne, List.append_assoc]
      · congr 1
        simp only [mem_signalled_signalOne, List.mem_cons, not_or]
        by_cases own : worker = first
        · subst own
          by_cases told : worker ∈ d.signalled
          · simp [told]
          · simp [told, reached]
        · have elsewhere : d.registry.channelOf first ≠ some number :=
            fun here => own (alone here).symm
          simp [own, elsewhere]
      · intro other
        rw [channelOf_signalOne]
        exact alone
      · rw [channelOf_signalOne]
        exact reached
  rw [signal, listed _ d alone reached]
  simp only [ExtTreeSet.mem_toList, member, true_and, ite_not]

end Dispatcher

namespace Desk

variable {desk next : Desk} {workers A B : WorkerSet} {worker : Worker} {batch : Batch}
  {number : Nat}

def dues (desk : Desk) (worker : Worker) : List Command :=
  let splits := desk.reconciler.pendingFor worker
  (if splits.isEmpty then [] else [.assign splits]) ++
    if desk.dispatcher.shouldSignal ∧ worker ∉ desk.dispatcher.signalled then [.noMoreSplits]
    else []

theorem batchFor_congr {other : Desk}
    (same : ∀ worker ∈ workers,
      other.reconciler.pendingFor worker = desk.reconciler.pendingFor worker) :
    other.batchFor workers = desk.batchFor workers := by
  unfold batchFor
  congr 1
  apply List.map_congr_left
  intro worker member
  rw [same worker (ExtTreeSet.mem_toList.mp member)]

theorem batchFor_on_channel (numbered : desk.dispatcher.registry.Numbered)
    (member : worker ∈ workers)
    (reached : desk.dispatcher.registry.channelOf worker = some number) :
    (((desk.batchFor workers).filter fun part =>
        desk.dispatcher.registry.channelOf part.1 = some number).map Prod.snd).map Command.assign =
      if (desk.reconciler.pendingFor worker).isEmpty then []
      else [.assign (desk.reconciler.pendingFor worker)] := by
  have nodup := Table.nodup_toList workers
  have own : ∀ other, desk.dispatcher.registry.channelOf other = some number ↔ other = worker :=
    fun other => ⟨fun here => numbered.apart here reached, fun same => same ▸ reached⟩
  have alone : workers.toList.filter (fun other => other = worker) = [worker] := by
    rw [List.filter_eq, List.count_eq_one_of_mem nodup (ExtTreeSet.mem_toList.mpr member)]
    rfl
  simp only [batchFor, own]
  rw [List.filter_filter]
  simp only [Bool.and_comm (decide _)]
  rw [← List.filter_filter, List.filter_map]
  simp only [Function.comp_def, alone, List.map_cons, List.map_nil, List.filter_cons,
    List.filter_nil]
  cases (desk.reconciler.pendingFor worker).isEmpty <;> rfl

theorem numbered_flush (numbered : desk.dispatcher.registry.Numbered)
    (flushed : desk.flush workers = .ok (next, batch)) : next.dispatcher.registry.Numbered := by
  rw [dispatcher_of_flush flushed]
  exact Dispatcher.numbered_served numbered

theorem commandsOn_flush (numbered : desk.dispatcher.registry.Numbered)
    (flushed : desk.flush workers = .ok (next, batch)) (member : worker ∈ workers)
    (reached : desk.dispatcher.registry.channelOf worker = some number) :
    next.dispatcher.registry.commandsOn number =
      desk.dispatcher.registry.commandsOn number ++ desk.dues worker := by
  have delivered := desk.dispatcher.commandsOn_deliver (desk.batchFor workers) number
  rw [batchFor_on_channel numbered member reached] at delivered
  have same := desk.dispatcher.connections_deliver (desk.batchFor workers)
  rw [dispatcher_of_flush flushed, Dispatcher.served, dues, ← List.append_assoc, ← delivered]
  split
  · rename_i due
    rw [Dispatcher.commandsOn_signal_reached _ ?_ ?_ member]
    · simp only [due, true_and, ite_not]
      rfl
    · intro other here
      rw [Registry.channelOf_congr same] at here
      exact numbered.apart here reached
    · rw [Registry.channelOf_congr same, reached]
  · rename_i undue
    simp only [undue, Bool.false_eq_true, false_and, if_false, List.append_nil]

theorem commandsOn_flush_elsewhere (flushed : desk.flush workers = .ok (next, batch))
    (elsewhere : ∀ worker ∈ workers, desk.dispatcher.registry.channelOf worker ≠ some number) :
    next.dispatcher.registry.commandsOn number = desk.dispatcher.registry.commandsOn number := by
  rw [dispatcher_of_flush flushed]
  exact Dispatcher.commandsOn_served (fun part => fst_mem_of_mem_batchFor) elsewhere

theorem dues_flush (flushed : desk.flush workers = .ok (next, batch))
    (unserved : worker ∉ workers) : next.dues worker = desk.dues worker := by
  have reconciler := (flush_ok flushed).reconciler
  simp only [dues, reconciler, Reconciler.pendingFor_drain _ unserved,
    dispatcher_of_flush flushed, Dispatcher.shouldSignal_served, Dispatcher.mem_signalled_served,
    unserved, and_false, false_or]

theorem batchFor_drained {middle : Desk} (drained : middle.reconciler = desk.reconciler.drain A)
    (apart : ∀ worker ∈ A, worker ∉ B) : middle.batchFor B = desk.batchFor B := by
  apply batchFor_congr
  intro worker member
  rw [drained]
  exact Reconciler.pendingFor_drain _ fun served => apart worker served member

variable {holdings : Worker → QueueSet}

/-- At most one worker waits for the assign of a queue: the one that should have it. -/
theorem single_waiting (balanced : desk.reconciler.Balanced holdings) {v w : Worker}
    {queue : Queue} (first : desk.reconciler.pending[(⟨v, queue⟩ : Placement)]?.map Split.tag =
      some .assign)
    (second : desk.reconciler.pending[(⟨w, queue⟩ : Placement)]?.map Split.tag = some .assign) :
    v = w := by
  rw [balanced.net, Reconciler.due_eq_assign_iff] at first second
  exact balanced.exclusive first.1 second.1

theorem mem_tagged_union (keyed : desk.reconciler.pending.Keyed) (tag : Tag)
    (placement : Placement) : placement ∈ (desk.batchFor (A ∪ B)).tagged tag ↔
      placement ∈ (desk.batchFor A).tagged tag ∨ placement ∈ (desk.batchFor B).tagged tag := by
  simp only [mem_tagged_batchFor keyed, ExtTreeSet.mem_union_iff, or_and_right]

theorem owners_batchFor_batchFor (balanced : desk.reconciler.Balanced holdings)
    (apart : ∀ worker ∈ A, worker ∉ B) (owners : OwnerMap) :
    (Ownership.after (Ownership.after owners (desk.batchFor A)).owners (desk.batchFor B)).owners =
      (Ownership.after owners (desk.batchFor (A ∪ B))).owners := by
  have listed : ∀ {workers tag placement}, placement ∈ (desk.batchFor workers).tagged tag →
      placement.worker ∈ workers ∧
        desk.reconciler.pending[placement]?.map Split.tag = some tag :=
    fun member => (mem_tagged_batchFor balanced.pending).mp member
  apply Ownership.owners_after_after (mem_tagged_union balanced.pending)
  · intro tag other p q first second same
    exact apart p.worker (listed first).1 (same ▸ (listed second).1)
  · intro v w queue first second
    exact single_waiting balanced (listed first).2 (listed second).2

theorem held_batchFor_batchFor (keyed : desk.reconciler.pending.Keyed) (held : QueueSet) :
    (held \ ExtTreeSet.ofList (((desk.batchFor A).tagged .assign).map Placement.queue)) \
        ExtTreeSet.ofList (((desk.batchFor B).tagged .assign).map Placement.queue) =
      held \ ExtTreeSet.ofList (((desk.batchFor (A ∪ B)).tagged .assign).map Placement.queue) := by
  apply ExtTreeSet.ext_mem
  intro queue
  simp only [ExtTreeSet.mem_diff_iff, Table.mem_ofList, List.mem_map, mem_tagged_union keyed,
    or_and_right, exists_or, not_or, and_assoc]

/-- The same books, and the same went out to everybody. The channels may be numbered anew. -/
structure Alike (rename : Equiv.Perm Nat) (first second : Desk) : Prop where
  reconciler : second.reconciler = first.reconciler
  owned : second.dispatcher.owned = first.dispatcher.owned
  held : second.dispatcher.held = first.dispatcher.held
  signals : second.dispatcher.signals = first.dispatcher.signals
  complete : second.dispatcher.complete = first.dispatcher.complete
  signalled : second.dispatcher.signalled = first.dispatcher.signalled
  reaches : ∀ worker,
    second.dispatcher.registry.reaches? worker = first.dispatcher.registry.reaches? worker
  channels : ∀ worker, second.dispatcher.registry.channelOf worker =
    (first.dispatcher.registry.channelOf worker).map rename
  commands : ∀ number, second.dispatcher.registry.commandsOn (rename number) =
    first.dispatcher.registry.commandsOn number

theorem flags_flush (flushed : desk.flush workers = .ok (next, batch)) :
    next.dispatcher.complete = desk.dispatcher.complete ∧
      next.dispatcher.signals = desk.dispatcher.signals := by
  rw [dispatcher_of_flush flushed]
  exact Dispatcher.served_flags ..

theorem mem_signalled_flush (flushed : desk.flush workers = .ok (next, batch)) :
    worker ∈ next.dispatcher.signalled ↔
      (desk.dispatcher.shouldSignal = true ∧ worker ∈ workers) ∨
        worker ∈ desk.dispatcher.signalled := by
  rw [dispatcher_of_flush flushed]
  exact Dispatcher.mem_signalled_served

theorem shouldSignal_flush (flushed : desk.flush workers = .ok (next, batch)) :
    next.dispatcher.shouldSignal = desk.dispatcher.shouldSignal := by
  rw [dispatcher_of_flush flushed, Dispatcher.shouldSignal_served]

theorem alike_flush_flush {middle last both : Desk} {a b ab : Batch}
    (balanced : desk.reconciler.Balanced holdings) (numbered : desk.dispatcher.registry.Numbered)
    (apart : ∀ worker ∈ A, worker ∉ B) (first : desk.flush A = .ok (middle, a))
    (second : middle.flush B = .ok (last, b)) (whole : desk.flush (A ∪ B) = .ok (both, ab)) :
    both.Alike (.refl Nat) last := by
  have one := flush_ok first
  have two := flush_ok second
  have all := flush_ok whole
  have later : middle.batchFor B = desk.batchFor B := batchFor_drained one.reconciler apart
  have connections : last.dispatcher.registry.connections =
      both.dispatcher.registry.connections :=
    (two.connections.trans one.connections).trans all.connections.symm
  have channels := Registry.channelOf_congr one.connections
  have still := numbered_flush numbered first
  refine
    { reconciler := ?reconciler
      owned := ?owned
      held := ?held
      signals := ?signals
      complete := ?complete
      signalled := ?signalled
      reaches := ?reaches
      channels := ?channels
      commands := ?commands }
  case reconciler =>
    rw [two.reconciler, one.reconciler, all.reconciler, Reconciler.drain_drain]
  case owned =>
    rw [two.owned, two.drained, later, one.owned, one.drained, all.owned, all.drained]
    exact owners_batchFor_batchFor balanced apart _
  case held =>
    rw [two.held, two.drained, later, one.held, one.drained, all.held, all.drained]
    exact held_batchFor_batchFor balanced.pending _
  case signals =>
    rw [(flags_flush second).2, (flags_flush first).2, (flags_flush whole).2]
  case complete =>
    rw [(flags_flush second).1, (flags_flush first).1, (flags_flush whole).1]
  case signalled =>
    apply ExtTreeSet.ext_mem
    intro worker
    rw [mem_signalled_flush second, mem_signalled_flush first, mem_signalled_flush whole,
      shouldSignal_flush first, ExtTreeSet.mem_union_iff]
    tauto
  case reaches =>
    intro worker
    rw [Registry.reaches?, connections, Registry.reaches?]
  case channels =>
    intro worker
    rw [Registry.channelOf_congr connections]
    exact Option.map_id'.symm
  case commands =>
    intro number
    rw [Equiv.refl_apply]
    by_cases early : ∃ worker ∈ A, desk.dispatcher.registry.channelOf worker = some number
    · obtain ⟨worker, member, reached⟩ := early
      rw [commandsOn_flush numbered whole (ExtTreeSet.mem_union_iff.mpr (Or.inl member)) reached,
        commandsOn_flush_elsewhere second, commandsOn_flush numbered first member reached]
      intro other served here
      rw [channels] at here
      exact apart worker member (numbered.apart here reached ▸ served)
    · have untouched := commandsOn_flush_elsewhere first
        fun worker member reached => early ⟨worker, member, reached⟩
      by_cases late : ∃ worker ∈ B, desk.dispatcher.registry.channelOf worker = some number
      · obtain ⟨worker, member, reached⟩ := late
        rw [commandsOn_flush numbered whole (ExtTreeSet.mem_union_iff.mpr (Or.inr member)) reached,
          commandsOn_flush still second member ((channels worker).trans reached), untouched,
          dues_flush first fun served => apart worker served member]
      · rw [commandsOn_flush_elsewhere whole, commandsOn_flush_elsewhere second, untouched]
        · intro worker member reached
          exact late ⟨worker, member, (channels worker).symm.trans reached⟩
        · intro worker member reached
          rcases ExtTreeSet.mem_union_iff.mp member with served | served
          · exact early ⟨worker, served, reached⟩
          · exact late ⟨worker, served, reached⟩

end Desk

end QueueAssignment
