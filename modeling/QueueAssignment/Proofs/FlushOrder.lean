import QueueAssignment.Proofs.FlushParts

/-!
The order in which workers are flushed, and the order in which they join. Neither makes a difference
to the books or to what goes out. Early assigns are counted by the order of deliveries, so the
instruments are left out.
-/
namespace QueueAssignment
open Std

namespace Desk

variable {desk next : Desk} {workers A B : WorkerSet} {worker : Worker} {batch : Batch}
  {holdings : Worker → QueueSet}

/-- The desks that calls lead to, from an empty one or from a restored one whose reconciler is
    consistent, whatever the dispatcher has recorded. -/
inductive Arises : Desk → Prop where
  | start (signals : Bool) (metrics : Metrics) :
      Arises { dispatcher := { signals }, metrics }
  | restore {current : Assignment} {held : QueueSet} {known : SplitMap} : current.Exclusive →
      (∀ {worker queue}, queue ∈ current.queuesOf worker → queue ∉ held) → known.Keyed →
      ∀ (owned : OwnerMap) (unplaced : QueueSet) (signals : Bool) (metrics : Metrics),
        Arises (.start (.restore current held known) (.restore owned unplaced signals) metrics)
  | merge {desk next : Desk} {change : SplitChange} {target : Assignment} {delta : Delta} :
      Arises desk → change.Suits target → desk.apply change target = .ok (next, delta) →
      Arises (next.settle delta)
  | release {desk : Desk} (before : Arises desk) (worker : Worker) (splits : List Split) :
      Arises (desk.release worker splits)
  | register {desk : Desk} (before : Arises desk) (worker : Worker) (isOpen : Bool) :
      Arises (desk.register worker isOpen)
  | unregister {desk : Desk} (before : Arises desk) (worker : Worker) :
      Arises (desk.unregister worker)
  | hangUp {desk : Desk} (before : Arises desk) (worker : Worker) : Arises (desk.hangUp worker)
  | complete {desk : Desk} (before : Arises desk) : Arises desk.complete
  | flush {desk next : Desk} {workers : WorkerSet} {batch : Batch} :
      Arises desk → desk.flush workers = .ok (next, batch) → Arises next

theorem reconciler_of_apply {change : SplitChange} {target : Assignment} {delta : Delta}
    (applied : desk.apply change target = .ok (next, delta)) :
    desk.reconciler.apply change target = .ok (next.reconciler, delta) ∧
      next.dispatcher = desk.dispatcher := by
  unfold apply at applied
  split at applied
  · cases applied
  · rename_i merged
    cases applied
    exact ⟨merged, rfl⟩

theorem Arises.balanced (arises : desk.Arises) :
    ∃ holdings, desk.reconciler.Balanced holdings := by
  induction arises with
  | start signals metrics =>
    have exclusive : Assignment.Exclusive ∅ := by
      intro v w queue has
      simp [Assignment.mem_queuesOf] at has
    have keyed : SplitMap.Keyed ∅ := by
      intro queue split found
      simp at found
    exact ⟨Assignment.queuesOf ∅, Reconciler.balanced_restore exclusive
      (fun _ => ExtTreeSet.not_mem_empty) keyed fun _ _ => Iff.rfl⟩
  | @restore current held known exclusive free keyed owned unplaced signals metrics =>
    exact ⟨current.queuesOf, Reconciler.balanced_restore exclusive free keyed fun _ _ => Iff.rfl⟩
  | @merge desk next change target delta before suits applied ih =>
    obtain ⟨holdings, balanced⟩ := ih
    have merges := Reconciler.merges_of_suits balanced.orderly suits (reconciler_of_apply applied).1
    refine ⟨fun worker => holdings worker ∪ OwnerMap.queuesOf delta.adopted worker,
      Reconciler.balanced_apply balanced suits.latest merges fun worker queue => ?_⟩
    rw [ExtTreeSet.mem_union_iff, OwnerMap.mem_queuesOf]
  | release before worker splits ih =>
    obtain ⟨holdings, balanced⟩ := ih
    refine ⟨fun other => (holdings other).filter fun queue =>
        ¬ (other = worker ∧ queue ∈ Reconciler.queuesOf splits),
      Reconciler.balanced_release balanced fun other queue => ?_⟩
    rw [Table.mem_filter, decide_eq_true_eq]
  | register | unregister | hangUp | complete => assumption
  | @flush desk next workers batch before flushed ih =>
    obtain ⟨holdings, balanced⟩ := ih
    refine ⟨fun worker => if worker ∈ workers then desk.reconciler.current.queuesOf worker
      else holdings worker, ?_⟩
    rw [(flush_ok flushed).reconciler]
    refine Reconciler.balanced_drain balanced fun worker queue => ?_
    split <;> exact Iff.rfl

theorem Arises.numbered (arises : desk.Arises) : desk.dispatcher.registry.Numbered := by
  induction arises with
  | start | restore => exact Registry.numbered_start
  | merge before suits applied ih =>
    have same := (reconciler_of_apply applied).2
    exact (congrArg Dispatcher.registry same).symm ▸ ih
  | release | complete => assumption
  | register before worker isOpen ih => exact ih.register worker isOpen
  | unregister before worker ih => exact ih.unregister worker
  | hangUp before worker ih => exact ih.hangUp worker
  | flush before flushed ih => exact numbered_flush ih flushed

def flushEach (desk : Desk) : List WorkerSet → Except Error Desk
  | [] => .ok desk
  | workers :: rest =>
      match desk.flush workers with
      | .ok (next, _) => next.flushEach rest
      | .error e => .error e

theorem flushEach_pair (balanced : desk.reconciler.Balanced holdings)
    (numbered : desk.dispatcher.registry.Numbered) (apart : ∀ worker ∈ A, worker ∉ B)
    (registered : ∀ worker ∈ A ∪ B, desk.dispatcher.registry.isRegistered worker = true)
    {both : Desk} (whole : desk.flushEach [A ∪ B] = .ok both) :
    ∃ last, desk.flushEach [A, B] = .ok last ∧ both.Alike (.refl Nat) last := by
  obtain ⟨middle, a, first⟩ := flush_registered fun worker member =>
    registered worker (ExtTreeSet.mem_union_iff.mpr (Or.inl member))
  have still : ∀ worker ∈ B, middle.dispatcher.registry.isRegistered worker = true := by
    intro worker member
    rw [(flush_ok first).isRegistered]
    exact registered worker (ExtTreeSet.mem_union_iff.mpr (Or.inr member))
  obtain ⟨last, b, second⟩ := flush_registered still
  refine ⟨last, by simp only [flushEach, first, second], ?_⟩
  simp only [flushEach] at whole
  split at whole
  · rename_i all
    cases whole
    exact alike_flush_flush balanced numbered apart first second all
  · cases whole

theorem union_comm (A B : WorkerSet) : A ∪ B = B ∪ A := by
  apply ExtTreeSet.ext_mem
  intro worker
  rw [ExtTreeSet.mem_union_iff, ExtTreeSet.mem_union_iff, or_comm]

theorem flush_nobody (desk : Desk) : desk.flush ∅ = .ok (desk, []) := by
  have silent : desk.dispatcher.signal ∅ = desk.dispatcher :=
    Dispatcher.signal_of_signalled fun _ none => absurd none ExtTreeSet.not_mem_empty
  have quiet : desk.signalIfDue ∅ = desk := by
    rw [signalIfDue, signal, silent]
    exact ite_self desk
  have drained : desk.drain ∅ = desk := if_pos ExtTreeSet.isEmpty_empty
  have nothing : desk.batchFor ∅ = [] := batchFor_of_idle fun _ none =>
    absurd none ExtTreeSet.not_mem_empty
  rw [flush_eq fun _ none => absurd none ExtTreeSet.not_mem_empty, nothing, drained]
  exact congrArg (fun desk => Except.ok (desk, [])) quiet

def newcomers (worker : Worker) (isOpen : Bool) : WorkerSet :=
  if isOpen then ExtTreeSet.ofList [worker] else ∅

theorem mem_newcomers {isOpen : Bool} {other : Worker} :
    other ∈ newcomers worker isOpen ↔ isOpen = true ∧ other = worker := by
  cases isOpen with
  | true => exact Table.mem_single.trans (and_iff_right rfl).symm
  | false => simp [newcomers]

def welcome (desk : Desk) (worker : Worker) (isOpen : Bool) : List Command :=
  if isOpen then (desk.register worker isOpen).dues worker else []

/-- A worker registers, and what waits for it goes out if it can be reached. -/
def Joins (desk : Desk) (worker : Worker) (isOpen : Bool) (next : Desk) : Prop :=
  ∃ batch, (desk.register worker isOpen).flush (newcomers worker isOpen) = .ok (next, batch)

namespace Joins

variable {isOpen : Bool} {other : Worker}

theorem reconciler (joins : desk.Joins worker isOpen next) :
    next.reconciler = desk.reconciler.drain (newcomers worker isOpen) := by
  obtain ⟨batch, flushed⟩ := joins
  exact (flush_ok flushed).reconciler

theorem owned (joins : desk.Joins worker isOpen next) : next.dispatcher.owned =
    (Ownership.after desk.dispatcher.owned (desk.batchFor (newcomers worker isOpen))).owners := by
  obtain ⟨batch, flushed⟩ := joins
  have flushes := flush_ok flushed
  rw [flushes.owned, flushes.drained]
  rfl

theorem held (joins : desk.Joins worker isOpen next) : next.dispatcher.held =
    desk.dispatcher.held \ ExtTreeSet.ofList
      (((desk.batchFor (newcomers worker isOpen)).tagged .assign).map Placement.queue) := by
  obtain ⟨batch, flushed⟩ := joins
  have flushes := flush_ok flushed
  rw [flushes.held, flushes.drained]
  rfl

theorem flags (joins : desk.Joins worker isOpen next) :
    next.dispatcher.complete = desk.dispatcher.complete ∧
      next.dispatcher.signals = desk.dispatcher.signals := by
  obtain ⟨batch, flushed⟩ := joins
  have kept := flags_flush flushed
  exact kept

theorem shouldSignal (joins : desk.Joins worker isOpen next) :
    next.dispatcher.shouldSignal = desk.dispatcher.shouldSignal := by
  rw [Dispatcher.shouldSignal, joins.flags.1, joins.flags.2, Dispatcher.shouldSignal]

theorem mem_signalled (joins : desk.Joins worker isOpen next) :
    other ∈ next.dispatcher.signalled ↔
      (desk.dispatcher.shouldSignal = true ∧ isOpen = true ∧ other = worker) ∨
        other ≠ worker ∧ other ∈ desk.dispatcher.signalled := by
  obtain ⟨batch, flushed⟩ := joins
  rw [mem_signalled_flush flushed, mem_newcomers]
  refine or_congr Iff.rfl (Dispatcher.mem_signalled_erase.trans ?_)
  rw [ne_comm]

theorem connections (joins : desk.Joins worker isOpen next) :
    next.dispatcher.registry.connections =
      (desk.dispatcher.registry.register worker isOpen).connections := by
  obtain ⟨batch, flushed⟩ := joins
  exact (flush_ok flushed).connections

theorem opened (joins : desk.Joins worker isOpen next) :
    next.dispatcher.registry.opened = desk.dispatcher.registry.opened + 1 := by
  obtain ⟨batch, flushed⟩ := joins
  rw [dispatcher_of_flush flushed, Dispatcher.opened_served]
  rfl

theorem numbered (joins : desk.Joins worker isOpen next)
    (numbered : desk.dispatcher.registry.Numbered) : next.dispatcher.registry.Numbered := by
  obtain ⟨batch, flushed⟩ := joins
  exact numbered_flush (numbered.register worker isOpen) flushed

theorem channelOf (joins : desk.Joins worker isOpen next) (other : Worker) :
    next.dispatcher.registry.channelOf other =
      if worker = other then (if isOpen then some desk.dispatcher.registry.opened else none)
      else desk.dispatcher.registry.channelOf other := by
  rw [Registry.channelOf_congr joins.connections, Registry.channelOf_register]

theorem reaches? (joins : desk.Joins worker isOpen next) (other : Worker) :
    next.dispatcher.registry.reaches? other =
      if worker = other then some isOpen else desk.dispatcher.registry.reaches? other := by
  simp only [Registry.reaches?, joins.connections, Registry.register,
    ExtTreeMap.getElem?_insert, Std.compare_eq_iff_eq]
  split <;> rfl

theorem commandsOn (joins : desk.Joins worker isOpen next)
    (numbered : desk.dispatcher.registry.Numbered) (number : Nat) :
    next.dispatcher.registry.commandsOn number =
      if number = desk.dispatcher.registry.opened then desk.welcome worker isOpen
      else desk.dispatcher.registry.commandsOn number := by
  have fresh : (desk.register worker isOpen).dispatcher.registry.commandsOn
      desk.dispatcher.registry.opened = [] := numbered.commandsOn_opened
  obtain ⟨batch, flushed⟩ := joins
  have place : ∀ other ∈ newcomers worker isOpen,
      (desk.register worker isOpen).dispatcher.registry.channelOf other =
        some desk.dispatcher.registry.opened := by
    intro other member
    obtain ⟨there, rfl⟩ := mem_newcomers.mp member
    have reached := Registry.channelOf_register desk.dispatcher.registry other other isOpen
    rw [if_pos rfl, if_pos there] at reached
    exact reached
  split
  · rename_i new
    rw [new, welcome]
    split
    · rename_i there
      have member : worker ∈ newcomers worker isOpen := mem_newcomers.mpr ⟨there, rfl⟩
      rw [commandsOn_flush (numbered.register worker isOpen) flushed member (place worker member),
        fresh, List.nil_append]
    · rename_i closed
      rw [commandsOn_flush_elsewhere flushed, fresh]
      exact fun other member => absurd (mem_newcomers.mp member).1 closed
  · rename_i old
    have elsewhere : ∀ other ∈ newcomers worker isOpen,
        (desk.register worker isOpen).dispatcher.registry.channelOf other ≠ some number := by
      intro other member reached
      rw [place other member] at reached
      exact old (Option.some.inj reached).symm
    have untouched := commandsOn_flush_elsewhere flushed elsewhere
    exact untouched

theorem welcome (joins : desk.Joins worker isOpen next) (apart : worker ≠ other) (there : Bool) :
    next.welcome other there = desk.welcome other there := by
  have unserved : other ∉ newcomers worker isOpen :=
    fun member => apart (mem_newcomers.mp member).2.symm
  have new : ∀ desk : Desk, other ∉ (desk.register other there).dispatcher.signalled :=
    fun desk told => (Dispatcher.mem_signalled_erase.mp told).1 rfl
  have due : ∀ desk : Desk, (desk.register other there).dispatcher.shouldSignal =
      desk.dispatcher.shouldSignal := fun _ => rfl
  have same : (next.register other there).reconciler.pendingFor other =
      (desk.register other there).reconciler.pendingFor other :=
    (congrArg (Reconciler.pendingFor · other) joins.reconciler).trans
      (Reconciler.pendingFor_drain _ unserved)
  simp only [Desk.welcome, dues, new, due, joins.shouldSignal, same]

end Joins

/-- Two workers that join one after the other are told the same in either order. The one that comes
    first has the channel that is opened first. -/
theorem Joins.swap {v w : Worker} {first second : Bool} {afterV afterW one other : Desk}
    (balanced : desk.reconciler.Balanced holdings) (numbered : desk.dispatcher.registry.Numbered)
    (apart : v ≠ w) (joinsV : desk.Joins v first afterV) (thenW : afterV.Joins w second one)
    (joinsW : desk.Joins w second afterW) (thenV : afterW.Joins v first other) :
    one.Alike (.swap desk.dispatcher.registry.opened (desk.dispatcher.registry.opened + 1))
      other := by
  have away : ∀ worker ∈ newcomers v first, worker ∉ newcomers w second := by
    intro worker served again
    exact apart ((mem_newcomers.mp served).2.symm.trans (mem_newcomers.mp again).2)
  have back : ∀ worker ∈ newcomers w second, worker ∉ newcomers v first :=
    fun worker served again => away worker again served
  have either := union_comm (newcomers w second) (newcomers v first)
  have laterW : afterV.batchFor (newcomers w second) = desk.batchFor (newcomers w second) :=
    batchFor_drained joinsV.reconciler away
  have laterV : afterW.batchFor (newcomers v first) = desk.batchFor (newcomers v first) :=
    batchFor_drained joinsW.reconciler back
  refine
    { reconciler := ?reconciler
      owned := ?owned
      held := ?held
      signals := ?signals
      complete := ?complete
      signalled := ?signalled
      reaches := ?reaches
      channels := ?channels
      commands := ?commands }
  case reconciler =>
    rw [thenV.reconciler, joinsW.reconciler, thenW.reconciler, joinsV.reconciler,
      Reconciler.drain_drain, Reconciler.drain_drain, either]
  case owned =>
    rw [thenV.owned, laterV, joinsW.owned, thenW.owned, laterW, joinsV.owned,
      owners_batchFor_batchFor balanced away, owners_batchFor_batchFor balanced back, either]
  case held =>
    rw [thenV.held, laterV, joinsW.held, thenW.held, laterW, joinsV.held,
      held_batchFor_batchFor balanced.pending, held_batchFor_batchFor balanced.pending, either]
  case signals => rw [thenV.flags.2, joinsW.flags.2, thenW.flags.2, joinsV.flags.2]
  case complete => rw [thenV.flags.1, joinsW.flags.1, thenW.flags.1, joinsV.flags.1]
  case signalled =>
    apply ExtTreeSet.ext_mem
    intro worker
    rw [thenV.mem_signalled, joinsW.mem_signalled, thenW.mem_signalled, joinsV.mem_signalled,
      joinsW.shouldSignal, joinsV.shouldSignal]
    by_cases isV : worker = v
    · have notW : worker ≠ w := fun isW => apart (isV.symm.trans isW)
      simp [isV, apart]
    · simp [isV]
  case reaches =>
    intro worker
    rw [thenV.reaches?, joinsW.reaches?, thenW.reaches?, joinsV.reaches?]
    by_cases isV : v = worker
    · have notW : w ≠ worker := fun isW => apart (isV.trans isW.symm)
      simp [isV, notW]
    · simp [isV]
  case channels =>
    intro worker
    rw [thenV.channelOf, joinsW.channelOf, thenW.channelOf, joinsV.channelOf, joinsW.opened,
      joinsV.opened]
    by_cases isV : v = worker
    · have notW : w ≠ worker := fun isW => apart (isV.trans isW.symm)
      cases first with
      | true => simp [isV, notW]
      | false => simp [isV, notW]
    · by_cases isW : w = worker
      · cases second with
        | true => simp [isW, isV]
        | false => simp [isW, isV]
      · simp only [isV, isW, if_false]
        cases reached : desk.dispatcher.registry.channelOf worker with
        | none => rfl
        | some number =>
          have before := numbered.opened reached
          rw [Option.map_some, Equiv.swap_apply_of_ne_of_ne]
          · omega
          · omega
  case commands =>
    intro number
    rw [thenV.commandsOn (joinsW.numbered numbered), joinsW.commandsOn numbered,
      thenW.commandsOn (joinsV.numbered numbered), joinsV.commandsOn numbered, joinsW.opened,
      joinsV.opened, joinsV.welcome apart, joinsW.welcome apart.symm]
    by_cases old : number = desk.dispatcher.registry.opened
    · simp [old]
    · by_cases new : number = desk.dispatcher.registry.opened + 1
      · simp [new]
      · simp [Equiv.swap_apply_of_ne_of_ne old new, old, new]

end Desk

namespace Coordinator

structure Adds (c : Coordinator) (worker : Worker) (isOpen : Bool) (outcome : Outcome) : Prop where
  result : outcome.result = .ok ()
  job : outcome.coordinator.job = c.job
  calls : outcome.coordinator.calls = c.calls
  joins : c.desk.Joins worker isOpen outcome.coordinator.desk

theorem adds_addWorker (c : Coordinator) (worker : Worker) (isOpen : Bool) :
    c.Adds worker isOpen (c.addWorker worker isOpen) := by
  have there : (c.desk.register worker isOpen).dispatcher.registry.isRegistered worker = isOpen :=
    (Registry.isRegistered_register ..).trans (if_pos rfl)
  cases isOpen with
  | true =>
    obtain ⟨next, batch, flushed⟩ :=
      Desk.flush_registered (Registry.isRegistered_of_mem_single there)
    have same : c.addWorker worker true = ⟨{ c with desk := next }, .ok ()⟩ := by
      simp only [addWorker, there, if_true, flush, flushed]
    rw [same]
    exact ⟨rfl, rfl, rfl, batch, flushed⟩
  | false =>
    have same : c.addWorker worker false =
        ⟨{ c with desk := c.desk.register worker false }, .ok ()⟩ := by
      simp only [addWorker, there, Bool.false_eq_true, if_false]
    rw [same]
    exact ⟨rfl, rfl, rfl, [], Desk.flush_nobody _⟩

end Coordinator

theorem Reached.numbered {site : Site} {journal : Journal} (reached : Reached site journal) :
    site.coordinator.desk.dispatcher.registry.Numbered := by
  have surveyed : ∃ surveys, Surveyed site journal surveys := by
    induction reached with
    | start job => exact ⟨_, .start job⟩
    | restore opened => exact ⟨_, .restore opened⟩
    | act before act ih =>
      obtain ⟨surveys, surveyed⟩ := ih
      exact ⟨_, surveyed.act act⟩
  obtain ⟨surveys, surveyed⟩ := surveyed
  exact surveyed.signals.signalling.tallied.numbered

/-- Two sets of workers can be flushed one after the other, the other way round or at once, and the
    books and what went out are the same. Whoever an assign waits for ends up as the owner, however
    late the revoke of a former owner goes out. Two workers that join end up the same in either
    order, with the numbers of their new channels swapped. -/
theorem flush_order_makes_no_difference :
    (∀ {desk : Desk}, desk.Arises → ∀ {A B : WorkerSet}, (∀ worker ∈ A, worker ∉ B) →
      (∀ worker ∈ A ∪ B, desk.dispatcher.registry.isRegistered worker = true) →
      ∃ both one other, desk.flushEach [A ∪ B] = .ok both ∧ desk.flushEach [A, B] = .ok one ∧
        desk.flushEach [B, A] = .ok other ∧
        both.Alike (.refl Nat) one ∧ both.Alike (.refl Nat) other ∧
        ∀ worker ∈ A ∪ B, ∀ queue,
          desk.reconciler.pending[(⟨worker, queue⟩ : Placement)]?.map Split.tag = some .assign →
            both.dispatcher.owned[queue]? = some worker) ∧
    ∀ {site : Site} {journal : Journal}, Reached site journal → ∀ {v w : Worker}, v ≠ w →
      ∀ first second : Bool,
        let c := site.coordinator
        let joinedV := c.addWorker v first
        let joinedW := c.addWorker w second
        let one := joinedV.coordinator.addWorker w second
        let other := joinedW.coordinator.addWorker v first
        let opened := c.desk.dispatcher.registry.opened
        (joinedV.result = .ok () ∧ one.result = .ok ()) ∧
        (joinedW.result = .ok () ∧ other.result = .ok ()) ∧
        one.coordinator.job = other.coordinator.job ∧
        one.coordinator.calls = other.coordinator.calls ∧
        one.coordinator.desk.Alike (.swap opened (opened + 1)) other.coordinator.desk := by
  constructor
  · intro desk arises A B apart registered
    obtain ⟨holdings, balanced⟩ := arises.balanced
    have numbered := arises.numbered
    obtain ⟨both, batch, flushed⟩ := Desk.flush_registered registered
    have whole : desk.flushEach [A ∪ B] = .ok both := by
      simp only [Desk.flushEach, flushed]
    have back : ∀ worker ∈ B, worker ∉ A := fun worker served again => apart worker again served
    obtain ⟨one, forwards, alike⟩ :=
      Desk.flushEach_pair balanced numbered apart registered whole
    rw [Desk.union_comm] at whole registered
    obtain ⟨other, backwards, same⟩ :=
      Desk.flushEach_pair balanced numbered back registered whole
    refine ⟨both, one, other, Desk.union_comm A B ▸ whole, forwards, backwards, alike, same, ?_⟩
    intro worker member queue waits
    have flushes := Desk.flush_ok flushed
    have listed : ∀ v, ⟨v, queue⟩ ∈ (desk.batchFor (A ∪ B)).tagged .assign ↔ v ∈ A ∪ B ∧
        desk.reconciler.pending[(⟨v, queue⟩ : Placement)]?.map Split.tag = some .assign :=
      fun v => Desk.mem_tagged_batchFor balanced.pending
    rw [flushes.owned, flushes.drained, Ownership.getElem?_after]
    · exact Or.inl ((listed worker).mpr ⟨member, waits⟩)
    · exact fun v w first second =>
        Desk.single_waiting balanced ((listed v).mp first).2 ((listed w).mp second).2
  · intro site journal reached v w apart first second c joinedV joinedW one other opened
    have addedV := c.adds_addWorker v first
    have addedW := c.adds_addWorker w second
    have thenW := joinedV.coordinator.adds_addWorker w second
    have thenV := joinedW.coordinator.adds_addWorker v first
    refine ⟨⟨addedV.result, thenW.result⟩, ⟨addedW.result, thenV.result⟩, ?_, ?_, ?_⟩
    · exact (thenW.job.trans addedV.job).trans (thenV.job.trans addedW.job).symm
    · exact (thenW.calls.trans addedV.calls).trans (thenV.calls.trans addedW.calls).symm
    · exact addedV.joins.swap reached.sound.accounted.balanced reached.numbered apart thenW.joins
        addedW.joins thenV.joins

namespace Sample

def occupied : Desk :=
  let owners : OwnerMap := Table.ofEntries [(queue 0, 0)]
  let known : SplitMap := Table.ofEntries [(queue 0, .assign (queue 0) 0 none)]
  let desk := Desk.start (.restore owners.byWorker ∅ known) (.restore owners ∅ false) {}
  (desk.register 0 true).register 1 true

def sameTopology : SplitChange where
  latest := SplitMap.ofSplits [.assign (queue 0) 0 none]

def toSecond : Assignment := Table.ofEntries [(1, ExtTreeSet.ofList [queue 0])]

def handover : Desk :=
  match occupied.apply sameTopology toSecond with
  | .ok (next, delta) => next.settle delta
  | .error _ => occupied

theorem arises_handover : handover.Arises := by
  have start : occupied.Arises := by
    refine .register (.register (.restore (OwnerMap.exclusive_byWorker _)
      (fun _ => ExtTreeSet.not_mem_empty) ?_ _ _ _ _) _ _) _ _
    intro queue split found
    have listed := Table.mem_of_getElem?_ofEntries found
    simp only [List.mem_singleton, Prod.mk.injEq] at listed
    rw [listed.1, listed.2]
    rfl
  have none : ∀ queue, queue ∉ sameTopology.decreased := fun _ => ExtTreeMap.not_mem_empty
  have suits : sameTopology.Suits toSecond :=
    ⟨SplitMap.keyed_ofSplits _, fun {queue _} found => absurd
      (ExtTreeMap.mem_iff_isSome_getElem?.mpr (Option.isSome_of_mem found)) (none queue),
      fun queue gone => absurd gone (none queue)⟩
  obtain ⟨next, delta, applied⟩ :
      ∃ next delta, occupied.apply sameTopology toSecond = .ok (next, delta) := ⟨_, _, rfl⟩
  have same : handover = next.settle delta := by
    rw [handover, applied]
  exact same ▸ start.merge suits applied

end Sample

/-- The new owner is flushed first, and the revoke of the former one goes out late. -/
theorem late_revoke_spares_new_owner :
    let second := ExtTreeSet.ofList [(1 : Worker)]
    let first := ExtTreeSet.ofList [(0 : Worker)]
    ∃ last, Sample.handover.flushEach [second, first] = .ok last ∧
      last.dispatcher.owned[Sample.queue 0]? = some 1 := by
  intro second first
  have apart : ∀ worker ∈ second, worker ∉ first := by
    intro worker served again
    rw [Table.mem_single] at served again
    rw [served] at again
    exact absurd again (by decide)
  have registered : ∀ worker ∈ second ∪ first,
      Sample.handover.dispatcher.registry.isRegistered worker = true := by
    intro worker member
    rcases ExtTreeSet.mem_union_iff.mp member with served | served
    · rw [Table.mem_single.mp served]
      decide +kernel
    · rw [Table.mem_single.mp served]
      decide +kernel
  obtain ⟨both, one, _, _, forwards, _, alike, _, owner⟩ :=
    flush_order_makes_no_difference.1 Sample.arises_handover apart registered
  have served : 1 ∈ second ∪ first :=
    ExtTreeSet.mem_union_iff.mpr (Or.inl (Table.mem_single.mpr rfl))
  refine ⟨one, forwards, ?_⟩
  rw [alike.owned]
  exact owner 1 served (Sample.queue 0) (by decide +kernel)

end QueueAssignment
