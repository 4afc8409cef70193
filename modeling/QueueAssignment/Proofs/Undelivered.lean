import QueueAssignment.Proofs.Rediscovery

/-!
A second cycle over one topology in which look-ups fail. It drops the queues that nobody was given
yet and whose start is not known, and asks for a target without them. Where each queue has a worker
of its own nobody is told anything; a strategy that deals queues out in blocks moves others.
-/
namespace QueueAssignment
open Std

namespace Strategy

def part (strategy : Strategy) (parallelism : UInt32) (queues : QueueSet) (worker : Worker) :
    QueueSet :=
  match strategy 0 queues parallelism with
  | .ok target => target.queuesOf worker
  | .error _ => ∅

/-- Every answer puts each queue on the worker that `place` names. -/
def PutsAt (strategy : Strategy) (parallelism : UInt32) (place : Queue → Worker) : Prop :=
  ∀ call queues target, strategy call queues parallelism = .ok target →
    ∀ worker queue, queue ∈ target.queuesOf worker → worker = place queue

theorem hashed_putsAt (parallelism : UInt32) :
    hashed.PutsAt parallelism (hashedWorker parallelism) := by
  intro call queues target answered worker queue placed
  unfold hashed at answered
  split at answered
  · cases answered
  · cases answered
    exact (mem_queuesOf_hashedOwners.mp placed).2.symm

theorem BuiltIn.deterministic (builtIn : BuiltIn) : builtIn.strategy.Deterministic := by
  cases builtIn with
  | hash => exact fun _ _ => rfl
  | average => exact fun _ _ => rfl

theorem BuiltIn.some_worker {builtIn : BuiltIn} {call : Nat} {queues : QueueSet}
    {parallelism : UInt32} {target : Assignment}
    (answered : builtIn.strategy call queues parallelism = .ok target) : parallelism ≠ 0 := by
  rintro rfl
  cases builtIn with
  | hash => cases answered
  | average => cases answered

theorem Deterministic.part_eq {strategy : Strategy} (deterministic : strategy.Deterministic)
    {call : Nat} {queues : QueueSet} {parallelism : UInt32} {target : Assignment}
    (answered : strategy call queues parallelism = .ok target) :
    strategy.part parallelism queues = target.queuesOf := by
  rw [deterministic call 0] at answered
  funext worker
  rw [part, answered]

end Strategy

namespace Registry

theorem sent_send {r : Registry} {worker : Worker} (there : r.isRegistered worker = true)
    (command : Command) :
    ∃ channel, (r.send worker command).sent = r.sent ++ [⟨worker, channel, command⟩] := by
  unfold isRegistered at there
  unfold send
  cases found : r.connections[worker]? with
  | some channel =>
    simp only [found] at there
    exact ⟨channel.number, by simp [there]⟩
  | none => simp [found] at there

theorem sent_sendAll {r : Registry} {batch : Batch}
    (there : ∀ part ∈ batch, r.isRegistered part.1 = true) :
    ∃ deliveries : List Delivery,
      (batch.foldl (fun r part => r.send part.1 (.assign part.2)) r).sent = r.sent ++ deliveries ∧
        deliveries.map Delivery.worker = batch.map Prod.fst := by
  induction batch generalizing r with
  | nil => exact ⟨[], by simp⟩
  | cons part rest ih =>
    obtain ⟨channel, first⟩ := sent_send (there part (by simp)) (.assign part.2)
    have others : ∀ other ∈ rest,
        (r.send part.1 (.assign part.2)).isRegistered other.1 = true := by
      intro other member
      rw [isRegistered_send]
      exact there other (by simp [member])
    obtain ⟨deliveries, later, workers⟩ := ih others
    refine ⟨⟨part.1, channel, .assign part.2⟩ :: deliveries, ?_, ?_⟩
    · rw [List.foldl_cons, later, first, List.append_assoc]
      rfl
    · rw [List.map_cons, workers, List.map_cons]

end Registry

theorem Desk.mem_batchFor_fst {desk : Desk} {workers : WorkerSet} {worker : Worker} :
    worker ∈ (desk.batchFor workers).map Prod.fst ↔ worker ∈ workers ∧
      ∃ queue, desk.reconciler.pending[(⟨worker, queue⟩ : Placement)]? ≠ none := by
  have waits : (∃ queue, desk.reconciler.pending[(⟨worker, queue⟩ : Placement)]? ≠ none) ↔
      desk.reconciler.pendingFor worker ≠ [] := by
    rw [Ne, Reconciler.pendingFor_eq_nil_iff, not_forall]
  rw [waits]
  simp only [batchFor, List.mem_map, List.mem_filter, ExtTreeSet.mem_toList]
  constructor
  · intro listed
    obtain ⟨_, ⟨⟨served, member, rfl⟩, some_split⟩, rfl⟩ := listed
    exact ⟨member, by simpa using some_split⟩
  · intro both
    obtain ⟨member, some_split⟩ := both
    exact ⟨_, ⟨⟨worker, member, rfl⟩, by simpa using some_split⟩, rfl⟩

namespace Desk

variable {job : Job} {desk next : Desk} {journal : Journal}

/-- A worker has a queue of another place only as long as it holds it, and a queue that its own
    worker holds was given to nobody after it. -/
def Homed (job : Job) (desk : Desk) (journal : Journal) : Prop :=
  ∀ place, job.strategy.PutsAt job.settings.parallelism place →
    (∀ worker queue, queue ∈ desk.reconciler.current.queuesOf worker →
      worker = place queue ∨ queue ∈ journal.heldBy worker) ∧
    ∀ queue, queue ∈ journal.heldBy (place queue) → journal.Newest ⟨place queue, queue⟩

theorem Flushes.homed {workers : WorkerSet} {batch : Batch}
    (flushes : desk.Flushes workers next batch) (accounted : desk.Accounted journal)
    (homed : desk.Homed job journal) : next.Homed job (journal ++ batch.events) := by
  intro place puts
  obtain ⟨home, newest⟩ := homed place puts
  rw [flushes.reconciler, Reconciler.current_drain]
  constructor
  · intro worker queue has
    rw [flushes.mem_heldBy accounted]
    rcases home worker queue has with here | held
    · exact Or.inl here
    · -- What a worker is to have is not taken from it.
      refine Or.inr (Or.inr ⟨held, fun revoked => ?_⟩)
      rw [Batch.revoked_events, flushes.mem_revoked accounted] at revoked
      exact revoked.2.2 has
  · intro queue held
    rw [Journal.newest_append fun _ given again => flushes.single accounted again given]
    rcases (flushes.mem_heldBy accounted).mp held with given | ⟨before, _⟩
    · exact Or.inl given
    · refine Or.inr ⟨newest queue before, fun worker given => ?_⟩
      rw [Batch.given_events, flushes.mem_assigned accounted] at given
      obtain ⟨_, has, unheld⟩ := given
      rcases home worker queue has with here | held
      · exact unheld (here ▸ before)
      · exact unheld held

theorem Homed.merge (homed : desk.Homed job journal) (accounted : desk.Accounted journal)
    {change : SplitChange} (fits : change.Fits) {target : Assignment} {delta : Delta}
    (answers : job.Answers change target)
    (applied : desk.reconciler.apply change target = .ok (next.reconciler, delta)) :
    next.Homed job (journal ++ delta.adoptions) := by
  intro place puts
  have newest := (homed place puts).2
  have merges := Reconciler.merges_of_apply accounted.balanced fits applied
  obtain ⟨call, answered⟩ := answers
  obtain ⟨owners, _, _, merged⟩ := Reconciler.apply_ok applied
  have placed : ∀ {worker queue}, queue ∈ next.reconciler.current.queuesOf worker →
      worker = place queue := by
    intro worker queue has
    rw [merged] at has
    exact puts _ _ _ answered _ _ (Assignment.mem_queuesOf_withoutIdle.mp has)
  refine ⟨fun worker queue has => Or.inl (placed has), fun queue held => ?_⟩
  rw [Journal.newest_append]
  · rcases Delta.mem_heldBy_adoptions.mp held with before | adopted
    · -- What somebody holds is placed, and so not adopted.
      refine Or.inr ⟨newest queue before, fun worker given => ?_⟩
      exact accounted.balanced.placed before
        (merges.adopted.mp (Delta.given_adoptions.mp given)).2
    · exact Or.inl (Delta.given_adoptions.mpr adopted)
  · intro worker _ given
    exact placed (merges.adopted.mp (Delta.given_adoptions.mp given)).1

theorem Homed.release (homed : desk.Homed job journal) (worker : Worker) (splits : List Split) :
    (desk.release worker splits).Homed job (journal ++ Journal.losses worker splits) := by
  intro place puts
  obtain ⟨home, newest⟩ := homed place puts
  constructor
  · intro other queue has
    obtain ⟨before, kept⟩ := Assignment.mem_queuesOf_release.mp has
    rcases home other queue before with here | held
    · exact Or.inl here
    · exact Or.inr (Journal.mem_heldBy_losses.mpr ⟨held, kept⟩)
  · intro queue held
    rw [Journal.newest_losses]
    exact newest queue (Journal.mem_heldBy_losses.mp held).1

theorem steady_homed : Steady Homed := by
  intro job desk next journal events accounted homed step
  cases step with
  | aside reconciler owned held told =>
    intro place puts
    rw [reconciler, List.append_nil]
    exact homed place puts
  | flush flushes => exact flushes.homed accounted homed
  | merge fits answers applied settled => exact homed.merge accounted fits answers applied
  | release worker splits => exact homed.release worker splits

end Desk

theorem Reached.homed {site : Site} {journal : Journal} (reached : Reached site journal) :
    site.coordinator.desk.Homed site.coordinator.job journal := by
  refine reached.steady (P := Desk.Homed) Desk.steady_homed ?_ ?_
  · intro job place puts
    simp [Coordinator.start, Assignment.mem_queuesOf, Journal.heldBy]
  · intro job checkpoint metrics c opened place puts
    have accounted := (Coordinator.sound_restore opened).accounted
    have holds := Coordinator.mem_heldBy_restoredEvents c
    refine ⟨fun worker queue has => Or.inr ((holds worker queue).mpr has), fun queue held => ?_⟩
    obtain ⟨reconciler, dispatcher⟩ := Coordinator.restore_ok opened
    have has := (holds _ queue).mp held
    rw [reconciler] at has
    have owned : c.desk.dispatcher.owned[queue]? = some (place queue) := by
      rw [dispatcher]
      exact OwnerMap.mem_queuesOf_byWorker.mp has
    exact (accounted.owned.mp owned).1

namespace Coordinator

variable {c : Coordinator} {latest : QueueSet} {lookUp : QueueSet → Lookup} {journal : Journal}

/-- The queues of `latest` that count as owned, or whose start is known now. -/
def kept (c : Coordinator) (latest : QueueSet) (lookUp : QueueSet → Lookup) : QueueSet :=
  latest.filter fun queue => (lookUp (c.wanted latest)).starting.offsets[queue]?.isSome ||
    queue ∈ c.desk.dispatcher.ownedQueues

theorem kept_of_unchanged (same : c.changeTo latest = none) : c.kept latest lookUp = latest := by
  apply ExtTreeSet.ext_mem
  intro queue
  rw [kept, Table.mem_filter, ← changeTo_eq_none_iff.mp same]
  refine and_iff_left_of_imp fun found => ?_
  simp [found]

theorem Merged.asked_eq_kept {target : Assignment} (merged : c.Merged latest target) :
    c.asked latest lookUp = c.kept latest lookUp := by
  apply ExtTreeSet.ext_mem
  intro queue
  rw [asked, kept, Table.mem_filter, Table.mem_filter]
  refine and_congr_right fun found => ?_
  have known : queue ∈ c.desk.reconciler.known := by
    rw [← Table.mem_keys, merged.known]
    exact found
  simp [known]

theorem Places.waits_iff {change : SplitChange} {target : Assignment} {delta : Delta}
    {placed : Coordinator} (places : c.Places change target delta placed)
    (accounted : c.desk.Accounted journal) (fits : change.Fits) {worker : Worker} {queue : Queue}
    (served : c.desk.reconciler.pending[(⟨worker, queue⟩ : Placement)]? = none)
    (known : queue ∈ placed.desk.reconciler.current.queuesOf worker →
      queue ∉ c.desk.reconciler.held) :
    placed.desk.reconciler.pending[(⟨worker, queue⟩ : Placement)]? ≠ none ↔
      ¬ (queue ∈ c.desk.reconciler.current.queuesOf worker ↔
        queue ∈ placed.desk.reconciler.current.queuesOf worker) := by
  have merges := places.merges accounted fits
  rw [places.pending_eq accounted fits served, Ne, ← Option.map_eq_none_iff, merges.tags]
  by_cases had : queue ∈ c.desk.reconciler.current.queuesOf worker
  · by_cases gets : queue ∈ placed.desk.reconciler.current.queuesOf worker
    · simp [had, gets]
    · simp [had, gets]
  · by_cases gets : queue ∈ placed.desk.reconciler.current.queuesOf worker
    · simp [had, gets, known gets]
    · simp [had, gets]

theorem Announced.completeCycle_sent (announced : c.Announced) :
    ∃ deliveries, c.completeCycle.coordinator.desk.dispatcher.registry.sent =
        c.desk.dispatcher.registry.sent ++ deliveries ∧
      ∀ worker, (∃ delivery ∈ deliveries, delivery.worker = worker) ↔
        c.desk.dispatcher.registry.isRegistered worker = true ∧
          ∃ queue, c.desk.reconciler.pending[(⟨worker, queue⟩ : Placement)]? ≠ none := by
  obtain ⟨_, _, dispatcher⟩ := announced.completeCycle
  have there : ∀ part ∈ c.desk.batchFor c.desk.dispatcher.registry.workers,
      c.desk.dispatcher.registry.isRegistered part.1 = true := by
    intro part member
    exact Desk.registered_of_mem_batchFor (fun _ => Registry.mem_workers.mp) member
  obtain ⟨deliveries, sent, workers⟩ := Registry.sent_sendAll there
  refine ⟨deliveries, ?_, fun worker => ?_⟩
  · rw [dispatcher]
    exact sent
  · rw [← List.mem_map, workers, Desk.mem_batchFor_fst, Registry.mem_workers]

/-- What a target for the kept queues places was placed before, so nothing of it is held. -/
theorem Merged.not_held {target fewer : Assignment} (merged : c.Merged latest target)
    (accounted : c.desk.Accounted journal)
    (covers : target.Covers latest c.job.settings.parallelism)
    (less : fewer.Covers (c.kept latest lookUp) c.job.settings.parallelism) {worker : Worker}
    {queue : Queue} (has : queue ∈ fewer.queuesOf worker) : queue ∉ c.desk.reconciler.held := by
  have kept := Table.mem_filter.mp ((less.placed queue).mpr ⟨worker, has⟩)
  obtain ⟨other, had⟩ := (covers.placed queue).mp kept.1
  rw [← Assignment.mem_queuesOf_withoutIdle, ← merged.current] at had
  exact accounted.balanced.free had

theorem Merged.told_iff {target fewer : Assignment} (merged : c.Merged latest target)
    (sound : c.Sound journal) (announced : c.Announced) (changed : c.changeTo latest ≠ none)
    (covers : target.Covers latest c.job.settings.parallelism)
    (answered : c.job.strategy c.calls (c.kept latest lookUp) c.job.settings.parallelism =
      .ok fewer)
    (less : fewer.Covers (c.kept latest lookUp) c.job.settings.parallelism) :
    let again := c.cycleOver latest lookUp
    again.result = .ok () ∧
      (∀ worker, again.coordinator.desk.reconciler.current.queuesOf worker =
        fewer.queuesOf worker) ∧
      ∃ deliveries, again.coordinator.desk.dispatcher.registry.sent =
          c.desk.dispatcher.registry.sent ++ deliveries ∧
        ∀ worker, (∃ delivery ∈ deliveries, delivery.worker = worker) ↔
          c.desk.dispatcher.registry.isRegistered worker = true ∧
            target.queuesOf worker ≠ fewer.queuesOf worker := by
  intro again
  have queues : (c.changeOver latest lookUp).queues = c.kept latest lookUp :=
    queues_changeOver.trans merged.asked_eq_kept
  rw [← queues] at answered less
  obtain ⟨owners, accepted⟩ := less.accepted
  obtain ⟨delta, placed, places, finished⟩ := cycleOver_accepted changed answered accepted
  have cycled : again = placed.completeCycle := finished
  obtain ⟨done, reconciler, _⟩ := (places.announced announced).completeCycle
  obtain ⟨deliveries, sent, told⟩ := (places.announced announced).completeCycle_sent
  have registry : placed.desk.dispatcher.registry = c.desk.dispatcher.registry := by
    rw [places.settled]
    rfl
  rw [registry] at sent told
  rw [cycled]
  refine ⟨done, ?_, deliveries, sent, fun worker => ?_⟩
  · intro worker
    apply ExtTreeSet.ext_mem
    intro queue
    rw [reconciler, Reconciler.current_drain, places.mem_queuesOf]
  · rw [told]
    refine and_congr_right fun registered => ?_
    have waits := fun queue => places.waits_iff sound.accounted
      (fits_changeOver sound.accounted.balanced.known) (sound.caughtUp registered queue)
      fun has => merged.not_held sound.accounted covers (queues ▸ less)
        (places.mem_queuesOf.mp has)
    simp only [waits, places.mem_queuesOf, merged.current, Assignment.mem_queuesOf_withoutIdle]
    rw [← not_forall, not_iff_not, ExtTreeSet.ext_mem_iff]

/-- Where each queue has a worker of its own, a worker that can be reached is on record for all it
    should have, so a target without the dropped queues is the same for it. -/
theorem Merged.queuesOf_eq {target fewer : Assignment} {call : Nat} {place : Queue → Worker}
    (merged : c.Merged latest target) (sound : c.Sound journal) (homed : c.desk.Homed c.job journal)
    (puts : c.job.strategy.PutsAt c.job.settings.parallelism place)
    (covers : target.Covers latest c.job.settings.parallelism)
    (answered : c.job.strategy call (c.kept latest lookUp) c.job.settings.parallelism = .ok fewer)
    (less : fewer.Covers (c.kept latest lookUp) c.job.settings.parallelism) {worker : Worker}
    (registered : c.desk.dispatcher.registry.isRegistered worker = true) :
    target.queuesOf worker = fewer.queuesOf worker := by
  obtain ⟨_, asked⟩ := merged.answered
  obtain ⟨_, newest⟩ := homed place puts
  have accounted := sound.accounted
  apply ExtTreeSet.ext_mem
  intro queue
  constructor
  · intro has
    have found := (covers.placed queue).mpr ⟨worker, has⟩
    have here : worker = place queue := puts _ _ _ asked _ _ has
    rw [← Assignment.mem_queuesOf_withoutIdle, ← merged.current] at has
    have net := accounted.balanced.net ⟨worker, queue⟩
    rw [sound.caughtUp registered queue, Option.map_none, eq_comm,
      Reconciler.due_eq_none_iff] at net
    have held : queue ∈ journal.heldBy worker := net.mp has
    have unrevoked := (Journal.inForce_iff.mp (Journal.mem_heldBy.mp held)).1
    have owned : c.desk.dispatcher.owned[queue]? = some worker :=
      accounted.owned.mpr ⟨here ▸ newest queue (here ▸ held), unrevoked⟩
    have counts := Dispatcher.mem_ownedQueues.mpr (Or.inl ⟨worker, owned⟩)
    have kept : queue ∈ c.kept latest lookUp := Table.mem_filter.mpr ⟨found, by simp [counts]⟩
    obtain ⟨other, again⟩ := (less.placed queue).mp kept
    rwa [puts _ _ _ answered _ _ again, ← here] at again
  · intro has
    have kept := Table.mem_filter.mp ((less.placed queue).mpr ⟨worker, has⟩)
    obtain ⟨other, before⟩ := (covers.placed queue).mp kept.1
    rwa [puts _ _ _ asked _ _ before, ← puts _ _ _ answered _ _ has] at before

theorem Settled.merged_of_short (settled : c.Settled latest)
    (short : c.kept latest lookUp ≠ latest) :
    c.changeTo latest ≠ none ∧ ∃ target, c.Merged latest target := by
  have changed : c.changeTo latest ≠ none := fun same => short (kept_of_unchanged same)
  rcases settled with same | merged
  · exact absurd same changed
  · exact ⟨changed, merged⟩

theorem Settled.asked_of_kept (settled : c.Settled latest) (all : c.kept latest lookUp = latest)
    (changed : c.changeTo latest ≠ none) : c.asked latest lookUp = latest := by
  rcases settled with same | ⟨target, merged⟩
  · exact absurd same changed
  · exact merged.asked_eq_kept.trans all

theorem Merged.told_of_short {builtIn : Strategy.BuiltIn} {target : Assignment}
    (merged : c.Merged latest target) (chosen : c.job.strategy = builtIn.strategy)
    (sound : c.Sound journal) (announced : c.Announced) (homed : c.desk.Homed c.job journal)
    (changed : c.changeTo latest ≠ none) :
    let again := c.cycleOver latest lookUp
    let part := builtIn.strategy.part c.job.settings.parallelism
    again.result = .ok () ∧
      (∀ worker, c.desk.reconciler.current.queuesOf worker = part latest worker ∧
        again.coordinator.desk.reconciler.current.queuesOf worker =
          part (c.kept latest lookUp) worker) ∧
      ∃ deliveries, again.coordinator.desk.dispatcher.registry.sent =
          c.desk.dispatcher.registry.sent ++ deliveries ∧
        (∀ worker, (∃ delivery ∈ deliveries, delivery.worker = worker) ↔
          c.desk.dispatcher.registry.isRegistered worker = true ∧
            part latest worker ≠ part (c.kept latest lookUp) worker) ∧
        (builtIn = .hash → deliveries = []) := by
  intro again part
  obtain ⟨call, asked⟩ := merged.answered
  rw [chosen] at asked
  have some_worker := Strategy.BuiltIn.some_worker asked
  obtain ⟨_, same, covers⟩ := builtIn.covering call latest some_worker
  obtain rfl := Except.ok.inj (asked.symm.trans same)
  obtain ⟨fewer, answered, less⟩ :=
    builtIn.covering c.calls (c.kept latest lookUp) some_worker
  have before : part latest = target.queuesOf := builtIn.deterministic.part_eq asked
  have after : part (c.kept latest lookUp) = fewer.queuesOf :=
    builtIn.deterministic.part_eq answered
  rw [← chosen] at answered
  obtain ⟨finished, current, deliveries, sent, told⟩ :=
    merged.told_iff sound announced changed covers answered less
  rw [before, after]
  refine ⟨finished, fun worker => ⟨?_, current worker⟩, deliveries, sent, told, ?_⟩
  · apply ExtTreeSet.ext_mem
    intro queue
    rw [merged.current, Assignment.mem_queuesOf_withoutIdle]
  · rintro rfl
    have puts : c.job.strategy.PutsAt c.job.settings.parallelism
        (Strategy.hashedWorker c.job.settings.parallelism) :=
      chosen ▸ Strategy.hashed_putsAt _
    rw [List.eq_nil_iff_forall_not_mem]
    intro delivery listed
    obtain ⟨registered, differ⟩ := (told delivery.worker).mp ⟨delivery, listed, rfl⟩
    exact differ (merged.queuesOf_eq sound homed puts covers answered less registered)

end Coordinator

/-- A cycle over `latest` in which every start is known is followed by one in which look-ups fail.
    The queues that count as nobody's and whose start is not known now are dropped. If there are
    any, the target is the one for the queues without them, and of the workers that can be reached
    just those are told something for whom the two targets differ: with hashing nobody, with blocks
    every worker whose block shifts. -/
theorem told_after_failed_lookUps_iff {site : Site} {journal : Journal}
    (reached : Reached site journal) {builtIn : Strategy.BuiltIn}
    (chosen : site.coordinator.job.strategy = builtIn.strategy) {latest : QueueSet}
    {first : QueueSet → Lookup} (second : QueueSet → Lookup) (meter : Metrics → Metrics)
    (resolved : site.coordinator.Resolves latest first)
    (done : (site.coordinator.cycleOver latest first).result = .ok ()) :
    let once := (site.coordinator.cycleOver latest first).coordinator.count meter
    let again := once.cycleOver latest second
    let kept := once.kept latest second
    let part := builtIn.strategy.part once.job.settings.parallelism
    again.result = .ok () ∧
      (kept = latest → again.coordinator.desk.dispatcher = once.desk.dispatcher ∧
        again.coordinator.desk.reconciler.current = once.desk.reconciler.current ∧
        again.coordinator.desk.reconciler.pending = once.desk.reconciler.pending) ∧
      (kept ≠ latest → ∀ worker,
        once.desk.reconciler.current.queuesOf worker = part latest worker ∧
        again.coordinator.desk.reconciler.current.queuesOf worker = part kept worker) ∧
      ∃ deliveries, again.coordinator.desk.dispatcher.registry.sent =
          once.desk.dispatcher.registry.sent ++ deliveries ∧
        (∀ worker, (∃ delivery ∈ deliveries, delivery.worker = worker) ↔
          once.desk.dispatcher.registry.isRegistered worker = true ∧
            part latest worker ≠ part kept worker) ∧
        (builtIn = .hash → deliveries = []) := by
  intro once again kept part
  have asks := Coordinator.asked_of_resolves resolved
  have settled : once.Settled latest :=
    (Coordinator.settled_cycleOver reached.sound asks done).count meter
  have announced := (Coordinator.announced_cycleOver done).count meter
  have sound := kept_sound.count (kept_sound.cycleOver reached.sound latest first) meter
  have goes := site.coordinator.goes_cycleOver reached.sound.accounted.balanced.known latest first
  have strategy : once.job.strategy = builtIn.strategy := by
    rw [← chosen, ← goes.job]
    rfl
  by_cases all : kept = latest
  · obtain ⟨finished, dispatcher, current, pending, _⟩ := settled.silent sound announced
      (strategy ▸ builtIn.deterministic) (settled.asked_of_kept all)
    refine ⟨finished, fun _ => ⟨dispatcher, current, pending⟩, fun short => absurd all short,
      [], ?_, ?_, fun _ => rfl⟩
    · rw [List.append_nil]
      exact congrArg (·.registry.sent) dispatcher
    · simp [all]
  · obtain ⟨changed, target, merged⟩ := settled.merged_of_short all
    have homed : once.desk.Homed once.job _ :=
      goes.job ▸ goes.steps.keep Desk.steady_homed reached.sound.accounted reached.homed
    obtain ⟨finished, current, deliveries, rest⟩ :=
      merged.told_of_short strategy sound announced homed changed
    exact ⟨finished, fun same => absurd same all, fun _ => current, deliveries, rest⟩

namespace Sample

def partly (indices : List UInt32) : Broker :=
  { broker [0, 1] with offsets := (broker indices).offsets }

end Sample

/-- The second worker is not there, and the start of its queue gets lost: the queue is dropped, and
    the first worker is told nothing. -/
theorem last_block_dropped_silently :
    ∃ deliveries : List Delivery,
      ((Sample.cycled [.join 0 true]).cycleOver Sample.bothQueues
          (Sample.job.lookUp (Sample.partly [0]))).coordinator.desk.dispatcher.registry.sent =
        (Sample.cycled [.join 0 true]).desk.dispatcher.registry.sent ++ deliveries ∧
      ¬ ∃ delivery ∈ deliveries, delivery.worker = 0 := by
  obtain ⟨_, _, _, deliveries, sent, told, _⟩ :=
    told_after_failed_lookUps_iff (Sample.reached [.join 0 true])
      (Sample.strategy_site [.join 0 true]) (Sample.job.lookUp (Sample.partly [0])) id
      (Sample.resolves_bothQueues (by decide +kernel)) (by decide +kernel)
  refine ⟨deliveries, sent, fun some_delivery => ?_⟩
  exact absurd ((told 0).mp some_delivery).2 (by decide +kernel)

/-- The first worker is not there, and the start of its queue gets lost. Both queues were placed,
    but the first one counts as new as long as nobody was given it: it is dropped, and the second
    worker is told to give up its own queue. -/
theorem next_block_shifts :
    let acts := [Act.join 1 true, .cycle (Sample.broker [0, 1])]
    let c := (Sample.site acts).coordinator
    let again := c.cycle (Sample.partly [1])
    (∀ queue ∈ (Sample.scan [0, 1]).queues,
        (Sample.job.startOf (Sample.broker [0, 1]) queue).isSome) ∧
      Scan.run (Sample.partly [1]) Sample.job.topics = .ok (Sample.scan [0, 1]) ∧
      again.result = .ok () ∧ again.coordinator.desk.dispatcher.registry.sent =
        c.desk.dispatcher.registry.sent ++
          [⟨1, 0, .assign [.revoke (Sample.queue 1) 0 none]⟩] := by
  intro acts c again
  exact ⟨Sample.startOf_isSome, rfl, by decide +kernel, by decide +kernel⟩

end QueueAssignment
