import QueueAssignment.Proofs.Run

/-!
Every operation keeps the books of the desk right, also where it fails, and serves each worker
that it may have touched, so that a worker that can be reached is never behind.
-/
namespace QueueAssignment
open Std

namespace Registry

theorem isRegistered_register (r : Registry) (worker other : Worker) (isOpen : Bool) :
    (r.register worker isOpen).isRegistered other =
      if worker = other then isOpen else r.isRegistered other := by
  simp only [isRegistered, register, ExtTreeMap.getElem?_insert, Std.compare_eq_iff_eq]
  by_cases same : worker = other
  · simp [same]
  · simp [same]

theorem isRegistered_unregister {r : Registry} {worker other : Worker}
    (registered : (r.unregister worker).isRegistered other = true) :
    r.isRegistered other = true := by
  simp only [isRegistered, unregister, ExtTreeMap.getElem?_erase, Std.compare_eq_iff_eq]
    at registered ⊢
  by_cases same : worker = other
  · simp [same] at registered
  · simpa [same] using registered

theorem isRegistered_hangUp {r : Registry} {worker other : Worker}
    (registered : (r.hangUp worker).isRegistered other = true) : r.isRegistered other = true := by
  simp only [isRegistered, hangUp, ExtTreeMap.getElem?_map] at registered ⊢
  cases found : r.connections[other]? with
  | none => simp [found] at registered
  | some channel =>
    by_cases same : other = worker
    · subst same
      simp [found] at registered
    · simpa [found, same] using registered

theorem isRegistered_of_mem_single {r : Registry} {worker : Worker}
    (there : r.isRegistered worker = true) :
    ∀ other ∈ ExtTreeSet.ofList [worker], r.isRegistered other = true := by
  intro other member
  rw [Table.mem_single.mp member]
  exact there

theorem mem_workers {r : Registry} {worker : Worker} :
    worker ∈ r.workers ↔ r.isRegistered worker = true := by
  simp only [workers, Table.mem_keys, isRegistered, ExtTreeMap.mem_iff_isSome_getElem?,
    ExtTreeMap.getElem?_filter']
  cases r.connections[worker]? with
  | none => simp
  | some channel => simp [Option.filter_some]

end Registry

theorem PlacedSplits.getElem?_of_not_mem_workers {splits : PlacedSplits} {worker : Worker}
    (idle : worker ∉ splits.workers) (queue : Queue) :
    splits[(⟨worker, queue⟩ : Placement)]? = none := by
  apply ExtTreeMap.getElem?_eq_none
  intro member
  apply idle
  rw [workers, Table.mem_ofList, List.mem_map]
  exact ⟨⟨worker, queue⟩, ExtTreeMap.mem_keys.mpr member, rfl⟩

namespace Coordinator

theorem reconcile_ok {c placed : Coordinator} {change : SplitChange} {delta : Delta}
    (merged : c.reconcile change = (placed, .ok delta)) :
    ∃ target, c.job.strategy c.calls change.queues c.job.settings.parallelism = .ok target ∧
      c.desk.reconciler.apply change target = .ok (placed.desk.reconciler, delta) ∧
      placed.desk.dispatcher = c.desk.dispatcher.settle delta := by
  simp only [reconcile, Desk.reconcile] at merged
  cases answer : c.job.strategy c.calls change.queues c.job.settings.parallelism with
  | error failure => simp [answer] at merged
  | ok target =>
    cases applied : c.desk.reconciler.apply change target with
    | error e => simp [answer, Desk.apply, applied] at merged
    | ok pair =>
      obtain ⟨reconciler, parts⟩ := pair
      simp only [answer, Desk.apply, applied, Prod.mk.injEq, Except.ok.injEq] at merged
      obtain ⟨rfl, rfl⟩ := merged
      exact ⟨target, rfl, applied, rfl⟩

theorem reconcile_error {c failed : Coordinator} {change : SplitChange} {e : Error}
    (refused : c.reconcile change = (failed, .error e)) : failed.desk = c.desk := by
  simp only [reconcile] at refused
  split at refused
  · cases refused
  · cases refused
    rfl

structure Sound (c : Coordinator) (journal : Journal) : Prop where
  accounted : c.desk.Accounted journal
  caughtUp : c.desk.CaughtUp

variable {c : Coordinator} {journal : Journal}

theorem accounted_flush (accounted : c.desk.Accounted journal) (workers : WorkerSet) :
    (c.flush workers).coordinator.desk.Accounted (journal ++ c.flushEvents workers) := by
  unfold flush flushEvents
  cases flushed : c.desk.flush workers with
  | error e => simpa using accounted
  | ok pair => exact (Desk.flush_ok flushed).accounted accounted

theorem caughtUp_flush {workers : WorkerSet}
    (registered : ∀ worker ∈ workers, c.desk.dispatcher.registry.isRegistered worker = true)
    (others : ∀ {worker}, c.desk.dispatcher.registry.isRegistered worker = true →
      worker ∉ workers →
        ∀ queue, c.desk.reconciler.pending[(⟨worker, queue⟩ : Placement)]? = none) :
    (c.flush workers).coordinator.desk.CaughtUp := by
  obtain ⟨next, batch, flushed⟩ := Desk.flush_registered registered
  unfold flush
  rw [flushed]
  exact (Desk.flush_ok flushed).caughtUp others

theorem Sound.addWorker (sound : c.Sound journal) (worker : Worker) (isOpen : Bool) :
    (c.addWorker worker isOpen).coordinator.Sound (journal ++ c.addWorkerEvents worker isOpen) := by
  have accounted : (c.desk.register worker isOpen).Accounted journal :=
    sound.accounted.congr rfl rfl rfl rfl
  have others : ∀ {other},
      (c.desk.register worker isOpen).dispatcher.registry.isRegistered other = true →
        worker ≠ other →
          ∀ queue, c.desk.reconciler.pending[(⟨other, queue⟩ : Placement)]? = none := by
    intro other registered elsewhere
    apply sound.caughtUp
    have same := Registry.isRegistered_register c.desk.dispatcher.registry worker other isOpen
    rw [if_neg elsewhere] at same
    exact same ▸ registered
  simp only [Coordinator.addWorker, addWorkerEvents]
  split
  · rename_i reachable
    refine ⟨accounted_flush accounted _, caughtUp_flush ?_ ?_⟩
    · exact Registry.isRegistered_of_mem_single reachable
    · intro other registered unserved
      apply others registered
      intro same
      exact unserved (Table.mem_single.mpr same.symm)
  · rename_i closed
    rw [List.append_nil]
    refine ⟨accounted, ?_⟩
    intro other registered
    apply others registered
    intro same
    exact closed (same ▸ registered)

theorem Sound.removeWorker (sound : c.Sound journal) (worker : Worker) :
    (c.removeWorker worker).Sound journal where
  accounted := sound.accounted.congr rfl rfl rfl rfl
  caughtUp := fun registered => sound.caughtUp (Registry.isRegistered_unregister registered)

theorem Sound.hangUp (sound : c.Sound journal) (worker : Worker) :
    (c.hangUp worker).Sound journal where
  accounted := sound.accounted.congr rfl rfl rfl rfl
  caughtUp := fun registered => sound.caughtUp (Registry.isRegistered_hangUp registered)

theorem Sound.count (sound : c.Sound journal) (change : Metrics → Metrics) :
    (c.count change).Sound journal :=
  ⟨sound.accounted.congr rfl rfl rfl rfl, sound.caughtUp⟩

theorem Sound.returnSplits (sound : c.Sound journal) (worker : Worker) (splits : List Split) :
    (c.returnSplits worker splits).coordinator.Sound
      (journal ++ c.returnSplitsEvents worker splits) := by
  simp only [Coordinator.returnSplits, returnSplitsEvents]
  split
  · rw [List.append_nil]
    exact sound
  · have accounted := sound.accounted.release worker splits
    have idle : (c.desk.release worker splits).CaughtUp :=
      Desk.CaughtUp.release sound.caughtUp worker splits
    generalize merged : reconcile { c with desk := c.desk.release worker splits }
      ((c.desk.release worker splits).reconciler.returnedChange splits) = pair
    obtain ⟨placed, result⟩ := pair
    cases result with
    | ok delta =>
      obtain ⟨target, _, applied, settled⟩ := reconcile_ok merged
      have fits := Reconciler.fits_returnedChange accounted.balanced.known splits
      have merges := Reconciler.merges_of_apply accounted.balanced fits applied
      have after := accounted.merge fits applied settled
      dsimp only
      rw [← List.append_assoc, ← List.append_assoc]
      refine ⟨accounted_flush after _, caughtUp_flush ?_ ?_⟩
      · intro other member
        simpa using (Table.mem_filter.mp member).2
      · intro other registered unserved queue
        -- A worker that can be reached but is not served is told nothing by the delta.
        have untold : other ∉ delta.workers := by
          intro told
          exact unserved (Table.mem_filter.mpr ⟨told, registered⟩)
        rw [merges.pending, PlacedSplits.getElem?_merge,
          PlacedSplits.getElem?_of_not_mem_workers untold]
        apply idle
        rw [settled] at registered
        exact registered
    | error e =>
      have same := reconcile_error merged
      dsimp only
      rw [List.append_nil]
      refine ⟨same ▸ accounted, ?_⟩
      intro other registered queue
      rw [same] at registered ⊢
      exact idle registered queue

theorem Sound.completeCycle (accounted : c.desk.Accounted journal) :
    c.completeCycle.coordinator.Sound (journal ++ c.completeCycleEvents) := by
  have whole : ∀ {d : Coordinator}, d.desk.Accounted journal →
      (d.flush d.desk.dispatcher.registry.workers).coordinator.Sound
        (journal ++ d.flushEvents d.desk.dispatcher.registry.workers) := by
    intro d accounted
    refine ⟨accounted_flush accounted _, caughtUp_flush ?_ ?_⟩
    · exact fun worker member => Registry.mem_workers.mp member
    · exact fun registered unserved => absurd (Registry.mem_workers.mpr registered) unserved
  simp only [Coordinator.completeCycle, completeCycleEvents]
  split
  · exact whole (accounted.congr rfl rfl rfl rfl)
  · exact whole accounted

theorem Sound.finish (sound : c.Sound journal) {change : QueueChange} {known : SplitMap}
    (apart : ∀ queue ∈ change.decreased, queue ∉ change.latest) (keyed : known.Keyed)
    (lookup : Lookup) :
    (c.finish change known lookup).coordinator.Sound
      (journal ++ c.finishEvents change known lookup) := by
  have fits := SplitChange.fits_ofOffsets keyed apart lookup.starting.offsets
    lookup.stopping.offsets
  simp only [Coordinator.finish, finishEvents, place, placeEvents, reconcileEvents]
  generalize merged : reconcile _ _ = pair
  obtain ⟨placed, result⟩ := pair
  cases result with
  | ok delta =>
    obtain ⟨target, _, applied, settled⟩ := reconcile_ok merged
    have accounted := (sound.count _).accounted.merge fits applied settled
    dsimp only
    rw [← List.append_assoc]
    exact Sound.completeCycle accounted
  | error e =>
    have same := reconcile_error merged
    dsimp only
    rw [List.append_nil, List.append_nil]
    exact ⟨same ▸ (sound.count _).accounted, same ▸ (sound.count _).caughtUp⟩

end Coordinator

theorem kept_sound : Kept Coordinator.Sound where
  addWorker := Coordinator.Sound.addWorker
  removeWorker := Coordinator.Sound.removeWorker
  hangUp := Coordinator.Sound.hangUp
  count := Coordinator.Sound.count
  returnSplits := Coordinator.Sound.returnSplits
  completeCycle := fun sound => Coordinator.Sound.completeCycle sound.accounted
  finish := Coordinator.Sound.finish
  known := fun sound => sound.accounted.balanced.known

end QueueAssignment
