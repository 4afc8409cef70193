import QueueAssignment.Proofs.Settled

/-!
Two cycles over one topology, one right after the other. Where every start is known the second one
says nothing, whether or not the workers are there.
-/
namespace QueueAssignment
open Std

namespace Assignment

theorem checkedOwners_congr {first second : SplitMap}
    (same : ∀ queue, queue ∈ first ↔ queue ∈ second) (owners : OwnerMap)
    (placements : List (Worker × Queue)) :
    checkedOwners first owners placements = checkedOwners second owners placements := by
  induction placements generalizing owners with
  | nil => rfl
  | cons placement rest ih =>
    obtain ⟨worker, queue⟩ := placement
    simp only [checkedOwners, same]
    split
    · cases owners[queue]? with
      | some other => rfl
      | none => exact ih _
    · rfl

theorem targetOwners_congr {first second : SplitMap} (same : Table.keys first = Table.keys second)
    (target : Assignment) : target.targetOwners first = target.targetOwners second := by
  apply checkedOwners_congr
  intro queue
  rw [← Table.mem_keys, same, Table.mem_keys]

end Assignment

theorem Dispatcher.settle_nothing {d : Dispatcher} {delta : Delta}
    (unadopted : ∀ queue, queue ∉ delta.adopted) (kept : ∀ queue, queue ∉ delta.forgotten) :
    d.settle delta = d := by
  have owned : (d.settle delta).owned = d.owned := by
    apply ExtTreeMap.ext_getElem?
    intro queue
    simp only [settle, ExtTreeMap.getElem?_union, ExtTreeMap.getElem?_filter',
      ExtTreeMap.getElem?_eq_none (unadopted queue)]
    rfl
  have held : (d.settle delta).held = d.held := by
    apply ExtTreeSet.ext_mem
    intro queue
    rw [Desk.mem_held_settle]
    exact and_iff_left ⟨unadopted queue, kept queue⟩
  calc d.settle delta
    _ = { d with owned := (d.settle delta).owned, held := (d.settle delta).held } := rfl
    _ = d := by rw [owned, held]

namespace Coordinator

variable {c : Coordinator} {latest : QueueSet} {lookUp : QueueSet → Lookup} {journal : Journal}

theorem Places.still {target : Assignment} {delta : Delta} {placed : Coordinator}
    (places : c.Places (c.changeOver latest lookUp) target delta placed)
    (accounted : c.desk.Accounted journal)
    (current : placed.desk.reconciler.current = c.desk.reconciler.current)
    (held : ∀ queue ∈ c.desk.reconciler.held, queue ∈ latest) :
    placed.desk.dispatcher = c.desk.dispatcher ∧
      placed.desk.reconciler.pending = c.desk.reconciler.pending ∧
      placed.desk.reconciler.held = c.desk.reconciler.held := by
  have balanced := accounted.balanced
  have merges := places.merges accounted (fits_changeOver balanced.known)
  have untold : ∀ placement : Placement, delta.splits[placement]? = none := by
    intro placement
    rw [← Option.map_eq_none_iff, merges.tags, current]
    split
    · rfl
    · rfl
  have unadopted : ∀ queue, queue ∉ delta.adopted := by
    intro queue adopted
    have both := merges.adopted.mp (ExtTreeMap.getElem?_eq_some_getElem adopted)
    exact balanced.free (current ▸ both.1) both.2
  have kept : ∀ queue, queue ∉ delta.forgotten := by
    intro queue forgotten
    obtain ⟨gone, before⟩ := (places.mem_forgotten accounted).mp forgotten
    exact (mem_decreased_changeOver.mp gone).2 (held queue before)
  refine ⟨?_, ?_, ?_⟩
  · rw [places.settled, Dispatcher.settle_nothing unadopted kept]
  · apply ExtTreeMap.ext_getElem?
    intro placement
    rw [merges.pending, PlacedSplits.getElem?_merge, untold]
  · apply ExtTreeSet.ext_mem
    intro queue
    rw [merges.held]
    exact and_iff_left ⟨unadopted queue, kept queue⟩

theorem Settled.silent (settled : c.Settled latest) (sound : c.Sound journal)
    (announced : c.Announced) (deterministic : c.job.strategy.Deterministic)
    (asks : c.changeTo latest ≠ none → c.asked latest lookUp = latest) :
    let again := c.cycleOver latest lookUp
    again.result = .ok () ∧ again.coordinator.desk.dispatcher = c.desk.dispatcher ∧
      again.coordinator.desk.reconciler.current = c.desk.reconciler.current ∧
      again.coordinator.desk.reconciler.pending = c.desk.reconciler.pending ∧
      again.coordinator.desk.reconciler.held = c.desk.reconciler.held := by
  intro again
  by_cases same : c.changeTo latest = none
  · have cycled : again = c.completeCycle := cycleOver_unchanged same
    obtain ⟨done, reconciler, dispatcher⟩ := announced.completeCycle_idle sound.caughtUp
    rw [cycled, reconciler]
    exact ⟨done, dispatcher, rfl, rfl, rfl⟩
  · rcases settled with unchanged | ⟨target, merged⟩
    · exact absurd unchanged same
    · obtain ⟨call, answered⟩ := merged.answered
      obtain ⟨owners, accepted⟩ := merged.accepted
      -- The strategy is asked for the same queues, so it gives the same target.
      have queues : (c.changeOver latest lookUp).queues = latest :=
        queues_changeOver.trans (asks same)
      have answered : c.job.strategy c.calls (c.changeOver latest lookUp).queues
          c.job.settings.parallelism = .ok target := by
        rw [queues, deterministic c.calls call]
        exact answered
      rw [Assignment.targetOwners_congr (merged.known.trans queues.symm)] at accepted
      obtain ⟨delta, placed, places, finished⟩ := cycleOver_accepted same answered accepted
      have current := places.current.trans merged.current.symm
      obtain ⟨dispatcher, pending, held⟩ := places.still sound.accounted current merged.held
      have caughtUp : placed.desk.CaughtUp := by
        intro worker registered queue
        rw [dispatcher] at registered
        rw [pending]
        exact sound.caughtUp registered queue
      obtain ⟨done, reconciler, untouched⟩ :=
        (places.announced announced).completeCycle_idle caughtUp
      have cycled : again = placed.completeCycle := finished
      rw [cycled, reconciler]
      exact ⟨done, untouched.trans dispatcher, current, pending, held⟩

end Coordinator

/-- A cycle that went through is followed by another one over the same topology. Where every queue
    has a start in both cycles, and the strategy does not look at the number of the call, the second
    cycle changes neither the dispatcher (nothing is sent, nobody is signalled, and no owner and no
    held queue changes) nor who should have what and what waits. -/
theorem rediscovery_is_silent {site : Site} {journal : Journal} (reached : Reached site journal)
    (deterministic : site.coordinator.job.strategy.Deterministic) {latest : QueueSet}
    {first second : QueueSet → Lookup} (meter : Metrics → Metrics)
    (resolved : site.coordinator.Resolves latest first)
    (done : (site.coordinator.cycleOver latest first).result = .ok ())
    (resolved_again :
      ((site.coordinator.cycleOver latest first).coordinator.count meter).Resolves latest second) :
    let once := (site.coordinator.cycleOver latest first).coordinator.count meter
    let again := once.cycleOver latest second
    again.result = .ok () ∧ again.coordinator.desk.dispatcher = once.desk.dispatcher ∧
      again.coordinator.desk.reconciler.current = once.desk.reconciler.current ∧
      again.coordinator.desk.reconciler.pending = once.desk.reconciler.pending ∧
      again.coordinator.desk.reconciler.held = once.desk.reconciler.held := by
  intro once again
  have asks := Coordinator.asked_of_resolves resolved
  have settled := (Coordinator.settled_cycleOver reached.sound asks done).count meter
  have announced := (Coordinator.announced_cycleOver done).count meter
  have sound := kept_sound.count (kept_sound.cycleOver reached.sound latest first) meter
  have job : once.job = site.coordinator.job :=
    (site.coordinator.goes_cycleOver reached.sound.accounted.balanced.known latest first).job
  exact settled.silent sound announced (job ▸ deterministic)
    fun _ => Coordinator.asked_of_resolves resolved_again

namespace Sample

def bothQueues : QueueSet := ExtTreeSet.ofList [queue 0, queue 1]

def lookUp (indices : List UInt32) : QueueSet → Lookup := job.lookUp (broker indices)

def cycled (acts : List Act) : Coordinator :=
  ((site acts).coordinator.cycleOver bothQueues (lookUp [0, 1])).coordinator.count id

theorem resolves_bothQueues {c : Coordinator}
    (listed : ∀ queue ∈ bothQueues.toList,
      (lookUp [0, 1] (c.wanted bothQueues)).starting.offsets[queue]?.isSome = true) :
    c.Resolves bothQueues (lookUp [0, 1]) :=
  fun queue member => listed queue (ExtTreeSet.mem_toList.mpr member)

end Sample

theorem waiting_queue_rediscovered :
    ((Sample.cycled [.join 0 true]).changeTo Sample.bothQueues).isSome = true ∧
      ((Sample.cycled [.join 0 true]).cycleOver Sample.bothQueues
        (Sample.lookUp [0, 1])).coordinator.desk.dispatcher =
          (Sample.cycled [.join 0 true]).desk.dispatcher := by
  have deterministic : (Sample.site [.join 0 true]).coordinator.job.strategy.Deterministic := by
    rw [Sample.strategy_site]
    exact fun _ _ => rfl
  obtain ⟨_, same, _⟩ := rediscovery_is_silent (Sample.reached [.join 0 true]) deterministic id
    (Sample.resolves_bothQueues (by decide +kernel)) (by decide +kernel)
    (Sample.resolves_bothQueues (by decide +kernel))
  exact ⟨by decide +kernel, same⟩

end QueueAssignment
