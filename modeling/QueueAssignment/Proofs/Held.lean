import QueueAssignment.Proofs.Steps

/-!
The two copies of the held set. The reconciler and the dispatcher both let go of a held queue when
a target places it or the topology loses it. They part where a worker hands such a queue back: the
reconciler lets go of it at once, the dispatcher only when a worker is given the queue.
-/
namespace QueueAssignment
open Std

namespace Desk

variable {job : Job} {desk next : Desk} {journal events : Journal} {queue : Queue}

theorem Flushes.mem_held {workers : WorkerSet} {batch : Batch}
    (flushes : desk.Flushes workers next batch) :
    queue ∈ next.dispatcher.held ↔
      queue ∈ desk.dispatcher.held ∧ ∀ worker, ¬ batch.events.Given ⟨worker, queue⟩ := by
  rw [flushes.held, ExtTreeSet.mem_diff_iff, Table.mem_ofList]
  refine and_congr_right fun _ => ?_
  rw [← not_exists, not_iff_not]
  constructor
  · intro sent
    obtain ⟨placement, assigned, rfl⟩ := List.mem_map.mp sent
    exact ⟨placement.worker, Batch.given_events.mpr assigned⟩
  · intro given
    obtain ⟨worker, given⟩ := given
    exact List.mem_map.mpr ⟨_, Batch.given_events.mp given, rfl⟩

theorem mem_held_settle {d : Dispatcher} {delta : Delta} :
    queue ∈ (d.settle delta).held ↔
      queue ∈ d.held ∧ queue ∉ delta.adopted ∧ queue ∉ delta.forgotten := by
  simp only [Dispatcher.settle, ExtTreeSet.mem_diff_iff, Table.mem_keys, and_assoc]

def HeldUnreturned (_ : Job) (desk : Desk) (journal : Journal) : Prop :=
  ∀ queue, queue ∈ desk.reconciler.held ↔
    queue ∈ desk.dispatcher.held ∧ ∀ worker, ¬ journal.Returned ⟨worker, queue⟩

theorem steady_heldUnreturned : Steady HeldUnreturned := by
  intro job desk next journal events accounted copies step queue
  cases step with
  | aside reconciler owned held told =>
    rw [reconciler, held, List.append_nil]
    exact copies queue
  | @flush workers _ batch flushes =>
    simp only [Journal.occurs_append, Batch.not_returned_events, or_false]
    rw [flushes.reconciler, flushes.mem_held]
    -- What a flush gives is in the baseline, and the reconciler holds nothing of that.
    have kept : queue ∈ desk.reconciler.held → ∀ worker, ¬ batch.events.Given ⟨worker, queue⟩ := by
      intro held worker given
      rw [Batch.given_events, flushes.mem_assigned accounted] at given
      exact accounted.balanced.free given.2.1 held
    constructor
    · intro held
      have both := (copies queue).mp held
      exact ⟨⟨both.1, kept held⟩, both.2⟩
    · intro both
      exact (copies queue).mpr ⟨both.1.1, both.2⟩
  | merge fits _ applied settled =>
    have merges := Reconciler.merges_of_apply accounted.balanced fits applied
    simp only [Journal.occurs_append, Delta.not_returned_adoptions, or_false]
    rw [merges.held, settled, mem_held_settle, copies queue]
    exact and_right_comm
  | release worker splits =>
    simp only [Journal.occurs_append, Journal.returned_losses, not_or]
    simp only [release, Reconciler.release, ExtTreeSet.mem_diff_iff, copies queue]
    constructor
    · intro held
      obtain ⟨⟨here, never⟩, kept⟩ := held
      exact ⟨here, fun other => ⟨never other, fun back => kept back.2⟩⟩
    · intro held
      obtain ⟨here, never⟩ := held
      exact ⟨⟨here, fun other => (never other).1⟩, fun back => (never worker).2 ⟨rfl, back⟩⟩

theorem held_of_mem_forgotten {r next : Reconciler} {change : SplitChange} {target : Assignment}
    {delta : Delta} (applied : r.apply change target = .ok (next, delta))
    (gone : queue ∈ delta.forgotten) : queue ∈ r.held := by
  obtain ⟨owners, _, rfl, _⟩ := Reconciler.apply_ok applied
  exact (Move.isOrphan_iff.mp (Table.mem_filter.mp gone).2).2

/-- A queue that only the dispatcher still holds stays with it until a worker is given the queue. -/
theorem Steps.mem_held_iff (steps : desk.Steps job events next) (accounted : desk.Accounted journal)
    (held : queue ∈ desk.dispatcher.held) (released : queue ∉ desk.reconciler.held) :
    queue ∉ next.reconciler.held ∧
      (queue ∈ next.dispatcher.held ↔ ∀ worker, ¬ events.Given ⟨worker, queue⟩) := by
  induction steps with
  | none => exact ⟨released, by simpa using held⟩
  | more before step ih =>
    obtain ⟨released, still⟩ := ih
    simp only [Journal.occurs_append, not_or, forall_and, ← still]
    cases step with
    | aside reconciler owned held told =>
      rw [reconciler, held]
      exact ⟨released, by simp⟩
    | flush flushes =>
      rw [flushes.reconciler, flushes.mem_held]
      exact ⟨released, Iff.rfl⟩
    | @merge change target _ delta fits _ applied settled =>
      have accounted := before.accounted accounted
      have merges := Reconciler.merges_of_apply accounted.balanced fits applied
      -- Only what the reconciler holds is adopted or forgotten.
      have unplaced : ∀ worker, delta.adopted[queue]? ≠ some worker :=
        fun worker adopted => released (merges.adopted.mp adopted).2
      have unadopted : queue ∉ delta.adopted := by
        intro adopted
        exact unplaced _ (ExtTreeMap.getElem?_eq_some_getElem adopted)
      have unforgotten : queue ∉ delta.forgotten := by
        intro gone
        exact released (held_of_mem_forgotten applied gone)
      refine ⟨fun both => released (merges.held.mp both).1, ?_⟩
      rw [settled, mem_held_settle]
      constructor
      · intro held
        exact ⟨held.1, fun worker given => unplaced worker (Delta.given_adoptions.mp given)⟩
      · intro both
        exact ⟨both.1, unadopted, unforgotten⟩
    | release worker splits =>
      refine ⟨fun both => released (ExtTreeSet.mem_diff_iff.mp both).1, ?_⟩
      simp [Journal.not_given_losses, release]

end Desk

theorem Reached.heldUnreturned {site : Site} {journal : Journal} (reached : Reached site journal) :
    site.coordinator.desk.HeldUnreturned site.coordinator.job journal := by
  refine reached.steady (P := Desk.HeldUnreturned) Desk.steady_heldUnreturned ?_ ?_
  · intro job queue
    simp [Coordinator.start]
  · intro job checkpoint metrics c opened queue
    obtain ⟨reconciler, dispatcher⟩ := Coordinator.restore_ok opened
    have unreturned : ∀ placement, ¬ c.restoredEvents.Returned placement :=
      fun _ => Journal.not_occurs_map fun _ => rfl
    rw [reconciler, dispatcher]
    simp [Reconciler.restore, Dispatcher.restore, unreturned]

namespace Sample

def reopened (checkpoint : Checkpoint) : Coordinator :=
  match Coordinator.restore job checkpoint {} with
  | .ok c => c
  | .error _ => .start job

def resumed (checkpoint : Checkpoint) (acts : List Act) : Site :=
  (Site.direct (reopened checkpoint)).run acts

theorem restore_reopened (checkpoint : Checkpoint) :
    Coordinator.restore job checkpoint {} = .ok (reopened checkpoint) := rfl

theorem reached_resumed (checkpoint : Checkpoint) (acts : List Act) :
    Reached (resumed checkpoint acts) ((reopened checkpoint).restoredEvents ++
      (Site.direct (reopened checkpoint)).journal acts) :=
  (Reached.restore (restore_reopened checkpoint)).run acts

end Sample

/-- The reconciler holds what the dispatcher holds and no worker has handed back. A held queue that
    was handed back stays with the dispatcher, and counts as owned, until a worker is given it. -/
theorem held_copies_part_on_return {site : Site} {journal : Journal}
    (reached : Reached site journal) (queue : Queue) :
    (queue ∈ site.coordinator.desk.reconciler.held ↔
      queue ∈ site.coordinator.desk.dispatcher.held ∧
        ∀ worker, ¬ journal.Returned ⟨worker, queue⟩) ∧
    (queue ∈ site.coordinator.desk.dispatcher.held →
      queue ∉ site.coordinator.desk.reconciler.held → ∀ acts,
        queue ∉ (site.run acts).coordinator.desk.reconciler.held ∧
        (queue ∈ (site.run acts).coordinator.desk.dispatcher.held ↔
          ∀ worker, ¬ (site.journal acts).Given ⟨worker, queue⟩)) := by
  refine ⟨reached.heldUnreturned queue, ?_⟩
  intro held released acts
  exact (reached.goes_run acts).steps.mem_held_iff reached.sound.accounted held released

theorem returned_queue_leaves_when_given :
    let saved := Checkpoint.ofQueues (ExtTreeSet.ofList [Sample.queue 0])
    let lost := [Act.takeBack 0 [.assign (Sample.queue 0) 5 none]]
    Sample.queue 0 ∉ (Sample.resumed saved lost).coordinator.desk.reconciler.held ∧
      Sample.queue 0 ∉
        ((Sample.resumed saved lost).run [.join 0 true]).coordinator.desk.dispatcher.held := by
  intro saved lost
  have laws := held_copies_part_on_return (Sample.reached_resumed saved lost) (Sample.queue 0)
  have released :
      Sample.queue 0 ∉ (Sample.resumed saved lost).coordinator.desk.reconciler.held := by
    intro held
    exact (laws.1.mp held).2 0 ⟨.lost ⟨0, Sample.queue 0⟩, by decide +kernel, rfl⟩
  have leaves := (laws.2 (by decide +kernel) released [.join 0 true]).2
  refine ⟨released, fun still => leaves.mp still 0 ?_⟩
  exact ⟨.told 0 (.assign (Sample.queue 0) 5 none), by decide +kernel, rfl⟩

/-- A held queue is handed back and then leaves the topology. The dispatcher holds it for good, it
    is saved in every checkpoint, and every scan differs from what counts as owned. -/
theorem returned_held_queue_stays_owned :
    let saved := Checkpoint.ofQueues (ExtTreeSet.ofList [Sample.queue 0])
    let acts := [Act.takeBack 0 [.assign (Sample.queue 0) 5 none], .cycle (Sample.broker [1]),
      .join 0 true, .cycle (Sample.broker [1])]
    let c := (Sample.resumed saved acts).coordinator
    Sample.queue 0 ∉ c.desk.reconciler.held ∧ Sample.queue 0 ∈ c.desk.dispatcher.held ∧
      Sample.queue 0 ∈ c.snapshot.owned ∧
      (c.changeTo (ExtTreeSet.ofList [Sample.queue 1])).isSome := by
  decide +kernel

end QueueAssignment
