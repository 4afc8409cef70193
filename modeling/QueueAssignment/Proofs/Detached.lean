import QueueAssignment.Proofs.Steps

/-!
A return that fails. A worker lost what it reports as lost, whether or not that finds a new place,
so it is taken from the worker first. Where the new placement fails nothing else has changed, and
the same return can be tried again.
-/
namespace QueueAssignment
open Std

theorem Assignment.release_release (assignment : Assignment) (worker : Worker) (lost : QueueSet) :
    (assignment.release worker lost).release worker lost = assignment.release worker lost := by
  have again : ∀ queues : QueueSet, (queues \ lost) \ lost = queues \ lost := by
    intro queues
    apply ExtTreeSet.ext_mem
    intro queue
    simp only [ExtTreeSet.mem_diff_iff, and_assoc, and_self]
  apply ExtTreeMap.ext_getElem?
  intro other
  simp only [release, withoutIdle, ExtTreeMap.getElem?_filter', ExtTreeMap.getElem?_map]
  cases assignment[other]? with
  | none => rfl
  | some queues =>
    by_cases same : other = worker
    · by_cases idle : (queues \ lost).isEmpty = true
      · simp [same, idle, Option.filter_some]
      · simp [same, idle, Option.filter_some, again]
    · by_cases idle : queues.isEmpty = true
      · simp [same, idle, Option.filter_some]
      · simp [same, idle, Option.filter_some]

namespace Reconciler

theorem release_release (r : Reconciler) (worker : Worker) (splits : List Split) :
    (r.release worker splits).release worker splits = r.release worker splits := by
  have current := Assignment.release_release r.current worker (queuesOf splits)
  have pending : ((r.release worker splits).release worker splits).pending =
      (r.release worker splits).pending := by
    apply ExtTreeMap.ext_getElem?
    intro placement
    rw [getElem?_pending_release, getElem?_pending_release]
    by_cases lost : placement.worker = worker ∧ placement.queue ∈ queuesOf splits
    · simp [lost]
    · simp [lost]
  have held : (r.held \ queuesOf splits) \ queuesOf splits = r.held \ queuesOf splits := by
    apply ExtTreeSet.ext_mem
    intro queue
    simp only [ExtTreeSet.mem_diff_iff, and_assoc, and_self]
  exact (Reconciler.mk.injEq ..).mpr ⟨current, pending, rfl, held⟩

end Reconciler

namespace Coordinator

/-- All that changes between `c` and `after` is that the worker has these splits no longer. -/
structure Detached (c after : Coordinator) (worker : Worker) (splits : List Split) : Prop where
  job : after.job = c.job
  dispatcher : after.desk.dispatcher = c.desk.dispatcher
  metrics : after.desk.metrics = c.desk.metrics
  known : after.desk.reconciler.known = c.desk.reconciler.known
  current : ∀ other queue, queue ∈ after.desk.reconciler.current.queuesOf other ↔
    queue ∈ c.desk.reconciler.current.queuesOf other ∧
      ¬ (other = worker ∧ queue ∈ Reconciler.queuesOf splits)
  pending : ∀ placement : Placement, after.desk.reconciler.pending[placement]? =
    if placement.worker = worker ∧ placement.queue ∈ Reconciler.queuesOf splits then none
    else c.desk.reconciler.pending[placement]?
  held : ∀ queue, queue ∈ after.desk.reconciler.held ↔
    queue ∈ c.desk.reconciler.held ∧ queue ∉ Reconciler.queuesOf splits

theorem detached_released (c : Coordinator) (worker : Worker) (splits : List Split) (calls : Nat) :
    c.Detached { c.released worker splits with calls } worker splits where
  job := rfl
  dispatcher := rfl
  metrics := rfl
  known := rfl
  current := fun _ _ => Assignment.mem_queuesOf_release
  pending := fun _ => Reconciler.getElem?_pending_release
  held := fun _ => ExtTreeSet.mem_diff_iff

theorem released_released (c : Coordinator) (worker : Worker) (splits : List Split) (calls : Nat) :
    { c.released worker splits with calls }.released worker splits =
      { c with calls }.released worker splits := by
  have same : (c.desk.release worker splits).release worker splits =
      c.desk.release worker splits := by
    rw [Desk.release, Desk.release, Reconciler.release_release]
  rw [released, released, released]
  exact (Coordinator.mk.injEq ..).mpr ⟨rfl, rfl, same⟩

theorem returnSplits_congr {c d : Coordinator} {worker : Worker} {splits : List Split}
    (some_split : splits ≠ []) (same : c.released worker splits = d.released worker splits) :
    c.returnSplits worker splits = d.returnSplits worker splits := by
  have listed : ¬ splits.isEmpty := by simpa using some_split
  rw [released, released] at same
  rw [returnSplits, returnSplits, if_neg listed, if_neg listed, same]

/-- A return that fails takes the splits from the worker and does nothing else. Tried again it does
    what it would have done if it had not been tried before. -/
theorem failed_return_detaches (c : Coordinator) (worker : Worker) (splits : List Split)
    {e : Error} (failed : (c.returnSplits worker splits).result = .error e) :
    let after := (c.returnSplits worker splits).coordinator
    (c.released worker splits).Fails (c.desk.reconciler.returnedChange splits) e ∧
      c.Detached after worker splits ∧
      after.returnSplits worker splits =
        { c with calls := c.calls + 1 }.returnSplits worker splits := by
  intro after
  cases c.returnSplits_returns worker splits with
  | nothing _ outcome _ => simp [outcome] at failed
  | placed _ _ _ done _ => simp [done] at failed
  | failed some_split fails outcome _ =>
    have same : after = { c.released worker splits with calls := c.calls + 1 } :=
      congrArg Outcome.coordinator outcome
    rw [outcome] at failed
    cases failed
    rw [same]
    exact ⟨fails, c.detached_released worker splits _,
      returnSplits_congr some_split (c.released_released worker splits _)⟩

end Coordinator

namespace Sample

/-- The strategy shares the queues of the first call and has no room for those of the next. -/
def crowdedJob : Job :=
  let shared := OwnerMap.byWorker (Table.ofEntries [(queue 0, 0), (queue 1, 1)])
  { job with strategy := .scripted [.ok shared, .error (.allocation (.reported "no room"))] }

def crowded : Site :=
  (Site.direct (.start crowdedJob)).run [.join 0 true, .join 1 true, .cycle (broker [0, 1])]

end Sample

/-- The queue stays on record for the worker, which is why no scan will find it anew. -/
theorem failed_return_can_be_repeated :
    let c := Sample.crowded.coordinator
    let lost := [Split.assign (Sample.queue 1) 5 none]
    let after := (c.returnSplits 1 lost).coordinator
    (c.returnSplits 1 lost).result = .error (.allocation (.reported "no room")) ∧
      after.desk.dispatcher.owned[Sample.queue 1]? = some 1 ∧
      after.returnSplits 1 lost = { c with calls := c.calls + 1 }.returnSplits 1 lost := by
  intro c lost after
  have failed : (c.returnSplits 1 lost).result = .error (.allocation (.reported "no room")) := by
    decide +kernel
  obtain ⟨_, detached, again⟩ := c.failed_return_detaches 1 lost failed
  refine ⟨failed, ?_, again⟩
  rw [detached.dispatcher]
  decide +kernel

theorem failed_return_leaves_baseline :
    let c := Sample.crowded.coordinator
    let lost := [Split.assign (Sample.queue 1) 5 none]
    let after := (c.returnSplits 1 lost).coordinator
    (∃ journal, Reached Sample.crowded journal) ∧
      (∃ e, (c.returnSplits 1 lost).result = .error e) ∧
      Sample.queue 1 ∈ c.desk.reconciler.current.queuesOf 1 ∧
      Sample.queue 1 ∉ after.desk.reconciler.current.queuesOf 1 := by
  intro c lost after
  have failed : (c.returnSplits 1 lost).result = .error (.allocation (.reported "no room")) := by
    decide +kernel
  refine ⟨⟨_, (Reached.start Sample.crowdedJob).run _⟩, ⟨_, failed⟩, ?_, ?_⟩
  · decide +kernel
  · decide +kernel

end QueueAssignment
