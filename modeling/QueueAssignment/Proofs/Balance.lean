import QueueAssignment.Proofs.DeltaTags
import QueueAssignment.Reconciler

/-!
What is pending is the difference between what the workers hold and what they should have.
Merging a target, handing splits out and taking splits back each keep it so.
-/
namespace QueueAssignment
open Std

namespace PlacedSplits

theorem tag_fold (waiting : Option Split) (split : Split) :
    (fold waiting split).map Split.tag =
      if waiting.map Split.tag = none ∨ waiting.map Split.tag = some split.tag then
        some split.tag
      else none := by
  cases waiting with
  | none => rfl
  | some earlier =>
    by_cases same : earlier.tag = split.tag
    · simp [fold, same]
    · simp [fold, same]

theorem tag_merge (waiting newer : PlacedSplits) (placement : Placement) :
    (waiting.merge newer)[placement]?.map Split.tag =
      match newer[placement]?.map Split.tag with
      | some tag =>
          if waiting[placement]?.map Split.tag = none ∨
              waiting[placement]?.map Split.tag = some tag then some tag
          else none
      | none => waiting[placement]?.map Split.tag := by
  rw [getElem?_merge]
  cases newer[placement]? with
  | none => rfl
  | some split => exact tag_fold _ split

theorem Keyed.merge {waiting newer : PlacedSplits} (old : waiting.Keyed) (new : newer.Keyed) :
    (waiting.merge newer).Keyed := by
  intro placement split found
  rw [getElem?_merge] at found
  split at found
  · rename_i newest told
    unfold fold at found
    split at found
    · split at found
      · cases found
      · cases found
        exact new told
    · cases found
      exact new told
  · exact old found

theorem Keyed.filter {splits : PlacedSplits} (keyed : splits.Keyed)
    (keep : Placement → Split → Bool) : (PlacedSplits.Keyed (splits.filter keep)) := by
  intro placement split found
  rw [ExtTreeMap.getElem?_filter', Option.filter_eq_some_iff] at found
  exact keyed found.1

end PlacedSplits

namespace Reconciler

/-- What a worker that holds `has` still has to be told about a queue, if anything. -/
def due (r : Reconciler) (has : QueueSet) (placement : Placement) : Option Tag :=
  if placement.queue ∈ r.current.queuesOf placement.worker then
    if placement.queue ∈ has then none else some .assign
  else if placement.queue ∈ has then some .revoke else none

theorem due_eq_assign_iff {r : Reconciler} {has : QueueSet} {placement : Placement} :
    r.due has placement = some .assign ↔
      placement.queue ∈ r.current.queuesOf placement.worker ∧ placement.queue ∉ has := by
  unfold due
  by_cases gets : placement.queue ∈ r.current.queuesOf placement.worker
  · simp [gets]
  · simp [gets]

theorem due_eq_revoke_iff {r : Reconciler} {has : QueueSet} {placement : Placement} :
    r.due has placement = some .revoke ↔
      placement.queue ∈ has ∧ placement.queue ∉ r.current.queuesOf placement.worker := by
  unfold due
  by_cases gets : placement.queue ∈ r.current.queuesOf placement.worker
  · simp [gets]
  · simp [gets]

theorem due_eq_none_iff {r : Reconciler} {has : QueueSet} {placement : Placement} :
    r.due has placement = none ↔
      (placement.queue ∈ r.current.queuesOf placement.worker ↔ placement.queue ∈ has) := by
  unfold due
  by_cases gets : placement.queue ∈ r.current.queuesOf placement.worker
  · simp [gets]
  · simp [gets]

/-- The invariant of a reconciler whose workers hold `holdings`. -/
structure Balanced (r : Reconciler) (holdings : Worker → QueueSet) : Prop where
  exclusive : r.current.Exclusive
  free : ∀ {worker queue}, queue ∈ r.current.queuesOf worker → queue ∉ r.held
  placed : ∀ {worker queue}, queue ∈ holdings worker → queue ∉ r.held
  known : r.known.Keyed
  pending : r.pending.Keyed
  net : ∀ placement : Placement,
    r.pending[placement]?.map Split.tag = r.due (holdings placement.worker) placement

theorem apply_ok {r next : Reconciler} {change : SplitChange} {target : Assignment}
    {delta : Delta} (applied : r.apply change target = .ok (next, delta)) :
    ∃ owners, target.targetOwners change.latest = .ok owners ∧
      delta = (r.move change owners).delta ∧ next = r.merged change target delta := by
  unfold apply at applied
  split at applied
  · cases applied
  · rename_i owners accepted
    cases applied
    exact ⟨owners, accepted, rfl, rfl⟩

theorem mem_queuesOf_of_apply {r next : Reconciler} {change : SplitChange} {target : Assignment}
    {delta : Delta} (applied : r.apply change target = .ok (next, delta)) {worker : Worker}
    {queue : Queue} :
    queue ∈ next.current.queuesOf worker ↔ queue ∈ target.queuesOf worker := by
  obtain ⟨_, _, _, rfl⟩ := apply_ok applied
  exact Assignment.mem_queuesOf_withoutIdle

structure Merges (r : Reconciler) (change : SplitChange) (next : Reconciler) (delta : Delta) :
    Prop where
  exclusive : next.current.Exclusive
  known : next.known = change.latest
  pending : next.pending = r.pending.merge delta.splits
  keyed : delta.splits.Keyed
  held : ∀ {queue}, queue ∈ next.held ↔
    queue ∈ r.held ∧ queue ∉ delta.adopted ∧ queue ∉ delta.forgotten
  adopted : ∀ {queue worker}, delta.adopted[queue]? = some worker ↔
    queue ∈ next.current.queuesOf worker ∧ queue ∈ r.held
  tags : ∀ placement : Placement, delta.splits[placement]?.map Split.tag =
    if placement.queue ∈ r.current.queuesOf placement.worker then
      if placement.queue ∈ next.current.queuesOf placement.worker then none else some .revoke
    else if placement.queue ∈ next.current.queuesOf placement.worker then
      if placement.queue ∈ r.held then none else some .assign
    else none

theorem Merges.tag_eq_assign_iff {r next : Reconciler} {change : SplitChange} {delta : Delta}
    (merges : r.Merges change next delta) {worker : Worker} {queue : Queue} :
    delta.splits[(⟨worker, queue⟩ : Placement)]?.map Split.tag = some .assign ↔
      queue ∈ next.current.queuesOf worker ∧ queue ∉ r.current.queuesOf worker ∧
        queue ∉ r.held := by
  rw [merges.tags]
  by_cases had : queue ∈ r.current.queuesOf worker
  · simp [had]
  · by_cases gets : queue ∈ next.current.queuesOf worker
    · simp [had, gets]
    · simp [had, gets]

theorem Merges.tag_eq_revoke_iff {r next : Reconciler} {change : SplitChange} {delta : Delta}
    (merges : r.Merges change next delta) {worker : Worker} {queue : Queue} :
    delta.splits[(⟨worker, queue⟩ : Placement)]?.map Split.tag = some .revoke ↔
      queue ∈ r.current.queuesOf worker ∧ queue ∉ next.current.queuesOf worker := by
  rw [merges.tags]
  by_cases had : queue ∈ r.current.queuesOf worker
  · simp [had]
  · by_cases gets : queue ∈ next.current.queuesOf worker
    · simp [had, gets]
    · simp [had, gets]

structure Orderly (r : Reconciler) : Prop where
  exclusive : r.current.Exclusive
  free : ∀ {worker queue}, queue ∈ r.current.queuesOf worker → queue ∉ r.held
  known : r.known.Keyed

theorem Balanced.orderly {r : Reconciler} {holdings : Worker → QueueSet}
    (balanced : r.Balanced holdings) : r.Orderly :=
  ⟨balanced.exclusive, balanced.free, balanced.known⟩

theorem isOrphan_move {r : Reconciler} (orderly : r.Orderly) {change : SplitChange}
    {owners : OwnerMap} {queue : Queue} :
    (r.move change owners).isOrphan queue = true ↔ queue ∈ r.held := by
  rw [Move.isOrphan_iff]
  constructor
  · exact fun both => both.2
  · intro held
    refine ⟨?_, held⟩
    cases owned : r.current.owners[queue]? with
    | none => exact owned
    | some worker =>
      have has := (Assignment.owners_eq_some_iff orderly.exclusive).mp owned
      exact absurd held (orderly.free has)

theorem merges_of_suits {r next : Reconciler} {change : SplitChange} {target : Assignment}
    {delta : Delta} (orderly : r.Orderly) (suits : change.Suits target)
    (applied : r.apply change target = .ok (next, delta)) : r.Merges change next delta := by
  obtain ⟨owners, accepted, rfl, rfl⟩ := apply_ok applied
  obtain ⟨lookup, covered⟩ := Assignment.targetOwners_ok accepted
  have placed : ∀ queue worker, owners[queue]? = some worker ↔
      queue ∈ target.withoutIdle.queuesOf worker := by
    intro queue worker
    rw [lookup, Assignment.mem_queuesOf_withoutIdle]
  refine
    { exclusive := Assignment.exclusive_of_lookup placed
      known := rfl
      pending := rfl
      keyed := ?keyed
      held := ?held
      adopted := ?adopted
      tags := ?tags }
  case keyed =>
    intro placement split told
    rw [Move.getElem?_delta] at told
    exact Move.queue_split? suits.latest suits.decreased orderly.known told
  case held =>
    intro queue
    simp only [merged, ExtTreeSet.mem_diff_iff, Table.mem_keys, and_assoc]
  case adopted =>
    intro queue worker
    simp only [merged, Move.delta, ExtTreeMap.getElem?_filter', Option.filter_eq_some_iff,
      isOrphan_move orderly]
    rw [← placed]
    rfl
  case tags =>
    intro placement
    have spared : ∀ queue ∈ change.decreased, queue ∉ owners := by
      intro queue gone listed
      have has := (lookup queue _).mp (ExtTreeMap.getElem?_eq_some_getElem listed)
      exact suits.spared queue gone _ has
    rw [Move.getElem?_delta, Move.tag_split? spared covered]
    simp only [merged, ← placed, isOrphan_move orderly,
      ← Assignment.owners_eq_some_iff orderly.exclusive]
    rfl

theorem suits_of_apply {r next : Reconciler} {change : SplitChange} {target : Assignment}
    {delta : Delta} (fits : change.Fits) (applied : r.apply change target = .ok (next, delta)) :
    change.Suits target := by
  obtain ⟨owners, accepted, _, _⟩ := apply_ok applied
  obtain ⟨lookup, covered⟩ := Assignment.targetOwners_ok accepted
  refine ⟨fits.latest, fits.decreased, fun queue gone worker has => fits.apart queue gone ?_⟩
  exact covered queue (ExtTreeMap.mem_iff_isSome_getElem?.mpr (by simp [(lookup _ _).mpr has]))

theorem merges_of_apply {r next : Reconciler} {holdings : Worker → QueueSet} {change : SplitChange}
    {target : Assignment} {delta : Delta} (balanced : r.Balanced holdings) (fits : change.Fits)
    (applied : r.apply change target = .ok (next, delta)) : r.Merges change next delta :=
  merges_of_suits balanced.orderly (suits_of_apply fits applied) applied

theorem mem_forgotten {r next : Reconciler} {change : SplitChange} {target : Assignment}
    {delta : Delta} (orderly : r.Orderly) (applied : r.apply change target = .ok (next, delta))
    {queue : Queue} :
    queue ∈ delta.forgotten ↔ queue ∈ change.decreased ∧ queue ∈ r.held := by
  obtain ⟨owners, _, rfl, _⟩ := apply_ok applied
  rw [Move.delta, Table.mem_filter, Table.mem_keys, isOrphan_move orderly]
  rfl

theorem Merges.free {r next : Reconciler} {change : SplitChange} {delta : Delta}
    (merges : r.Merges change next delta) {worker : Worker} {queue : Queue}
    (has : queue ∈ next.current.queuesOf worker) : queue ∉ next.held := by
  intro held
  obtain ⟨before, orphan, _⟩ := merges.held.mp held
  have adopted := merges.adopted.mpr ⟨has, before⟩
  exact orphan (ExtTreeMap.mem_iff_isSome_getElem?.mpr (by simp [adopted]))

theorem balanced_apply {r next : Reconciler} {holdings after : Worker → QueueSet}
    {change : SplitChange} {delta : Delta} (balanced : r.Balanced holdings)
    (keyed : change.latest.Keyed) (merges : r.Merges change next delta)
    (moved : ∀ worker queue, queue ∈ after worker ↔
      queue ∈ holdings worker ∨ delta.adopted[queue]? = some worker) :
    next.Balanced after where
  exclusive := merges.exclusive
  free := merges.free
  placed := by
    intro worker queue has held
    rcases (moved worker queue).mp has with before | adopted
    · exact balanced.placed before (merges.held.mp held).1
    · exact merges.free (merges.adopted.mp adopted).1 held
  known := merges.known ▸ keyed
  pending := merges.pending ▸ PlacedSplits.Keyed.merge balanced.pending merges.keyed
  net := by
    intro placement
    have placed : placement.queue ∈ holdings placement.worker → placement.queue ∉ r.held :=
      balanced.placed
    have free : placement.queue ∈ r.current.queuesOf placement.worker → placement.queue ∉ r.held :=
      balanced.free
    rw [merges.pending, PlacedSplits.tag_merge, merges.tags, balanced.net]
    simp only [due, moved, merges.adopted]
    -- Whether the worker had the queue, gets it, holds it, and whether its owner was unknown.
    by_cases had : placement.queue ∈ r.current.queuesOf placement.worker <;>
    by_cases gets : placement.queue ∈ next.current.queuesOf placement.worker <;>
    by_cases has : placement.queue ∈ holdings placement.worker <;>
    by_cases held : placement.queue ∈ r.held <;>
    simp_all

theorem balanced_restore {current : Assignment} {held : QueueSet} {known : SplitMap}
    {holdings : Worker → QueueSet} (exclusive : current.Exclusive)
    (free : ∀ {worker queue}, queue ∈ current.queuesOf worker → queue ∉ held)
    (keyed : known.Keyed)
    (holds : ∀ worker queue, queue ∈ holdings worker ↔ queue ∈ current.queuesOf worker) :
    (restore current held known).Balanced holdings where
  exclusive := exclusive
  free := free
  placed := fun has => free ((holds _ _).mp has)
  known := keyed
  pending := by
    intro placement split found
    simp [restore] at found
  net := by
    intro placement
    have nothing : (restore current held known).pending[placement]? = none :=
      ExtTreeMap.getElem?_empty
    rw [nothing, Option.map_none, eq_comm, due_eq_none_iff]
    exact (holds _ _).symm

theorem fits_returnedChange {r : Reconciler} (known : r.known.Keyed) (splits : List Split) :
    (r.returnedChange splits).Fits where
  latest := SplitMap.Keyed.union known (SplitMap.keyed_ofSplits _)
  decreased := by
    intro queue split found
    simp [returnedChange] at found
  apart := by
    intro queue gone
    simp [returnedChange] at gone

theorem getElem?_pending_release {r : Reconciler} {worker : Worker} {splits : List Split}
    {placement : Placement} :
    (r.release worker splits).pending[placement]? =
      if placement.worker = worker ∧ placement.queue ∈ queuesOf splits then none
      else r.pending[placement]? := by
  simp only [release, ExtTreeMap.getElem?_filter']
  cases r.pending[placement]? with
  | none => simp
  | some split =>
    simp only [Option.filter_some, decide_eq_true_eq]
    exact ite_not ..

@[simp]
theorem current_release (r : Reconciler) (worker : Worker) (splits : List Split) :
    (r.release worker splits).current = r.current.release worker (queuesOf splits) := rfl

@[simp]
theorem current_drain (r : Reconciler) (workers : WorkerSet) :
    (r.drain workers).current = r.current := rfl

theorem balanced_release {r : Reconciler} {holdings after : Worker → QueueSet}
    (balanced : r.Balanced holdings) {worker : Worker} {splits : List Split}
    (kept : ∀ other queue, queue ∈ after other ↔
      queue ∈ holdings other ∧ ¬ (other = worker ∧ queue ∈ queuesOf splits)) :
    (r.release worker splits).Balanced after where
  exclusive := Assignment.Exclusive.release balanced.exclusive worker _
  free := by
    intro other queue has held
    have before := (Assignment.mem_queuesOf_release.mp has).1
    exact balanced.free before (ExtTreeSet.mem_diff_iff.mp held).1
  placed := by
    intro other queue has held
    exact balanced.placed ((kept other queue).mp has).1 (ExtTreeSet.mem_diff_iff.mp held).1
  known := balanced.known
  pending := PlacedSplits.Keyed.filter balanced.pending _
  net := by
    intro placement
    rw [getElem?_pending_release]
    simp only [due, kept, current_release, Assignment.mem_queuesOf_release]
    by_cases gone : placement.worker = worker ∧ placement.queue ∈ queuesOf splits
    · simp [gone]
    · simp only [gone, not_false_eq_true, and_true, if_false]
      exact balanced.net placement

theorem getElem?_pending_drain {r : Reconciler} {workers : WorkerSet} {placement : Placement} :
    (r.drain workers).pending[placement]? =
      if placement.worker ∈ workers then none else r.pending[placement]? := by
  simp only [drain, ExtTreeMap.getElem?_filter']
  cases r.pending[placement]? with
  | none => simp
  | some split => simp [Option.filter_some]

theorem balanced_drain {r : Reconciler} {holdings after : Worker → QueueSet}
    (balanced : r.Balanced holdings) {workers : WorkerSet}
    (served : ∀ worker queue, queue ∈ after worker ↔
      if worker ∈ workers then queue ∈ r.current.queuesOf worker else queue ∈ holdings worker) :
    (r.drain workers).Balanced after where
  exclusive := balanced.exclusive
  free := balanced.free
  placed := by
    intro worker queue has
    rw [served] at has
    split at has
    · exact balanced.free has
    · exact balanced.placed has
  known := balanced.known
  pending := PlacedSplits.Keyed.filter balanced.pending _
  net := by
    intro placement
    rw [getElem?_pending_drain]
    simp only [due, served, current_drain]
    by_cases drained : placement.worker ∈ workers
    · by_cases gets : placement.queue ∈ r.current.queuesOf placement.worker
      · simp [drained, gets]
      · simp [drained, gets]
    · simp only [drained, if_false]
      exact balanced.net placement

/-- A merge never folds a split into a waiting split of the same tag. -/
def FoldsApart (r : Reconciler) : Prop :=
  ∀ (change : SplitChange) (target : Assignment) (next : Reconciler) (delta : Delta),
    change.Fits → r.apply change target = .ok (next, delta) →
    ∀ (placement : Placement) (earlier newer : Split),
      r.pending[placement]? = some earlier → delta.splits[placement]? = some newer →
        earlier.tag ≠ newer.tag

theorem Balanced.foldsApart {r : Reconciler} {holdings : Worker → QueueSet}
    (balanced : r.Balanced holdings) : r.FoldsApart := by
  intro change target next delta fits applied placement earlier newer waiting told same
  have merges := merges_of_apply balanced fits applied
  have before := balanced.net placement
  have added := merges.tags placement
  rw [waiting, due] at before
  rw [told] at added
  simp only [Option.map_some] at before added
  -- A waiting assign needs the queue in the baseline, a waiting revoke needs it outside.
  by_cases had : placement.queue ∈ r.current.queuesOf placement.worker
  · rw [if_pos had] at before added
    split at before
    · cases before
    · split at added
      · cases added
      · rw [Option.some.injEq] at before added
        rw [before, added] at same
        cases same
  · rw [if_neg had] at before added
    split at before
    · split at added
      · split at added
        · cases added
        · rw [Option.some.injEq] at before added
          rw [before, added] at same
          cases same
      · cases added
    · cases before

end Reconciler

end QueueAssignment
