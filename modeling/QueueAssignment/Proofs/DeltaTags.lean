import QueueAssignment.Proofs.Exclusive

/-!
What a delta tells each worker: a queue is taken from the worker that has it and should not,
and given to the worker that should have it and has not. The exceptions are queues of an
unknown owner, about which nobody is told.
-/
namespace QueueAssignment
open Std

def SplitMap.Keyed (splits : SplitMap) : Prop :=
  ∀ {queue : Queue} {split : Split}, splits[queue]? = some split → split.queue = queue

def PlacedSplits.Keyed (splits : PlacedSplits) : Prop :=
  ∀ {placement : Placement} {split : Split},
    splits[placement]? = some split → split.queue = placement.queue

/-- A change as the coordinator makes it: no queue is both gone and there. -/
structure SplitChange.Fits (change : SplitChange) : Prop where
  latest : change.latest.Keyed
  decreased : change.decreased.Keyed
  apart : ∀ queue ∈ change.decreased, queue ∉ change.latest

structure SplitChange.Suits (change : SplitChange) (target : Assignment) : Prop where
  latest : change.latest.Keyed
  decreased : change.decreased.Keyed
  spared : ∀ queue ∈ change.decreased, ∀ worker, queue ∉ target.queuesOf worker

@[simp]
theorem Split.tag_toRevoke (split : Split) : split.toRevoke.tag = .revoke := rfl

@[simp]
theorem Split.tag_toAssign (split : Split) : split.toAssign.tag = .assign := rfl

@[simp]
theorem Split.queue_toRevoke (split : Split) : split.toRevoke.queue = split.queue := rfl

@[simp]
theorem Split.queue_toAssign (split : Split) : split.toAssign.queue = split.queue := rfl

namespace Move

theorem isOrphan_iff {move : Move} {queue : Queue} :
    move.isOrphan queue = true ↔ move.baseline[queue]? = none ∧ queue ∈ move.held := by
  simp [isOrphan]

theorem tag_toOwner {move : Move} {queue : Queue} {owner : Worker}
    (spared : ∀ queue ∈ move.change.decreased, queue ∉ move.target)
    (covered : ∀ queue, queue ∈ move.target → queue ∈ move.change.latest) :
    (move.toOwner queue owner).map Split.tag =
      if move.target[queue]? = some owner then none else some .revoke := by
  unfold toOwner
  cases placed : move.target[queue]? with
  | none => simp
  | some worker =>
    have listed : queue ∈ move.target :=
      ExtTreeMap.mem_iff_isSome_getElem?.mpr (by simp [placed])
    have there := covered queue listed
    have stays : move.change.decreased[queue]? = none :=
      ExtTreeMap.getElem?_eq_none fun gone => spared queue gone listed
    by_cases same : worker = owner
    · simp [same, stays]
    · simp [same, ExtTreeMap.getElem?_eq_some_getElem there]

theorem tag_toTarget {move : Move} {queue : Queue} (there : queue ∈ move.change.latest) :
    (move.toTarget queue).map Split.tag =
      if move.isOrphan queue then none else some .assign := by
  unfold toTarget
  by_cases orphan : move.isOrphan queue = true
  · simp [orphan, isOrphan_iff.mp orphan]
  · rw [if_neg (fun both => orphan (isOrphan_iff.mpr both))]
    simp [orphan, ExtTreeMap.getElem?_eq_some_getElem there]

theorem tag_split? {move : Move}
    (spared : ∀ queue ∈ move.change.decreased, queue ∉ move.target)
    (covered : ∀ queue, queue ∈ move.target → queue ∈ move.change.latest)
    (placement : Placement) :
    (move.split? placement).map Split.tag =
      if move.baseline[placement.queue]? = some placement.worker then
        if move.target[placement.queue]? = some placement.worker then none else some .revoke
      else if move.target[placement.queue]? = some placement.worker then
        if move.isOrphan placement.queue then none else some .assign
      else none := by
  unfold split?
  split
  · exact tag_toOwner spared covered
  · split
    · rename_i placed
      apply tag_toTarget
      exact covered _ (ExtTreeMap.mem_iff_isSome_getElem?.mpr (by simp [placed]))
    · rfl

theorem queue_lastRange {move : Move} (latest : move.change.latest.Keyed)
    (decreased : move.change.decreased.Keyed) (known : move.known.Keyed) (queue : Queue) :
    (move.lastRange queue).queue = queue := by
  unfold lastRange
  cases gone : move.change.decreased[queue]? with
  | some split => simpa using decreased gone
  | none =>
    cases there : move.change.latest[queue]? with
    | some split => simpa using latest there
    | none =>
      cases before : move.known[queue]? with
      | some split => simpa using known before
      | none => rfl

theorem queue_split? {move : Move} (latest : move.change.latest.Keyed)
    (decreased : move.change.decreased.Keyed) (known : move.known.Keyed) {placement : Placement}
    {split : Split} (told : move.split? placement = some split) :
    split.queue = placement.queue := by
  unfold split? at told
  split at told
  · unfold toOwner at told
    split at told
    · split at told
      · obtain ⟨gone, found, rfl⟩ := Option.map_eq_some_iff.mp told
        simpa using decreased found
      · obtain ⟨there, found, rfl⟩ := Option.map_eq_some_iff.mp told
        simpa using latest found
    · cases told
      exact queue_lastRange latest decreased known placement.queue
  · split at told
    · unfold toTarget at told
      split at told
      · cases told
      · obtain ⟨there, found, rfl⟩ := Option.map_eq_some_iff.mp told
        simpa using latest found
    · cases told

end Move

namespace SplitMap

theorem keyed_ofSplits (splits : List Split) : (ofSplits splits).Keyed := by
  intro queue split found
  obtain ⟨listed, _, eq⟩ := List.mem_map.mp (Table.mem_of_getElem?_ofEntries found)
  cases eq
  rfl

theorem Keyed.union {first second : SplitMap} (left : first.Keyed) (right : second.Keyed) :
    (first ∪ second).Keyed := by
  intro queue split found
  rw [ExtTreeMap.getElem?_union, Option.or_eq_some_iff] at found
  rcases found with found | ⟨_, found⟩
  · exact right found
  · exact left found

end SplitMap

namespace SplitChange

theorem queue_resolvedSplit {starting stopping : OffsetMap} {queue : Queue} {split : Split}
    (resolved : resolvedSplit starting stopping queue = some split) : split.queue = queue := by
  obtain ⟨_, _, rfl⟩ := Option.map_eq_some_iff.mp resolved
  rfl

theorem queue_latestSplit {change : QueueChange} {known : SplitMap} (keyed : known.Keyed)
    {starting stopping : OffsetMap} {queue : Queue} {split : Split}
    (latest : latestSplit change known starting stopping queue = some split) :
    split.queue = queue := by
  unfold latestSplit at latest
  split at latest
  · rename_i resolved
    cases latest
    exact queue_resolvedSplit resolved
  · split at latest
    · cases latest
    · obtain ⟨before, found, rfl⟩ := Option.map_eq_some_iff.mp latest
      simpa using keyed found

theorem queue_goneSplit {known : SplitMap} (keyed : known.Keyed) (starting stopping : OffsetMap)
    (queue : Queue) : (goneSplit known starting stopping queue).queue = queue := by
  unfold goneSplit
  cases resolved : resolvedSplit starting stopping queue with
  | some split => simpa using queue_resolvedSplit resolved
  | none =>
    cases before : known[queue]? with
    | some split => simpa using keyed before
    | none => rfl

theorem fits_ofOffsets {change : QueueChange} {known : SplitMap} (keyed : known.Keyed)
    (apart : ∀ queue ∈ change.decreased, queue ∉ change.latest) (starting stopping : OffsetMap) :
    (ofOffsets change known starting stopping).Fits where
  latest := by
    intro queue split found
    rw [getElem?_latest] at found
    split at found
    · exact queue_latestSplit keyed found
    · cases found
  decreased := by
    intro queue split found
    rw [getElem?_decreased] at found
    split at found
    · cases found
      exact queue_goneSplit keyed starting stopping queue
    · cases found
  apart := by
    intro queue gone there
    rw [ExtTreeMap.mem_iff_isSome_getElem?, getElem?_decreased] at gone
    rw [ExtTreeMap.mem_iff_isSome_getElem?, getElem?_latest] at there
    split at gone
    · rename_i decreased
      rw [if_neg (apart queue decreased)] at there
      cases there
    · cases gone

end SplitChange

end QueueAssignment
