import QueueAssignment.Proofs.Settled

/-!
What becomes of each queue when offsets are attached to a change. The outcome of a queue depends on
the look-ups for that queue, on where the change has it and on its last known range, and on nothing
that happens to other queues.
-/
namespace QueueAssignment
open Std

/-- The offsets of a batch; one that fails has none. -/
def Resolution.answered : Except Error Resolution → OffsetMap
  | .ok resolution => resolution.offsets
  | .error _ => ∅

theorem OffsetResolver.offsets_resolveOrNothing (resolver : OffsetResolver) (group : String)
    (broker : Broker) (queues : QueueSet) :
    (resolver.resolveOrNothing group broker queues).offsets =
      Resolution.answered (resolver.resolve group broker queues) := by
  unfold resolveOrNothing
  split
  · rename_i empty
    rw [ExtTreeSet.isEmpty_iff] at empty
    subst empty
    cases resolver with
    | down reason => rfl
    | policy policy =>
      apply ExtTreeMap.ext_getElem?
      intro queue
      simp [resolve, Resolution.answered, OffsetPolicy.resolve, Table.getElem?_tabulate]
  · cases resolver.resolve group broker queues with
    | ok resolution => rfl
    | error e => rfl

theorem OffsetPolicy.getElem?_answered (policy : OffsetPolicy) (group : String) (broker : Broker)
    (queues : QueueSet) (queue : Queue) :
    (Resolution.answered ((OffsetResolver.policy policy).resolve group broker queues))[queue]? =
      if queue ∈ queues then (policy.offset group broker queue).toOption.join else none := by
  simp only [OffsetResolver.resolve, Resolution.answered, resolve, Table.getElem?_tabulate]
  cases policy.offset group broker queue with
  | ok found => rfl
  | error e => rfl

structure Broker.AgreesOn (first second : Broker) (group : String) (queue : Queue) : Prop where
  min : first.minOffset queue = second.minOffset queue
  max : first.maxOffset queue = second.maxOffset queue
  committed : first.committedOffset group queue = second.committedOffset group queue
  timed : ∀ time, first.offsetAt queue time = second.offsetAt queue time

theorem Broker.agreesOn_of_record {first second : Broker} {queue : Queue}
    (same : first.record queue = second.record queue) (group : String) :
    first.AgreesOn second group queue where
  min := by simp only [minOffset, same]
  max := by simp only [maxOffset, same]
  committed := by simp only [committedOffset, same]
  timed := fun _ => by simp only [offsetAt, same]

theorem OffsetPolicy.offset_congr {first second : Broker} {group : String} {queue : Queue}
    (agrees : first.AgreesOn second group queue) (policy : OffsetPolicy) :
    policy.offset group first queue = policy.offset group second queue := by
  cases policy with
  | earliest => simp only [offset, agrees.min]
  | latest => simp only [offset, agrees.max]
  | committed fallback => simp only [offset, agrees.committed, agrees.min, agrees.max]
  | timestamp time => simp only [offset, agrees.timed]
  | fixed offsets => rfl
  | unbounded => rfl

structure QueueChange.AlikeAt (first second : QueueChange) (queue : Queue) : Prop where
  increased : queue ∈ first.increased ↔ queue ∈ second.increased
  decreased : queue ∈ first.decreased ↔ queue ∈ second.decreased
  latest : queue ∈ first.latest ↔ queue ∈ second.latest

namespace SplitChange

structure AlikeAt (first second : SplitChange) (queue : Queue) : Prop where
  increased : first.increased[queue]? = second.increased[queue]?
  decreased : first.decreased[queue]? = second.decreased[queue]?
  latest : first.latest[queue]? = second.latest[queue]?

variable {change other : QueueChange} {known before : SplitMap} {starting stopping : OffsetMap}
  {queue : Queue}

/-- The outcome for each queue. The start that was found counts before the last known range, and a
    range without a stop that was found has no end. A queue of the latest topology without any
    range is left out, and so is a new one without a start. -/
structure Attaches (change : QueueChange) (known : SplitMap) (starting stopping : OffsetMap)
    (result : SplitChange) : Prop where
  latest : ∀ queue split, result.latest[queue]? = some split ↔ queue ∈ change.latest ∧
    ((∃ start, starting[queue]? = some start ∧ split = .assign queue start stopping[queue]?) ∨
      starting[queue]? = none ∧ queue ∉ change.increased ∧
        ∃ last, known[queue]? = some last ∧ split = .assign queue last.start last.stop)
  increased : ∀ queue, result.increased[queue]? =
    if queue ∈ change.increased then result.latest[queue]? else none
  decreased : ∀ queue split, result.decreased[queue]? = some split ↔ queue ∈ change.decreased ∧
    ((∃ start, starting[queue]? = some start ∧ split = .revoke queue start stopping[queue]?) ∨
      starting[queue]? = none ∧
        ((∃ last, known[queue]? = some last ∧ split = .revoke queue last.start last.stop) ∨
          known[queue]? = none ∧ split = .revoke queue unresolvedOffset none))

theorem latestSplit_eq_some_iff (keyed : known.Keyed) {split : Split} :
    latestSplit change known starting stopping queue = some split ↔
      (∃ start, starting[queue]? = some start ∧ split = .assign queue start stopping[queue]?) ∨
        starting[queue]? = none ∧ queue ∉ change.increased ∧
          ∃ last, known[queue]? = some last ∧ split = .assign queue last.start last.stop := by
  unfold latestSplit resolvedSplit
  cases starting[queue]? with
  | some start => simp [eq_comm]
  | none =>
    by_cases new : queue ∈ change.increased
    · simp [new]
    · cases found : known[queue]? with
      | none => simp [new]
      | some last =>
        have own : last.queue = queue := keyed found
        simp [new, Split.toAssign, Split.assign, own, eq_comm]

theorem goneSplit_eq_iff (keyed : known.Keyed) {split : Split} :
    goneSplit known starting stopping queue = split ↔
      (∃ start, starting[queue]? = some start ∧ split = .revoke queue start stopping[queue]?) ∨
        starting[queue]? = none ∧
          ((∃ last, known[queue]? = some last ∧ split = .revoke queue last.start last.stop) ∨
            known[queue]? = none ∧ split = .revoke queue unresolvedOffset none) := by
  unfold goneSplit resolvedSplit
  cases starting[queue]? with
  | some start => simp [Split.toRevoke, Split.assign, Split.revoke, eq_comm]
  | none =>
    cases found : known[queue]? with
    | none => simp [Split.toRevoke, Split.unresolved, Split.assign, Split.revoke, eq_comm]
    | some last =>
      have own : last.queue = queue := keyed found
      simp [Split.toRevoke, Split.revoke, own, eq_comm]

theorem getElem?_increased (change : QueueChange) (known : SplitMap)
    (starting stopping : OffsetMap) (queue : Queue) :
    (ofOffsets change known starting stopping).increased[queue]? =
      if queue ∈ change.increased then
        (ofOffsets change known starting stopping).latest[queue]? else none := by
  simp only [ofOffsets, ExtTreeMap.getElem?_filter']
  generalize (Table.tabulate change.latest _)[queue]? = found
  cases found with
  | none => simp
  | some split => simp [Option.filter_some]

theorem attaches_ofOffsets (keyed : known.Keyed) (starting stopping : OffsetMap) :
    Attaches change known starting stopping (ofOffsets change known starting stopping) where
  latest := by
    intro queue split
    rw [getElem?_latest, Option.ite_none_right_eq_some, latestSplit_eq_some_iff keyed]
  increased := getElem?_increased change known starting stopping
  decreased := by
    intro queue split
    rw [getElem?_decreased, Option.ite_none_right_eq_some, Option.some.injEq,
      goneSplit_eq_iff keyed]

def attach (group : String) (starting stopping : OffsetResolver) (broker : Broker)
    (change : QueueChange) (known : SplitMap) : SplitChange :=
  .ofOffsets change known
    (starting.resolveOrNothing group broker change.wanted).offsets
    (stopping.resolveOrNothing group broker change.wanted).offsets

theorem alikeAt_ofOffsets {start stop : OffsetMap} (alike : change.AlikeAt other queue)
    (last : known[queue]? = before[queue]?)
    (starts : queue ∈ change.wanted → starting[queue]? = start[queue]?)
    (stops : queue ∈ change.wanted → stopping[queue]? = stop[queue]?) :
    (ofOffsets change known starting stopping).AlikeAt (ofOffsets other before start stop)
      queue := by
  have latest : (ofOffsets change known starting stopping).latest[queue]? =
      (ofOffsets other before start stop).latest[queue]? := by
    simp only [getElem?_latest, ← alike.latest]
    split
    · rename_i there
      have wanted : queue ∈ change.wanted := ExtTreeSet.mem_union_iff.mpr (Or.inl there)
      simp only [latestSplit, resolvedSplit, starts wanted, stops wanted, last, alike.increased]
    · rfl
  refine ⟨?_, ?_, latest⟩
  · simp only [getElem?_increased, latest, alike.increased]
  · simp only [getElem?_decreased, ← alike.decreased]
    split
    · rename_i gone
      have wanted : queue ∈ change.wanted := ExtTreeSet.mem_union_iff.mpr (Or.inr gone)
      simp only [goneSplit, resolvedSplit, starts wanted, stops wanted, last]
    · rfl

theorem alikeAt_attach {group : String} {first second : Broker} (starting stopping : OffsetPolicy)
    (agrees : first.AgreesOn second group queue) (alike : change.AlikeAt other queue)
    (last : known[queue]? = before[queue]?) :
    (attach group (.policy starting) (.policy stopping) first change known).AlikeAt
      (attach group (.policy starting) (.policy stopping) second other before) queue := by
  have wanted : queue ∈ change.wanted ↔ queue ∈ other.wanted := by
    simp only [QueueChange.wanted, ExtTreeSet.mem_union_iff, alike.latest, alike.decreased]
  apply alikeAt_ofOffsets alike last
  · intro asked
    simp only [OffsetResolver.offsets_resolveOrNothing, OffsetPolicy.getElem?_answered, ← wanted,
      starting.offset_congr agrees]
  · intro asked
    simp only [OffsetResolver.offsets_resolveOrNothing, OffsetPolicy.getElem?_answered, ← wanted,
      stopping.offset_congr agrees]

end SplitChange

theorem Coordinator.changeOver_eq_attach (c : Coordinator) (latest : QueueSet) (broker : Broker) :
    c.changeOver latest (c.job.lookUp broker) =
      .attach c.job.settings.group c.job.starting c.job.stopping broker
        (.between latest c.desk.dispatcher.ownedQueues) c.desk.reconciler.known := by
  rw [changeOver, SplitChange.attach, wanted_between]
  rfl

/-- Whatever the two resolvers answer, also where a batch fails, each queue gets its outcome, and
    what a cycle merges is attached in this way. Where both go by a policy, two brokers that agree
    on a queue give it the same outcome, whatever they answer for other queues and whatever else the
    changes contain. -/
theorem attached_queue_by_queue (change : QueueChange) {known : SplitMap} (keyed : known.Keyed) :
    (∀ starting stopping : Except Error Resolution,
      SplitChange.Attaches change known (Resolution.answered starting)
        (Resolution.answered stopping)
        (.ofOffsets change known (Resolution.answered starting)
          (Resolution.answered stopping))) ∧
    (∀ group broker (starting stopping : OffsetResolver),
      SplitChange.attach group starting stopping broker change known =
        .ofOffsets change known (Resolution.answered (starting.resolve group broker change.wanted))
          (Resolution.answered (stopping.resolve group broker change.wanted))) ∧
    (∀ (c : Coordinator) latest broker,
      c.changeOver latest (c.job.lookUp broker) =
        .attach c.job.settings.group c.job.starting c.job.stopping broker
          (.between latest c.desk.dispatcher.ownedQueues) c.desk.reconciler.known) ∧
    ∀ group (starting stopping : OffsetPolicy) (first second : Broker) (other : QueueChange)
      (before : SplitMap) queue, first.AgreesOn second group queue → change.AlikeAt other queue →
        known[queue]? = before[queue]? →
        (SplitChange.attach group (.policy starting) (.policy stopping) first change known).AlikeAt
          (.attach group (.policy starting) (.policy stopping) second other before) queue := by
  refine ⟨fun starting stopping => SplitChange.attaches_ofOffsets keyed _ _, ?_,
    Coordinator.changeOver_eq_attach, ?_⟩
  · intro group broker starting stopping
    rw [SplitChange.attach, OffsetResolver.offsets_resolveOrNothing,
      OffsetResolver.offsets_resolveOrNothing]
  · intro group starting stopping first second other before queue agrees alike last
    exact SplitChange.alikeAt_attach starting stopping agrees alike last

namespace Sample

def shift : QueueChange where
  increased := ExtTreeSet.ofList [queue 0]
  decreased := ExtTreeSet.ofList [queue 2]
  latest := ExtTreeSet.ofList [queue 0, queue 1]

def ranges : SplitMap := Table.ofEntries [(queue 1, .revoke (queue 1) 7 (some 9))]

theorem keyed_ranges : ranges.Keyed := by
  intro queue split found
  have listed := Table.mem_of_getElem?_ofEntries found
  simp only [List.mem_singleton, Prod.mk.injEq] at listed
  rw [listed.1, listed.2]
  rfl

theorem record_broker {indices : List UInt32} {index : UInt32} (there : index ∈ indices) :
    (broker indices).record (queue index) = { min := some 0 } := by
  have found : (broker indices).offsets[queue index]? = some { min := some 0 } := by
    apply Table.getElem?_ofEntries_of_agree
    · exact List.mem_map_of_mem there
    · intro record listed
      obtain ⟨_, _, entry⟩ := List.mem_map.mp listed
      exact (Prod.mk.inj entry).2.symm
  rw [Broker.record, found, Option.getD_some]

end Sample

/-- A broker knows nothing of the queue that is new. The one that stays keeps its range, and the
    third one is revoked just as if every look-up had succeeded. -/
theorem attached_beside_failed :
    let attach := fun broker => SplitChange.attach "" (.policy .earliest) (.policy .unbounded)
      broker Sample.shift Sample.ranges
    (attach (Sample.broker [2])).latest.toList =
        [(Sample.queue 1, .assign (Sample.queue 1) 7 (some 9))] ∧
      SplitChange.Attaches Sample.shift Sample.ranges ∅ ∅
        (.ofOffsets Sample.shift Sample.ranges ∅ ∅) ∧
      (attach (Sample.broker [2])).AlikeAt (attach (Sample.broker [0, 1, 2])) (Sample.queue 2) := by
  intro attach
  obtain ⟨outcomes, _, _, apart⟩ := attached_queue_by_queue Sample.shift Sample.keyed_ranges
  refine ⟨by decide +kernel, outcomes (.error .coordinatorStopped) (.ok {}), ?_⟩
  refine apart "" .earliest .unbounded _ _ Sample.shift Sample.ranges (Sample.queue 2) ?_
    ⟨Iff.rfl, Iff.rfl, Iff.rfl⟩ rfl
  apply Broker.agreesOn_of_record
  rw [Sample.record_broker (by decide), Sample.record_broker (by decide)]

end QueueAssignment
