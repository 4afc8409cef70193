import QueueAssignment.Proofs.Run

/-!
What a merge tells the workers, in full. A delta gives one answer for each placement; computed in
three passes that overwrite each other, over the queues that are gone, the target and the baseline,
it is the same.
-/
namespace QueueAssignment
open Std

namespace Table

variable {κ ν α β : Type} [Ord κ] [TransOrd κ] [LawfulEqOrd κ]

theorem read_foldl_idle {ε : Type} {entries : List ε} {step : α → ε → α} {read : α → β}
    (idle : ∀ a, ∀ entry ∈ entries, read (step a entry) = read a) (start : α) :
    read (entries.foldl step start) = read start := by
  induction entries generalizing start with
  | nil => rfl
  | cons entry rest ih =>
    rw [List.foldl_cons, ih fun a e member => idle a e (List.mem_cons_of_mem _ member)]
    exact idle start entry List.mem_cons_self

/-- A pass over a table, seen where the entries of all keys but one write nothing. -/
theorem read_foldl (table : ExtTreeMap κ ν) {step : α → κ × ν → α} (read : α → β) (key : κ)
    (elsewhere : ∀ a k v, table[k]? = some v → k ≠ key → read (step a (k, v)) = read a)
    (start : α) :
    ∃ before, read before = read start ∧ read (table.toList.foldl step start) =
      match table[key]? with
      | some v => read (step before (key, v))
      | none => read before := by
  have listed : ∀ {k v}, (k, v) ∈ table.toList ↔ table[k]? = some v :=
    ExtTreeMap.mem_toList_iff_getElem?_eq_some
  have others : ∀ entries : List (κ × ν), (∀ entry ∈ entries, entry ∈ table.toList) →
      (∀ entry ∈ entries, entry.1 ≠ key) → ∀ a, read (entries.foldl step a) = read a := by
    intro entries part other a
    apply read_foldl_idle
    intro b entry member
    exact elsewhere b entry.1 entry.2 (listed.mp (part entry member)) (other entry member)
  cases found : table[key]? with
  | none =>
    refine ⟨start, rfl, others _ (fun _ member => member) ?_ start⟩
    rintro entry member rfl
    exact absurd (found.symm.trans (listed.mp member)) nofun
  | some v =>
    -- The entry of the key stands once: what comes before and after it is of other keys.
    obtain ⟨before, after, split⟩ := List.append_of_mem (listed.mpr found)
    have distinct := ExtTreeMap.distinct_keys_toList (t := table)
    rw [split, List.pairwise_append] at distinct
    obtain ⟨_, later, apart⟩ := distinct
    rw [split] at others ⊢
    have first : ∀ a, read (before.foldl step a) = read a := by
      apply others before (by simp +contextual)
      rintro entry member rfl
      exact apart entry member _ List.mem_cons_self compare_self
    have last : ∀ a, read (after.foldl step a) = read a := by
      apply others after (by simp +contextual)
      rintro entry member rfl
      exact (List.pairwise_cons.mp later).1 entry member compare_self
    refine ⟨before.foldl step start, first start, ?_⟩
    rw [List.foldl_append, List.foldl_cons, last]

end Table

namespace PlacedSplits

def push (told : PlacedSplits) (worker : Worker) (split : Split) : PlacedSplits :=
  told.insert ⟨worker, split.queue⟩ split

theorem getElem?_push (told : PlacedSplits) (worker : Worker) (split : Split)
    (placement : Placement) :
    (told.push worker split)[placement]? =
      if worker = placement.worker ∧ split.queue = placement.queue then some split
      else told[placement]? := by
  rw [push, ExtTreeMap.getElem?_insert]
  simp only [Std.compare_eq_iff_eq]
  cases placement
  simp

end PlacedSplits

namespace Move

variable {move : Move} {told : PlacedSplits}

def tellGone (move : Move) (told : PlacedSplits) (entry : Queue × Split) : PlacedSplits :=
  match move.baseline[entry.1]? with
  | some owner => told.push owner entry.2.toRevoke
  | none => told

/-- A placed queue goes from its owner to its worker. Where nobody owns it only the worker is told,
    and not even the worker where it is held. -/
def tellPlaced (move : Move) (told : PlacedSplits) (entry : Queue × Worker) : PlacedSplits :=
  match move.change.latest[entry.1]? with
  | none => told
  | some split =>
    match move.baseline[entry.1]? with
    | some owner =>
        if owner = entry.2 then told
        else (told.push owner split.toRevoke).push entry.2 split.toAssign
    | none => if entry.1 ∈ move.held then told else told.push entry.2 split.toAssign

/-- A queue that is placed nowhere any more is revoked, unless its owner was told already. -/
def tellUnplaced (move : Move) (told : PlacedSplits) (entry : Queue × Worker) : PlacedSplits :=
  if entry.1 ∈ move.target ∨ Placement.mk entry.2 entry.1 ∈ told then told
  else told.push entry.2 (move.lastRange entry.1).toRevoke

def revokeGone (move : Move) : PlacedSplits := move.change.decreased.toList.foldl move.tellGone ∅

def handOver (move : Move) (told : PlacedSplits) : PlacedSplits :=
  move.target.toList.foldl move.tellPlaced told

def revokeUnplaced (move : Move) (told : PlacedSplits) : PlacedSplits :=
  move.baseline.toList.foldl move.tellUnplaced told

def passes (move : Move) : PlacedSplits := move.revokeUnplaced (move.handOver move.revokeGone)

theorem getElem?_tellGone_of_ne (decreased : move.change.decreased.Keyed) {placement : Placement}
    {queue : Queue} {split : Split} (found : move.change.decreased[queue]? = some split)
    (other : queue ≠ placement.queue) :
    (move.tellGone told (queue, split))[placement]? = told[placement]? := by
  rw [tellGone]
  cases move.baseline[queue]? with
  | none => rfl
  | some owner => simp [PlacedSplits.getElem?_push, decreased found, other]

theorem getElem?_tellPlaced_of_ne (latest : move.change.latest.Keyed) {placement : Placement}
    {queue : Queue} (worker : Worker) (other : queue ≠ placement.queue) :
    (move.tellPlaced told (queue, worker))[placement]? = told[placement]? := by
  rw [tellPlaced]
  cases there : move.change.latest[queue]? with
  | none => rfl
  | some split =>
    cases move.baseline[queue]? with
    | none =>
      simp only
      split
      · rfl
      · simp [PlacedSplits.getElem?_push, latest there, other]
    | some owner =>
      simp only
      split
      · rfl
      · simp [PlacedSplits.getElem?_push, latest there, other]

theorem getElem?_tellUnplaced_of_ne {placement : Placement} {queue : Queue} (owner : Worker)
    (own : (move.lastRange queue).queue = queue) (other : queue ≠ placement.queue) :
    (move.tellUnplaced told (queue, owner))[placement]? = told[placement]? := by
  rw [tellUnplaced]
  split
  · rfl
  · simp [PlacedSplits.getElem?_push, own, other]

theorem getElem?_revokeGone (decreased : move.change.decreased.Keyed) (placement : Placement) :
    move.revokeGone[placement]? =
      if move.baseline[placement.queue]? = some placement.worker then
        move.change.decreased[placement.queue]?.map Split.toRevoke
      else none := by
  obtain ⟨before, empty, pass⟩ := Table.read_foldl move.change.decreased
    (fun told : PlacedSplits => told[placement]?) placement.queue
    (fun told queue split found other =>
      getElem?_tellGone_of_ne decreased found other) ∅
  simp only [ExtTreeMap.getElem?_empty] at empty
  rw [revokeGone, pass]
  cases gone : move.change.decreased[placement.queue]? with
  | none => simp [empty]
  | some split =>
    cases owned : move.baseline[placement.queue]? with
    | none => simp [tellGone, owned, empty]
    | some owner => simp [tellGone, owned, empty, PlacedSplits.getElem?_push, decreased gone]

theorem getElem?_handOver (latest : move.change.latest.Keyed)
    (covered : ∀ queue, queue ∈ move.target → queue ∈ move.change.latest)
    (placement : Placement) :
    (move.handOver told)[placement]? =
      match move.target[placement.queue]?, move.baseline[placement.queue]? with
      | none, _ => told[placement]?
      | some worker, some owner =>
          if owner = worker then told[placement]?
          else if worker = placement.worker then
            move.change.latest[placement.queue]?.map Split.toAssign
          else if owner = placement.worker then
            move.change.latest[placement.queue]?.map Split.toRevoke
          else told[placement]?
      | some worker, none =>
          if placement.queue ∈ move.held then told[placement]?
          else if worker = placement.worker then
            move.change.latest[placement.queue]?.map Split.toAssign
          else told[placement]? := by
  obtain ⟨before, same, pass⟩ := Table.read_foldl move.target
    (fun told : PlacedSplits => told[placement]?) placement.queue
    (fun told queue worker _ other =>
      getElem?_tellPlaced_of_ne latest worker other) told
  rw [handOver, pass]
  cases placed : move.target[placement.queue]? with
  | none => simp [same]
  | some worker =>
    have listed : placement.queue ∈ move.target :=
      ExtTreeMap.mem_iff_isSome_getElem?.mpr (by simp [placed])
    have there := ExtTreeMap.getElem?_eq_some_getElem (covered _ listed)
    have own := latest there
    cases owned : move.baseline[placement.queue]? with
    | none =>
      by_cases held : placement.queue ∈ move.held
      · simp [tellPlaced, there, owned, held, same]
      · simp [tellPlaced, there, owned, held, same, PlacedSplits.getElem?_push, own]
    | some owner =>
      by_cases stays : owner = worker
      · simp [tellPlaced, there, owned, stays, same]
      · simp [tellPlaced, there, owned, stays, same, PlacedSplits.getElem?_push, own]

theorem getElem?_revokeUnplaced (own : ∀ queue, (move.lastRange queue).queue = queue)
    (placement : Placement) :
    (move.revokeUnplaced told)[placement]? =
      if move.baseline[placement.queue]? = some placement.worker ∧
          move.target[placement.queue]? = none then
        told[placement]?.or (some (move.lastRange placement.queue).toRevoke)
      else told[placement]? := by
  obtain ⟨before, same, pass⟩ := Table.read_foldl move.baseline
    (fun told : PlacedSplits => told[placement]?) placement.queue
    (fun told queue owner _ other =>
      getElem?_tellUnplaced_of_ne owner (own queue) other) told
  rw [revokeUnplaced, pass, ← same]
  cases owned : move.baseline[placement.queue]? with
  | none => simp
  | some owner =>
    simp only [tellUnplaced, ExtTreeMap.mem_iff_isSome_getElem?]
    cases placed : move.target[placement.queue]? with
    | some worker => simp
    | none =>
      by_cases mine : owner = placement.worker
      · subst mine
        cases known : before[placement]? with
        | none => simp [PlacedSplits.getElem?_push, own]
        | some split => simp [known]
      · have kept : (before.push owner (move.lastRange placement.queue).toRevoke)[placement]? =
            before[placement]? := by
          simp [PlacedSplits.getElem?_push, mine]
        simp only [Option.some.injEq, mine, false_and, if_false]
        split
        · rfl
        · exact kept

theorem getElem?_passes (latest : move.change.latest.Keyed)
    (decreased : move.change.decreased.Keyed) (known : move.known.Keyed)
    (covered : ∀ queue, queue ∈ move.target → queue ∈ move.change.latest)
    (placement : Placement) : move.passes[placement]? = move.split? placement := by
  have own := queue_lastRange latest decreased known
  rw [passes, getElem?_revokeUnplaced own, getElem?_handOver latest covered,
    getElem?_revokeGone decreased, split?]
  cases owned : move.baseline[placement.queue]? with
  | none =>
    cases placed : move.target[placement.queue]? with
    | none => simp
    | some worker =>
      by_cases held : placement.queue ∈ move.held
      · simp [toTarget, owned, held]
      · simp [toTarget, owned, held]
  | some owner =>
    cases placed : move.target[placement.queue]? with
    | none =>
      -- The guard of the last pass: a gone queue was revoked with the same range by the first.
      by_cases mine : owner = placement.worker
      · cases gone : move.change.decreased[placement.queue]? with
        | none => simp [mine, toOwner, placed]
        | some split => simp [mine, toOwner, placed, lastRange, gone]
      · simp [mine]
    | some worker =>
      by_cases stays : owner = worker
      · subst stays
        by_cases mine : owner = placement.worker
        · simp [mine, toOwner, placed]
        · simp [mine]
      · by_cases mine : owner = placement.worker
        · have other : worker ≠ placement.worker := fun same => stays (mine.trans same.symm)
          simp [mine, other, toOwner, placed, Ne.symm other]
        · simp [mine, stays, toTarget, owned]

/-- Written as one answer per placement or as passes that overwrite each other, the splits of a
    delta are the same. -/
theorem splits_delta_eq_passes (latest : move.change.latest.Keyed)
    (decreased : move.change.decreased.Keyed) (known : move.known.Keyed)
    (covered : ∀ queue, queue ∈ move.target → queue ∈ move.change.latest) :
    move.delta.splits = move.passes := by
  apply ExtTreeMap.ext_getElem?
  intro placement
  rw [getElem?_delta, getElem?_passes latest decreased known covered]

theorem getElem?_latest_of_placed (spared : ∀ queue ∈ move.change.decreased, queue ∉ move.target)
    (covered : ∀ queue, queue ∈ move.target → queue ∈ move.change.latest) {queue : Queue}
    (placed : queue ∈ move.target) :
    move.change.latest[queue]? = some (move.lastRange queue) := by
  have there := ExtTreeMap.getElem?_eq_some_getElem (covered queue placed)
  have stays : move.change.decreased[queue]? = none :=
    ExtTreeMap.getElem?_eq_none fun gone => spared queue gone placed
  rw [lastRange, stays, there]
  rfl

theorem split?_eq_lastRange (spared : ∀ queue ∈ move.change.decreased, queue ∉ move.target)
    (covered : ∀ queue, queue ∈ move.target → queue ∈ move.change.latest) {placement : Placement}
    {split : Split} (told : move.split? placement = some split) :
    split = if move.baseline[placement.queue]? = some placement.worker then
        (move.lastRange placement.queue).toRevoke
      else (move.lastRange placement.queue).toAssign := by
  have latest : ∀ {worker}, move.target[placement.queue]? = some worker →
      move.change.latest[placement.queue]? = some (move.lastRange placement.queue) := by
    intro worker placed
    apply getElem?_latest_of_placed spared covered
    exact ExtTreeMap.mem_iff_isSome_getElem?.mpr (by simp [placed])
  unfold split? at told
  split at told
  · rename_i owned
    rw [if_pos owned]
    unfold toOwner at told
    split at told
    · rename_i worker placed
      split at told
      · obtain ⟨gone, found, _⟩ := Option.map_eq_some_iff.mp told
        have listed : placement.queue ∈ move.target :=
          ExtTreeMap.mem_iff_isSome_getElem?.mpr (by simp [placed])
        have lost : placement.queue ∈ move.change.decreased :=
          ExtTreeMap.mem_iff_isSome_getElem?.mpr (by simp [found])
        exact absurd listed (spared _ lost)
      · rw [latest placed] at told
        exact (Option.some.inj told).symm
    · exact (Option.some.inj told).symm
  · rename_i foreign
    rw [if_neg foreign]
    split at told
    · rename_i placed
      unfold toTarget at told
      split at told
      · cases told
      · rw [latest placed] at told
        exact (Option.some.inj told).symm
    · cases told

end Move

namespace Reconciler

/-- The range that goes with a queue: the one it is taken away with, else the latest one, else the
    last one known, else all of it from an unknown position. -/
def rangeOf (r : Reconciler) (change : SplitChange) (queue : Queue) : Split :=
  match change.decreased[queue]?, change.latest[queue]?, r.known[queue]? with
  | some gone, _, _ => gone
  | none, some there, _ => there
  | none, none, some before => before
  | none, none, none => .unresolved queue

theorem lastRange_move (r : Reconciler) (change : SplitChange) (owners : OwnerMap) (queue : Queue) :
    (r.move change owners).lastRange queue = r.rangeOf change queue := by
  unfold rangeOf Move.lastRange move
  cases change.decreased[queue]? with
  | some gone => rfl
  | none =>
    cases change.latest[queue]? with
    | some there => rfl
    | none =>
      cases r.known[queue]? with
      | some before => rfl
      | none => rfl

/-- What a merge tells is the difference between the baseline and the target, and what it leaves is
    the target. -/
structure Difference (r : Reconciler) (change : SplitChange) (target : Assignment)
    (next : Reconciler) (delta : Delta) : Prop where
  told : ∀ worker queue, (∃ split, delta.get? worker queue = some split) ↔
    ¬ (queue ∈ r.current.queuesOf worker ↔ queue ∈ target.queuesOf worker) ∧
      queue ∉ delta.adopted
  revokes : ∀ {worker queue split}, delta.get? worker queue = some split →
    queue ∈ r.current.queuesOf worker → split = (r.rangeOf change queue).toRevoke
  assigns : ∀ {worker queue split}, delta.get? worker queue = some split →
    queue ∈ target.queuesOf worker → split = (r.rangeOf change queue).toAssign
  own : ∀ queue, (r.rangeOf change queue).queue = queue
  moved : ∀ {queue owner worker}, queue ∈ r.current.queuesOf owner →
    queue ∈ target.queuesOf worker → owner ≠ worker → ∀ other, delta.get? other queue =
      if other = owner then some (r.rangeOf change queue).toRevoke
      else if other = worker then some (r.rangeOf change queue).toAssign else none
  /-- The passes, where a later one may overwrite an earlier one, come to the same. -/
  passes : ∃ owners, target.targetOwners change.latest = .ok owners ∧
    delta.splits = (r.move change owners).passes
  adopted : ∀ (queue : Queue) worker, delta.adopted[queue]? = some worker ↔
    queue ∈ r.held ∧ queue ∈ target.queuesOf worker
  forgotten : ∀ queue, queue ∈ delta.forgotten ↔ queue ∈ r.held ∧ queue ∈ change.decreased
  current : ∀ (worker : Worker) (queues : QueueSet), next.current[worker]? = some queues ↔
    target[worker]? = some queues ∧ queues ≠ ∅
  known : next.known = change.latest
  held : ∀ queue, queue ∈ next.held ↔
    queue ∈ r.held ∧ queue ∉ delta.adopted ∧ queue ∉ delta.forgotten

theorem queue_rangeOf {r : Reconciler} {change : SplitChange} (latest : change.latest.Keyed)
    (decreased : change.decreased.Keyed) (known : r.known.Keyed) (queue : Queue) :
    (r.rangeOf change queue).queue = queue := by
  rw [← lastRange_move r change ∅]
  exact Move.queue_lastRange latest decreased known queue

theorem get?_eq_rangeOf {r next : Reconciler} {change : SplitChange} {target : Assignment}
    {delta : Delta} (orderly : r.Orderly) (suits : change.Suits target)
    (applied : r.apply change target = .ok (next, delta)) {worker : Worker} {queue : Queue}
    {split : Split} (told : delta.get? worker queue = some split) :
    split = if queue ∈ r.current.queuesOf worker then (r.rangeOf change queue).toRevoke
      else (r.rangeOf change queue).toAssign := by
  obtain ⟨owners, accepted, rfl, _⟩ := apply_ok applied
  obtain ⟨lookup, covered⟩ := Assignment.targetOwners_ok accepted
  have spared : ∀ queue ∈ change.decreased, queue ∉ owners := by
    intro queue gone listed
    have has := (lookup queue _).mp (ExtTreeMap.getElem?_eq_some_getElem listed)
    exact suits.spared queue gone _ has
  rw [Delta.get?, Move.getElem?_delta] at told
  have range := Move.split?_eq_lastRange spared covered told
  simp only [lastRange_move] at range
  simp only [← Assignment.owners_eq_some_iff orderly.exclusive]
  exact range

theorem Merges.not_adopted {r next : Reconciler} {change : SplitChange} {delta : Delta}
    (merges : r.Merges change next delta) (orderly : r.Orderly) {worker : Worker} {queue : Queue}
    (had : queue ∈ r.current.queuesOf worker) : queue ∉ delta.adopted := fun adopted =>
  orderly.free had (merges.adopted.mp (ExtTreeMap.getElem?_eq_some_getElem adopted)).2

theorem Merges.exists_told_iff {r next : Reconciler} {change : SplitChange} {delta : Delta}
    (merges : r.Merges change next delta) (orderly : r.Orderly) (worker : Worker) (queue : Queue) :
    (∃ split, delta.get? worker queue = some split) ↔
      ¬ (queue ∈ r.current.queuesOf worker ↔ queue ∈ next.current.queuesOf worker) ∧
        queue ∉ delta.adopted := by
  rw [← Option.isSome_iff_exists, ← Option.isSome_map (f := Split.tag), Delta.get?, merges.tags]
  by_cases had : queue ∈ r.current.queuesOf worker
  · by_cases gets : queue ∈ next.current.queuesOf worker
    · simp [had, gets]
    · simp [had, gets, merges.not_adopted orderly had]
  · by_cases gets : queue ∈ next.current.queuesOf worker
    · by_cases held : queue ∈ r.held
      · have found := merges.adopted.mpr ⟨gets, held⟩
        have listed : queue ∈ delta.adopted :=
          ExtTreeMap.mem_iff_isSome_getElem?.mpr (by simp [found])
        simp [had, gets, held, listed]
      · have silent : queue ∉ delta.adopted := fun listed =>
          held (merges.adopted.mp (ExtTreeMap.getElem?_eq_some_getElem listed)).2
        simp [had, gets, held, silent]
    · simp [had, gets]

section Applied

variable {r next : Reconciler} {change : SplitChange} {target : Assignment} {delta : Delta}
  {queue : Queue} {worker : Worker} {split : Split}

theorem exists_told_iff (orderly : r.Orderly) (suits : change.Suits target)
    (applied : r.apply change target = .ok (next, delta)) (worker : Worker) (queue : Queue) :
    (∃ split, delta.get? worker queue = some split) ↔
      ¬ (queue ∈ r.current.queuesOf worker ↔ queue ∈ target.queuesOf worker) ∧
        queue ∉ delta.adopted := by
  rw [← mem_queuesOf_of_apply applied]
  exact (merges_of_suits orderly suits applied).exists_told_iff orderly worker queue

theorem eq_toRevoke_of_told (orderly : r.Orderly) (suits : change.Suits target)
    (applied : r.apply change target = .ok (next, delta))
    (told : delta.get? worker queue = some split) (had : queue ∈ r.current.queuesOf worker) :
    split = (r.rangeOf change queue).toRevoke :=
  (get?_eq_rangeOf orderly suits applied told).trans (if_pos had)

theorem eq_toAssign_of_told (orderly : r.Orderly) (suits : change.Suits target)
    (applied : r.apply change target = .ok (next, delta))
    (told : delta.get? worker queue = some split) (gets : queue ∈ target.queuesOf worker) :
    split = (r.rangeOf change queue).toAssign := by
  refine (get?_eq_rangeOf orderly suits applied told).trans (if_neg fun had => ?_)
  have differs := ((exists_told_iff orderly suits applied worker queue).mp ⟨split, told⟩).1
  exact differs (iff_of_true had gets)

theorem get?_of_moved (orderly : r.Orderly) (suits : change.Suits target)
    (applied : r.apply change target = .ok (next, delta)) {owner : Worker}
    (had : queue ∈ r.current.queuesOf owner) (gets : queue ∈ target.queuesOf worker)
    (apart : owner ≠ worker) (other : Worker) :
    delta.get? other queue =
      if other = owner then some (r.rangeOf change queue).toRevoke
      else if other = worker then some (r.rangeOf change queue).toAssign else none := by
  have merges := merges_of_suits orderly suits applied
  have told := exists_told_iff orderly suits applied
  have only : ∀ {v}, queue ∈ target.queuesOf v → v = worker := fun placed =>
    merges.exclusive ((mem_queuesOf_of_apply applied).mpr placed)
      ((mem_queuesOf_of_apply applied).mpr gets)
  have silent := merges.not_adopted orderly had
  by_cases first : other = owner
  · subst first
    have lost : queue ∉ target.queuesOf other := fun stays => apart (only stays)
    obtain ⟨split, found⟩ := (told other queue).mpr ⟨by simp [had, lost], silent⟩
    rw [if_pos rfl, found, eq_toRevoke_of_told orderly suits applied found had]
  · have new : queue ∉ r.current.queuesOf other := fun has => first (orderly.exclusive has had)
    by_cases second : other = worker
    · subst second
      obtain ⟨split, found⟩ := (told other queue).mpr ⟨by simp [gets, new], silent⟩
      rw [if_neg first, if_pos rfl, found, eq_toAssign_of_told orderly suits applied found gets]
    · rw [if_neg first, if_neg second, Option.eq_none_iff_forall_ne_some]
      intro split found
      have differs := ((told other queue).mp ⟨split, found⟩).1
      exact differs (iff_of_false new fun placed => second (only placed))

theorem delta_is_difference {r next : Reconciler} {change : SplitChange} {target : Assignment}
    {delta : Delta} (orderly : r.Orderly) (suits : change.Suits target)
    (applied : r.apply change target = .ok (next, delta)) :
    r.Difference change target next delta := by
  have merges := merges_of_suits orderly suits applied
  obtain ⟨owners, accepted, computed, merged⟩ := apply_ok applied
  obtain ⟨_, covered⟩ := Assignment.targetOwners_ok accepted
  refine
    { told := exists_told_iff orderly suits applied
      revokes := eq_toRevoke_of_told orderly suits applied
      own := queue_rangeOf suits.latest suits.decreased orderly.known
      assigns := eq_toAssign_of_told orderly suits applied
      moved := get?_of_moved orderly suits applied
      passes := ⟨owners, accepted, ?passes⟩
      adopted := ?adopted
      forgotten := fun queue => by rw [mem_forgotten orderly applied, and_comm]
      current := ?current
      known := merges.known
      held := fun queue => merges.held }
  case passes =>
    rw [computed]
    exact Move.splits_delta_eq_passes suits.latest suits.decreased orderly.known covered
  case adopted =>
    intro queue worker
    rw [merges.adopted, mem_queuesOf_of_apply applied, and_comm]
  case current =>
    intro worker queues
    simp only [merged, Reconciler.merged, Assignment.withoutIdle, ExtTreeMap.getElem?_filter',
      Option.filter_eq_some_iff]
    simp

end Applied

end Reconciler

namespace Sample

def shared : Reconciler where
  current := OwnerMap.byWorker (Table.ofEntries [(queue 0, 0), (queue 1, 0), (queue 2, 1),
    (queue 3, 1)])
  known := SplitMap.ofSplits ([0, 1, 2, 3, 4, 5].map fun index => .assign (queue index) 0 none)
  held := ExtTreeSet.ofList [queue 4, queue 5]

/-- One queue is new, one of each kind is gone, and one is neither gone nor there. -/
def reshuffle : SplitChange where
  latest := SplitMap.ofSplits [.assign (queue 0) 3 none, .assign (queue 3) 0 none,
    .assign (queue 4) 0 none, .assign (queue 6) 8 (some 9)]
  decreased := SplitMap.ofSplits [.revoke (queue 1) 7 none, .revoke (queue 5) 0 none]

def reshuffled : Assignment :=
  Table.ofEntries [(0, ExtTreeSet.ofList [queue 4, queue 6]),
    (1, ExtTreeSet.ofList [queue 0, queue 3]), (2, ∅)]

theorem orderly_shared : shared.Orderly where
  exclusive := OwnerMap.exclusive_byWorker _
  free := by
    intro worker queue has held
    have owned := Table.mem_of_getElem?_ofEntries (OwnerMap.mem_queuesOf_byWorker.mp has)
    have unknown := Table.mem_ofList.mp held
    simp only [List.mem_cons, Prod.mk.injEq, List.not_mem_nil, or_false] at owned unknown
    rcases unknown with rfl | rfl <;> simp [Sample.queue] at owned
  known := SplitMap.keyed_ofSplits _

theorem suits_reshuffled : reshuffle.Suits reshuffled where
  latest := SplitMap.keyed_ofSplits _
  decreased := SplitMap.keyed_ofSplits _
  spared := by
    intro queue gone worker placed
    have lost := Table.mem_of_getElem?_ofEntries (ExtTreeMap.getElem?_eq_some_getElem gone)
    obtain ⟨queues, found, inside⟩ := Assignment.mem_queuesOf.mp placed
    have part := Table.mem_of_getElem?_ofEntries found
    simp only [List.map_cons, List.map_nil, List.mem_cons, Prod.mk.injEq, List.not_mem_nil,
      or_false] at lost part
    rcases lost with ⟨rfl, _⟩ | ⟨rfl, _⟩ <;>
      rcases part with ⟨_, rfl⟩ | ⟨_, rfl⟩ | ⟨_, rfl⟩ <;>
      simp [Split.revoke, Sample.queue] at inside

end Sample

theorem each_queue_has_its_difference :
    ∃ next delta, Sample.shared.apply Sample.reshuffle Sample.reshuffled = .ok (next, delta) ∧
      delta.get? 0 (Sample.queue 0) = some (.revoke (Sample.queue 0) 3 none) ∧
      delta.get? 1 (Sample.queue 0) = some (.assign (Sample.queue 0) 3 none) ∧
      (∃ split, delta.get? 0 (Sample.queue 1) = some split ∧ split.start = 7) ∧
      (∃ split, delta.get? 1 (Sample.queue 2) = some split) ∧
      delta.adopted[Sample.queue 4]? = some 0 ∧ Sample.queue 5 ∈ delta.forgotten := by
  obtain ⟨next, delta, applied⟩ : ∃ next delta,
      Sample.shared.apply Sample.reshuffle Sample.reshuffled = .ok (next, delta) := ⟨_, _, rfl⟩
  have difference :=
    Reconciler.delta_is_difference Sample.orderly_shared Sample.suits_reshuffled applied
  have had : Sample.queue 0 ∈ Sample.shared.current.queuesOf 0 := by decide +kernel
  have gets : Sample.queue 0 ∈ Sample.reshuffled.queuesOf 1 := by decide +kernel
  have moved := difference.moved had gets (by decide)
  have silent : ∀ queue, queue ∉ Sample.shared.held → queue ∉ delta.adopted := by
    intro queue known listed
    have found := ExtTreeMap.getElem?_eq_some_getElem listed
    exact known ((difference.adopted _ _).mp found).1
  refine ⟨next, delta, applied, moved 0, moved 1, ?gone, ?unplaced, ?adopted, ?forgotten⟩
  case gone =>
    obtain ⟨split, found⟩ := (difference.told 0 (Sample.queue 1)).mpr
      ⟨by decide +kernel, silent _ (by decide +kernel)⟩
    have range := difference.revokes found (by decide +kernel)
    exact ⟨split, found, by rw [range]; decide +kernel⟩
  case unplaced =>
    exact (difference.told 1 (Sample.queue 2)).mpr
      ⟨by decide +kernel, silent _ (by decide +kernel)⟩
  case adopted => exact (difference.adopted _ _).mpr ⟨by decide +kernel, by decide +kernel⟩
  case forgotten => exact (difference.forgotten _).mpr ⟨by decide +kernel, by decide +kernel⟩

end QueueAssignment
