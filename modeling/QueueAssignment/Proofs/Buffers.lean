import QueueAssignment.Proofs.Balance

/-!
What waits, kept buffer by buffer: each worker that something waits for has a table of its own. A
delta is folded in split by split, and a worker whose buffer ran empty loses it. These are the
same entries as those of the one table of placements, and nobody has an empty buffer.
-/
namespace QueueAssignment
open Std

abbrev Buffers := ExtTreeMap Worker SplitMap

namespace Buffers

def entry (buffers : Buffers) (worker : Worker) (queue : Queue) : Option Split :=
  (buffers[worker]?.getD ∅)[queue]?

def withoutEmpty (buffers : Buffers) : Buffers := buffers.filter fun _ buffer => !buffer.isEmpty

def push (buffers : Buffers) (worker : Worker) (split : Split) : Buffers :=
  let buffer := buffers[worker]?.getD ∅
  buffers.insert worker
    (match PlacedSplits.fold buffer[split.queue]? split with
    | some left => buffer.insert split.queue left
    | none => buffer.erase split.queue)

def absorb (buffers : Buffers) (splits : List (Worker × Split)) : Buffers :=
  (splits.foldl (fun buffers told => buffers.push told.1 told.2) buffers).withoutEmpty

def discard (buffers : Buffers) (worker : Worker) (splits : List Split) : Buffers :=
  withoutEmpty (buffers.map fun owner buffer =>
    if owner = worker then splits.foldl (fun buffer split => buffer.erase split.queue) buffer
    else buffer)

def take (buffers : Buffers) (workers : WorkerSet) : Buffers :=
  workers.toList.foldl (fun buffers worker => buffers.erase worker) buffers

/-- Nobody has an empty buffer. -/
def Tight (buffers : Buffers) : Prop :=
  ∀ (worker : Worker) (buffer : SplitMap), buffers[worker]? = some buffer → buffer ≠ ∅

variable {buffers first second : Buffers} {worker other : Worker} {queue : Queue}

theorem tight_withoutEmpty (buffers : Buffers) : buffers.withoutEmpty.Tight := by
  intro worker buffer found
  rw [withoutEmpty, ExtTreeMap.getElem?_filter', Option.filter_eq_some_iff] at found
  simpa using found.2

theorem entry_withoutEmpty :
    buffers.withoutEmpty.entry worker queue = buffers.entry worker queue := by
  simp only [entry, withoutEmpty, ExtTreeMap.getElem?_filter']
  cases buffers[worker]? with
  | none => rfl
  | some buffer =>
    by_cases empty : buffer = ∅
    · simp [Option.filter_some, empty]
    · simp [Option.filter_some, empty]

theorem Tight.ext (left : first.Tight) (right : second.Tight)
    (same : ∀ worker queue, first.entry worker queue = second.entry worker queue) :
    first = second := by
  apply ExtTreeMap.ext_getElem?
  intro worker
  have alike : first[worker]?.getD ∅ = second[worker]?.getD ∅ :=
    ExtTreeMap.ext_getElem? fun {queue} => same worker queue
  cases one : first[worker]? with
  | none =>
    cases two : second[worker]? with
    | none => rfl
    | some buffer =>
      rw [one, two] at alike
      exact absurd alike.symm (right worker buffer two)
  | some buffer =>
    cases two : second[worker]? with
    | none =>
      rw [one, two] at alike
      exact absurd alike (left worker buffer one)
    | some copy =>
      rw [one, two] at alike
      exact congrArg some alike

theorem entry_push (split : Split) :
    (buffers.push worker split).entry other queue =
      if worker = other ∧ split.queue = queue then
        PlacedSplits.fold (buffers.entry worker queue) split
      else buffers.entry other queue := by
  simp only [entry, push, ExtTreeMap.getElem?_insert, Std.compare_eq_iff_eq]
  by_cases here : worker = other
  · subst here
    generalize buffers[worker]?.getD ∅ = buffer
    simp only [if_true, Option.getD_some, true_and]
    by_cases same : split.queue = queue
    · subst same
      cases PlacedSplits.fold buffer[split.queue]? split with
      | none => simp
      | some left => simp
    · cases PlacedSplits.fold buffer[split.queue]? split with
      | none => simp [ExtTreeMap.getElem?_erase, same]
      | some left => simp [ExtTreeMap.getElem?_insert, same]
  · simp [here]

theorem entry_foldl_push (splits : List (Worker × Split))
    (apart : splits.Pairwise fun one two => one.1 = two.1 → one.2.queue ≠ two.2.queue) :
    (splits.foldl (fun buffers told => buffers.push told.1 told.2) buffers).entry worker queue =
      match splits.find? fun told => told.1 = worker ∧ told.2.queue = queue with
      | some told => PlacedSplits.fold (buffers.entry worker queue) told.2
      | none => buffers.entry worker queue := by
  induction splits generalizing buffers with
  | nil => rfl
  | cons told rest ih =>
    obtain ⟨different, later⟩ := List.pairwise_cons.mp apart
    rw [List.foldl_cons, ih later, entry_push]
    by_cases here : told.1 = worker ∧ told.2.queue = queue
    · have none : (rest.find? fun next => next.1 = worker ∧ next.2.queue = queue) = none := by
        rw [List.find?_eq_none]
        intro next member
        have fresh := different next member
        simp only [decide_eq_true_eq, not_and]
        intro same
        rw [here.1, here.2] at fresh
        exact fun again => fresh same.symm again.symm
      rw [none, List.find?_cons_of_pos (by simpa using here), if_pos here, here.1]
    · rw [List.find?_cons_of_neg (by simpa using here), if_neg here]

theorem getElem?_foldl_erase (splits : List Split) (buffer : SplitMap) :
    (splits.foldl (fun buffer split => buffer.erase split.queue) buffer)[queue]? =
      if queue ∈ Reconciler.queuesOf splits then none else buffer[queue]? := by
  simp only [Reconciler.queuesOf, Table.mem_ofList]
  induction splits generalizing buffer with
  | nil => simp
  | cons split rest ih =>
    simp only [List.foldl_cons, ih, ExtTreeMap.getElem?_erase, Std.compare_eq_iff_eq,
      List.map_cons, List.mem_cons]
    by_cases same : split.queue = queue
    · simp [same]
    · simp [same, Ne.symm same]

theorem entry_discard (splits : List Split) :
    (buffers.discard worker splits).entry other queue =
      if other = worker ∧ queue ∈ Reconciler.queuesOf splits then none
      else buffers.entry other queue := by
  rw [discard, entry_withoutEmpty]
  simp only [entry, ExtTreeMap.getElem?_map]
  cases buffers[other]? with
  | none => simp
  | some buffer =>
    by_cases here : other = worker
    · simp [here, getElem?_foldl_erase]
    · simp [here]

theorem getElem?_take (workers : WorkerSet) :
    (buffers.take workers)[worker]? = if worker ∈ workers then none else buffers[worker]? := by
  simp only [take, ← ExtTreeSet.mem_toList (t := workers)]
  induction workers.toList generalizing buffers with
  | nil => simp
  | cons served rest ih =>
    simp only [List.foldl_cons, ih, ExtTreeMap.getElem?_erase, Std.compare_eq_iff_eq,
      List.mem_cons]
    by_cases same : served = worker
    · simp [same]
    · simp [same, Ne.symm same]

theorem Tight.take (tight : buffers.Tight) (workers : WorkerSet) :
    (buffers.take workers).Tight := by
  intro worker buffer found
  rw [getElem?_take] at found
  split at found
  · cases found
  · exact tight worker buffer found

end Buffers

namespace PlacedSplits

def buffers (splits : PlacedSplits) : Buffers :=
  Table.tabulate splits.workers fun worker =>
    some (Table.tabulate (ExtTreeSet.ofList (splits.keys.map Placement.queue)) fun queue =>
      splits[(⟨worker, queue⟩ : Placement)]?)

variable {splits : PlacedSplits} {worker : Worker} {queue : Queue}

theorem mem_workers :
    worker ∈ splits.workers ↔ ∃ queue, splits[(⟨worker, queue⟩ : Placement)]? ≠ none := by
  simp only [workers, Table.mem_ofList, List.mem_map, ExtTreeMap.mem_keys,
    ExtTreeMap.mem_iff_isSome_getElem?, Option.isSome_iff_ne_none]
  constructor
  · rintro ⟨placement, found, rfl⟩
    exact ⟨placement.queue, found⟩
  · intro found
    obtain ⟨queue, found⟩ := found
    exact ⟨_, found, rfl⟩

theorem getElem?_buffer :
    (Table.tabulate (ExtTreeSet.ofList (splits.keys.map Placement.queue)) fun queue =>
      splits[(⟨worker, queue⟩ : Placement)]?)[queue]? = splits[(⟨worker, queue⟩ : Placement)]? := by
  rw [Table.getElem?_tabulate]
  split
  · rfl
  · rename_i unlisted
    symm
    apply ExtTreeMap.getElem?_eq_none
    intro member
    apply unlisted
    exact Table.mem_ofList.mpr (List.mem_map.mpr ⟨_, ExtTreeMap.mem_keys.mpr member, rfl⟩)

theorem entry_buffers :
    splits.buffers.entry worker queue = splits[(⟨worker, queue⟩ : Placement)]? := by
  rw [Buffers.entry, buffers, Table.getElem?_tabulate]
  split
  · exact getElem?_buffer
  · rename_i idle
    rw [Option.getD_none, ExtTreeMap.getElem?_empty, eq_comm]
    exact Classical.byContradiction fun waits => idle (mem_workers.mpr ⟨queue, waits⟩)

theorem tight_buffers (splits : PlacedSplits) : splits.buffers.Tight := by
  intro worker buffer found
  rw [buffers, Table.getElem?_tabulate] at found
  split at found
  · rename_i busy
    obtain ⟨queue, waits⟩ := mem_workers.mp busy
    cases found
    intro empty
    rw [← getElem?_buffer, empty] at waits
    simp at waits
  · cases found

theorem contains_buffers :
    splits.buffers.contains worker = true ↔
      ∃ queue, splits[(⟨worker, queue⟩ : Placement)]? ≠ none := by
  rw [ExtTreeMap.contains_iff_mem, ExtTreeMap.mem_iff_isSome_getElem?, buffers,
    Table.getElem?_tabulate, ← mem_workers]
  split
  · simp [*]
  · simp [*]

end PlacedSplits

namespace Delta

variable {delta : Delta} {worker : Worker} {queue : Queue}

theorem apart_toList (keyed : delta.splits.Keyed) :
    delta.toList.Pairwise fun one two => one.1 = two.1 → one.2.queue ≠ two.2.queue := by
  rw [toList, List.pairwise_map]
  refine (ExtTreeMap.distinct_keys_toList (t := delta.splits)).imp_of_mem ?_
  rintro ⟨⟨v, p⟩, one⟩ ⟨⟨w, q⟩, two⟩ first second different worker queue
  rw [ExtTreeMap.mem_toList_iff_getElem?_eq_some] at first second
  have left : one.queue = p := keyed first
  have right : two.queue = q := keyed second
  have worker : v = w := worker
  rw [left, right] at queue
  exact different (Std.compare_eq_iff_eq.mpr (by rw [worker, queue]))

theorem find?_toList (keyed : delta.splits.Keyed) :
    (delta.toList.find? fun told => told.1 = worker ∧ told.2.queue = queue).map Prod.snd =
      delta.splits[(⟨worker, queue⟩ : Placement)]? := by
  have listed : ∀ split, (worker, split) ∈ delta.toList ∧ split.queue = queue ↔
      delta.splits[(⟨worker, queue⟩ : Placement)]? = some split := by
    intro split
    rw [toList, List.mem_map]
    constructor
    · rintro ⟨⟨⟨⟨v, q⟩, other⟩, member, eq⟩, rfl⟩
      cases eq
      have told := ExtTreeMap.mem_toList_iff_getElem?_eq_some.mp member
      have own : other.queue = q := keyed told
      exact own ▸ told
    · intro told
      exact ⟨⟨_, ExtTreeMap.mem_toList_iff_getElem?_eq_some.mpr told, rfl⟩, keyed told⟩
  cases first : delta.toList.find? fun told => told.1 = worker ∧ told.2.queue = queue with
  | none =>
    rw [Option.map_none, eq_comm, Option.eq_none_iff_forall_ne_some]
    intro split told
    obtain ⟨member, own⟩ := (listed split).mpr told
    have passed := List.find?_eq_none.mp first _ member
    simp [own] at passed
  | some told =>
    obtain ⟨target, split⟩ := told
    have matched := List.find?_some first
    simp only [decide_eq_true_eq] at matched
    obtain ⟨rfl, own⟩ := matched
    exact ((listed split).mp ⟨List.mem_of_find?_eq_some first, own⟩).symm

end Delta

namespace Reconciler

def buffers (r : Reconciler) : Buffers := r.pending.buffers

def hasPending (r : Reconciler) (worker : Worker) : Bool := r.buffers.contains worker

theorem entry_buffers {r : Reconciler} {worker : Worker} {queue : Queue} :
    r.buffers.entry worker queue = r.pending[(⟨worker, queue⟩ : Placement)]? :=
  PlacedSplits.entry_buffers

theorem tight_buffers (r : Reconciler) : r.buffers.Tight := PlacedSplits.tight_buffers r.pending

theorem buffers_merge {r next : Reconciler} {delta : Delta} (keyed : delta.splits.Keyed)
    (merged : next.pending = r.pending.merge delta.splits) :
    next.buffers = r.buffers.absorb delta.toList := by
  apply next.tight_buffers.ext (Buffers.tight_withoutEmpty _)
  intro worker queue
  rw [Buffers.entry_withoutEmpty, Buffers.entry_foldl_push _ (Delta.apart_toList keyed),
    entry_buffers, entry_buffers, merged, PlacedSplits.getElem?_merge, ← Delta.find?_toList keyed]
  cases List.find? _ delta.toList with
  | none => rfl
  | some told => rfl

theorem buffers_release (r : Reconciler) (worker : Worker) (splits : List Split) :
    (r.release worker splits).buffers = r.buffers.discard worker splits := by
  apply (r.release worker splits).tight_buffers.ext (Buffers.tight_withoutEmpty _)
  intro other queue
  exact entry_buffers.trans (getElem?_pending_release.trans
    (entry_buffers (r := r) ▸ (Buffers.entry_discard splits).symm))

theorem buffers_drain (r : Reconciler) (workers : WorkerSet) :
    (r.drain workers).buffers = r.buffers.take workers := by
  apply (r.drain workers).tight_buffers.ext (r.tight_buffers.take workers)
  intro worker queue
  rw [entry_buffers, getElem?_pending_drain, Buffers.entry, Buffers.getElem?_take]
  split
  · simp
  · exact entry_buffers.symm

end Reconciler

end QueueAssignment
