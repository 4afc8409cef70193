import QueueAssignment.Proofs.Difference
import QueueAssignment.Proofs.Formed

/-!
Where a returned queue goes. The last split of a queue in a returned list says how far the worker
came. That range enters the known topology, and the worker that gets the queue is told it, unless it
has the queue still and was only about to lose it.
-/
namespace QueueAssignment
open Std

theorem Table.getElem?_ofEntries_append {κ ν : Type} [Ord κ] [TransOrd κ] [LawfulEqOrd κ]
    {before after : List (κ × ν)} {k : κ} {v : ν} (last : ∀ w, (k, w) ∉ after) :
    (ofEntries (before ++ (k, v) :: after))[k]? = some v := by
  rw [ofEntries, ExtTreeMap.ofList_eq_foldl, List.foldl_append, List.foldl_cons]
  rcases foldl_insert_cases after _ k with ⟨w, member, _⟩ | ⟨_, same⟩
  · exact absurd member (last w)
  · rw [same, ExtTreeMap.getElem?_insert_self]

namespace Split

def LastOf (split : Split) (splits : List Split) : Prop :=
  ∃ before after, splits = before ++ split :: after ∧
    ∀ later ∈ after, later.queue ≠ split.queue

theorem exists_lastOf {splits : List Split} {queue : Queue}
    (member : queue ∈ Reconciler.queuesOf splits) :
    ∃ split : Split, split.queue = queue ∧ split.LastOf splits := by
  have listed := List.mem_map.mp (Table.mem_ofList.mp member)
  clear member
  induction splits with
  | nil => simp at listed
  | cons first rest ih =>
    by_cases again : ∃ split ∈ rest, split.queue = queue
    · obtain ⟨split, same, before, after, cut, last⟩ := ih again
      exact ⟨split, same, first :: before, after, by rw [cut, List.cons_append], last⟩
    · obtain ⟨split, inside, same⟩ := listed
      rcases List.mem_cons.mp inside with rfl | later
      · refine ⟨split, same, [], rest, rfl, fun other member repeats => ?_⟩
        exact again ⟨other, member, repeats.trans same⟩
      · exact absurd ⟨split, later, same⟩ again

theorem LastOf.mem_queuesOf {split : Split} {splits : List Split} (last : split.LastOf splits) :
    split.queue ∈ Reconciler.queuesOf splits := by
  obtain ⟨before, after, rfl, _⟩ := last
  exact Table.mem_ofList.mpr (List.mem_map.mpr ⟨split, by simp, rfl⟩)

theorem LastOf.getElem?_ofSplits {split : Split} {splits : List Split}
    (last : split.LastOf splits) :
    (SplitMap.ofSplits (splits.map toAssign))[split.queue]? = some split.toAssign := by
  obtain ⟨before, after, rfl, only⟩ := last
  rw [SplitMap.ofSplits, List.map_append, List.map_append, List.map_cons, List.map_cons]
  apply Table.getElem?_ofEntries_append
  intro other member
  obtain ⟨_, listed, same⟩ := List.mem_map.mp member
  obtain ⟨later, inside, rfl⟩ := List.mem_map.mp listed
  exact only later inside (congrArg Prod.fst same)

end Split

namespace Reconciler

variable {r next : Reconciler} {change : SplitChange} {target : Assignment} {delta : Delta}
  {queue : Queue} {worker : Worker}

theorem get?_of_unowned (orderly : r.Orderly) (suits : change.Suits target)
    (applied : r.apply change target = .ok (next, delta))
    (unowned : ∀ v, queue ∉ r.current.queuesOf v) (unheld : queue ∉ r.held) (v : Worker) :
    delta.get? v queue =
      if queue ∈ target.queuesOf v then some (r.rangeOf change queue).toAssign else none := by
  have merges := merges_of_suits orderly suits applied
  have told := exists_told_iff orderly suits applied v queue
  have silent : queue ∉ delta.adopted := fun adopted =>
    unheld (merges.adopted.mp (ExtTreeMap.getElem?_eq_some_getElem adopted)).2
  cases found : delta.get? v queue with
  | none =>
    rw [if_neg]
    intro gets
    obtain ⟨split, some_split⟩ := told.mpr ⟨by simp [unowned v, gets], silent⟩
    exact absurd (found.symm.trans some_split) nofun
  | some split =>
    have differs := (told.mp ⟨split, found⟩).1
    have range := get?_eq_rangeOf orderly suits applied found
    rw [if_neg (unowned v)] at range
    rw [if_pos (by simpa [unowned v] using differs), range]

theorem tag_of_unowned {holdings : Worker → QueueSet} (balanced : r.Balanced holdings) {v : Worker}
    (unowned : queue ∉ r.current.queuesOf v) {earlier : Split}
    (waiting : r.pending[(⟨v, queue⟩ : Placement)]? = some earlier) : earlier.tag = .revoke := by
  have net := balanced.net ⟨v, queue⟩
  rw [waiting, due, if_neg unowned, Option.map_some] at net
  split at net
  · exact Option.some.inj net
  · cases net

/-- A queue that nobody has goes to the worker of the target, unless that one still holds it: then a
    revoke was waiting and is cancelled. -/
theorem pending_of_unowned {holdings : Worker → QueueSet} (balanced : r.Balanced holdings)
    (fits : change.Fits) (applied : r.apply change target = .ok (next, delta))
    (unowned : ∀ v, queue ∉ r.current.queuesOf v) (unheld : queue ∉ r.held) (v : Worker) :
    next.pending[(⟨v, queue⟩ : Placement)]? =
      if queue ∈ target.queuesOf v then
        if r.pending[(⟨v, queue⟩ : Placement)]?.map Split.tag = some .revoke then none
        else some (r.rangeOf change queue).toAssign
      else r.pending[(⟨v, queue⟩ : Placement)]? := by
  have suits := suits_of_apply fits applied
  have merges := merges_of_suits balanced.orderly suits applied
  have told : delta.splits[(⟨v, queue⟩ : Placement)]? = _ :=
    get?_of_unowned balanced.orderly suits applied unowned unheld v
  rw [merges.pending, PlacedSplits.getElem?_merge, told]
  by_cases gets : queue ∈ target.queuesOf v
  · simp only [gets, if_true]
    cases waiting : r.pending[(⟨v, queue⟩ : Placement)]? with
    | none => rfl
    | some earlier => simp [PlacedSplits.fold, tag_of_unowned balanced (unowned v) waiting]
  · simp [gets]

theorem getElem?_returnedChange {splits : List Split} {split : Split} (last : split.LastOf splits) :
    (r.returnedChange splits).latest[split.queue]? = some split.toAssign := by
  rw [returnedChange, ExtTreeMap.getElem?_union, last.getElem?_ofSplits, Option.some_or]

theorem rangeOf_returnedChange {splits : List Split} {split : Split} (last : split.LastOf splits) :
    (r.release worker splits).rangeOf (r.returnedChange splits) split.queue = split.toAssign := by
  rw [rangeOf, getElem?_returnedChange last]
  rfl

end Reconciler

namespace Coordinator

variable {c placed next : Coordinator} {journal : Journal} {worker : Worker} {splits : List Split}
  {target : Assignment} {delta : Delta} {split : Split}

/-- Between `c` and `next` the worker is sent the split, or the split waits for it in `next`. -/
def Hears (c next : Coordinator) (worker : Worker) (split : Split) : Prop :=
  Event.told worker split ∈
      next.desk.dispatcher.registry.told.drop c.desk.dispatcher.registry.told.length ∨
    next.desk.reconciler.pending[(⟨worker, split.queue⟩ : Placement)]? = some split

instance (c next : Coordinator) (worker : Worker) (split : Split) :
    Decidable (c.Hears next worker split) :=
  inferInstanceAs (Decidable (_ ∨ _))

/-- A revoke of the queue waits for a worker other than the one that returns it. -/
def Recalls (c : Coordinator) (returning : Worker) (worker : Worker) (queue : Queue) : Prop :=
  worker ≠ returning ∧
    c.desk.reconciler.pending[(⟨worker, queue⟩ : Placement)]?.map Split.tag = some .revoke

theorem recalls_iff {queue : Queue} (returned : queue ∈ Reconciler.queuesOf splits) (v : Worker) :
    c.Recalls worker v queue ↔ (c.desk.reconciler.release worker splits).pending[
      (⟨v, queue⟩ : Placement)]?.map Split.tag = some .revoke := by
  rw [Reconciler.getElem?_pending_release, Recalls]
  by_cases same : v = worker
  · simp [same, returned]
  · simp [same]

theorem hears_iff {workers : WorkerSet} {batch : Batch}
    (told : placed.desk.dispatcher.registry.told = c.desk.dispatcher.registry.told)
    (keyed : placed.desk.reconciler.pending.Keyed)
    (flushes : placed.desk.Flushes workers next.desk batch) (v : Worker) :
    c.Hears next v split ↔
      placed.desk.reconciler.pending[(⟨v, split.queue⟩ : Placement)]? = some split := by
  rw [Hears, flushes.told, told, List.drop_left, flushes.drained, Desk.told_mem_batchFor keyed,
    flushes.reconciler, Reconciler.getElem?_pending_drain]
  by_cases served : v ∈ workers
  · simp [served]
  · simp [served]

structure Resettles (c after : Coordinator) (worker : Worker) (split : Split)
    (target : Assignment) : Prop where
  known : after.desk.reconciler.known[split.queue]? = some split.toAssign
  current : ∀ v, split.queue ∈ after.desk.reconciler.current.queuesOf v ↔
    split.queue ∈ target.queuesOf v
  assigns : ∀ v other, other.queue = split.queue → other.tag = .assign →
    (c.Hears after v other ↔ split.queue ∈ target.queuesOf v ∧
      ¬ c.Recalls worker v split.queue ∧ other = split.toAssign)
  recalled : ∀ v other, other.queue = split.queue → split.queue ∈ target.queuesOf v →
    c.Recalls worker v split.queue → ¬ c.Hears after v other

theorem Places.resettles (accounted : c.desk.Accounted journal)
    (places : (c.released worker splits).Places (c.desk.reconciler.returnedChange splits) target
      delta placed)
    {workers : WorkerSet} {batch : Batch} (flushes : placed.desk.Flushes workers next.desk batch)
    (last : split.LastOf splits)
    (unowned : ∀ v, split.queue ∈ c.desk.reconciler.current.queuesOf v → v = worker) :
    c.Resettles next worker split target := by
  let r := c.desk.reconciler.release worker splits
  have balanced : r.Balanced (journal ++ Journal.losses worker splits).heldBy :=
    (accounted.release worker splits).balanced
  have applied : r.apply (c.desk.reconciler.returnedChange splits) target =
      .ok (placed.desk.reconciler, delta) := places.applied
  have fits : (c.desk.reconciler.returnedChange splits).Fits :=
    Reconciler.fits_returnedChange accounted.balanced.known splits
  have merges := Reconciler.merges_of_apply balanced fits applied
  have nobody : ∀ v, split.queue ∉ r.current.queuesOf v := by
    intro v has
    obtain ⟨before, kept⟩ := Assignment.mem_queuesOf_release.mp has
    exact kept ⟨unowned v before, last.mem_queuesOf⟩
  have unheld : split.queue ∉ r.held := fun held =>
    (ExtTreeSet.mem_diff_iff.mp held).2 last.mem_queuesOf
  have waiting := Reconciler.pending_of_unowned balanced fits applied nobody unheld
  have told : placed.desk.dispatcher.registry.told = c.desk.dispatcher.registry.told :=
    congrArg Registry.told places.registry
  have keyed : placed.desk.reconciler.pending.Keyed :=
    merges.pending ▸ PlacedSplits.Keyed.merge balanced.pending merges.keyed
  have heard : ∀ v other, other.queue = split.queue → (c.Hears next v other ↔
      placed.desk.reconciler.pending[(⟨v, split.queue⟩ : Placement)]? = some other) := by
    intro v other same
    rw [hears_iff told keyed flushes, same]
  have recalls : ∀ v, c.Recalls worker v split.queue ↔
      r.pending[(⟨v, split.queue⟩ : Placement)]?.map Split.tag = some .revoke :=
    recalls_iff last.mem_queuesOf
  refine { known := ?known, current := ?current, assigns := ?assigns, recalled := ?recalled }
  case known =>
    rw [flushes.reconciler]
    exact merges.known ▸ Reconciler.getElem?_returnedChange last
  case current =>
    intro v
    rw [flushes.reconciler]
    exact Reconciler.mem_queuesOf_of_apply applied
  case assigns =>
    intro v other same tagged
    rw [heard v other same, waiting, recalls, Reconciler.rangeOf_returnedChange last]
    by_cases gets : split.queue ∈ target.queuesOf v
    · by_cases recalled : r.pending[(⟨v, split.queue⟩ : Placement)]?.map Split.tag = some .revoke
      · simp [gets, recalled]
      · have twice : split.toAssign.toAssign = split.toAssign := rfl
        simp [gets, recalled, twice, eq_comm]
    · have silent : r.pending[(⟨v, split.queue⟩ : Placement)]? ≠ some other := by
        intro found
        have revoked := Reconciler.tag_of_unowned balanced (nobody v) found
        exact absurd (tagged.symm.trans revoked) nofun
      simp [gets, silent]
  case recalled =>
    intro v other same gets recalled
    rw [heard v other same, waiting, if_pos gets, if_pos ((recalls v).mp recalled)]
    exact nofun

theorem resettles (accounted : c.desk.Accounted journal)
    (done : (c.returnSplits worker splits).result = .ok ()) (last : split.LastOf splits)
    (unowned : ∀ v, split.queue ∈ c.desk.reconciler.current.queuesOf v → v = worker) :
    ∃ target, c.job.strategy c.calls (c.desk.reconciler.returnedChange splits).queues
        c.job.settings.parallelism = .ok target ∧
      c.Resettles (c.returnSplits worker splits).coordinator worker split target := by
  cases c.returnSplits_returns worker splits with
  | nothing empty _ _ =>
    obtain ⟨before, after, cut, _⟩ := last
    simp [empty] at cut
  | failed _ _ outcome _ => simp [outcome] at done
  | placed places flushes _ _ _ =>
    exact ⟨_, places.answered, places.resettles accounted flushes last unowned⟩

/-- How far a worker came with a queue is known afterwards, and the one worker that has the queue
    next is told it. Only where that worker still holds the queue, since the revoke that took it
    away was never sent, the revoke is dropped and the worker goes on as it was. -/
theorem returned_progress_goes_on {site : Site} {journal : Journal} (reached : Reached site journal)
    {worker : Worker} {splits : List Split}
    (done : (site.coordinator.returnSplits worker splits).result = .ok ())
    (places : ∀ target, site.coordinator.job.strategy site.coordinator.calls
        (site.coordinator.desk.reconciler.returnedChange splits).queues
        site.coordinator.job.settings.parallelism = .ok target →
      ∀ queue ∈ (site.coordinator.desk.reconciler.returnedChange splits).queues,
        ∃ v, queue ∈ target.queuesOf v)
    {queue : Queue} (returned : queue ∈ Reconciler.queuesOf splits)
    (had : queue ∈ site.coordinator.desk.reconciler.current.queuesOf worker) :
    let c := site.coordinator
    let after := (c.returnSplits worker splits).coordinator
    ∃ (split : Split) (gets : Worker), split.queue = queue ∧ split.LastOf splits ∧
      after.desk.reconciler.known[queue]? = some split.toAssign ∧
      (∀ v, queue ∈ after.desk.reconciler.current.queuesOf v ↔ v = gets) ∧
      (¬ c.Recalls worker gets queue → c.Hears after gets split.toAssign) ∧
      (c.Recalls worker gets queue →
        queue ∈ (journal ++ c.returnSplitsEvents worker splits).heldBy gets ∧
          ∀ other, other.queue = queue → ¬ c.Hears after gets other) := by
  intro c after
  obtain ⟨split, rfl, last⟩ := Split.exists_lastOf returned
  have accounted := reached.sound.accounted
  have unowned : ∀ v, split.queue ∈ c.desk.reconciler.current.queuesOf v → v = worker :=
    fun v has => accounted.balanced.exclusive has had
  obtain ⟨target, answered, settles⟩ := resettles accounted done last unowned
  have listed : split.queue ∈ (c.desk.reconciler.returnedChange splits).queues := by
    rw [SplitChange.queues, Table.mem_keys, ExtTreeMap.mem_iff_isSome_getElem?,
      Reconciler.getElem?_returnedChange last]
    rfl
  obtain ⟨gets, placed⟩ := places target answered split.queue listed
  have sound := reached.sound.returnSplits worker splits
  have kept := (settles.current gets).mpr placed
  refine ⟨split, gets, rfl, last, settles.known, ?current, ?told, ?recalled⟩
  case current =>
    intro v
    constructor
    · exact fun has => sound.accounted.balanced.exclusive has kept
    · rintro rfl
      exact kept
  case told =>
    intro free
    exact (settles.assigns gets split.toAssign rfl rfl).mpr ⟨placed, free, rfl⟩
  case recalled =>
    intro recalls
    have silent : ∀ other, other.queue = split.queue → ¬ c.Hears after gets other :=
      fun other same => settles.recalled gets other same placed recalls
    have nothing : after.desk.reconciler.pending[(⟨gets, split.queue⟩ : Placement)]? = none := by
      rw [Option.eq_none_iff_forall_ne_some]
      intro other waits
      have same : other.queue = split.queue := sound.accounted.balanced.pending waits
      exact silent other same (Or.inr (same ▸ waits))
    have net := sound.accounted.balanced.net ⟨gets, split.queue⟩
    rw [nothing, Option.map_none, eq_comm, Reconciler.due_eq_none_iff] at net
    exact ⟨net.mp kept, silent⟩

end Coordinator

namespace Sample

theorem places_site (acts : List Act) (queues : QueueSet) {target : Assignment}
    (answered : (site acts).coordinator.job.strategy (site acts).coordinator.calls queues
      (site acts).coordinator.job.settings.parallelism = .ok target) :
    ∀ queue ∈ queues, ∃ v, queue ∈ target.queuesOf v := by
  intro queue member
  obtain ⟨covering, found, covers⟩ := Strategy.BuiltIn.average.covering
    (site acts).coordinator.calls queues (parallelism_site acts)
  rw [strategy_site, found] at answered
  cases answered
  exact (covers.placed queue).mp member

end Sample

/-- A worker that left hands its queue back twice; what it said last waits for its return. -/
theorem last_range_waits_for_return :
    let acts := [Act.join 0 true, .join 1 true, .cycle (Sample.broker [0, 1]), .leave 1]
    let c := (Sample.site acts).coordinator
    let lost := [Split.assign (Sample.queue 1) 5 none, .assign (Sample.queue 1) 42 none]
    ∃ split : Split, split.queue = Sample.queue 1 ∧ split.LastOf lost ∧
      c.Hears (c.returnSplits 1 lost).coordinator 1 split.toAssign := by
  intro acts c lost
  have done : (c.returnSplits 1 lost).result = .ok () := by decide +kernel
  have returned : Sample.queue 1 ∈ Reconciler.queuesOf lost := by decide +kernel
  have had : Sample.queue 1 ∈ c.desk.reconciler.current.queuesOf 1 := by decide +kernel
  obtain ⟨split, gets, same, last, _, current, told, _⟩ :=
    Coordinator.returned_progress_goes_on (Sample.reached acts) done
      (fun _ => Sample.places_site acts _) returned had
  have first : 1 = gets := (current 1).mp (by decide +kernel)
  subst first
  exact ⟨split, same, last, told fun recalls => recalls.1 rfl⟩

/-- The queue moved away from an absent worker, which was never told, and comes back to it: the
    other worker's progress is not told. -/
theorem cancelled_revoke_hides_progress :
    let acts := [Act.join 0 true, .join 1 true, .cycle (Sample.broker [0, 1]), .leave 1,
      .cycle (Sample.broker [1])]
    let c := (Sample.site acts).coordinator
    let lost := [Split.assign (Sample.queue 0) 7 none, .assign (Sample.queue 1) 42 none]
    let after := (c.returnSplits 0 lost).coordinator
    (c.returnSplits 0 lost).result = .ok () ∧
      (∀ target, c.job.strategy c.calls (c.desk.reconciler.returnedChange lost).queues
          c.job.settings.parallelism = .ok target →
        ∀ queue ∈ (c.desk.reconciler.returnedChange lost).queues,
          ∃ v, queue ∈ target.queuesOf v) ∧
      Sample.queue 1 ∈ c.desk.reconciler.current.queuesOf 0 ∧
      Sample.queue 1 ∈ after.desk.reconciler.current.queuesOf 1 ∧
      ¬ c.Hears after 1 (.assign (Sample.queue 1) 42 none) := by
  intro acts c lost after
  refine ⟨by decide +kernel, fun _ => Sample.places_site acts _, ?_, ?_, ?_⟩
  · decide +kernel
  · decide +kernel
  · decide +kernel

namespace Coordinator

theorem returnSplits_map_toAssign (c : Coordinator) (worker : Worker) (splits : List Split) :
    c.returnSplits worker (splits.map Split.toAssign) = c.returnSplits worker splits := by
  have queues : Reconciler.queuesOf (splits.map Split.toAssign) = Reconciler.queuesOf splits := by
    rw [Reconciler.queuesOf, List.map_map]
    rfl
  have released : c.desk.release worker (splits.map Split.toAssign) =
      c.desk.release worker splits := by
    simp only [Desk.release, Reconciler.release]
    rw [queues]
  have ranges : ∀ r : Reconciler,
      r.returnedChange (splits.map Split.toAssign) = r.returnedChange splits := by
    intro r
    simp only [Reconciler.returnedChange, List.map_map]
    rfl
  simp only [returnSplits, released, ranges, List.isEmpty_map]

/-- A returned queue that is not known becomes known with the range it came back with, be it a range
    or the end of one, and goes where the strategy puts it. -/
theorem unknown_returned_queue_becomes_range {site : Site} {journal : Journal}
    (reached : Reached site journal) {worker : Worker} {splits : List Split}
    (done : (site.coordinator.returnSplits worker splits).result = .ok ()) {split : Split}
    (last : split.LastOf splits)
    (unknown : split.queue ∉ site.coordinator.desk.reconciler.known) :
    let c := site.coordinator
    let after := (c.returnSplits worker splits).coordinator
    c.returnSplits worker (splits.map Split.toAssign) = c.returnSplits worker splits ∧
      after.desk.reconciler.known[split.queue]? = some split.toAssign ∧
      ∃ target, c.job.strategy c.calls (c.desk.reconciler.returnedChange splits).queues
          c.job.settings.parallelism = .ok target ∧
        (∀ v, split.queue ∈ after.desk.reconciler.current.queuesOf v ↔
          split.queue ∈ target.queuesOf v) ∧
        ∀ v other, other.queue = split.queue → other.tag = .assign →
          (c.Hears after v other ↔ split.queue ∈ target.queuesOf v ∧
            ¬ c.Recalls worker v split.queue ∧ other = split.toAssign) := by
  intro c after
  have unowned : ∀ v, split.queue ∈ c.desk.reconciler.current.queuesOf v → v = worker :=
    fun v has => absurd (reached.tidy.ranged has) unknown
  obtain ⟨target, answered, settles⟩ := resettles reached.sound.accounted done last unowned
  exact ⟨c.returnSplits_map_toAssign worker splits, settles.known, target, answered,
    settles.current, settles.assigns⟩

end Coordinator

theorem returned_revoke_becomes_range :
    let acts := [Act.join 0 true, .join 1 true, .cycle (Sample.broker [0, 1]),
      .cycle (Sample.broker [0])]
    let c := (Sample.site acts).coordinator
    let lost := [Split.revoke (Sample.queue 1) 0 none]
    let after := (c.returnSplits 1 lost).coordinator
    after.desk.reconciler.known[Sample.queue 1]? = some (.assign (Sample.queue 1) 0 none) := by
  intro acts c lost after
  have last : (Split.revoke (Sample.queue 1) 0 none).LastOf lost := ⟨[], [], rfl, nofun⟩
  exact (Coordinator.unknown_returned_queue_becomes_range (Sample.reached acts) (by decide +kernel)
    last (by decide +kernel)).2.1

theorem returned_revoke_is_assigned :
    let acts := [Act.join 0 true, .join 1 true, .cycle (Sample.broker [0, 1]),
      .cycle (Sample.broker [0])]
    let c := (Sample.site acts).coordinator
    let lost := [Split.revoke (Sample.queue 1) 0 none]
    let after := (c.returnSplits 1 lost).coordinator
    (c.returnSplits 1 lost).result = .ok () ∧ Sample.queue 1 ∉ c.desk.reconciler.known ∧
      Sample.queue 1 ∈ after.desk.reconciler.known ∧
      Sample.queue 1 ∈ after.desk.reconciler.current.queuesOf 1 ∧
      c.Hears after 1 (.assign (Sample.queue 1) 0 none) := by
  intro acts c lost after
  refine ⟨?_, ?_, ?_, ?_, ?_⟩
  · decide +kernel
  · decide +kernel
  · decide +kernel
  · decide +kernel
  · decide +kernel

end QueueAssignment
