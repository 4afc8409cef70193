import Mathlib.Data.List.Nodup
import Mathlib.Data.List.Pairwise
import QueueAssignment.Proofs.Exclusive
import QueueAssignment.Strategy.BuiltIn

/-!
Targets that leave no queue out: every queue is on exactly one worker of the job. Both built-in
strategies answer with such a target, and such a target is accepted.
-/
namespace QueueAssignment
open Std

namespace Assignment

structure Covers (target : Assignment) (queues : QueueSet) (parallelism : UInt32) : Prop where
  exclusive : target.Exclusive
  placed : ∀ queue, queue ∈ queues ↔ ∃ worker, queue ∈ target.queuesOf worker
  below : ∀ {worker queue}, queue ∈ target.queuesOf worker → worker < parallelism

theorem checkedOwners_total {latest : SplitMap} {placements : List (Worker × Queue)}
    (known : ∀ placement ∈ placements, placement.2 ∈ latest)
    (distinct : (placements.map Prod.snd).Nodup) {owners : OwnerMap}
    (fresh : ∀ placement ∈ placements, owners[placement.2]? = none) :
    ∃ result, checkedOwners latest owners placements = .ok result := by
  induction placements generalizing owners with
  | nil => exact ⟨owners, rfl⟩
  | cons placement rest ih =>
    obtain ⟨worker, queue⟩ := placement
    simp only [List.map_cons, List.nodup_cons] at distinct
    have here := known (worker, queue) (by simp)
    have unowned := fresh (worker, queue) (by simp)
    simp only [checkedOwners, here, if_true, unowned]
    apply ih
    · exact fun placement member => known placement (by simp [member])
    · exact distinct.2
    · intro placement member
      have apart : queue ≠ placement.2 := by
        rintro rfl
        exact distinct.1 (List.mem_map_of_mem member)
      rw [ExtTreeMap.getElem?_insert]
      simp [apart, fresh placement (by simp [member])]

theorem nodup_placements {target : Assignment} (exclusive : target.Exclusive) :
    (target.placements.map Prod.snd).Nodup := by
  have held : ∀ entry ∈ target.toList, ∀ queue ∈ entry.2.toList,
      queue ∈ target.queuesOf entry.1 := by
    intro entry member queue inside
    exact mem_queuesOf.mpr ⟨entry.2, ExtTreeMap.mem_toList_iff_getElem?_eq_some.mp member,
      ExtTreeSet.mem_toList.mp inside⟩
  simp only [placements, List.map_flatMap, List.map_map, Function.comp_def, List.map_id']
  rw [List.nodup_flatMap]
  constructor
  · intro entry _
    have distinct := ExtTreeSet.distinct_toList (t := entry.2)
    exact distinct.imp fun different same => different (by simp [same])
  · apply (ExtTreeMap.distinct_keys_toList (t := target)).imp_of_mem
    intro first second here there different queue left right
    apply different
    rw [exclusive (held first here queue left) (held second there queue right)]
    exact ReflOrd.compare_self

theorem Covers.accepted {target : Assignment} {latest : SplitMap} {parallelism : UInt32}
    (covers : target.Covers (Table.keys latest) parallelism) :
    ∃ owners, target.targetOwners latest = .ok owners := by
  apply checkedOwners_total
  · intro placement member
    have inside := mem_placements_iff.mp member
    exact Table.mem_keys.mp ((covers.placed _).mpr ⟨_, inside⟩)
  · exact nodup_placements covers.exclusive
  · simp

end Assignment

namespace Strategy

def Covering (strategy : Strategy) : Prop :=
  ∀ call queues {parallelism : UInt32}, parallelism ≠ 0 →
    ∃ target, strategy call queues parallelism = .ok target ∧ target.Covers queues parallelism

def Accepted (strategy : Strategy) (parallelism : UInt32) : Prop :=
  ∀ call (change : SplitChange), ∃ target owners,
    strategy call change.queues parallelism = .ok target ∧
      target.targetOwners change.latest = .ok owners

theorem Covering.accepted {strategy : Strategy} (covering : strategy.Covering)
    {parallelism : UInt32} (some_worker : parallelism ≠ 0) : strategy.Accepted parallelism := by
  intro call change
  obtain ⟨target, answered, covers⟩ := covering call change.queues some_worker
  obtain ⟨owners, accepted⟩ := covers.accepted
  exact ⟨target, owners, answered, accepted⟩

end Strategy

theorem Jump.walk_lt {buckets budget : Nat} {key : UInt64} {bucket : Nat}
    (inside : bucket < buckets) : walk buckets budget key bucket < buckets := by
  induction budget generalizing key bucket with
  | zero => exact inside
  | succ budget ih =>
    simp only [walk]
    split
    · rename_i onward
      exact ih onward
    · exact inside

namespace Strategy

theorem toNat_pos {parallelism : UInt32} (some_worker : parallelism ≠ 0) :
    0 < parallelism.toNat := by
  rcases Nat.eq_zero_or_pos parallelism.toNat with zero | positive
  · exact absurd (UInt32.toNat_inj.mp zero) some_worker
  · exact positive

theorem toNat_hashedWorker {parallelism : UInt32} (some_worker : parallelism ≠ 0)
    (queue : Queue) :
    (hashedWorker parallelism queue).toNat = Jump.bucket queue.key parallelism.toNat :=
  UInt32.toNat_ofNat_of_lt'
    (Nat.lt_trans (Jump.walk_lt (toNat_pos some_worker)) parallelism.toNat_lt)

theorem hashedWorker_lt {parallelism : UInt32} (some_worker : parallelism ≠ 0) (queue : Queue) :
    hashedWorker parallelism queue < parallelism := by
  rw [UInt32.lt_iff_toNat_lt, toNat_hashedWorker some_worker]
  exact Jump.walk_lt (toNat_pos some_worker)

theorem mem_queuesOf_hashedOwners {queues : QueueSet} {parallelism : UInt32} {worker : Worker}
    {queue : Queue} :
    queue ∈ (hashedOwners queues parallelism).byWorker.queuesOf worker ↔
      queue ∈ queues ∧ hashedWorker parallelism queue = worker := by
  rw [OwnerMap.mem_queuesOf_byWorker, hashedOwners, Table.getElem?_tabulate]
  split
  · simp [*]
  · simp [*]

theorem hashed_covering : hashed.Covering := by
  intro call queues parallelism some_worker
  refine ⟨_, if_neg some_worker, OwnerMap.exclusive_byWorker _, ?_, ?_⟩
  · intro queue
    simp only [mem_queuesOf_hashedOwners]
    exact ⟨fun member => ⟨_, member, rfl⟩, fun found => found.choose_spec.1⟩
  · intro worker queue placed
    rw [← (mem_queuesOf_hashedOwners.mp placed).2]
    exact hashedWorker_lt some_worker queue

theorem deal_worker {base extra worker left : Nat} {queues : List Queue}
    {entry : Worker × QueueSet} (dealt : entry ∈ deal base extra worker left queues) :
    ∃ number, worker ≤ number ∧ number < worker + left ∧ entry.1 = UInt32.ofNat number := by
  induction left generalizing worker queues with
  | zero => cases dealt
  | succ left ih =>
    simp only [deal] at dealt
    split at dealt
    · cases dealt
    · rcases List.mem_cons.mp dealt with rfl | later
      · exact ⟨worker, by omega, by omega, rfl⟩
      · obtain ⟨number, above, below, same⟩ := ih later
        exact ⟨number, by omega, by omega, same⟩

theorem deal_subset {base extra worker left : Nat} {queues : List Queue}
    {entry : Worker × QueueSet} (dealt : entry ∈ deal base extra worker left queues)
    {queue : Queue} (inside : queue ∈ entry.2) : queue ∈ queues := by
  induction left generalizing worker queues with
  | zero => cases dealt
  | succ left ih =>
    simp only [deal] at dealt
    split at dealt
    · cases dealt
    · rcases List.mem_cons.mp dealt with rfl | later
      · exact List.mem_of_mem_take (Table.mem_ofList.mp inside)
      · exact List.mem_of_mem_drop (ih later)

theorem pairwise_deal {base extra worker left : Nat} {queues : List Queue}
    (small : worker + left ≤ UInt32.size) (distinct : queues.Nodup) :
    (deal base extra worker left queues).Pairwise fun first second =>
      first.1 ≠ second.1 ∧ ∀ queue ∈ first.2, queue ∉ second.2 := by
  induction left generalizing worker queues with
  | zero => exact .nil
  | succ left ih =>
    simp only [deal]
    split
    · exact .nil
    · -- The first block comes off the front, the others are dealt from what is left.
      have later := distinct.sublist (List.drop_sublist (share base extra worker) queues)
      refine List.pairwise_cons.mpr ⟨?_, ih (by omega) later⟩
      intro entry later
      constructor
      · intro same
        obtain ⟨number, above, below, numbered⟩ := deal_worker later
        rw [numbered, ← UInt32.toNat_inj, UInt32.toNat_ofNat_of_lt' (by omega),
          UInt32.toNat_ofNat_of_lt' (by omega)] at same
        omega
      · intro queue now again
        exact List.disjoint_take_drop distinct (Nat.le_refl _) (Table.mem_ofList.mp now)
          (deal_subset later again)

/-- The queues left are as many as the shares of the workers left come to. -/
structure Shares (base extra worker left : Nat) (queues : List Queue) : Prop where
  total : queues.length = left * base + (extra - worker)
  fair : extra ≤ worker + left
  small : worker + left ≤ UInt32.size

namespace Shares

variable {base extra worker left : Nat} {queues : List Queue}

theorem nothing (shares : Shares base extra worker 0 queues) : queues = [] := by
  have total := shares.total
  have fair := shares.fair
  exact List.length_eq_zero_iff.mp (by omega)

theorem nothing_left (shares : Shares base extra worker (left + 1) queues)
    (none : share base extra worker = 0) : queues = [] := by
  have total := shares.total
  unfold share at none
  apply List.length_eq_zero_iff.mp
  split at none <;> simp_all

theorem share_le (shares : Shares base extra worker (left + 1) queues) :
    share base extra worker ≤ queues.length := by
  rw [shares.total, Nat.succ_mul]
  unfold share
  split <;> omega

theorem rest (shares : Shares base extra worker (left + 1) queues) :
    Shares base extra (worker + 1) left (queues.drop (share base extra worker)) := by
  obtain ⟨total, fair, small⟩ := shares
  rw [Nat.succ_mul] at total
  refine ⟨?_, by omega, by omega⟩
  rw [List.length_drop]
  unfold share
  split <;> omega

end Shares

theorem flatMap_deal {base extra worker left : Nat} {queues : List Queue}
    (shares : Shares base extra worker left queues)
    (ascending : queues.Pairwise fun a b => compare a b = .lt) :
    (deal base extra worker left queues).flatMap (fun entry => entry.2.toList) = queues := by
  induction left generalizing worker queues with
  | zero => exact shares.nothing.symm
  | succ left ih =>
    simp only [deal]
    split
    · rename_i none
      exact (shares.nothing_left none).symm
    · have now := ascending.sublist (List.take_sublist (share base extra worker) queues)
      have later := ascending.sublist (List.drop_sublist (share base extra worker) queues)
      rw [List.flatMap_cons, Table.toList_ofList now, ih shares.rest later,
        List.take_append_drop]

theorem deal_apart {base extra worker left : Nat} {queues : List Queue}
    (small : worker + left ≤ UInt32.size) (distinct : queues.Nodup)
    {first second : Worker × QueueSet} (here : first ∈ deal base extra worker left queues)
    (there : second ∈ deal base extra worker left queues) (different : first ≠ second) :
    first.1 ≠ second.1 ∧ ∀ queue ∈ first.2, queue ∉ second.2 := by
  have symmetric : Std.Symm fun first second : Worker × QueueSet =>
      first.1 ≠ second.1 ∧ ∀ queue ∈ first.2, queue ∉ second.2 := by
    constructor
    intro first second apart
    exact ⟨apart.1.symm, fun queue left right => apart.2 queue right left⟩
  exact (pairwise_deal small distinct).forall here there different

theorem mem_queuesOf_deal {base extra worker left : Nat} {queues : List Queue}
    (small : worker + left ≤ UInt32.size) (distinct : queues.Nodup) {owner : Worker}
    {queue : Queue} :
    queue ∈ Assignment.queuesOf (Table.ofEntries (deal base extra worker left queues)) owner ↔
      ∃ block, (owner, block) ∈ deal base extra worker left queues ∧ queue ∈ block := by
  rw [Assignment.mem_queuesOf]
  constructor
  · intro found
    obtain ⟨block, found, inside⟩ := found
    exact ⟨block, Table.mem_of_getElem?_ofEntries found, inside⟩
  · intro found
    obtain ⟨block, dealt, inside⟩ := found
    refine ⟨block, Table.getElem?_ofEntries_of_agree dealt ?_, inside⟩
    intro other again
    by_contra different
    have distinctEntries : (owner, other) ≠ (owner, block) := by
      simpa using different
    exact (deal_apart small distinct again dealt distinctEntries).1 rfl

theorem shares_toList (queues : QueueSet) {parallelism : UInt32} (some_worker : parallelism ≠ 0) :
    Shares (queues.size / parallelism.toNat) (queues.size % parallelism.toNat) 0
      parallelism.toNat queues.toList where
  total := by rw [ExtTreeSet.length_toList, Nat.sub_zero, Nat.div_add_mod]
  fair := by
    rw [Nat.zero_add]
    exact Nat.le_of_lt (Nat.mod_lt queues.size (toNat_pos some_worker))
  small := by
    rw [Nat.zero_add]
    exact Nat.le_of_lt parallelism.toNat_lt

theorem balanced_covering : balanced.Covering := by
  intro call queues parallelism some_worker
  refine ⟨_, if_neg some_worker, ?_⟩
  have shares := shares_toList queues some_worker
  have distinct := Table.nodup_toList queues
  have dealt := flatMap_deal shares ExtTreeSet.ordered_toList
  have placed := @mem_queuesOf_deal (queues.size / parallelism.toNat)
    (queues.size % parallelism.toNat) 0 parallelism.toNat queues.toList shares.small distinct
  refine { exclusive := ?exclusive, placed := ?placed, below := ?below }
  case exclusive =>
    intro v w queue first second
    obtain ⟨left, dealt, inLeft⟩ := placed.mp first
    obtain ⟨right, again, inRight⟩ := placed.mp second
    by_contra different
    have distinctEntries : (v, left) ≠ (w, right) := by
      intro same
      exact different (congrArg Prod.fst same)
    exact (deal_apart shares.small distinct dealt again distinctEntries).2 queue inLeft inRight
  case placed =>
    intro queue
    constructor
    · intro member
      rw [← ExtTreeSet.mem_toList, ← dealt, List.mem_flatMap] at member
      obtain ⟨entry, member, inside⟩ := member
      exact ⟨entry.1, placed.mpr ⟨entry.2, member, ExtTreeSet.mem_toList.mp inside⟩⟩
    · intro found
      obtain ⟨worker, found⟩ := found
      obtain ⟨block, dealt, inside⟩ := placed.mp found
      exact ExtTreeSet.mem_toList.mp (deal_subset dealt inside)
  case below =>
    intro worker queue found
    obtain ⟨block, dealt, _⟩ := placed.mp found
    obtain ⟨number, _, inside, numbered⟩ := deal_worker dealt
    rw [Nat.zero_add] at inside
    dsimp only at numbered
    rw [numbered, UInt32.lt_iff_toNat_lt,
      UInt32.toNat_ofNat_of_lt' (Nat.lt_trans inside parallelism.toNat_lt)]
    exact inside

theorem BuiltIn.covering (builtIn : BuiltIn) : builtIn.strategy.Covering := by
  cases builtIn with
  | hash => exact hashed_covering
  | average => exact balanced_covering

end Strategy

end QueueAssignment
