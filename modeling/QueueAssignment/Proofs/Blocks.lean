import QueueAssignment.Proofs.Targets

/-!
Placement in blocks is balanced and keeps the order of the queues. The blocks one after the other are
the sorted queues, and they go to the first workers, the longer ones first.
-/
namespace QueueAssignment.Strategy
open Std

variable {base extra worker left : Nat} {queues : List Queue}

/-- The blocks end with the workers or with the queues: without a quotient the shares of one queue
    each are all there is, with one every worker gets a block. -/
theorem Shares.min_rest (shares : Shares base extra worker (left + 1) queues)
    (some_queue : share base extra worker ≠ 0) :
    min queues.length (left + 1) =
      min (queues.drop (share base extra worker)).length left + 1 := by
  have here := shares.total
  have there := shares.rest.total
  have fair := shares.fair
  rcases Nat.eq_zero_or_pos base with rfl | positive
  · have extra_left : worker < extra := by
      by_contra none
      exact some_queue (if_neg none)
    omega
  · have each := Nat.le_mul_of_pos_right left positive
    rw [Nat.succ_mul] at here
    omega

theorem deal_workers (shares : Shares base extra worker left queues) :
    (deal base extra worker left queues).map (fun entry => entry.1.toNat) =
      List.range' worker (min queues.length left) := by
  induction left generalizing worker queues with
  | zero => simp [deal]
  | succ left ih =>
    simp only [deal]
    split
    · rename_i none
      simp [shares.nothing_left none]
    · rename_i some_queue
      have small := shares.small
      rw [shares.min_rest some_queue, List.range'_succ, List.map_cons, ih shares.rest,
        UInt32.toNat_ofNat_of_lt' (by omega)]

theorem deal_size (shares : Shares base extra worker left queues)
    (ascending : queues.Pairwise fun a b => compare a b = .lt)
    {entry : Worker × QueueSet} (dealt : entry ∈ deal base extra worker left queues) :
    entry.2.size = share base extra entry.1.toNat := by
  induction left generalizing worker queues with
  | zero => cases dealt
  | succ left ih =>
    simp only [deal] at dealt
    split at dealt
    · cases dealt
    · rcases List.mem_cons.mp dealt with rfl | later
      · have now := ascending.sublist (List.take_sublist (share base extra worker) queues)
        have small := shares.small
        rw [← ExtTreeSet.length_toList, Table.toList_ofList now,
          List.length_take_of_le shares.share_le, UInt32.toNat_ofNat_of_lt' (by omega)]
      · have rest := ascending.sublist (List.drop_sublist (share base extra worker) queues)
        exact ih shares.rest rest later

theorem deal_ascending (shares : Shares base extra worker left queues) :
    (deal base extra worker left queues).Pairwise fun a b => compare a.1 b.1 = .lt := by
  have workers : ((deal base extra worker left queues).map fun entry => entry.1.toNat).Pairwise
      (· < ·) := by
    rw [deal_workers shares]
    exact List.pairwise_lt_range' 1
  refine (List.pairwise_map.mp workers).imp ?_
  intro first second below
  exact Std.compare_eq_lt.mpr (UInt32.lt_iff_toNat_lt.mpr below)

section

variable (queues : QueueSet) {parallelism : UInt32}

theorem toList_balancedBlocks (some_worker : parallelism ≠ 0) :
    (balancedBlocks queues parallelism).toList =
      deal (queues.size / parallelism.toNat) (queues.size % parallelism.toNat) 0
        parallelism.toNat queues.toList :=
  Table.toList_ofEntries (deal_ascending (shares_toList queues some_worker))

theorem keys_balancedBlocks (some_worker : parallelism ≠ 0) :
    (balancedBlocks queues parallelism).keys.map UInt32.toNat =
      List.range (min queues.size parallelism.toNat) := by
  have workers := deal_workers (shares_toList queues some_worker)
  rw [ExtTreeSet.length_toList, ← List.range_eq_range'] at workers
  rw [← ExtTreeMap.map_fst_toList_eq_keys, toList_balancedBlocks queues some_worker, List.map_map]
  exact workers

theorem mem_balancedBlocks_iff (some_worker : parallelism ≠ 0) {worker : Worker} :
    worker ∈ balancedBlocks queues parallelism ↔
      worker.toNat < min queues.size parallelism.toNat := by
  rw [← List.mem_range, ← keys_balancedBlocks queues some_worker, ← ExtTreeMap.mem_keys]
  constructor
  · exact List.mem_map_of_mem
  · intro listed
    obtain ⟨other, member, same⟩ := List.mem_map.mp listed
    rwa [← UInt32.toNat_inj.mp same]

theorem size_queuesOf_balancedBlocks {worker : Worker} (below : worker < parallelism) :
    ((balancedBlocks queues parallelism).queuesOf worker).size =
      share (queues.size / parallelism.toNat) (queues.size % parallelism.toNat) worker.toNat := by
  have some_worker : parallelism ≠ 0 := by
    rintro rfl
    exact absurd below UInt32.not_lt_zero
  have number := UInt32.lt_iff_toNat_lt.mp below
  rw [Assignment.queuesOf]
  cases found : (balancedBlocks queues parallelism)[worker]? with
  | some block =>
    have listed := ExtTreeMap.mem_toList_iff_getElem?_eq_some.mpr found
    rw [toList_balancedBlocks queues some_worker] at listed
    exact deal_size (shares_toList queues some_worker) ExtTreeSet.ordered_toList listed
  | none =>
    -- Without a block there are fewer queues than workers, and none is left for this one.
    have unlisted : worker ∉ balancedBlocks queues parallelism := by
      rw [ExtTreeMap.mem_iff_isSome_getElem?, found]
      exact Bool.false_ne_true
    rw [mem_balancedBlocks_iff queues some_worker] at unlisted
    have few : queues.size < parallelism.toNat := by omega
    rw [Nat.div_eq_of_lt few, Nat.mod_eq_of_lt few, share, if_neg (by omega)]
    exact ExtTreeSet.size_empty

/-- The first workers get the sorted queues in blocks. Every worker gets a whole quotient of the
    queues, and the first ones, as many as the remainder, get one more. -/
theorem balanced_blocks_in_order (call : Nat) (some_worker : parallelism ≠ 0) :
    ∃ target, balanced call queues parallelism = .ok target ∧
      target.Covers queues parallelism ∧
      target.keys.map UInt32.toNat = List.range (min queues.size parallelism.toNat) ∧
      target.toList.flatMap (fun entry => entry.2.toList) = queues.toList ∧
      (∀ worker < parallelism, (target.queuesOf worker).size =
        queues.size / parallelism.toNat +
          if worker.toNat < queues.size % parallelism.toNat then 1 else 0) ∧
      ∀ v w : Worker, v ≤ w → w < parallelism →
        (target.queuesOf w).size ≤ (target.queuesOf v).size ∧
          (target.queuesOf v).size ≤ (target.queuesOf w).size + 1 := by
  obtain ⟨_, answered, covers⟩ := balanced_covering call queues some_worker
  cases (if_neg some_worker).symm.trans answered
  refine ⟨_, answered, covers, keys_balancedBlocks queues some_worker, ?_, ?_, ?_⟩
  · rw [toList_balancedBlocks queues some_worker]
    exact flatMap_deal (shares_toList queues some_worker) ExtTreeSet.ordered_toList
  · intro worker below
    rw [size_queuesOf_balancedBlocks queues below, share]
    split <;> rfl
  · intro v w le below
    have before := UInt32.le_iff_toNat_le.mp le
    rw [size_queuesOf_balancedBlocks queues below,
      size_queuesOf_balancedBlocks queues (UInt32.lt_of_le_of_lt le below), share, share]
    split <;> split <;> omega

theorem five_queues_in_three_blocks :
    let queue (index : UInt32) : Queue := ⟨"orders", "a", index⟩
    let queues : QueueSet := ExtTreeSet.ofList [queue 3, queue 1, queue 4, queue 0, queue 2]
    ∃ target, balanced 0 queues 3 = .ok target ∧
      target.toList.flatMap (fun entry => entry.2.toList) =
        [queue 0, queue 1, queue 2, queue 3, queue 4] ∧
      (target.queuesOf 1).size = 2 ∧ (target.queuesOf 2).size = 1 := by
  intro queue queues
  obtain ⟨target, answered, _, _, order, sizes, _⟩ :=
    @balanced_blocks_in_order queues 3 0 (by decide)
  exact ⟨target, answered, order.trans (by decide +kernel), (sizes 1 (by decide)).trans
    (by decide +kernel), (sizes 2 (by decide)).trans (by decide +kernel)⟩

end

end QueueAssignment.Strategy
