import Std.Data.ExtTreeMap
import Std.Data.ExtTreeSet

/-!
Finite maps and sets, equal as soon as they hold the same entries. A derived table is given
by the set of its possible keys and its value at each of them, so it has one law: what it
holds at a key.
-/
namespace QueueAssignment.Table
open Std

variable {κ ν : Type} [Ord κ] [TransOrd κ]

def keys (table : ExtTreeMap κ ν) : ExtTreeSet κ := ExtTreeSet.ofList table.keys

/-- The table that holds `value k` at each key `k` of `domain` where that is defined. -/
def tabulate (domain : ExtTreeSet κ) (value : κ → Option ν) : ExtTreeMap κ ν :=
  ExtTreeMap.ofList (domain.toList.filterMap fun k => (value k).map fun v => (k, v))

/-- The table of a list of entries in which a later entry replaces an earlier one of its key. -/
def ofEntries (entries : List (κ × ν)) : ExtTreeMap κ ν := ExtTreeMap.ofList entries

variable [LawfulEqOrd κ]

theorem mem_ofList {ks : List κ} {k : κ} : k ∈ ExtTreeSet.ofList ks ↔ k ∈ ks := by
  let : BEq κ := beqOfOrd
  simp [ExtTreeSet.mem_ofList]

theorem mem_keys {table : ExtTreeMap κ ν} {k : κ} : k ∈ keys table ↔ k ∈ table := by
  simp [keys, mem_ofList]

omit [LawfulEqOrd κ] in
theorem pairwise_tabulate (domain : ExtTreeSet κ) (value : κ → Option ν) :
    (domain.toList.filterMap fun k => (value k).map fun v => (k, v)).Pairwise
      fun a b => ¬ compare a.1 b.1 = .eq := by
  rw [List.pairwise_filterMap]
  refine (ExtTreeSet.distinct_toList (t := domain)).imp ?_
  intro a b distinct p hp q hq
  simp only [Option.map_eq_some_iff] at hp hq
  obtain ⟨_, _, rfl⟩ := hp
  obtain ⟨_, _, rfl⟩ := hq
  exact distinct

theorem getElem?_tabulate (domain : ExtTreeSet κ) (value : κ → Option ν) (k : κ) :
    (tabulate domain value)[k]? = if k ∈ domain then value k else none := by
  unfold tabulate
  cases found : (if k ∈ domain then value k else none) with
  | some v =>
    split at found
    · rename_i member
      refine ExtTreeMap.getElem?_ofList_of_mem (ReflOrd.compare_self) (pairwise_tabulate _ _) ?_
      exact List.mem_filterMap.2 ⟨k, ExtTreeSet.mem_toList.2 member, by simp [found]⟩
    · cases found
  | none =>
    let : BEq κ := beqOfOrd
    refine ExtTreeMap.getElem?_ofList_of_contains_eq_false ?_
    rw [← Bool.not_eq_true, List.contains_iff_exists_mem_beq]
    rintro ⟨k', member, same⟩
    obtain ⟨⟨k'', v⟩, entry, rfl⟩ := List.mem_map.1 member
    obtain ⟨k₀, inside, hv⟩ := List.mem_filterMap.1 entry
    obtain ⟨v', hv', eq⟩ := Option.map_eq_some_iff.1 hv
    cases eq
    have := eq_of_beq same
    subst this
    simp [ExtTreeSet.mem_toList.1 inside, hv'] at found

end QueueAssignment.Table
