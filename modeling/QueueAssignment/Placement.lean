import QueueAssignment.Split

/-!
A placement is one queue on one worker, and placements sort by worker, then by queue. Splits
per placement say what each worker is, or still has to be, told about each queue.
-/
namespace QueueAssignment
open Std

structure Placement where
  worker : Worker
  queue : Queue
  deriving DecidableEq, Repr

namespace Placement

def order : Placement → Placement → Ordering :=
  compareLex (compareOn worker) (compareOn queue)

instance : Ord Placement := ⟨order⟩

instance : TransOrd Placement :=
  inferInstanceAs (TransCmp (compareLex (compareOn worker) (compareOn queue)))

instance : LawfulEqOrd Placement where
  eq_of_compare {a b} same := by
    change order a b = .eq at same
    simp only [order, compareLex, compareOn, Ordering.then_eq_eq, Std.compare_eq_iff_eq] at same
    cases a; cases b
    simp_all only

end Placement

abbrev PlacementSet := ExtTreeSet Placement

abbrev PlacedSplits := ExtTreeMap Placement Split

namespace PlacedSplits

def ofWorker (splits : PlacedSplits) (worker : Worker) : List Split :=
  (splits.filter fun placement _ => placement.worker = worker).values

def workers (splits : PlacedSplits) : WorkerSet :=
  ExtTreeSet.ofList (splits.keys.map Placement.worker)

/-- What is left to say after one more split for a placement: opposite tags cancel, of equal tags
    the newer range counts. -/
def fold (waiting : Option Split) (split : Split) : Option Split :=
  match waiting with
  | some earlier => if earlier.tag ≠ split.tag then none else some split
  | none => some split

def merge (waiting newer : PlacedSplits) : PlacedSplits :=
  Table.tabulate (Table.keys waiting ∪ Table.keys newer) fun placement =>
    match newer[placement]? with
    | some split => fold waiting[placement]? split
    | none => waiting[placement]?

theorem getElem?_merge (waiting newer : PlacedSplits) (placement : Placement) :
    (waiting.merge newer)[placement]? =
      match newer[placement]? with
      | some split => fold waiting[placement]? split
      | none => waiting[placement]? := by
  unfold merge
  rw [Table.getElem?_tabulate]
  split
  · rfl
  · rename_i outside
    simp only [ExtTreeSet.mem_union_iff, Table.mem_keys, not_or] at outside
    rw [ExtTreeMap.getElem?_eq_none outside.1, ExtTreeMap.getElem?_eq_none outside.2]

end PlacedSplits

end QueueAssignment
