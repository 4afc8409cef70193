import QueueAssignment.Proofs.Endings
import QueueAssignment.Proofs.Settled

/-!
Which targets are refused, and that a refused target leaves everything as it was. The check goes
through the placements by worker and then by queue, and what it reports is the first offence of a
target in this order.
-/
namespace QueueAssignment
open Std

namespace Assignment

/-- What is wrong with a worker's placement of a queue: there is no such queue, or a smaller worker
    has it too. -/
inductive Offends (target : Assignment) (latest : SplitMap) (worker : Worker) (queue : Queue) :
    Violation → Prop where
  | unknown : queue ∈ target.queuesOf worker → queue ∉ latest →
      Offends target latest worker queue (.unknownQueue queue worker)
  | twice {first : Worker} : queue ∈ latest → queue ∈ target.queuesOf first →
      queue ∈ target.queuesOf worker → first < worker →
      Offends target latest worker queue (.placedTwice queue first worker)

def Earlier (a b : Worker × Queue) : Prop := a.1 < b.1 ∨ a.1 = b.1 ∧ compare a.2 b.2 = .lt

def FirstOffence (target : Assignment) (latest : SplitMap) (violation : Violation) : Prop :=
  ∃ worker queue, target.Offends latest worker queue violation ∧
    ∀ w q other, target.Offends latest w q other →
      (w, q) = (worker, queue) ∨ Earlier (worker, queue) (w, q)

variable {target : Assignment} {latest : SplitMap} {violation : Violation}

theorem Earlier.asymm {a b : Worker × Queue} (before : Earlier a b) : ¬ Earlier b a := by
  rintro (less | ⟨same, less⟩)
  · rcases before with smaller | ⟨equal, _⟩
    · exact UInt32.lt_asymm smaller less
    · exact UInt32.lt_irrefl _ (equal ▸ less)
  · rcases before with smaller | ⟨_, smaller⟩
    · exact UInt32.lt_irrefl _ (same ▸ smaller)
    · exact OrientedCmp.not_lt_of_lt smaller less

theorem pairwise_placements (target : Assignment) : target.placements.Pairwise Earlier := by
  rw [placements, List.pairwise_flatMap]
  constructor
  · intro entry _
    rw [List.pairwise_map]
    exact (ExtTreeSet.ordered_toList (t := entry.2)).imp fun before => Or.inr ⟨rfl, before⟩
  · apply (ExtTreeMap.ordered_keys_toList (t := target)).imp
    intro first second before a here b there
    obtain ⟨_, _, rfl⟩ := List.mem_map.mp here
    obtain ⟨_, _, rfl⟩ := List.mem_map.mp there
    exact Or.inl (Std.compare_eq_lt.mp before)

theorem checkedOwners_error {placements : List (Worker × Queue)} {owners : OwnerMap}
    (failed : checkedOwners latest owners placements = .error violation) :
    ∃ passed worker queue later result, placements = passed ++ (worker, queue) :: later ∧
      checkedOwners latest owners passed = .ok result ∧
      (queue ∉ latest ∧ violation = .unknownQueue queue worker ∨
        queue ∈ latest ∧ ∃ first, result[queue]? = some first ∧
          violation = .placedTwice queue first worker) := by
  induction placements generalizing owners with
  | nil => cases failed
  | cons placement rest ih =>
    obtain ⟨worker, queue⟩ := placement
    rw [checkedOwners] at failed
    by_cases known : queue ∈ latest
    · rw [if_pos known] at failed
      cases owned : owners[queue]? with
      | some first =>
        rw [owned] at failed
        cases failed
        exact ⟨[], worker, queue, rest, owners, rfl, rfl, Or.inr ⟨known, first, owned, rfl⟩⟩
      | none =>
        rw [owned] at failed
        obtain ⟨passed, w, q, later, result, split, accepted, cause⟩ := ih failed
        refine ⟨(worker, queue) :: passed, w, q, later, result, by rw [split]; rfl, ?_, cause⟩
        rw [checkedOwners, if_pos known, owned]
        exact accepted
    · rw [if_neg known] at failed
      cases failed
      exact ⟨[], worker, queue, rest, owners, rfl, rfl, Or.inl ⟨known, rfl⟩⟩

theorem firstOffence_of_refused (refused : target.targetOwners latest = .error violation) :
    target.FirstOffence latest violation := by
  obtain ⟨passed, worker, queue, later, result, split, accepted, cause⟩ :=
    checkedOwners_error refused
  obtain ⟨lookup, known⟩ := checkedOwners_ok accepted
  have ordered := pairwise_placements target
  rw [split, List.pairwise_append, List.pairwise_cons] at ordered
  obtain ⟨_, ⟨after, _⟩, before⟩ := ordered
  have placed : ∀ {w q}, q ∈ target.queuesOf w ↔ (w, q) ∈ passed ++ (worker, queue) :: later := by
    intro w q
    rw [← split, mem_placements_iff]
  have owner : ∀ {q w}, (w, q) ∈ passed → result[q]? = some w :=
    fun member => (lookup _ _).mpr (Or.inr member)
  have here : queue ∈ target.queuesOf worker := placed.mpr (by simp)
  refine ⟨worker, queue, ?_, ?_⟩
  · rcases cause with ⟨unknown, rfl⟩ | ⟨there, first, owned, rfl⟩
    · exact .unknown here unknown
    · have listed : (first, queue) ∈ passed := by simpa using (lookup queue first).mp owned
      refine .twice there (placed.mpr (List.mem_append_left _ listed)) here ?_
      rcases before _ listed _ List.mem_cons_self with smaller | ⟨_, less⟩
      · exact smaller
      · exact absurd less (by simp [ReflOrd.compare_self])
  · intro w q other offends
    have spared : (w, q) ∉ passed := by
      intro member
      cases offends with
      | unknown _ unknown => exact unknown (known w q member)
      | @twice first _ has _ less =>
        -- The smaller worker comes earlier still, so both would have passed.
        rcases List.mem_append.mp (placed.mp has) with early | late
        · have same := Option.some.inj ((owner early).symm.trans (owner member))
          exact UInt32.lt_irrefl _ (same ▸ less)
        · have wrong := before _ member _ late
          exact wrong.asymm (Or.inl less)
    have placed_there : q ∈ target.queuesOf w := by
      cases offends with
      | unknown has _ => exact has
      | twice _ _ has _ => exact has
    rcases List.mem_cons.mp ((List.mem_append.mp (placed.mp placed_there)).resolve_left spared) with
      same | later
    · exact Or.inl same
    · exact Or.inr (after _ later)

theorem FirstOffence.unique {other : Violation} (one : target.FirstOffence latest violation)
    (two : target.FirstOffence latest other) : violation = other := by
  obtain ⟨worker, queue, offends, least⟩ := one
  obtain ⟨w, q, offends', least'⟩ := two
  have same : (w, q) = (worker, queue) := by
    rcases least w q other offends' with same | before
    · exact same
    · rcases least' worker queue violation offends with same | after
      · exact same.symm
      · exact absurd after before.asymm
  cases same
  cases offends with
  | unknown _ absent =>
    cases offends' with
    | unknown _ _ => rfl
    | twice there _ _ _ => exact absurd there absent
  | @twice first there has _ less =>
    cases offends' with
    | unknown _ absent => exact absurd there absent
    | @twice second _ has' _ less' =>
      -- Of two smaller workers the greater one would be the first to offend.
      have none_between : ∀ {v w}, queue ∈ target.queuesOf v → queue ∈ target.queuesOf w →
          w < worker → ¬ v < w := by
        intro v w one two below less
        rcases least w queue _ (.twice there one two less) with same | before
        · cases same
          exact UInt32.lt_irrefl _ below
        · exact before.asymm (Or.inl below)
      have same := UInt32.le_antisymm (UInt32.not_lt.mp (none_between has' has less))
        (UInt32.not_lt.mp (none_between has has' less'))
      rw [same]

theorem targetOwners_error_iff :
    target.targetOwners latest = .error violation ↔ target.FirstOffence latest violation := by
  constructor
  · exact firstOffence_of_refused
  · intro first
    cases checked : target.targetOwners latest with
    | error other => rw [first.unique (firstOffence_of_refused checked)]
    | ok owners =>
      obtain ⟨lookup, known⟩ := targetOwners_ok checked
      obtain ⟨worker, queue, offends, _⟩ := first
      cases offends with
      | unknown has absent =>
        have owned := (lookup queue worker).mpr has
        exact absurd (known queue (ExtTreeMap.mem_iff_isSome_getElem?.mpr (by simp [owned]))) absent
      | twice _ has also less =>
        have same := exclusive_of_lookup lookup has also
        exact absurd (same ▸ less) (UInt32.lt_irrefl _)

/-- A target that places every queue once and none that is not there passes the check. -/
theorem offends_iff : (∃ violation, target.FirstOffence latest violation) ↔
    (∃ worker, ∃ queue ∈ target.queuesOf worker, queue ∉ latest) ∨
      ∃ v w, v ≠ w ∧ ∃ queue, queue ∈ target.queuesOf v ∧ queue ∈ target.queuesOf w := by
  constructor
  · rintro ⟨violation, worker, queue, offends, _⟩
    cases offends with
    | unknown has absent => exact Or.inl ⟨worker, queue, has, absent⟩
    | @twice first _ has also less =>
      exact Or.inr ⟨first, worker, fun same => UInt32.lt_irrefl _ (same ▸ less), queue, has, also⟩
  · intro invalid
    cases checked : target.targetOwners latest with
    | error violation => exact ⟨violation, firstOffence_of_refused checked⟩
    | ok owners =>
      obtain ⟨lookup, known⟩ := targetOwners_ok checked
      rcases invalid with ⟨worker, queue, has, absent⟩ | ⟨v, w, apart, queue, has, also⟩
      · have owned := (lookup queue worker).mpr has
        exact absurd (known queue (ExtTreeMap.mem_iff_isSome_getElem?.mpr (by simp [owned]))) absent
      · exact absurd (exclusive_of_lookup lookup has also) apart

end Assignment

theorem Reconciler.apply_error_iff {r : Reconciler} {change : SplitChange} {target : Assignment}
    {e : Error} : r.apply change target = .error e ↔
      ∃ violation, target.FirstOffence change.latest violation ∧ e = .invalidState violation := by
  simp only [← Assignment.targetOwners_error_iff, apply]
  cases target.targetOwners change.latest with
  | error violation => simp [eq_comm]
  | ok owners => simp

inductive Strategy.Refused (strategy : Strategy) (call : Nat) (change : SplitChange)
    (parallelism : UInt32) : Error → Prop where
  | unanswered {e : Error} :
      strategy call change.queues parallelism = .error e →
      Refused strategy call change parallelism e
  | offended {target : Assignment} {violation : Violation} :
      strategy call change.queues parallelism = .ok target →
      target.FirstOffence change.latest violation →
      Refused strategy call change parallelism (.invalidState violation)

theorem Desk.reconcile_error_iff {desk : Desk} {change : SplitChange} {strategy : Strategy}
    {call : Nat} {parallelism : UInt32} {e : Error} :
    desk.reconcile change strategy call parallelism = .error e ↔
      strategy.Refused call change parallelism e := by
  unfold reconcile
  cases answer : strategy call change.queues parallelism with
  | error e =>
    constructor
    · intro failed
      cases failed
      exact .unanswered answer
    · intro refused
      cases refused with
      | unanswered given => rw [Except.error.inj (answer.symm.trans given)]
      | offended given _ => exact absurd (answer.symm.trans given) (by simp)
  | ok target =>
    have checked : desk.apply change target = .error e ↔
        desk.reconciler.apply change target = .error e := by
      unfold apply
      cases desk.reconciler.apply change target with
      | error e => simp
      | ok pair => simp
    rw [checked, Reconciler.apply_error_iff]
    constructor
    · rintro ⟨violation, first, rfl⟩
      exact .offended answer first
    · intro refused
      cases refused with
      | unanswered given => exact absurd (answer.symm.trans given) (by simp)
      | offended given first =>
        cases Except.ok.inj (answer.symm.trans given)
        exact ⟨_, first, rfl⟩

namespace Coordinator

variable {c : Coordinator} {broker : Broker} {scan : Scan} {e : Error}

def Refused (c : Coordinator) (change : SplitChange) (e : Error) : Prop :=
  c.job.strategy.Refused c.calls change c.job.settings.parallelism e

theorem reconcile_error_iff {next : Coordinator} {change : SplitChange} :
    c.reconcile change = (next, .error e) ↔
      c.Refused change e ∧ next = { c with calls := c.calls + 1 } := by
  rw [Refused, ← @Desk.reconcile_error_iff c.desk, reconcile]
  cases c.desk.reconcile change c.job.strategy c.calls c.job.settings.parallelism with
  | ok pair => simp
  | error other => simp [eq_comm, and_comm]

theorem refused_iff {change : SplitChange} :
    c.Refused change e ↔ (c.reconcile change).2 = .error e := by
  constructor
  · intro refused
    rw [reconcile_error_iff.mpr ⟨refused, rfl⟩]
  · intro failed
    exact (reconcile_error_iff.mp (Prod.ext rfl failed)).1

/-- The same coordinator, up to its instruments, after one more call of the strategy. -/
def CalledOnly (c next : Coordinator) : Prop :=
  ∃ metrics, next = { c with calls := c.calls + 1, desk := { c.desk with metrics } }

theorem place_error (c : Coordinator) (change : QueueChange) (known : SplitMap) (lookup : Lookup)
    (e : Error) :
    ((c.place change known lookup).result = .error e ↔ c.Refused
      (.ofOffsets change known lookup.starting.offsets lookup.stopping.offsets) e) ∧
    ((c.place change known lookup).result = .error e →
      c.CalledOnly (c.place change known lookup).coordinator) := by
  simp only [place]
  generalize counted : c.count _ = d
  have same : ∀ change e, c.Refused change e ↔ d.Refused change e := by
    subst counted
    exact fun _ _ => Iff.rfl
  rw [same, refused_iff]
  generalize merged : d.reconcile _ = pair
  obtain ⟨next, result⟩ := pair
  cases result with
  | ok delta => simp
  | error other =>
    obtain ⟨_, rfl⟩ := reconcile_error_iff.mp merged
    subst counted
    exact ⟨by simp only [Except.error.injEq], fun _ => ⟨_, rfl⟩⟩

theorem cycleOver_error (c : Coordinator) (latest : QueueSet) (lookUp : QueueSet → Lookup)
    (e : Error) :
    ((c.cycleOver latest lookUp).result = .error e ↔
      c.changeTo latest ≠ none ∧ c.Refused (c.changeOver latest lookUp) e) ∧
    ((c.cycleOver latest lookUp).result = .error e →
      c.CalledOnly (c.cycleOver latest lookUp).coordinator) := by
  unfold cycleOver
  cases changed : c.changeTo latest with
  | none => simp [result_completeCycle]
  | some change =>
    simp only [changeOver_of_changeTo changed, Outcome.andThen]
    generalize counted : c.count _ = d
    obtain ⟨refused, called⟩ :=
      d.place_error change c.desk.reconciler.known (lookUp change.wanted) e
    have same : ∀ change e, d.Refused change e ↔ c.Refused change e := by
      subst counted
      exact fun _ _ => Iff.rfl
    rw [same] at refused
    cases placed : (d.place change c.desk.reconciler.known (lookUp change.wanted)).result with
    | ok =>
      rw [placed] at refused
      simp [result_completeCycle, ← refused]
    | error other =>
      rw [placed] at refused called
      simp only [placed, refused, ne_eq, reduceCtorEq, not_false_eq_true, true_and]
      intro failed
      obtain ⟨metrics, after⟩ := called (refused.mpr failed)
      subst counted
      exact ⟨metrics, after⟩

/-- A cycle whose scan went through fails just where the answer for the change that it found is
    refused, and then nothing but the instruments and the number of calls has changed. -/
theorem cycle_error (scanned : Scan.run broker c.job.topics = .ok scan) :
    ((c.cycle broker).result = .error e ↔ c.changeTo scan.queues ≠ none ∧
      c.Refused (c.changeOver scan.queues (c.job.lookUp broker)) e) ∧
    ((c.cycle broker).result = .error e → c.CalledOnly (c.cycle broker).coordinator) := by
  let counted := c.count fun m => (m.countRefusals scan.refused).countScan scan.queues.size
  have ends : c.cycle broker = counted.cycleOver scan.queues (c.job.lookUp broker) := by
    simp only [cycle, scanned, counted]
  obtain ⟨refused, called⟩ := counted.cycleOver_error scan.queues (c.job.lookUp broker) e
  rw [ends]
  refine ⟨refused, fun failed => ?_⟩
  obtain ⟨metrics, after⟩ := called failed
  exact ⟨metrics, after⟩

theorem cycle_error_same (failed : (c.cycle broker).result = .error e) :
    (c.cycle broker).coordinator.desk.reconciler = c.desk.reconciler ∧
      (c.cycle broker).coordinator.desk.dispatcher = c.desk.dispatcher := by
  cases scanned : Scan.run broker c.job.topics with
  | error _ =>
    simp only [cycle, scanned, and_self]
  | ok scan =>
    obtain ⟨metrics, same⟩ := (cycle_error scanned).2 failed
    rw [same]
    exact ⟨rfl, rfl⟩

theorem cycle_error_iff : (c.cycle broker).result = .error e ↔
    Scan.run broker c.job.topics = .error e ∨
      ∃ scan, Scan.run broker c.job.topics = .ok scan ∧ c.changeTo scan.queues ≠ none ∧
        c.Refused (c.changeOver scan.queues (c.job.lookUp broker)) e := by
  cases scanned : Scan.run broker c.job.topics with
  | error other => simp [cycle, scanned]
  | ok scan => simp [(cycle_error scanned).1]

end Coordinator

/-- A target is refused just where it places a queue that is not there, or one queue on two workers,
    and what is reported is its first offence. Asking a strategy fails for this reason or with the
    error of the strategy. A cycle fails for one of the two or from its scan, and whichever it is,
    the books and all channels are as before. -/
theorem refused_target_changes_nothing (c : Coordinator) :
    (∀ change target e, c.desk.reconciler.apply change target = .error e ↔
      ∃ violation, target.FirstOffence change.latest violation ∧ e = .invalidState violation) ∧
    (∀ change target, (∃ e, c.desk.reconciler.apply change target = .error e) ↔
      (∃ worker, ∃ queue ∈ target.queuesOf worker, queue ∉ change.latest) ∨
        ∃ v w, v ≠ w ∧ ∃ queue, queue ∈ target.queuesOf v ∧ queue ∈ target.queuesOf w) ∧
    (∀ change strategy call parallelism e,
      c.desk.reconcile change strategy call parallelism = .error e ↔
        strategy.Refused call change parallelism e) ∧
    (∀ change next e, c.reconcile change = (next, .error e) ↔
      c.Refused change e ∧ next = { c with calls := c.calls + 1 }) ∧
    ∀ broker e,
      ((c.cycle broker).result = .error e ↔ Scan.run broker c.job.topics = .error e ∨
        ∃ scan, Scan.run broker c.job.topics = .ok scan ∧ c.changeTo scan.queues ≠ none ∧
          c.Refused (c.changeOver scan.queues (c.job.lookUp broker)) e) ∧
      ((c.cycle broker).result = .error e →
        (c.cycle broker).coordinator.desk.reconciler = c.desk.reconciler ∧
          (c.cycle broker).coordinator.desk.dispatcher = c.desk.dispatcher) := by
  refine ⟨fun _ _ _ => Reconciler.apply_error_iff, ?_, fun _ _ _ _ _ => Desk.reconcile_error_iff,
    fun _ _ _ => Coordinator.reconcile_error_iff, ?_⟩
  · intro change target
    rw [← Assignment.offends_iff]
    simp only [Reconciler.apply_error_iff]
    constructor
    · rintro ⟨_, violation, first, _⟩
      exact ⟨violation, first⟩
    · rintro ⟨violation, first⟩
      exact ⟨_, violation, first, rfl⟩
  · exact fun broker e => ⟨Coordinator.cycle_error_iff, Coordinator.cycle_error_same⟩

namespace Sample

/-- A strategy that gives both queues to both workers, and to the second one also a queue that is
    not there. -/
def greedyJob : Job :=
  { job with
    strategy := .scripted [.ok (Table.ofEntries [
      ((0 : Worker), (ExtTreeSet.ofList [queue 0, queue 1] : QueueSet)),
      (1, ExtTreeSet.ofList [queue 0, queue 1, queue 5])])] }

end Sample

theorem greedy_target_refused :
    let c := Coordinator.start Sample.greedyJob
    let twice := Error.invalidState (.placedTwice (Sample.queue 0) 0 1)
    (c.cycle (Sample.broker [0, 1])).result = .error twice ∧
      (c.cycle (Sample.broker [0, 1])).coordinator.desk.reconciler = c.desk.reconciler ∧
      (c.cycle (Sample.broker [0, 1])).coordinator.desk.dispatcher = c.desk.dispatcher := by
  intro c twice
  have failed : (c.cycle (Sample.broker [0, 1])).result = .error twice := by decide +kernel
  obtain ⟨_, _, _, _, cycles⟩ := refused_target_changes_nothing c
  exact ⟨failed, (cycles (Sample.broker [0, 1]) twice).2 failed⟩

end QueueAssignment
