import Mathlib.Data.List.Induction
import QueueAssignment.Placement

/-!
The journal of a run says, event by event, what the workers were given and what was taken
from them. The queues that a worker holds are found by replaying it.
-/
namespace QueueAssignment
open Std

inductive Event where
  /-- The checkpoint of the run records the placement. -/
  | restored (placement : Placement)
  /-- A pending split was drained and sent. -/
  | told (worker : Worker) (split : Split)
  /-- A held queue was placed on the worker without a word. -/
  | adopted (placement : Placement)
  /-- The worker handed the queue back. -/
  | lost (placement : Placement)
  deriving DecidableEq, Repr

namespace Event

def gives : Event → Option Placement
  | restored placement => some placement
  | told worker split => if split.isAssign then some ⟨worker, split.queue⟩ else none
  | adopted placement => some placement
  | lost _ => none

def revokes : Event → Option Placement
  | told worker split => if split.isRevoke then some ⟨worker, split.queue⟩ else none
  | _ => none

def returns : Event → Option Placement
  | lost placement => some placement
  | _ => none

def isTold : Event → Bool
  | told _ _ => true
  | _ => false

def replay (worker : Worker) (held : QueueSet) : Event → QueueSet
  | restored placement =>
      if placement.worker = worker then held.insert placement.queue else held
  | told target split =>
      if target = worker then
        match split.tag with
        | .assign => held.insert split.queue
        | .revoke => held.erase split.queue
      else held
  | adopted placement =>
      if placement.worker = worker then held.insert placement.queue else held
  | lost placement =>
      if placement.worker = worker then held.erase placement.queue else held

theorem mem_replay {worker : Worker} {held : QueueSet} {event : Event} {queue : Queue} :
    queue ∈ event.replay worker held ↔ event.gives = some ⟨worker, queue⟩ ∨
      queue ∈ held ∧ event.revokes ≠ some ⟨worker, queue⟩ ∧
        event.returns ≠ some ⟨worker, queue⟩ := by
  cases event with
  | restored placement | adopted placement =>
    obtain ⟨target, given⟩ := placement
    by_cases same : target = worker
    · simp [replay, gives, revokes, returns, same]
    · simp [replay, gives, revokes, returns, same]
  | told target split =>
    by_cases same : target = worker
    · cases tag : split.tag with
      | assign => simp [replay, gives, revokes, returns, Split.isAssign, Split.isRevoke, same, tag]
      | revoke =>
        simp [replay, gives, revokes, returns, Split.isAssign, Split.isRevoke, same, tag, and_comm]
    · simp [replay, gives, revokes, returns, same]
  | lost placement =>
    obtain ⟨target, back⟩ := placement
    by_cases same : target = worker
    · simp [replay, gives, revokes, returns, same, and_comm]
    · simp [replay, gives, revokes, returns, same]

end Event

abbrev Journal := List Event

namespace Journal

def heldBy (journal : Journal) (worker : Worker) : QueueSet :=
  journal.foldl (fun held event => event.replay worker held) ∅

/-- Some event starts it and none after that one stops it. -/
def Since (journal : Journal) (starts stops : Event → Prop) : Prop :=
  ∃ before event after, journal = before ++ event :: after ∧
    starts event ∧ ∀ later ∈ after, ¬ stops later

variable {starts stops : Event → Prop}

theorem not_since_nil : ¬ Since [] starts stops := by
  intro since
  obtain ⟨before, event, after, split, _⟩ := since
  simp at split

theorem Since.started {journal : Journal} (since : journal.Since starts stops) :
    ∃ event ∈ journal, starts event := by
  obtain ⟨before, event, after, rfl, start, _⟩ := since
  exact ⟨event, by simp, start⟩

theorem since_append {journal events : Journal} :
    (journal ++ events).Since starts stops ↔
      events.Since starts stops ∨
        journal.Since starts stops ∧ ∀ event ∈ events, ¬ stops event := by
  constructor
  · intro since
    obtain ⟨before, event, after, split, start, kept⟩ := since
    -- The start lies in the later events or in the earlier ones, which `rest` then completes.
    rcases List.append_eq_append_iff.mp split with ⟨rest, _, late⟩ | ⟨rest, early, late⟩
    · exact Or.inl ⟨rest, event, after, late, start, kept⟩
    · cases rest with
      | nil => exact Or.inl ⟨[], event, after, late.symm, start, kept⟩
      | cons first rest =>
        obtain ⟨rfl, rfl⟩ := List.cons_eq_cons.mp late
        refine Or.inr ⟨⟨before, event, rest, early, start, ?_⟩, ?_⟩
        · exact fun later member => kept later (List.mem_append_left _ member)
        · exact fun later member => kept later (List.mem_append_right _ member)
  · intro either
    rcases either with late | ⟨early, calm⟩
    · obtain ⟨before, event, after, rfl, start, kept⟩ := late
      exact ⟨journal ++ before, event, after, by simp, start, kept⟩
    · obtain ⟨before, event, after, rfl, start, kept⟩ := early
      refine ⟨before, event, after ++ events, by simp, start, ?_⟩
      intro later member
      rcases List.mem_append.mp member with member | member
      · exact kept later member
      · exact calm later member

theorem since_snoc {journal : Journal} {event : Event} :
    (journal ++ [event]).Since starts stops ↔
      starts event ∨ journal.Since starts stops ∧ ¬ stops event := by
  have single : Since [event] starts stops ↔ starts event := by
    constructor
    · intro since
      obtain ⟨before, found, after, split, start, _⟩ := since
      rcases List.singleton_eq_append_iff.mp split with ⟨_, eq⟩ | ⟨_, eq⟩
      · cases eq
        exact start
      · cases eq
    · exact fun start => ⟨[], event, [], rfl, start, by simp⟩
  rw [since_append, single]
  simp

/-- Nothing of either kind happens afterwards when nothing of the one kind and nothing of the other
    kind does, since both count from the last start. -/
theorem since_or {journal : Journal} {others : Event → Prop} :
    journal.Since starts (fun event => stops event ∨ others event) ↔
      journal.Since starts stops ∧ journal.Since starts others := by
  induction journal using List.reverseRecOn with
  | nil => simp [not_since_nil]
  | append_singleton journal event ih =>
    rw [since_snoc, since_snoc, since_snoc, ih]
    by_cases start : starts event
    · simp [start]
    · simp only [start, false_or, not_or]
      constructor
      · intro all
        obtain ⟨⟨first, second⟩, calm, still⟩ := all
        exact ⟨⟨first, calm⟩, second, still⟩
      · intro all
        obtain ⟨⟨first, calm⟩, second, still⟩ := all
        exact ⟨⟨first, second⟩, calm, still⟩

/-- Among events where whatever stops it also starts it, some start is the last word. -/
theorem since_iff_exists {events : Journal}
    (agree : ∀ event ∈ events, starts event → ∀ other ∈ events, stops other → starts other) :
    events.Since starts stops ↔ ∃ event ∈ events, starts event := by
  induction events using List.reverseRecOn with
  | nil => simp [not_since_nil]
  | append_singleton events event ih =>
    rw [since_snoc]
    constructor
    · intro either
      rcases either with start | ⟨⟨before, found, after, rfl, start, _⟩, _⟩
      · exact ⟨event, by simp, start⟩
      · exact ⟨found, by simp, start⟩
    · intro known
      obtain ⟨found, member, start⟩ := known
      rcases List.mem_append.mp member with earlier | last
      · -- The last event starts it again, or it does not stop it either.
        by_cases again : starts event
        · exact Or.inl again
        · right
          constructor
          · rw [ih]
            · exact ⟨found, earlier, start⟩
            · intro one inside first other within
              exact agree one (List.mem_append_left _ inside) first other
                (List.mem_append_left _ within)
          · exact fun stop => again (agree found member start event (by simp) stop)
      · rw [List.mem_singleton.mp last] at start
        exact Or.inl start

theorem since_append_iff {journal events : Journal}
    (agree : ∀ event ∈ events, starts event → ∀ other ∈ events, stops other → starts other) :
    (journal ++ events).Since starts stops ↔
      (∃ event ∈ events, starts event) ∨
        journal.Since starts stops ∧ ¬ ∃ event ∈ events, stops event := by
  rw [since_append, since_iff_exists agree, not_exists]
  simp only [not_and]

/-- The worker was given the queue, and no event since then is selected for the two. -/
def Lasts (journal : Journal) (stops : Event → Option Placement) (placement : Placement) : Prop :=
  journal.Since (fun event => event.gives = some placement)
    fun event => stops event = some placement

abbrev Unrevoked (journal : Journal) (placement : Placement) : Prop :=
  journal.Lasts Event.revokes placement

abbrev Unreturned (journal : Journal) (placement : Placement) : Prop :=
  journal.Lasts Event.returns placement

/-- The worker is the last one that the queue was given to. -/
def Newest (journal : Journal) (placement : Placement) : Prop :=
  journal.Since (fun event => event.gives = some placement)
    fun event => ∃ worker, event.gives = some ⟨worker, placement.queue⟩

/-- The worker was given the queue, and since then neither told to give it up nor handed it back. -/
def InForce (journal : Journal) (placement : Placement) : Prop :=
  journal.Since (fun event => event.gives = some placement)
    fun event => event.revokes = some placement ∨ event.returns = some placement

theorem inForce_iff {journal : Journal} {placement : Placement} :
    journal.InForce placement ↔ journal.Unrevoked placement ∧ journal.Unreturned placement :=
  since_or

theorem mem_heldBy {journal : Journal} {worker : Worker} {queue : Queue} :
    queue ∈ journal.heldBy worker ↔ journal.InForce ⟨worker, queue⟩ := by
  induction journal using List.reverseRecOn with
  | nil => simp [heldBy, InForce, not_since_nil]
  | append_singleton journal event ih =>
    rw [InForce, since_snoc, not_or]
    simp only [heldBy, List.foldl_append, List.foldl_cons, List.foldl_nil, Event.mem_replay]
    exact or_congr_right (and_congr_left fun _ => ih)

def Occurs (events : Journal) (select : Event → Option Placement) (placement : Placement) : Prop :=
  ∃ event ∈ events, select event = some placement

abbrev Given (events : Journal) (placement : Placement) : Prop :=
  events.Occurs Event.gives placement

abbrev Revoked (events : Journal) (placement : Placement) : Prop :=
  events.Occurs Event.revokes placement

abbrev Returned (events : Journal) (placement : Placement) : Prop :=
  events.Occurs Event.returns placement

variable {journal events : Journal} {placement : Placement} {select stops : Event → Option Placement}

theorem lasts_append (apart : events.Given placement → ¬ events.Occurs stops placement) :
    (journal ++ events).Lasts stops placement ↔
      events.Given placement ∨ journal.Lasts stops placement ∧ ¬ events.Occurs stops placement := by
  apply since_append_iff
  intro event member start other within stop
  exact absurd ⟨other, within, stop⟩ (apart ⟨event, member, start⟩)

theorem newest_append
    (single : ∀ worker, events.Given placement → events.Given ⟨worker, placement.queue⟩ →
      worker = placement.worker) :
    (journal ++ events).Newest placement ↔
      events.Given placement ∨
        journal.Newest placement ∧ ∀ worker, ¬ events.Given ⟨worker, placement.queue⟩ := by
  have agree : ∀ event ∈ events, event.gives = some placement → ∀ other ∈ events,
      (∃ worker, other.gives = some ⟨worker, placement.queue⟩) → other.gives = some placement := by
    intro event member start other within taken
    obtain ⟨worker, gives⟩ := taken
    rw [single worker ⟨event, member, start⟩ ⟨other, within, gives⟩] at gives
    exact gives
  have quiet : (¬ ∃ event ∈ events, ∃ worker, event.gives = some ⟨worker, placement.queue⟩) ↔
      ∀ worker, ¬ events.Given ⟨worker, placement.queue⟩ := by
    simp only [Occurs, not_exists, not_and]
    exact ⟨fun none worker event member => none event member worker,
      fun none event member worker => none worker event member⟩
  rw [Newest, since_append_iff agree, quiet]
  rfl

theorem mem_heldBy_append {worker : Worker} {queue : Queue}
    (kept : events.Given ⟨worker, queue⟩ → ¬ events.Revoked ⟨worker, queue⟩)
    (still : events.Given ⟨worker, queue⟩ → ¬ events.Returned ⟨worker, queue⟩) :
    queue ∈ (journal ++ events).heldBy worker ↔
      events.Given ⟨worker, queue⟩ ∨ queue ∈ journal.heldBy worker ∧
        ¬ events.Revoked ⟨worker, queue⟩ ∧ ¬ events.Returned ⟨worker, queue⟩ := by
  rw [mem_heldBy, mem_heldBy, inForce_iff, inForce_iff, Unrevoked, lasts_append kept, Unreturned,
    lasts_append still]
  constructor
  · intro both
    obtain ⟨given | ⟨first, calm⟩, given | ⟨second, quiet⟩⟩ := both
    · exact Or.inl given
    · exact Or.inl given
    · exact Or.inl given
    · exact Or.inr ⟨⟨first, second⟩, calm, quiet⟩
  · intro either
    rcases either with given | ⟨⟨first, second⟩, calm, quiet⟩
    · exact ⟨Or.inl given, Or.inl given⟩
    · exact ⟨Or.inr ⟨first, calm⟩, Or.inr ⟨second, quiet⟩⟩

theorem mem_heldBy_iff_given {worker : Worker} {queue : Queue}
    (kept : ¬ events.Revoked ⟨worker, queue⟩) (still : ¬ events.Returned ⟨worker, queue⟩) :
    queue ∈ events.heldBy worker ↔ events.Given ⟨worker, queue⟩ := by
  rw [← List.nil_append events, mem_heldBy_append fun _ => kept]
  · simp [heldBy]
  · exact fun _ => still

theorem lasts_iff_given (never : ¬ events.Occurs stops placement) :
    events.Lasts stops placement ↔ events.Given placement := by
  rw [← List.nil_append events, lasts_append fun _ => never]
  simp [Lasts, not_since_nil]

theorem Lasts.given (lasts : journal.Lasts stops placement) : journal.Given placement :=
  lasts.started

theorem given_of_mem_heldBy {worker : Worker} {queue : Queue}
    (has : queue ∈ journal.heldBy worker) : journal.Given ⟨worker, queue⟩ :=
  (mem_heldBy.mp has).started

theorem mem_heldBy_or_returned {worker : Worker} {queue : Queue}
    (unrevoked : journal.Unrevoked ⟨worker, queue⟩) :
    queue ∈ journal.heldBy worker ∨ journal.Returned ⟨worker, queue⟩ := by
  by_cases back : journal.Returned ⟨worker, queue⟩
  · exact Or.inr back
  · left
    have unreturned := (lasts_iff_given back).mpr unrevoked.given
    exact mem_heldBy.mpr (inForce_iff.mpr ⟨unrevoked, unreturned⟩)

@[simp]
theorem not_occurs_nil : ¬ Occurs [] select placement := by
  simp [Occurs]

theorem occurs_append :
    (journal ++ events).Occurs select placement ↔
      journal.Occurs select placement ∨ events.Occurs select placement := by
  simp only [Occurs, List.mem_append, or_and_right, exists_or]

theorem newest_iff_given
    (single : ∀ worker, events.Given placement → events.Given ⟨worker, placement.queue⟩ →
      worker = placement.worker) :
    events.Newest placement ↔ events.Given placement := by
  rw [← List.nil_append events, newest_append single]
  simp [Newest, not_since_nil]

variable {α : Type} {list : List α} {event : α → Event}

theorem occurs_map :
    Occurs (list.map event) select placement ↔ ∃ a ∈ list, select (event a) = some placement := by
  simp [Occurs]

theorem not_occurs_map (none : ∀ a, select (event a) = none) :
    ¬ Occurs (list.map event) select placement := by
  simp [Occurs, none]

theorem filter_map_untold (untold : ∀ a, (event a).isTold = false) :
    (list.map event).filter Event.isTold = [] := by
  simp [untold]

end Journal

end QueueAssignment
