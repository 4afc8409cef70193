import QueueAssignment.Proofs.Steps

/-!
The owner on record for a queue and the workers that hold it. The record names the last worker that
was given the queue, until that worker is told to give it up. It names just the holder as long as the
queue is never handed back and never with two workers.
-/
namespace QueueAssignment
open Std

namespace Event

def record (queue : Queue) (owner : Option Worker) (event : Event) : Option Worker :=
  match event.gives with
  | some given => if given.queue = queue then some given.worker else owner
  | none => owner.filter fun worker => event.revokes ≠ some ⟨worker, queue⟩

theorem not_revokes_of_gives {event : Event} {given : Placement} (gives : event.gives = some given)
    (placement : Placement) : event.revokes ≠ some placement := by
  cases event with
  | restored | adopted | lost => simp [revokes]
  | told worker split =>
    cases tag : split.tag with
    | assign => simp [revokes, Split.isRevoke, tag]
    | revoke => simp [Event.gives, Split.isAssign, tag] at gives

end Event

namespace Journal

variable {journal events : Journal} {queue : Queue} {worker : Worker}

def ownerOf (journal : Journal) (queue : Queue) : Option Worker :=
  journal.foldl (Event.record queue) none

theorem ownerOf_eq_some_iff : journal.ownerOf queue = some worker ↔
    journal.Newest ⟨worker, queue⟩ ∧ journal.Unrevoked ⟨worker, queue⟩ := by
  induction journal using List.reverseRecOn with
  | nil => simp [ownerOf, Newest, not_since_nil]
  | append_singleton journal event ih =>
    rw [Newest, since_snoc, Unrevoked, Lasts, since_snoc, ← Newest, ← Lasts]
    rw [ownerOf, List.foldl_append, List.foldl_cons, List.foldl_nil, ← ownerOf, Event.record]
    cases gives : event.gives with
    | none => simp [Option.filter_eq_some_iff, ih, and_assoc]
    | some given =>
      obtain ⟨v, q⟩ := given
      have kept := Event.not_revokes_of_gives gives
      by_cases same : q = queue
      · subst same
        by_cases own : v = worker
        · simp [own]
        · simp [own]
      · simp [same, kept, ih]

def holders (journal : Journal) (queue : Queue) : WorkerSet :=
  ExtTreeSet.ofList ((journal.filterMap fun event => event.gives.map Placement.worker).filter
    fun worker => queue ∈ journal.heldBy worker)

theorem mem_holders : worker ∈ journal.holders queue ↔ queue ∈ journal.heldBy worker := by
  rw [holders, Table.mem_ofList, List.mem_filter, decide_eq_true_eq, and_iff_right_iff_imp]
  intro held
  obtain ⟨event, member, gives⟩ := given_of_mem_heldBy held
  exact List.mem_filterMap.mpr ⟨event, member, by rw [gives]; rfl⟩

/-- The owner on record holds the queue, and nobody else does. -/
def Recorded (journal : Journal) (queue : Queue) : Prop :=
  ∀ worker, queue ∈ journal.heldBy worker ↔ journal.ownerOf queue = some worker

theorem recorded_of_holders
    (same : (journal.holders queue).toList = (journal.ownerOf queue).toList) :
    journal.Recorded queue := by
  intro worker
  rw [← mem_holders, ← ExtTreeSet.mem_toList, same, Option.mem_toList]

theorem ownerOf_append_ungiven (ungiven : ∀ worker, ¬ events.Given ⟨worker, queue⟩) :
    (journal ++ events).ownerOf queue = some worker ↔
      journal.ownerOf queue = some worker ∧ ¬ events.Revoked ⟨worker, queue⟩ := by
  rw [ownerOf_eq_some_iff, ownerOf_eq_some_iff,
    newest_append fun _ given => absurd given (ungiven worker), Unrevoked,
    lasts_append fun given => absurd given (ungiven worker)]
  simp [ungiven, and_assoc]

theorem Recorded.append_ungiven (recorded : journal.Recorded queue)
    (ungiven : ∀ worker, ¬ events.Given ⟨worker, queue⟩)
    (kept : ∀ worker, ¬ events.Returned ⟨worker, queue⟩) : (journal ++ events).Recorded queue := by
  intro worker
  rw [mem_heldBy_append (fun given => absurd given (ungiven worker)) fun _ => kept worker,
    ownerOf_append_ungiven ungiven, recorded worker]
  simp [ungiven, kept]

theorem recorded_of_given (single : ∀ v w, events.Given ⟨v, queue⟩ → events.Given ⟨w, queue⟩ → v = w)
    (unrevoked : ∀ worker, ¬ events.Revoked ⟨worker, queue⟩)
    (kept : ∀ worker, ¬ events.Returned ⟨worker, queue⟩) : events.Recorded queue := by
  intro worker
  rw [mem_heldBy_iff_given (unrevoked worker) (kept worker), ownerOf_eq_some_iff,
    newest_iff_given fun other own again => single other worker again own, Unrevoked,
    lasts_iff_given (unrevoked worker), and_self_iff]

theorem Recorded.given {given : Worker} (gives : events.Given ⟨given, queue⟩)
    (single : ∀ worker, events.Given ⟨worker, queue⟩ → worker = given)
    (apart : ¬ events.Revoked ⟨given, queue⟩)
    (alone : ∀ worker, queue ∈ (journal ++ events).heldBy worker ↔ worker = given) :
    (journal ++ events).Recorded queue := by
  intro worker
  rw [alone, ownerOf_eq_some_iff]
  constructor
  · rintro rfl
    constructor
    · exact (newest_append fun other _ again => single other again).mpr (Or.inl gives)
    · exact (lasts_append fun _ => apart).mpr (Or.inl gives)
  · rintro ⟨newest, _⟩
    rw [newest_append fun other own again =>
      (single other again).trans (single worker own).symm] at newest
    rcases newest with own | ⟨_, nobody⟩
    · exact single worker own
    · exact absurd gives (nobody given)

end Journal

namespace Desk

variable {job : Job} {desk next : Desk} {journal events : Journal} {queue : Queue}

theorem Flushes.recorded {workers : WorkerSet} {batch : Batch}
    (flushes : desk.Flushes workers next batch) (accounted : desk.Accounted journal)
    (recorded : journal.Recorded queue)
    (alone : ∀ v w, queue ∈ (journal ++ batch.events).heldBy v →
      queue ∈ (journal ++ batch.events).heldBy w → v = w) :
    (journal ++ batch.events).Recorded queue := by
  by_cases given : ∃ worker, batch.events.Given ⟨worker, queue⟩
  · obtain ⟨given, gives⟩ := given
    have holds : queue ∈ (journal ++ batch.events).heldBy given :=
      (flushes.mem_heldBy accounted).mpr (Or.inl gives)
    refine .given gives (fun other again => flushes.single accounted again gives)
      (flushes.apart accounted gives) fun worker => ⟨fun held => alone _ _ held holds, ?_⟩
    rintro rfl
    exact holds
  · exact recorded.append_ungiven (not_exists.mp given) fun _ => Batch.not_returned_events

theorem recorded_adoptions {next : Reconciler} {change : SplitChange} {delta : Delta}
    (merges : desk.reconciler.Merges change next delta) (accounted : desk.Accounted journal)
    (recorded : journal.Recorded queue) : (journal ++ delta.adoptions).Recorded queue := by
  have kept : ∀ worker, ¬ delta.adoptions.Returned ⟨worker, queue⟩ :=
    fun _ => Delta.not_returned_adoptions
  cases adopted : delta.adopted[queue]? with
  | none =>
    refine recorded.append_ungiven (fun worker given => ?_) kept
    rw [Delta.given_adoptions, adopted] at given
    cases given
  | some owner =>
    have free : ∀ worker, queue ∉ journal.heldBy worker :=
      fun worker held => accounted.balanced.placed held (merges.adopted.mp adopted).2
    refine .given (Delta.given_adoptions.mpr adopted) ?_ Delta.not_revoked_adoptions ?_
    · intro worker given
      rw [Delta.given_adoptions, adopted] at given
      exact (Option.some.inj given).symm
    · intro worker
      rw [Delta.mem_heldBy_adoptions, adopted]
      simp [free, eq_comm]

theorem Steps.recorded (steps : desk.Steps job events next) (accounted : desk.Accounted journal)
    (untold : events.filter Event.isTold = [])
    (kept : ∀ worker, ¬ events.Returned ⟨worker, queue⟩) (recorded : journal.Recorded queue) :
    (journal ++ events).Recorded queue := by
  induction steps with
  | none => simpa using recorded
  | @more middle next before events steps step ih =>
    rw [List.filter_append, List.append_eq_nil_iff] at untold
    simp only [Journal.occurs_append, not_or] at kept
    have earlier := ih untold.1 fun worker => (kept worker).1
    have books := steps.accounted accounted
    rw [← List.append_assoc]
    cases step with
    | aside =>
      rw [List.append_nil]
      exact earlier
    | @flush _ _ batch _ =>
      have nothing : batch.events = [] := batch.told_events.symm.trans untold.2
      rw [nothing, List.append_nil]
      exact earlier
    | merge fits _ applied _ =>
      exact recorded_adoptions (Reconciler.merges_of_apply books.balanced fits applied) books earlier
    | release worker splits =>
      exact earlier.append_ungiven (fun _ => Journal.not_given_losses) fun other => (kept other).2

end Desk

end QueueAssignment
