import QueueAssignment.Proofs.Scanned

/-!
Which topology the workers are given queues of. A cycle whose scan differs from what counts as owned
recomputes all that waits. A cycle that finds just what counts as owned only delivers, so an assign
may outlast the topology that it was made for.
-/
namespace QueueAssignment
open Std

namespace Survey

def topology (surveys : List Survey) : QueueSet :=
  surveys.foldl (fun before survey => if survey.differs then survey.found else before) ∅

theorem topology_snoc (surveys : List Survey) (survey : Survey) :
    topology (surveys ++ [survey]) = if survey.differs then survey.found else topology surveys := by
  rw [topology, List.foldl_append]
  rfl

end Survey

def Site.surveys (site : Site) : List Act → List Survey
  | [] => []
  | act :: rest => site.survey act ++ (site.after act).surveys rest

/-- The sites that runs lead to, with the journal of the run and the cycles it completed. -/
inductive Surveyed : Site → Journal → List Survey → Prop where
  | start (job : Job) : Surveyed (.direct (.start job)) [] []
  | restore {job : Job} {checkpoint : Checkpoint} {metrics : Metrics} {c : Coordinator} :
      Coordinator.restore job checkpoint metrics = .ok c →
      Surveyed (.direct c) c.restoredEvents []
  | act {site : Site} {journal : Journal} {surveys : List Survey}
      (before : Surveyed site journal surveys) (act : Act) :
      Surveyed (site.after act) (journal ++ site.events act) (surveys ++ site.survey act)

namespace Surveyed

variable {site : Site} {journal : Journal} {surveys : List Survey}

theorem reached (surveyed : Surveyed site journal surveys) : Reached site journal := by
  induction surveyed with
  | start job => exact .start job
  | restore opened => exact .restore opened
  | act before act ih => exact ih.act act

theorem run (surveyed : Surveyed site journal surveys) (acts : List Act) :
    Surveyed (site.run acts) (journal ++ site.journal acts) (surveys ++ site.surveys acts) := by
  induction acts generalizing site journal surveys with
  | nil => simpa [Site.run, Site.journal, Site.surveys] using surveyed
  | cons act rest ih =>
    have later := ih (surveyed.act act)
    rw [List.append_assoc, List.append_assoc] at later
    exact later

end Surveyed

namespace Desk

variable {desk next : Desk} {journal events : Journal}

/-- Nothing is asked of the strategy: what waits afterwards waited before, and what is given was
    waiting to be. -/
structure Calm (desk next : Desk) (events : Journal) : Prop where
  pending : ∀ placement : Placement, next.reconciler.pending[placement]? = none ∨
    next.reconciler.pending[placement]? = desk.reconciler.pending[placement]?
  given : ∀ {placement : Placement}, events.Given placement →
    desk.reconciler.pending[placement]?.map Split.tag = some .assign

def KeepsAbsent (desk next : Desk) : Prop :=
  ∀ placement : Placement, desk.dispatcher.registry.isRegistered placement.worker = false →
    next.reconciler.pending[placement]? = desk.reconciler.pending[placement]?

structure Offers (next : Desk) (events : Journal) (queues : QueueSet) : Prop where
  pending : ∀ {placement : Placement},
    next.reconciler.pending[placement]?.map Split.tag = some .assign → placement.queue ∈ queues
  given : ∀ {placement}, events.Given placement → placement.queue ∈ queues

inductive Turns (desk next : Desk) (events : Journal) : List Survey → Prop where
  | calm : desk.Calm next events → Turns desk next events []
  | same (found : QueueSet) : desk.Calm next events → desk.KeepsAbsent next →
      Turns desk next events [⟨found, false⟩]
  | merged (found : QueueSet) : next.Offers events found → Turns desk next events [⟨found, true⟩]
  | returned (placement : Placement) : events.Returned placement → Turns desk next events []

theorem Calm.aside (same : next.reconciler = desk.reconciler) : desk.Calm next [] where
  pending := fun placement => Or.inr (by rw [same])
  given := by simp

theorem Turns.aside (same : next.reconciler = desk.reconciler) : desk.Turns next [] [] :=
  .calm (.aside same)

theorem Flushes.calm {workers : WorkerSet} {batch : Batch} (keyed : desk.reconciler.pending.Keyed)
    (flushes : desk.Flushes workers next batch) : desk.Calm next batch.events where
  pending := by
    intro placement
    rw [flushes.reconciler, Reconciler.getElem?_pending_drain]
    split
    · exact Or.inl rfl
    · exact Or.inr rfl
  given := by
    intro placement given
    rw [Batch.given_events, flushes.drained, mem_tagged_batchFor keyed] at given
    exact given.2

theorem Flushes.keepsAbsent {batch : Batch}
    (flushes : desk.Flushes desk.dispatcher.registry.workers next batch) :
    desk.KeepsAbsent next := by
  intro placement absent
  have unserved : placement.worker ∉ desk.dispatcher.registry.workers := by
    rw [Registry.mem_workers, absent]
    exact Bool.false_ne_true
  rw [flushes.reconciler, Reconciler.getElem?_pending_drain, if_neg unserved]

theorem Calm.offers {queues : QueueSet} {past : Journal} (calm : desk.Calm next events)
    (offers : desk.Offers past queues) : next.Offers events queues where
  pending := by
    intro placement waits
    rcases calm.pending placement with none | same
    · simp [none] at waits
    · exact offers.pending (same ▸ waits)
  given := fun given => offers.pending (calm.given given)

end Desk

namespace Coordinator

variable {c : Coordinator} {journal : Journal}

theorem calm_flush (keyed : c.desk.reconciler.pending.Keyed) (workers : WorkerSet) :
    c.desk.Calm (c.flush workers).coordinator.desk (c.flushEvents workers) := by
  unfold flush flushEvents
  cases flushed : c.desk.flush workers with
  | error e => exact .aside rfl
  | ok pair => exact (Desk.flush_ok flushed).calm keyed

theorem calm_addWorker (keyed : c.desk.reconciler.pending.Keyed) (worker : Worker)
    (isOpen : Bool) :
    c.desk.Calm (c.addWorker worker isOpen).coordinator.desk (c.addWorkerEvents worker isOpen) := by
  simp only [addWorker, addWorkerEvents]
  split
  · have served := calm_flush (c := { c with desk := c.desk.register worker isOpen }) keyed
      (ExtTreeSet.ofList [worker])
    exact ⟨served.pending, served.given⟩
  · exact .aside rfl

theorem turns_completeCycle (keyed : c.desk.reconciler.pending.Keyed) (found : QueueSet) :
    c.desk.Turns c.completeCycle.coordinator.desk c.completeCycleEvents [⟨found, false⟩] := by
  obtain ⟨batch, flushes, told, _⟩ := c.completeCycle_flushes
  rw [told]
  exact .same found (flushes.calm keyed) flushes.keepsAbsent

theorem turns_returnSplits (c : Coordinator) (worker : Worker) (splits : List Split) :
    c.desk.Turns (c.returnSplits worker splits).coordinator.desk
      (c.returnSplitsEvents worker splits) [] := by
  cases splits with
  -- A worker that lost nothing leaves no trace.
  | nil => exact .aside rfl
  | cons split rest =>
    refine .returned ⟨worker, split.queue⟩ ⟨.lost ⟨worker, split.queue⟩, ?_, rfl⟩
    simp [returnSplitsEvents, Journal.losses]

theorem Finishes.offers {change : SplitChange} {target : Assignment} {delta : Delta}
    {placed next : Desk} {batch : Batch}
    (finishes : c.Finishes change target delta placed batch next)
    (accounted : c.desk.Accounted journal) (fits : change.Fits) :
    next.Offers (delta.adoptions ++ batch.events) change.queues := by
  have merges := Reconciler.merges_of_apply accounted.balanced fits finishes.applied
  have after := accounted.merge fits finishes.applied finishes.settled
  -- An accepted target places queues of the change only, and what waits or is given is placed.
  have covered : ∀ {worker queue}, queue ∈ placed.reconciler.current.queuesOf worker →
      queue ∈ change.queues := by
    intro worker queue has
    obtain ⟨owners, accepted, _, merged⟩ := Reconciler.apply_ok finishes.applied
    obtain ⟨lookup, inside⟩ := Assignment.targetOwners_ok accepted
    rw [merged, Reconciler.merged, Assignment.mem_queuesOf_withoutIdle, ← lookup] at has
    exact Table.mem_keys.mpr (inside _ (ExtTreeMap.mem_iff_isSome_getElem?.mpr (by simp [has])))
  constructor
  · intro placement waits
    rcases (finishes.flushes.calm after.balanced.pending).pending placement with none | same
    · simp [none] at waits
    · rw [same, after.balanced.net, Reconciler.due_eq_assign_iff] at waits
      exact covered waits.1
  · intro placement given
    rcases Journal.occurs_append.mp given with adopted | told
    · exact covered (merges.adopted.mp (Delta.given_adoptions.mp adopted)).1
    · have sent := Batch.given_events.mp told
      exact covered ((finishes.flushes.mem_assigned after _).mp sent).2.1

theorem Ends.turns {change : QueueChange} {known : SplitMap} {starting stopping : OffsetMap}
    {outcome : Outcome} {events : Journal}
    (ends : c.Ends (.ofOffsets change known starting stopping) outcome events)
    (accounted : c.desk.Accounted journal)
    (apart : ∀ queue ∈ change.decreased, queue ∉ change.latest) (keyed : known.Keyed) :
    c.desk.Turns outcome.coordinator.desk events
      (match outcome.result with
        | .ok () => [⟨change.latest, true⟩]
        | .error _ => []) := by
  cases ends with
  | merged finishes done told =>
    have offers := finishes.offers accounted (SplitChange.fits_ofOffsets keyed apart _ _)
    rw [done, told]
    have found : ∀ {queue}, queue ∈ (SplitChange.ofOffsets change known starting stopping).queues →
        queue ∈ change.latest := by
      intro queue there
      rw [SplitChange.queues, Table.mem_keys, ExtTreeMap.mem_iff_isSome_getElem?,
        SplitChange.getElem?_latest] at there
      by_contra outside
      simp [outside] at there
    refine .merged _ { pending := ?_, given := ?_ }
    · exact fun waits => found (offers.pending waits)
    · exact fun given => found (offers.given given)
  | refused _ reconciler _ failed told =>
    obtain ⟨e, failed⟩ := failed
    rw [failed, told]
    exact .aside reconciler

theorem turns_cycle (accounted : c.desk.Accounted journal) (broker : Broker) :
    c.desk.Turns (c.cycle broker).coordinator.desk (c.cycleEvents broker)
      (c.cycleSurveys broker) := by
  cases scanned : Scan.run broker c.job.topics with
  | error e =>
    have still : c.cycle broker = ⟨c, .error e⟩ := by simp [cycle, scanned]
    have quiet : c.cycleEvents broker = [] := by simp [cycleEvents, scanned]
    have none : c.cycleSurveys broker = [] := by simp [cycleSurveys, scanned]
    rw [still, quiet, none]
    exact .aside rfl
  | ok scan =>
    simp only [cycleSurveys, scanned]
    cases cycle_cycles scanned with
    | same unchanged flushes done told =>
      rw [done, told, unchanged]
      exact .same _ (flushes.calm accounted.balanced.pending) flushes.keepsAbsent
    | differs found ends =>
      have turns := ends.turns accounted (apart_of_changeTo found) accounted.balanced.known
      rw [between_of_changeTo found] at turns
      rw [found]
      exact turns

theorem Does.turns {metered : Prop} {next : Coordinator} {events : Journal}
    {surveys : List Survey} (does : c.Does metered next events surveys)
    (accounted : c.desk.Accounted journal) :
    c.desk.Turns next.desk events surveys := by
  cases does with
  | rest | removeWorker | hangUp | count => exact .aside rfl
  | addWorker worker isOpen => exact .calm (calm_addWorker accounted.balanced.pending worker isOpen)
  | returnSplits worker splits => exact c.turns_returnSplits worker splits
  | completeCycle latest => exact turns_completeCycle accounted.balanced.pending latest
  | finish apart keyed lookup => exact (c.finish_ends _ _ lookup).2.turns accounted apart keyed
  | cycle broker => exact turns_cycle accounted broker

end Coordinator

theorem Reached.turns {site : Site} {journal : Journal} (reached : Reached site journal)
    (act : Act) :
    site.coordinator.desk.Turns (site.after act).coordinator.desk (site.events act)
      (site.survey act) :=
  (Site.does reached.fits act).turns reached.sound.accounted

theorem Desk.Turns.offers {desk next : Desk} {past events : Journal} {before surveys : List Survey}
    (turns : desk.Turns next events surveys) (kept : ∀ placement, ¬ events.Returned placement)
    (offers : desk.Offers past (Survey.topology before)) :
    next.Offers events (Survey.topology (before ++ surveys)) := by
  cases turns with
  | calm calm =>
    rw [List.append_nil]
    exact calm.offers offers
  | same found calm =>
    rw [Survey.topology_snoc]
    exact calm.offers offers
  | merged found merged =>
    rw [Survey.topology_snoc]
    exact merged
  | returned placement back => exact absurd back (kept placement)

theorem Surveyed.offers {site : Site} {journal : Journal} {surveys : List Survey}
    (surveyed : Surveyed site journal surveys) (kept : ∀ placement, ¬ journal.Returned placement) :
    site.coordinator.desk.Offers [] (Survey.topology surveys) := by
  induction surveyed with
  | start job => exact ⟨by simp [Site.coordinator, Coordinator.start], by simp⟩
  | restore opened =>
    have reconciler := (Coordinator.restore_ok opened).1
    exact ⟨by simp [Site.coordinator, reconciler, Reconciler.restore], by simp⟩
  | act before act ih =>
    simp only [Journal.occurs_append, not_or, forall_and] at kept
    have now := (before.reached.turns act).offers kept.2 (ih kept.1)
    exact ⟨now.pending, by simp⟩

/-- As long as nothing is handed back, every assign that is sent, and every one that waits, is of a
    queue that was there in the last cycle that asked the strategy. A cycle that finds what counts
    as owned does not ask it, and takes back nothing that waits for an absent worker. -/
theorem assigned_queue_in_merged_topology {site : Site} {journal : Journal} {surveys : List Survey}
    (surveyed : Surveyed site journal surveys) (act : Act)
    (kept : ∀ placement, ¬ (journal ++ site.events act).Returned placement) :
    let before := site.coordinator.desk
    let after := (site.after act).coordinator.desk
    let topology := Survey.topology (surveys ++ site.survey act)
    (∀ worker split, .told worker split ∈ site.events act → split.tag = .assign →
      split.queue ∈ topology) ∧
    (∀ placement split, after.reconciler.pending[(placement : Placement)]? = some split →
      split.tag = .assign → placement.queue ∈ topology) ∧
    ∀ found, site.survey act = [⟨found, false⟩] → ∀ placement : Placement,
      before.dispatcher.registry.isRegistered placement.worker = false →
        after.reconciler.pending[placement]? = before.reconciler.pending[placement]? := by
  intro before after topology
  simp only [Journal.occurs_append, not_or, forall_and] at kept
  have turns := surveyed.reached.turns act
  have offers := turns.offers kept.2 (surveyed.offers kept.1)
  refine ⟨?_, ?_, ?_⟩
  · intro worker split told assign
    have given : (site.events act).Given ⟨worker, split.queue⟩ :=
      ⟨_, told, by simp [Event.gives, Split.isAssign, assign]⟩
    exact offers.given given
  · intro placement split waits assign
    exact offers.pending (by simp [after, waits, assign])
  · intro found same
    rw [same] at turns
    cases turns with
    | same _ _ absent => exact absent

namespace Sample

def surveys (acts : List Act) : List Survey := (Site.direct (.start job)).surveys acts

theorem surveyed (acts : List Act) : Surveyed (site acts) (journal acts) (surveys acts) :=
  (Surveyed.start job).run acts

end Sample

theorem late_worker_gets_found_queue :
    let acts := [Act.join 0 true, .cycle (Sample.broker [0, 1])]
    Sample.queue 1 ∈ Survey.topology
      (Sample.surveys acts ++ (Sample.site acts).survey (.join 1 true)) := by
  intro acts
  have calm : ∀ event ∈ Sample.journal acts ++ (Sample.site acts).events (.join 1 true),
      event.returns = none := by decide +kernel
  have kept : ∀ placement,
      ¬ (Sample.journal acts ++ (Sample.site acts).events (.join 1 true)).Returned placement := by
    intro placement back
    obtain ⟨event, there, returns⟩ := back
    rw [calm event there] at returns
    cases returns
  obtain ⟨sent, _⟩ := assigned_queue_in_merged_topology (Sample.surveyed acts) (.join 1 true) kept
  exact sent 1 (.assign (Sample.queue 1) 0 none) (by decide +kernel) rfl

/-- A queue waits for a worker that is not there yet and leaves the topology, so that the next scan
    finds just what the other worker holds. The queue still counts as known, and the worker is sent
    it when it joins. -/
theorem vanished_queue_assigned :
    let acts := [Act.join 0 true, .cycle (Sample.broker [0, 1]), .cycle (Sample.broker [0])]
    (∀ event ∈ Sample.journal acts, event.returns = none) ∧
      (Sample.surveys acts).getLast? = some ⟨(Sample.scan [0]).queues, false⟩ ∧
      Sample.queue 1 ∉ (Sample.scan [0]).queues ∧
      Sample.queue 1 ∈ (Sample.site acts).coordinator.desk.reconciler.known ∧
      .told 1 (.assign (Sample.queue 1) 0 none) ∈ (Sample.site acts).events (.join 1 true) := by
  decide +kernel

end QueueAssignment
