import QueueAssignment.Coordinator.Restore
import QueueAssignment.EventLoop
import QueueAssignment.Proofs.Account
import QueueAssignment.Strategy.BuiltIn

/-!
Runs of a coordinator, their journals and the cycles they complete. A coordinator starts empty or
from a checkpoint, serves its callers directly, and may at some point be handed to an event loop.
What holds at the start and is kept by every operation holds after every run.
-/
namespace QueueAssignment
open Std

structure Survey where
  found : QueueSet
  /-- The scan differed from what counted as owned, and a target was merged. -/
  differs : Bool
  deriving DecidableEq

namespace Coordinator

def flushEvents (c : Coordinator) (workers : WorkerSet) : Journal :=
  match c.desk.flush workers with
  | .ok (_, batch) => batch.events
  | .error _ => []

def reconcileEvents (c : Coordinator) (change : SplitChange) : Journal :=
  match (c.reconcile change).2 with
  | .ok delta => delta.adoptions
  | .error _ => []

def addWorkerEvents (c : Coordinator) (worker : Worker) (isOpen : Bool) : Journal :=
  let c := { c with desk := c.desk.register worker isOpen }
  if c.desk.dispatcher.registry.isRegistered worker then
    c.flushEvents (ExtTreeSet.ofList [worker])
  else []

def returnSplitsEvents (c : Coordinator) (worker : Worker) (splits : List Split) : Journal :=
  if splits.isEmpty then []
  else
    let released := { c with desk := c.desk.release worker splits }
    Journal.losses worker splits ++
      match released.reconcile (released.desk.reconciler.returnedChange splits) with
      | (placed, .ok delta) => delta.adoptions ++ placed.flushEvents (placed.reachable delta)
      | (_, .error _) => []

def placeEvents (c : Coordinator) (change : QueueChange) (known : SplitMap) (lookup : Lookup) :
    Journal :=
  let starting := lookup.starting.offsets
  let stopping := lookup.stopping.offsets
  let dropped := SplitChange.dropped change known starting stopping
  let counted := c.count fun m => m.countMissing dropped
  counted.reconcileEvents (.ofOffsets change known starting stopping)

def completeCycleEvents (c : Coordinator) : Journal :=
  let c := if c.job.settings.isOneShot then { c with desk := c.desk.complete } else c
  c.flushEvents c.desk.dispatcher.registry.workers

def finish (c : Coordinator) (change : QueueChange) (known : SplitMap) (lookup : Lookup) :
    Outcome :=
  (c.place change known lookup).andThen completeCycle

def finishEvents (c : Coordinator) (change : QueueChange) (known : SplitMap) (lookup : Lookup) :
    Journal :=
  c.placeEvents change known lookup ++
    match (c.place change known lookup).result with
    | .ok () => (c.place change known lookup).coordinator.completeCycleEvents
    | .error _ => []

def cycleOverEvents (c : Coordinator) (latest : QueueSet) (lookUp : QueueSet → Lookup) : Journal :=
  match c.changeTo latest with
  | none => c.completeCycleEvents
  | some change =>
      let lookup := lookUp change.wanted
      let counted := c.count fun m => m.countMissing lookup.failures
      counted.finishEvents change c.desk.reconciler.known lookup

def cycleEvents (c : Coordinator) (broker : Broker) : Journal :=
  match Scan.run broker c.job.topics with
  | .error _ => []
  | .ok scan =>
      let counted := c.count fun m => (m.countRefusals scan.refused).countScan scan.queues.size
      counted.cycleOverEvents scan.queues (c.job.lookUp broker)

def finishSurveys (c : Coordinator) (change : QueueChange) (known : SplitMap) (lookup : Lookup) :
    List Survey :=
  match (c.finish change known lookup).result with
  | .ok () => [⟨change.latest, true⟩]
  | .error _ => []

def cycleSurveys (c : Coordinator) (broker : Broker) : List Survey :=
  match Scan.run broker c.job.topics with
  | .error _ => []
  | .ok scan =>
      match (c.cycle broker).result with
      | .ok () => [⟨scan.queues, (c.changeTo scan.queues).isSome⟩]
      | .error _ => []

def restoredEvents (c : Coordinator) : Journal :=
  c.desk.reconciler.current.placements.map fun placement =>
    .restored ⟨placement.1, placement.2⟩

end Coordinator

namespace EventLoop

def scannedEvents (loop : EventLoop) (latest : QueueSet) : Journal :=
  match loop.coordinator.changeTo latest with
  | some _ => []
  | none => loop.coordinator.completeCycleEvents

def serveEvents (loop : EventLoop) : Request → Journal
  | .join worker isOpen => loop.coordinator.addWorkerEvents worker isOpen
  | .takeBack worker splits => loop.coordinator.returnSplitsEvents worker splits
  | _ => []

def turnEvents (loop : EventLoop) (signal : Signal) : Journal :=
  match signal, loop.tasks with
  | .scanned latest, .scan :: _ => loop.scannedEvents latest
  | .lookedUp lookup, .lookUp change known :: _ =>
      loop.coordinator.finishEvents change known lookup
  | .request request, _ => loop.serveEvents request
  | _, _ => []

def stepEvents (loop : EventLoop) (signal : Signal) : Journal :=
  if loop.isRunning then loop.turnEvents signal else []

def scannedSurveys (loop : EventLoop) (latest : QueueSet) : List Survey :=
  match loop.coordinator.changeTo latest with
  | some _ => []
  | none => [⟨latest, false⟩]

def turnSurveys (loop : EventLoop) (signal : Signal) : List Survey :=
  match signal, loop.tasks with
  | .scanned latest, .scan :: _ => loop.scannedSurveys latest
  | .lookedUp lookup, .lookUp change known :: _ =>
      loop.coordinator.finishSurveys change known lookup
  | _, _ => []

def stepSurveys (loop : EventLoop) (signal : Signal) : List Survey :=
  if loop.isRunning then loop.turnSurveys signal else []

end EventLoop

inductive Site where
  | direct (coordinator : Coordinator)
  | spawned (loop : EventLoop)

inductive Act where
  | join (worker : Worker) (isOpen : Bool)
  | leave (worker : Worker)
  | takeBack (worker : Worker) (splits : List Split)
  | cycle (broker : Broker)
  /-- The receiver of a worker goes away. -/
  | hangUp (worker : Worker)
  /-- A task beside the coordinator counts something. -/
  | meter (change : Metrics → Metrics)
  | spawn
  | signal (signal : Signal)

namespace Site

def coordinator : Site → Coordinator
  | direct c => c
  | spawned loop => loop.coordinator

/-- An event loop takes signals only, and a coordinator without one takes none. -/
def after : Site → Act → Site
  | direct c, .join worker isOpen => direct (c.addWorker worker isOpen).coordinator
  | direct c, .leave worker => direct (c.removeWorker worker)
  | direct c, .takeBack worker splits => direct (c.returnSplits worker splits).coordinator
  | direct c, .cycle broker => direct (c.cycle broker).coordinator
  | direct c, .hangUp worker => direct (c.hangUp worker)
  | direct c, .meter change => direct (c.count change)
  | direct c, .spawn => spawned (.start c)
  | direct c, .signal _ => direct c
  | spawned loop, .hangUp worker =>
      spawned { loop with coordinator := loop.coordinator.hangUp worker }
  | spawned loop, .meter change =>
      spawned { loop with coordinator := loop.coordinator.count change }
  | spawned loop, .signal signal => spawned (loop.step signal)
  | spawned loop, _ => spawned loop

def events : Site → Act → Journal
  | direct c, .join worker isOpen => c.addWorkerEvents worker isOpen
  | direct c, .takeBack worker splits => c.returnSplitsEvents worker splits
  | direct c, .cycle broker => c.cycleEvents broker
  | spawned loop, .signal signal => loop.stepEvents signal
  | _, _ => []

def survey : Site → Act → List Survey
  | direct c, .cycle broker => c.cycleSurveys broker
  | spawned loop, .signal signal => loop.stepSurveys signal
  | _, _ => []

def run (site : Site) (acts : List Act) : Site := acts.foldl after site

def journal (site : Site) : List Act → Journal
  | [] => []
  | act :: rest => site.events act ++ (site.after act).journal rest

end Site

/-- The sites that runs lead to, each with the journal of its run. -/
inductive Reached : Site → Journal → Prop where
  | start (job : Job) : Reached (.direct (.start job)) []
  | restore {job : Job} {checkpoint : Checkpoint} {metrics : Metrics} {c : Coordinator} :
      Coordinator.restore job checkpoint metrics = .ok c → Reached (.direct c) c.restoredEvents
  | act {site : Site} {journal : Journal} (before : Reached site journal) (act : Act) :
      Reached (site.after act) (journal ++ site.events act)

theorem Reached.run {site : Site} {journal : Journal} (reached : Reached site journal)
    (acts : List Act) : Reached (site.run acts) (journal ++ site.journal acts) := by
  induction acts generalizing site journal with
  | nil => simpa [Site.run, Site.journal] using reached
  | cons act rest ih =>
    have later := ih (reached.act act)
    rw [List.append_assoc] at later
    exact later

namespace Sample

def job : Job where
  settings := { parallelism := 2 }
  topics := ["t"]
  strategy := Strategy.BuiltIn.average.strategy
  starting := .policy .earliest
  stopping := .policy .unbounded

def queue (index : UInt32) : Queue := ⟨"t", "b", index⟩

/-- A broker that has these queues of the topic, each from offset zero on. -/
def broker (indices : List UInt32) : Broker where
  routes := Table.ofEntries [("t", .queues (ExtTreeSet.ofList (indices.map queue)))]
  offsets := Table.ofEntries (indices.map fun index => (queue index, { min := some 0 }))

def site (acts : List Act) : Site := (Site.direct (.start job)).run acts

def journal (acts : List Act) : Journal := (Site.direct (.start job)).journal acts

theorem reached (acts : List Act) : Reached (site acts) (journal acts) :=
  (Reached.start job).run acts

end Sample

structure Kept (P : Coordinator → Journal → Prop) : Prop where
  addWorker : ∀ {c journal}, P c journal → ∀ worker isOpen,
    P (c.addWorker worker isOpen).coordinator (journal ++ c.addWorkerEvents worker isOpen)
  removeWorker : ∀ {c journal}, P c journal → ∀ worker, P (c.removeWorker worker) journal
  hangUp : ∀ {c journal}, P c journal → ∀ worker, P (c.hangUp worker) journal
  count : ∀ {c journal}, P c journal → ∀ change, P (c.count change) journal
  returnSplits : ∀ {c journal}, P c journal → ∀ worker splits,
    P (c.returnSplits worker splits).coordinator (journal ++ c.returnSplitsEvents worker splits)
  completeCycle : ∀ {c journal}, P c journal →
    P c.completeCycle.coordinator (journal ++ c.completeCycleEvents)
  finish : ∀ {c journal}, P c journal → ∀ {change : QueueChange} {known : SplitMap},
    (∀ queue ∈ change.decreased, queue ∉ change.latest) → known.Keyed → ∀ lookup,
    P (c.finish change known lookup).coordinator (journal ++ c.finishEvents change known lookup)
  known : ∀ {c journal}, P c journal → c.desk.reconciler.known.Keyed

def Task.Fits : Task → Prop
  | .scan => True
  | .lookUp change known => (∀ queue ∈ change.decreased, queue ∉ change.latest) ∧ known.Keyed

def EventLoop.Fits (loop : EventLoop) : Prop := ∀ task ∈ loop.tasks, task.Fits

def Site.Fits : Site → Prop
  | .direct _ => True
  | .spawned loop => loop.Fits

theorem Coordinator.apart_of_changeTo {c : Coordinator} {latest : QueueSet} {change : QueueChange}
    (found : c.changeTo latest = some change) :
    ∀ queue ∈ change.decreased, queue ∉ change.latest := by
  simp only [changeTo] at found
  split at found
  · cases found
  · cases found
    intro queue gone there
    exact (ExtTreeSet.mem_diff_iff.mp gone).2 there

namespace EventLoop

theorem start_eq (c : Coordinator) :
    start c =
      { coordinator := c
        tasks := if c.job.settings.isOneShot then [.scan] else []
        inFlight := c.job.settings.isOneShot
        ended := if c.job.settings.interval = some 0 then some .crashed else none } := by
  unfold start startCycle Settings.isOneShot
  cases c.job.settings.interval with
  | none => rfl
  | some period =>
    by_cases zero : period = 0
    · simp [zero]
    · simp [zero]

@[simp]
theorem coordinator_start (c : Coordinator) : (start c).coordinator = c := by
  rw [start_eq]

theorem eq_scan_of_mem_start {c : Coordinator} {task : Task} (member : task ∈ (start c).tasks) :
    task = .scan := by
  rw [start_eq] at member
  dsimp only at member
  split at member
  · exact List.mem_singleton.mp member
  · cases member

theorem coordinator_resume (loop : EventLoop) (outcome : Outcome) (next : EventLoop → EventLoop) :
    (loop.resume outcome next).coordinator =
      match outcome.result with
      | .ok () => (next { loop with coordinator := outcome.coordinator }).coordinator
      | .error _ => outcome.coordinator := by
  unfold resume
  cases outcome.result with
  | ok => rfl
  | error => rfl

theorem coordinator_finishCycle (loop : EventLoop) :
    loop.finishCycle.coordinator = loop.coordinator.completeCycle.coordinator := by
  rw [finishCycle, coordinator_resume]
  split
  · dsimp only
    split <;> rfl
  · rfl

theorem coordinator_lookedUp (loop : EventLoop) (change : QueueChange) (known : SplitMap)
    (lookup : Lookup) :
    (loop.lookedUp change known lookup).coordinator =
      (loop.coordinator.finish change known lookup).coordinator := by
  rw [lookedUp, coordinator_resume, Coordinator.finish, Outcome.andThen]
  cases (loop.coordinator.place change known lookup).result with
  | ok => exact coordinator_finishCycle _
  | error => rfl

theorem coordinator_resume_id (loop : EventLoop) (outcome : Outcome) :
    (loop.resume outcome id).coordinator = outcome.coordinator := by
  rw [coordinator_resume]
  split <;> rfl

theorem fits_startCycle {loop : EventLoop} (fits : loop.Fits) : loop.startCycle.Fits := by
  intro task member
  rcases List.mem_append.mp member with running | fresh
  · exact fits task running
  · rw [List.mem_singleton.mp fresh]
    trivial

theorem fits_stop (loop : EventLoop) (result : Except Error Unit) : (loop.stop result).Fits := by
  intro task member
  cases member

theorem fits_resume {loop : EventLoop} (fits : loop.Fits) (outcome : Outcome)
    {next : EventLoop → EventLoop} (later : ∀ {loop : EventLoop}, loop.Fits → (next loop).Fits) :
    (loop.resume outcome next).Fits := by
  unfold resume
  cases outcome.result with
  | ok => exact later fits
  | error e => exact fits_stop _ _

theorem fits_finishCycle {loop : EventLoop} (fits : loop.Fits) : loop.finishCycle.Fits := by
  apply fits_resume fits
  intro loop fits
  dsimp only
  split
  · exact fits_startCycle fits
  · exact fits

theorem fits_scanned {loop : EventLoop} (fits : loop.Fits)
    (known : loop.coordinator.desk.reconciler.known.Keyed) (latest : QueueSet) :
    (loop.scanned latest).Fits := by
  unfold scanned
  split
  · rename_i change found
    intro task member
    rcases List.mem_append.mp member with running | fresh
    · exact fits task running
    · rw [List.mem_singleton.mp fresh]
      exact ⟨Coordinator.apart_of_changeTo found, known⟩
  · exact fits_finishCycle fits

theorem fits_serve {loop : EventLoop} (fits : loop.Fits) (request : Request) :
    (loop.serve request).Fits := by
  cases request with
  | join worker isOpen => exact fits_resume fits _ id
  | leave worker => exact fits
  | takeBack worker splits => exact fits_resume fits _ id
  | snapshot => exact fits
  | close => exact fits_stop _ _

theorem fits_turn {loop : EventLoop} (fits : loop.Fits)
    (known : loop.coordinator.desk.reconciler.known.Keyed) (signal : Signal) :
    (loop.turn signal).Fits := by
  unfold turn
  split
  · split
    · exact fits
    · unfold tick
      split
      · exact fits
      · exact fits_startCycle fits
  · rename_i rest tasks
    apply fits_scanned
    · exact fun task member => fits task (by simp [tasks, member])
    · exact known
  · exact fits
  · rename_i change known lookup rest tasks
    apply fits_resume
    · exact fun task member => fits task (by simp [tasks, member])
    · exact fits_finishCycle
  · exact fits
  · exact fits_stop _ _
  · exact fits
  · exact fits_serve fits _
  · exact fits_stop _ _
  · exact fits_stop _ _

end EventLoop

/-- What can become of a coordinator in one act, with the events and the completed cycles. Where the
    act is not `metered`, only the coordinator itself touches its instruments. -/
inductive Coordinator.Does (c : Coordinator) (metered : Prop) :
    Coordinator → Journal → List Survey → Prop where
  | rest : Does c metered c [] []
  | addWorker (worker : Worker) (isOpen : Bool) :
      Does c metered (c.addWorker worker isOpen).coordinator (c.addWorkerEvents worker isOpen) []
  | removeWorker (worker : Worker) : Does c metered (c.removeWorker worker) [] []
  | hangUp (worker : Worker) : Does c metered (c.hangUp worker) [] []
  | count (counts : metered) (change : Metrics → Metrics) : Does c metered (c.count change) [] []
  | returnSplits (worker : Worker) (splits : List Split) :
      Does c metered (c.returnSplits worker splits).coordinator
        (c.returnSplitsEvents worker splits) []
  | completeCycle (latest : QueueSet) :
      Does c metered c.completeCycle.coordinator c.completeCycleEvents [⟨latest, false⟩]
  | finish {change : QueueChange} {known : SplitMap}
      (apart : ∀ queue ∈ change.decreased, queue ∉ change.latest) (keyed : known.Keyed)
      (lookup : Lookup) :
      Does c metered (c.finish change known lookup).coordinator (c.finishEvents change known lookup)
        (c.finishSurveys change known lookup)
  | cycle (broker : Broker) :
      Does c metered (c.cycle broker).coordinator (c.cycleEvents broker) (c.cycleSurveys broker)

namespace EventLoop

variable {metered : Prop}

theorem does_scanned (loop : EventLoop) (latest : QueueSet) :
    loop.coordinator.Does metered (loop.scanned latest).coordinator (loop.scannedEvents latest)
      (loop.scannedSurveys latest) := by
  unfold scanned scannedEvents scannedSurveys
  cases loop.coordinator.changeTo latest with
  | some change => exact .rest
  | none =>
    simp only [coordinator_finishCycle]
    exact .completeCycle latest

theorem does_serve (loop : EventLoop) (request : Request) :
    loop.coordinator.Does metered (loop.serve request).coordinator (loop.serveEvents request)
      [] := by
  cases request with
  | join worker isOpen =>
    rw [serve, coordinator_resume_id]
    exact .addWorker worker isOpen
  | leave worker => exact .removeWorker worker
  | takeBack worker splits =>
    rw [serve, coordinator_resume_id]
    exact .returnSplits worker splits
  | snapshot => exact .rest
  | close => exact .rest

theorem does_turn {loop : EventLoop} (fits : loop.Fits) (signal : Signal) :
    loop.coordinator.Does metered (loop.turn signal).coordinator (loop.turnEvents signal)
      (loop.turnSurveys signal) := by
  cases signal with
  | tick =>
    simp only [turn, tick]
    split
    · exact .rest
    · split
      · exact .rest
      · exact .rest
  | scanned latest =>
    unfold turn turnEvents turnSurveys
    cases loop.tasks with
    | nil => exact .rest
    | cons task rest =>
      cases task with
      | scan => exact does_scanned { loop with tasks := rest } latest
      | lookUp change known => exact .rest
  | lookedUp lookup =>
    unfold turn turnEvents turnSurveys
    cases tasks : loop.tasks with
    | nil => exact .rest
    | cons task rest =>
      cases task with
      | scan => exact .rest
      | lookUp change known =>
        obtain ⟨apart, keyed⟩ := fits (.lookUp change known) (by simp [tasks])
        simp only [coordinator_lookedUp]
        exact .finish apart keyed lookup
  | crashed =>
    unfold turn turnEvents turnSurveys
    cases loop.tasks with
    | nil => exact .rest
    | cons task rest => exact .rest
  | request request => exact loop.does_serve request
  | cancelled => exact .rest
  | abandoned => exact .rest

end EventLoop

theorem Site.does {site : Site} (fits : site.Fits) (act : Act) :
    site.coordinator.Does (∃ change, act = .meter change) (site.after act).coordinator
      (site.events act) (site.survey act) := by
  cases site with
  | direct c =>
    cases act with
    | join worker isOpen => exact .addWorker worker isOpen
    | leave worker => exact .removeWorker worker
    | takeBack worker splits => exact .returnSplits worker splits
    | cycle broker => exact .cycle broker
    | hangUp worker => exact .hangUp worker
    | meter change => exact .count ⟨change, rfl⟩ change
    | spawn =>
      simp only [Site.after, Site.coordinator, EventLoop.coordinator_start]
      exact .rest
    | signal signal => exact .rest
  | spawned loop =>
    cases act with
    | hangUp worker => exact .hangUp worker
    | meter change => exact .count ⟨change, rfl⟩ change
    | signal signal =>
      simp only [Site.after, Site.events, Site.survey, EventLoop.step, EventLoop.stepEvents,
        EventLoop.stepSurveys]
      split
      · exact EventLoop.does_turn fits signal
      · exact .rest
    | join | leave | takeBack | cycle | spawn => exact .rest

namespace Kept

variable {P : Coordinator → Journal → Prop} {journal : Journal}

theorem cycleOver (kept : Kept P) {c : Coordinator} (holds : P c journal) (latest : QueueSet)
    (lookUp : QueueSet → Lookup) :
    P (c.cycleOver latest lookUp).coordinator (journal ++ c.cycleOverEvents latest lookUp) := by
  unfold Coordinator.cycleOver Coordinator.cycleOverEvents
  cases found : c.changeTo latest with
  | none => exact kept.completeCycle holds
  | some change =>
    have apart := Coordinator.apart_of_changeTo found
    exact kept.finish (kept.count holds _) apart (kept.known holds) _

theorem cycle (kept : Kept P) {c : Coordinator} (holds : P c journal) (broker : Broker) :
    P (c.cycle broker).coordinator (journal ++ c.cycleEvents broker) := by
  unfold Coordinator.cycle Coordinator.cycleEvents
  cases Scan.run broker c.job.topics with
  | error e => simpa using holds
  | ok scan => exact kept.cycleOver (kept.count holds _) _ _

theorem does (kept : Kept P) {metered : Prop} {c next : Coordinator} {events : Journal}
    {surveys : List Survey} (holds : P c journal) (does : c.Does metered next events surveys) :
    P next (journal ++ events) := by
  have quiet : ∀ {d : Coordinator}, P d journal → P d (journal ++ []) := by
    intro d same
    rw [List.append_nil]
    exact same
  cases does with
  | rest => exact quiet holds
  | addWorker worker isOpen => exact kept.addWorker holds worker isOpen
  | removeWorker worker => exact quiet (kept.removeWorker holds worker)
  | hangUp worker => exact quiet (kept.hangUp holds worker)
  | count _ change => exact quiet (kept.count holds change)
  | returnSplits worker splits => exact kept.returnSplits holds worker splits
  | completeCycle latest => exact kept.completeCycle holds
  | finish apart keyed lookup => exact kept.finish holds apart keyed lookup
  | cycle broker => exact kept.cycle holds broker

end Kept

theorem Site.fits_after {site : Site} (fits : site.Fits)
    (known : site.coordinator.desk.reconciler.known.Keyed) (act : Act) : (site.after act).Fits := by
  cases site with
  | direct c =>
    cases act with
    | spawn =>
      intro task member
      obtain rfl := EventLoop.eq_scan_of_mem_start member
      trivial
    | join | leave | takeBack | cycle | hangUp | meter | signal => trivial
  | spawned loop =>
    cases act with
    | signal signal =>
      simp only [Site.after, EventLoop.step]
      split
      · exact EventLoop.fits_turn fits known signal
      · exact fits
    | join | leave | takeBack | cycle | hangUp | meter | spawn => exact fits

theorem Reached.kept {P : Coordinator → Journal → Prop} (kept : Kept P)
    (start : ∀ job, P (.start job) [])
    (restored : ∀ {job checkpoint metrics c}, Coordinator.restore job checkpoint metrics = .ok c →
      P c c.restoredEvents)
    {site : Site} {journal : Journal} (reached : Reached site journal) :
    P site.coordinator journal := by
  have both : P site.coordinator journal ∧ site.Fits := by
    induction reached with
    | start job => exact ⟨start job, trivial⟩
    | restore opened => exact ⟨restored opened, trivial⟩
    | act before act ih =>
      obtain ⟨holds, fits⟩ := ih
      exact ⟨kept.does holds (Site.does fits act), Site.fits_after fits (kept.known holds) act⟩
  exact both.1

end QueueAssignment
