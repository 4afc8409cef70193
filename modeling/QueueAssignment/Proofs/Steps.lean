import QueueAssignment.Proofs.Delivery

/-!
Every operation of a coordinator is a sequence of steps of its desk: it takes back what a worker
lost, merges a target, serves some workers, or leaves the books alone. What each kind of step
keeps holds after every run.
-/
namespace QueueAssignment
open Std

def Job.Answers (job : Job) (change : SplitChange) (target : Assignment) : Prop :=
  ∃ call, job.strategy call change.queues job.settings.parallelism = .ok target

namespace Desk

inductive Step (job : Job) (desk : Desk) : Journal → Desk → Prop where
  | aside {next : Desk} : next.reconciler = desk.reconciler →
      next.dispatcher.owned = desk.dispatcher.owned →
      next.dispatcher.held = desk.dispatcher.held →
      next.dispatcher.registry.told = desk.dispatcher.registry.told → Step job desk [] next
  | flush {workers : WorkerSet} {next : Desk} {batch : Batch} :
      desk.Flushes workers next batch → Step job desk batch.events next
  | merge {change : SplitChange} {target : Assignment} {next : Desk} {delta : Delta} :
      change.Fits → job.Answers change target →
      desk.reconciler.apply change target = .ok (next.reconciler, delta) →
      next.dispatcher = desk.dispatcher.settle delta → Step job desk delta.adoptions next
  | release (worker : Worker) (splits : List Split) :
      Step job desk (Journal.losses worker splits) (desk.release worker splits)

inductive Steps (job : Job) : Desk → Journal → Desk → Prop where
  | none {desk : Desk} : Steps job desk [] desk
  | more {desk middle next : Desk} {journal events : Journal} : Steps job desk journal middle →
      middle.Step job events next → Steps job desk (journal ++ events) next

variable {job : Job} {desk middle next : Desk} {journal events later : Journal}

theorem Step.steps (step : desk.Step job events next) : desk.Steps job events next :=
  .more .none step

theorem Steps.append (first : desk.Steps job events middle) (second : middle.Steps job later next) :
    desk.Steps job (events ++ later) next := by
  induction second with
  | none => simpa using first
  | more before step ih =>
    rw [← List.append_assoc]
    exact .more ih step

theorem Step.accounted (step : desk.Step job events next) (accounted : desk.Accounted journal) :
    next.Accounted (journal ++ events) := by
  cases step with
  | aside reconciler owned held told =>
    rw [List.append_nil]
    exact accounted.congr reconciler owned held told
  | flush flushes => exact flushes.accounted accounted
  | merge fits _ applied settled => exact accounted.merge fits applied settled
  | release worker splits => exact accounted.release worker splits

/-- What each step keeps while the books are right. -/
def Steady (P : Job → Desk → Journal → Prop) : Prop :=
  ∀ {job : Job} {desk next : Desk} {journal events : Journal}, desk.Accounted journal →
    P job desk journal → desk.Step job events next → P job next (journal ++ events)

theorem Steps.accounted (steps : desk.Steps job events next) (accounted : desk.Accounted journal) :
    next.Accounted (journal ++ events) := by
  induction steps with
  | none => simpa using accounted
  | more before step ih =>
    rw [← List.append_assoc]
    exact step.accounted ih

theorem Steps.keep {P : Job → Desk → Journal → Prop} (steady : Steady P)
    (steps : desk.Steps job events next) (accounted : desk.Accounted journal)
    (holds : P job desk journal) : P job next (journal ++ events) := by
  induction steps with
  | none => simpa using holds
  | more before step ih =>
    rw [← List.append_assoc]
    exact steady (before.accounted accounted) ih step

end Desk

namespace Coordinator

structure Goes (c next : Coordinator) (events : Journal) : Prop where
  job : next.job = c.job
  steps : c.desk.Steps c.job events next.desk

variable {c middle next : Coordinator} {journal events later : Journal}

theorem Goes.append (first : c.Goes middle events) (second : middle.Goes next later) :
    c.Goes next (events ++ later) where
  job := second.job.trans first.job
  steps := first.steps.append (first.job ▸ second.steps)

theorem Goes.aside (job : next.job = c.job) (reconciler : next.desk.reconciler = c.desk.reconciler)
    (owned : next.desk.dispatcher.owned = c.desk.dispatcher.owned)
    (held : next.desk.dispatcher.held = c.desk.dispatcher.held)
    (told : next.desk.dispatcher.registry.told = c.desk.dispatcher.registry.told) :
    c.Goes next [] :=
  ⟨job, (Desk.Step.aside reconciler owned held told).steps⟩

theorem goes_removeWorker (c : Coordinator) (worker : Worker) :
    c.Goes (c.removeWorker worker) [] :=
  .aside rfl rfl rfl rfl rfl

theorem goes_hangUp (c : Coordinator) (worker : Worker) : c.Goes (c.hangUp worker) [] :=
  .aside rfl rfl rfl rfl rfl

theorem goes_count (c : Coordinator) (change : Metrics → Metrics) : c.Goes (c.count change) [] :=
  .aside rfl rfl rfl rfl rfl

theorem goes_flush (c : Coordinator) (workers : WorkerSet) :
    c.Goes (c.flush workers).coordinator (c.flushEvents workers) := by
  unfold flush flushEvents
  cases flushed : c.desk.flush workers with
  | error e => exact ⟨rfl, .none⟩
  | ok pair => exact ⟨rfl, (Desk.Step.flush (Desk.flush_ok flushed)).steps⟩

theorem goes_addWorker (c : Coordinator) (worker : Worker) (isOpen : Bool) :
    c.Goes (c.addWorker worker isOpen).coordinator (c.addWorkerEvents worker isOpen) := by
  have registered : c.Goes { c with desk := c.desk.register worker isOpen } [] :=
    .aside rfl rfl rfl rfl rfl
  simp only [addWorker, addWorkerEvents]
  split
  · exact registered.append (goes_flush _ _)
  · exact registered

theorem job_reconcile (c : Coordinator) (change : SplitChange) :
    (c.reconcile change).1.job = c.job := by
  unfold reconcile
  split <;> rfl

theorem flush_flushes {workers : WorkerSet}
    (registered : ∀ worker ∈ workers, c.desk.dispatcher.registry.isRegistered worker = true) :
    ∃ batch, c.desk.Flushes workers (c.flush workers).coordinator.desk batch ∧
      c.flushEvents workers = batch.events ∧ (c.flush workers).result = .ok () ∧
      (c.flush workers).coordinator.job = c.job := by
  obtain ⟨after, batch, flushed⟩ := Desk.flush_registered registered
  have outcome : c.flush workers = ⟨{ c with desk := after }, .ok ()⟩ := by
    rw [flush, flushed]
  rw [outcome, flushEvents, flushed]
  exact ⟨batch, Desk.flush_ok flushed, rfl, rfl, rfl⟩

theorem completeCycle_flushes (c : Coordinator) :
    ∃ batch, c.desk.Flushes c.desk.dispatcher.registry.workers c.completeCycle.coordinator.desk
        batch ∧
      c.completeCycleEvents = batch.events ∧ c.completeCycle.result = .ok () ∧
      c.completeCycle.coordinator.job = c.job := by
  have registered : ∀ worker ∈ c.desk.dispatcher.registry.workers,
      c.desk.dispatcher.registry.isRegistered worker = true :=
    fun worker member => Registry.mem_workers.mp member
  simp only [completeCycle, completeCycleEvents]
  split
  · obtain ⟨batch, flushes, rest⟩ := flush_flushes (c := { c with desk := c.desk.complete })
      registered
    exact ⟨batch, ⟨flushes.registered, flushes.drained, flushes.reconciler, flushes.owned,
      flushes.held, flushes.connections, flushes.told⟩, rest⟩
  · exact flush_flushes registered

theorem goes_completeCycle (c : Coordinator) :
    c.Goes c.completeCycle.coordinator c.completeCycleEvents := by
  obtain ⟨batch, flushes, told, _, job⟩ := c.completeCycle_flushes
  exact ⟨job, told ▸ (Desk.Step.flush flushes).steps⟩

structure Finishes (c : Coordinator) (change : SplitChange) (target : Assignment) (delta : Delta)
    (placed : Desk) (batch : Batch) (next : Desk) : Prop where
  answered : c.job.strategy c.calls change.queues c.job.settings.parallelism = .ok target
  applied : c.desk.reconciler.apply change target = .ok (placed.reconciler, delta)
  settled : placed.dispatcher = c.desk.dispatcher.settle delta
  flushes : placed.Flushes placed.dispatcher.registry.workers next batch

theorem refused_of_reconcile {change : SplitChange} {e : Error}
    (refused : c.reconcile change = (next, .error e)) {target : Assignment}
    (answered : c.job.strategy c.calls change.queues c.job.settings.parallelism = .ok target)
    (owners : OwnerMap) : target.targetOwners change.latest ≠ .ok owners := by
  intro accepted
  simp [reconcile, Desk.reconcile, Desk.apply, Reconciler.apply, answered, accepted] at refused

inductive Ends (c : Coordinator) (change : SplitChange) (outcome : Outcome) (events : Journal) :
    Prop where
  | merged {target : Assignment} {delta : Delta} {placed : Desk} {batch : Batch} :
      c.Finishes change target delta placed batch outcome.coordinator.desk →
      outcome.result = .ok () → events = delta.adoptions ++ batch.events →
      Ends c change outcome events
  | refused :
      (∀ target owners,
        c.job.strategy c.calls change.queues c.job.settings.parallelism = .ok target →
          target.targetOwners change.latest ≠ .ok owners) →
      outcome.coordinator.desk.reconciler = c.desk.reconciler →
      outcome.coordinator.desk.dispatcher = c.desk.dispatcher →
      (∃ e, outcome.result = .error e) → events = [] → Ends c change outcome events

structure Places (c : Coordinator) (change : SplitChange) (target : Assignment) (delta : Delta)
    (placed : Coordinator) : Prop where
  job : placed.job = c.job
  answered : c.job.strategy c.calls change.queues c.job.settings.parallelism = .ok target
  applied : c.desk.reconciler.apply change target = .ok (placed.desk.reconciler, delta)
  settled : placed.desk.dispatcher = c.desk.dispatcher.settle delta

structure Refuses (c : Coordinator) (change : SplitChange) (failed : Coordinator) : Prop where
  job : failed.job = c.job
  refused : ∀ target owners,
    c.job.strategy c.calls change.queues c.job.settings.parallelism = .ok target →
      target.targetOwners change.latest ≠ .ok owners
  reconciler : failed.desk.reconciler = c.desk.reconciler
  dispatcher : failed.desk.dispatcher = c.desk.dispatcher

inductive Fails (c : Coordinator) (change : SplitChange) : Error → Prop where
  | unanswered {e : Error} :
      c.job.strategy c.calls change.queues c.job.settings.parallelism = .error e →
      Fails c change e
  | violated {target : Assignment} {violation : Violation} :
      c.job.strategy c.calls change.queues c.job.settings.parallelism = .ok target →
      target.targetOwners change.latest = .error violation →
      Fails c change (.invalidState violation)

theorem reconcile_fails {change : SplitChange} {e : Error}
    (refused : c.reconcile change = (next, .error e)) :
    next = { c with calls := c.calls + 1 } ∧ c.Fails change e := by
  simp only [reconcile, Desk.reconcile] at refused
  cases answer : c.job.strategy c.calls change.queues c.job.settings.parallelism with
  | error e =>
    rw [answer] at refused
    cases refused
    exact ⟨rfl, .unanswered answer⟩
  | ok target =>
    cases checked : target.targetOwners change.latest with
    | ok owners => simp [answer, Desk.apply, Reconciler.apply, checked] at refused
    | error violation =>
      simp only [answer, Desk.apply, Reconciler.apply, checked, Prod.mk.injEq,
        Except.error.injEq] at refused
      obtain ⟨rfl, rfl⟩ := refused
      exact ⟨rfl, .violated answer checked⟩

/-- A coordinator whose worker lost these splits, before they are placed anew. -/
def released (c : Coordinator) (worker : Worker) (splits : List Split) : Coordinator :=
  { c with desk := c.desk.release worker splits }

inductive Returns (c : Coordinator) (worker : Worker) (splits : List Split) (outcome : Outcome)
    (events : Journal) : Prop where
  | nothing : splits = [] → outcome = ⟨c, .ok ()⟩ → events = [] →
      Returns c worker splits outcome events
  | placed {target : Assignment} {delta : Delta} {placed : Coordinator} {batch : Batch} :
      (c.released worker splits).Places (c.desk.reconciler.returnedChange splits) target delta
        placed →
      placed.desk.Flushes (placed.reachable delta) outcome.coordinator.desk batch →
      outcome = placed.flush (placed.reachable delta) → outcome.result = .ok () →
      events = Journal.losses worker splits ++ (delta.adoptions ++ batch.events) →
      Returns c worker splits outcome events
  | failed {e : Error} : splits ≠ [] →
      (c.released worker splits).Fails (c.desk.reconciler.returnedChange splits) e →
      outcome = ⟨{ c.released worker splits with calls := c.calls + 1 }, .error e⟩ →
      events = Journal.losses worker splits → Returns c worker splits outcome events

theorem registered_reachable {delta : Delta} {worker : Worker}
    (member : worker ∈ c.reachable delta) :
    c.desk.dispatcher.registry.isRegistered worker = true :=
  (Table.mem_filter.mp member).2

theorem returnSplits_returns (c : Coordinator) (worker : Worker) (splits : List Split) :
    c.Returns worker splits (c.returnSplits worker splits)
      (c.returnSplitsEvents worker splits) := by
  simp only [returnSplits, returnSplitsEvents]
  split
  · rename_i empty
    exact .nothing (List.isEmpty_iff.mp empty) rfl rfl
  · rename_i some_split
    generalize merged : reconcile { c with desk := c.desk.release worker splits }
      ((c.desk.release worker splits).reconciler.returnedChange splits) = pair
    obtain ⟨placed, result⟩ := pair
    cases result with
    | ok delta =>
      obtain ⟨target, answered, applied, settled⟩ := reconcile_ok merged
      have job : placed.job = c.job := by
        have kept := job_reconcile { c with desk := c.desk.release worker splits }
          ((c.desk.release worker splits).reconciler.returnedChange splits)
        rw [merged] at kept
        exact kept
      have reachable : ∀ worker ∈ placed.reachable delta,
          placed.desk.dispatcher.registry.isRegistered worker = true :=
        fun _ => registered_reachable
      obtain ⟨batch, flushes, told, done, _⟩ := flush_flushes reachable
      exact .placed ⟨job, answered, applied, settled⟩ flushes rfl done (by simp only [told])
    | error e =>
      obtain ⟨rfl, fails⟩ := reconcile_fails merged
      exact .failed (by simpa using some_split) fails rfl (List.append_nil _)

theorem Places.registry {change : SplitChange} {target : Assignment} {delta : Delta}
    (places : c.Places change target delta next) :
    next.desk.dispatcher.registry = c.desk.dispatcher.registry := by
  rw [places.settled]
  rfl

theorem Places.goes {change : SplitChange} {target : Assignment} {delta : Delta}
    (places : c.Places change target delta next) (fits : change.Fits) :
    c.Goes next delta.adoptions where
  job := places.job
  steps := (Desk.Step.merge fits ⟨_, places.answered⟩ places.applied places.settled).steps

theorem goes_returnSplits (known : c.desk.reconciler.known.Keyed) (worker : Worker)
    (splits : List Split) :
    c.Goes (c.returnSplits worker splits).coordinator (c.returnSplitsEvents worker splits) := by
  have released : c.Goes (c.released worker splits) (Journal.losses worker splits) :=
    ⟨rfl, (Desk.Step.release worker splits).steps⟩
  cases c.returnSplits_returns worker splits with
  | nothing _ same told =>
    rw [same, told]
    exact ⟨rfl, .none⟩
  | @placed target delta placed batch places flushes outcome _ told =>
    have fits : (c.desk.reconciler.returnedChange splits).Fits :=
      Reconciler.fits_returnedChange known splits
    have served : placed.Goes (c.returnSplits worker splits).coordinator batch.events :=
      ⟨outcome ▸ (goes_flush placed _).job, (Desk.Step.flush flushes).steps⟩
    rw [told]
    exact released.append ((places.goes fits).append served)
  | failed _ _ same told =>
    rw [same, told]
    exact ⟨rfl, released.steps⟩

theorem place_cases (c : Coordinator) (change : QueueChange) (known : SplitMap) (lookup : Lookup) :
    let splits := SplitChange.ofOffsets change known lookup.starting.offsets lookup.stopping.offsets
    (∃ target delta placed, c.Places splits target delta placed ∧
      c.place change known lookup = ⟨placed, .ok ()⟩ ∧
      c.placeEvents change known lookup = delta.adoptions) ∨
    ∃ failed e, c.Refuses splits failed ∧ c.place change known lookup = ⟨failed, .error e⟩ ∧
      c.placeEvents change known lookup = [] := by
  intro splits
  simp only [place, placeEvents, reconcileEvents]
  generalize counted : c.count _ = d
  have job : d.job = c.job := by rw [← counted]; rfl
  have calls : d.calls = c.calls := by rw [← counted]; rfl
  have reconciler : d.desk.reconciler = c.desk.reconciler := by rw [← counted]; rfl
  have dispatcher : d.desk.dispatcher = c.desk.dispatcher := by rw [← counted]; rfl
  generalize merged : d.reconcile _ = pair
  obtain ⟨next, result⟩ := pair
  have kept : next.job = c.job := by
    rw [← job, ← job_reconcile d, merged]
  cases result with
  | ok delta =>
    obtain ⟨target, answered, applied, settled⟩ := reconcile_ok merged
    rw [job, calls] at answered
    rw [reconciler] at applied
    rw [dispatcher] at settled
    exact Or.inl ⟨target, delta, next, ⟨kept, answered, applied, settled⟩, rfl, rfl⟩
  | error e =>
    have same := reconcile_error merged
    refine Or.inr ⟨next, e, ⟨kept, fun target owners answered => ?_, ?_, ?_⟩, rfl, rfl⟩
    · rw [← job, ← calls] at answered
      exact refused_of_reconcile merged answered owners
    · exact (congrArg Desk.reconciler same).trans reconciler
    · exact (congrArg Desk.dispatcher same).trans dispatcher

theorem finish_ends (c : Coordinator) (change : QueueChange) (known : SplitMap) (lookup : Lookup) :
    (c.finish change known lookup).coordinator.job = c.job ∧
      c.Ends (.ofOffsets change known lookup.starting.offsets lookup.stopping.offsets)
        (c.finish change known lookup) (c.finishEvents change known lookup) := by
  rcases c.place_cases change known lookup with
    ⟨target, delta, placed, places, done, events⟩ | ⟨failed, e, refuses, done, events⟩
  · obtain ⟨batch, flushes, told, finished, job⟩ := placed.completeCycle_flushes
    simp only [finish, finishEvents, done, events, Outcome.andThen, told]
    exact ⟨job.trans places.job,
      .merged ⟨places.answered, places.applied, places.settled, flushes⟩ finished rfl⟩
  · simp only [finish, finishEvents, done, events, Outcome.andThen, List.append_nil]
    exact ⟨refuses.job, .refused refuses.refused refuses.reconciler refuses.dispatcher ⟨e, rfl⟩ rfl⟩

theorem goes_finish {change : QueueChange} {known : SplitMap}
    (apart : ∀ queue ∈ change.decreased, queue ∉ change.latest) (keyed : known.Keyed)
    (lookup : Lookup) :
    c.Goes (c.finish change known lookup).coordinator (c.finishEvents change known lookup) := by
  obtain ⟨job, ends⟩ := c.finish_ends change known lookup
  cases ends with
  | merged finishes _ told =>
    have fits := SplitChange.fits_ofOffsets keyed apart lookup.starting.offsets
      lookup.stopping.offsets
    have merge := Desk.Step.merge fits ⟨_, finishes.answered⟩ finishes.applied finishes.settled
    rw [told]
    exact ⟨job, merge.steps.append (Desk.Step.flush finishes.flushes).steps⟩
  | refused _ reconciler dispatcher _ told =>
    rw [told]
    exact .aside job reconciler (congrArg Dispatcher.owned dispatcher)
      (congrArg Dispatcher.held dispatcher) (congrArg (·.registry.told) dispatcher)

inductive Cycles (c : Coordinator) (latest : QueueSet) (lookUp : QueueSet → Lookup)
    (outcome : Outcome) (events : Journal) : Prop where
  | same {batch : Batch} : c.changeTo latest = none →
      c.desk.Flushes c.desk.dispatcher.registry.workers outcome.coordinator.desk batch →
      outcome.result = .ok () → events = batch.events → Cycles c latest lookUp outcome events
  | differs {change : QueueChange} : c.changeTo latest = some change →
      c.Ends (.ofOffsets change c.desk.reconciler.known (lookUp change.wanted).starting.offsets
        (lookUp change.wanted).stopping.offsets) outcome events →
      Cycles c latest lookUp outcome events

theorem cycle_cycles {c : Coordinator} {broker : Broker} {scan : Scan}
    (scanned : Scan.run broker c.job.topics = .ok scan) :
    c.Cycles scan.queues (c.job.lookUp broker) (c.cycle broker) (c.cycleEvents broker) := by
  simp only [cycle, cycleEvents, scanned, cycleOver, cycleOverEvents]
  generalize counted : c.count _ = d
  have found : d.changeTo scan.queues = c.changeTo scan.queues := by rw [← counted]; rfl
  rw [found]
  cases changed : c.changeTo scan.queues with
  | none =>
    obtain ⟨batch, flushes, told, result, _⟩ := d.completeCycle_flushes
    subst counted
    exact .same changed ⟨flushes.registered, flushes.drained, flushes.reconciler, flushes.owned,
      flushes.held, flushes.connections, flushes.told⟩ result told
  | some change =>
    have ends := ((d.count fun m => m.countMissing (c.job.lookUp broker change.wanted).failures)
      |>.finish_ends change d.desk.reconciler.known (c.job.lookUp broker change.wanted)).2
    subst counted
    refine .differs changed ?_
    dsimp only
    cases ends with
    | merged finishes result told =>
      exact .merged ⟨finishes.answered, finishes.applied, finishes.settled, finishes.flushes⟩
        result told
    | refused no reconciler dispatcher failed told =>
      exact .refused no reconciler dispatcher failed told

theorem goes_cycleOver (c : Coordinator) (known : c.desk.reconciler.known.Keyed)
    (latest : QueueSet) (lookUp : QueueSet → Lookup) :
    c.Goes (c.cycleOver latest lookUp).coordinator (c.cycleOverEvents latest lookUp) := by
  unfold cycleOver cycleOverEvents
  cases found : c.changeTo latest with
  | none => exact c.goes_completeCycle
  | some change =>
    have counted := c.goes_count fun m => m.countMissing (lookUp change.wanted).failures
    exact counted.append (goes_finish (apart_of_changeTo found) known _)

theorem goes_cycle (known : c.desk.reconciler.known.Keyed) (broker : Broker) :
    c.Goes (c.cycle broker).coordinator (c.cycleEvents broker) := by
  unfold cycle cycleEvents
  cases Scan.run broker c.job.topics with
  | error e => exact ⟨rfl, .none⟩
  | ok scan =>
    have counted := c.goes_count fun m =>
      (m.countRefusals scan.refused).countScan scan.queues.size
    exact counted.append (goes_cycleOver (c.count _) known scan.queues _)

theorem Does.goes {metered : Prop} {surveys : List Survey}
    (does : c.Does metered next events surveys)
    (known : c.desk.reconciler.known.Keyed) : c.Goes next events := by
  cases does with
  | rest => exact ⟨rfl, .none⟩
  | addWorker worker isOpen => exact c.goes_addWorker worker isOpen
  | removeWorker worker => exact c.goes_removeWorker worker
  | hangUp worker => exact c.goes_hangUp worker
  | count _ change => exact c.goes_count change
  | returnSplits worker splits => exact goes_returnSplits known worker splits
  | completeCycle latest => exact c.goes_completeCycle
  | finish apart keyed lookup => exact goes_finish apart keyed lookup
  | cycle broker => exact goes_cycle known broker

end Coordinator

namespace Reached

variable {site : Site} {journal : Journal}

theorem fits (reached : Reached site journal) : site.Fits := by
  induction reached with
  | start job => trivial
  | restore opened => trivial
  | act before act ih => exact Site.fits_after ih before.sound.accounted.balanced.known act

theorem goes (reached : Reached site journal) (act : Act) :
    site.coordinator.Goes (site.after act).coordinator (site.events act) :=
  (Site.does reached.fits act).goes reached.sound.accounted.balanced.known

theorem goes_run (reached : Reached site journal) (acts : List Act) :
    site.coordinator.Goes (site.run acts).coordinator (site.journal acts) := by
  induction acts generalizing site journal with
  | nil => exact ⟨rfl, .none⟩
  | cons act rest ih => exact (reached.goes act).append (ih (reached.act act))

theorem steady {P : Job → Desk → Journal → Prop} (steady : Desk.Steady P)
    (start : ∀ job, P job (Coordinator.start job).desk [])
    (restored : ∀ {job checkpoint metrics c}, Coordinator.restore job checkpoint metrics = .ok c →
      P c.job c.desk c.restoredEvents)
    (reached : Reached site journal) :
    P site.coordinator.job site.coordinator.desk journal := by
  induction reached with
  | start job => exact start job
  | restore opened => exact restored opened
  | act before act ih =>
    have goes := before.goes act
    rw [goes.job]
    exact goes.steps.keep steady before.sound.accounted ih

end Reached

end QueueAssignment
