import QueueAssignment.Proofs.Channels
import QueueAssignment.Proofs.Endings
import QueueAssignment.Proofs.Settled
import QueueAssignment.Proofs.Surveys

/-!
When workers are told that no more splits will come. A dispatcher keeps whom it told since they
registered. That record and the channels stay in step through every operation, so each registration
is told once, and only after the one discovery of a bounded job.
-/
namespace QueueAssignment
open Std

namespace Registry

variable {r : Registry}

def signalsOn (r : Registry) (number : Nat) : Nat := (r.commandsOn number).count .noMoreSplits

theorem signalsOn_send (r : Registry) (worker : Worker) (command : Command) (number : Nat) :
    (r.send worker command).signalsOn number = r.signalsOn number +
      if r.channelOf worker = some number ∧ command = .noMoreSplits then 1 else 0 := by
  rw [signalsOn, commandsOn_send, List.count_append, signalsOn]
  by_cases reached : r.channelOf worker = some number
  · by_cases signal : command = .noMoreSplits
    · simp [reached, signal]
    · simp [reached, signal]
  · simp [reached]

end Registry

namespace Dispatcher

variable {d : Dispatcher} {worker : Worker}

structure Tallied (d : Dispatcher) : Prop where
  numbered : d.registry.Numbered
  once : ∀ number, d.registry.signalsOn number ≤ 1
  counted : ∀ {worker number}, d.registry.channelOf worker = some number →
    d.registry.signalsOn number = if worker ∈ d.signalled then 1 else 0

theorem Tallied.narrow (tallied : d.Tallied) (next : Dispatcher)
    (sent : next.registry.sent = d.registry.sent)
    (opened : next.registry.opened = d.registry.opened)
    (fewer : ∀ {worker number}, next.registry.channelOf worker = some number →
      d.registry.channelOf worker = some number ∧
        (worker ∈ next.signalled ↔ worker ∈ d.signalled)) : next.Tallied := by
  have same : ∀ number, next.registry.signalsOn number = d.registry.signalsOn number := by
    intro number
    rw [Registry.signalsOn, Registry.commandsOn_congr sent, Registry.signalsOn]
  refine ⟨tallied.numbered.narrow sent opened fun reached => (fewer reached).1, ?_, ?_⟩
  · intro number
    rw [same]
    exact tallied.once number
  · intro worker number reached
    obtain ⟨before, signalled⟩ := fewer reached
    rw [same, tallied.counted before]
    simp only [signalled]

theorem mem_signalled_erase {other : Worker} :
    other ∈ d.signalled.erase worker ↔ worker ≠ other ∧ other ∈ d.signalled := by
  rw [ExtTreeSet.mem_erase, Ne, Std.compare_eq_iff_eq]

theorem Tallied.unregister (tallied : d.Tallied) (worker : Worker) :
    (d.unregister worker).Tallied := by
  apply tallied.narrow (d.unregister worker) rfl rfl
  intro other number reached
  have reached : (d.registry.unregister worker).channelOf other = some number := reached
  rw [Registry.channelOf_unregister] at reached
  split at reached
  · cases reached
  · rename_i apart
    exact ⟨reached, mem_signalled_erase.trans (and_iff_right apart)⟩

theorem Tallied.hangUp (tallied : d.Tallied) (worker : Worker) :
    { d with registry := d.registry.hangUp worker }.Tallied := by
  apply tallied.narrow { d with registry := d.registry.hangUp worker } rfl rfl
  intro other number reached
  have reached : (d.registry.hangUp worker).channelOf other = some number := reached
  rw [Registry.channelOf_hangUp] at reached
  split at reached
  · cases reached
  · exact ⟨reached, Iff.rfl⟩

theorem Tallied.register (tallied : d.Tallied) (worker : Worker) (isOpen : Bool) :
    (d.register worker isOpen).Tallied := by
  refine ⟨tallied.numbered.register worker isOpen, tallied.once, ?_⟩
  intro other number reached
  have same : (d.register worker isOpen).registry.signalsOn number = d.registry.signalsOn number :=
    rfl
  have reached : (d.registry.register worker isOpen).channelOf other = some number := reached
  rw [Registry.channelOf_register] at reached
  have erased : other ∈ (d.register worker isOpen).signalled ↔
      worker ≠ other ∧ other ∈ d.signalled := mem_signalled_erase
  rw [same]
  split at reached
  · rename_i again
    have fresh : other ∉ (d.register worker isOpen).signalled :=
      fun told => (erased.mp told).1 again
    split at reached
    · have new : d.registry.opened = number := Option.some.inj reached
      rw [← new, Registry.signalsOn, tallied.numbered.commandsOn_opened, if_neg fresh]
      rfl
    · cases reached
  · rename_i apart
    rw [tallied.counted reached]
    simp [erased, apart]

theorem commandsOn_deliver (d : Dispatcher) (batch : Batch) (number : Nat) :
    (d.deliver batch).registry.commandsOn number = d.registry.commandsOn number ++
      ((batch.filter fun part => d.registry.channelOf part.1 = some number).map Prod.snd).map
        .assign :=
  d.registry.commandsOn_sendAll batch number

theorem signalsOn_deliver (d : Dispatcher) (batch : Batch) (number : Nat) :
    (d.deliver batch).registry.signalsOn number = d.registry.signalsOn number := by
  have silent : ∀ handed : List (List Split),
      (handed.map Command.assign).count .noMoreSplits = 0 := by
    intro handed
    simp [List.count_eq_zero]
  rw [Registry.signalsOn, commandsOn_deliver, List.count_append, silent, Registry.signalsOn,
    Nat.add_zero]

theorem connections_deliver (d : Dispatcher) (batch : Batch) :
    (d.deliver batch).registry.connections = d.registry.connections :=
  Registry.connections_sendAll d.registry batch

theorem Tallied.deliver (tallied : d.Tallied) (batch : Batch) : (d.deliver batch).Tallied := by
  refine ⟨tallied.numbered.sendAll batch, ?_, ?_⟩
  · intro number
    rw [signalsOn_deliver]
    exact tallied.once number
  · intro worker number reached
    rw [Registry.channelOf_congr (d.connections_deliver batch)] at reached
    rw [signalsOn_deliver]
    exact tallied.counted reached

theorem Tallied.signalOne (tallied : d.Tallied) (worker : Worker) :
    (d.signalOne worker).Tallied := by
  by_cases already : worker ∈ d.signalled
  · rw [Dispatcher.signalOne, if_pos already]
    exact tallied
  · have signalled : ∀ other, other ∈ (d.signalOne worker).signalled ↔
        other = worker ∨ other ∈ d.signalled := fun other => mem_signalled_signalOne
    have registry : (d.signalOne worker).registry = d.registry.send worker .noMoreSplits := by
      rw [Dispatcher.signalOne, if_neg already]
    refine ⟨registry ▸ tallied.numbered.send worker .noMoreSplits, ?_, ?_⟩
    · intro number
      rw [registry, Registry.signalsOn_send]
      split
      · rename_i reached
        have silent : d.registry.signalsOn number = 0 := by
          rw [tallied.counted reached.1, if_neg already]
        omega
      · exact tallied.once number
    · intro other number reached
      rw [registry, Registry.channelOf_send] at reached
      rw [registry, Registry.signalsOn_send, tallied.counted reached]
      by_cases same : other = worker
      · subst same
        simp [reached, already, signalled]
      -- No two workers share a channel, so what the others were told is unchanged.
      · have elsewhere : d.registry.channelOf worker ≠ some number :=
          fun shared => same (tallied.numbered.apart reached shared)
        simp [elsewhere, same, signalled]

theorem Tallied.signal (tallied : d.Tallied) (workers : WorkerSet) :
    (d.signal workers).Tallied := by
  unfold Dispatcher.signal
  induction workers.toList generalizing d with
  | nil => exact tallied
  | cons worker rest ih => exact ih (tallied.signalOne worker)

/-- Nobody is told too early, and of those who can be reached only `owing` may still have to be
    told. -/
structure Signalling (d : Dispatcher) (owing : WorkerSet) : Prop where
  tallied : d.Tallied
  silent : d.shouldSignal = false → ∀ number, d.registry.signalsOn number = 0
  early : ∀ worker ∈ d.signalled, d.shouldSignal = true
  told : d.shouldSignal = true → ∀ {worker}, d.registry.isRegistered worker = true →
    worker ∉ owing → worker ∈ d.signalled

theorem Signalling.free {owing : WorkerSet} (signalling : d.Signalling owing)
    (unreached : ∀ worker ∈ owing, d.registry.isRegistered worker = false) :
    d.Signalling ∅ where
  tallied := signalling.tallied
  silent := signalling.silent
  early := signalling.early
  told := by
    intro due worker registered _
    refine signalling.told due registered fun owes => ?_
    exact absurd (registered.symm.trans (unreached worker owes)) nofun

theorem Signalling.register (signalling : d.Signalling ∅) (worker : Worker) (isOpen : Bool) :
    (d.register worker isOpen).Signalling (ExtTreeSet.ofList [worker]) where
  tallied := signalling.tallied.register worker isOpen
  silent := signalling.silent
  early := fun other told => signalling.early other (mem_signalled_erase.mp told).2
  told := by
    intro due other registered apart
    have apart : worker ≠ other := by
      rintro rfl
      exact apart (Table.mem_single.mpr rfl)
    have registered : (d.registry.register worker isOpen).isRegistered other = true := registered
    rw [Registry.isRegistered_register, if_neg apart] at registered
    exact mem_signalled_erase.mpr ⟨apart, signalling.told due registered ExtTreeSet.not_mem_empty⟩

theorem Signalling.unregister (signalling : d.Signalling ∅) (worker : Worker) :
    (d.unregister worker).Signalling ∅ where
  tallied := signalling.tallied.unregister worker
  silent := signalling.silent
  early := fun other told => signalling.early other (mem_signalled_erase.mp told).2
  told := by
    intro due other registered free
    have before := Registry.isRegistered_unregister registered
    refine mem_signalled_erase.mpr ⟨?_, signalling.told due before free⟩
    rintro rfl
    have gone : (d.registry.unregister worker).isRegistered worker = true := registered
    simp [Registry.isRegistered_iff, Registry.channelOf_unregister] at gone

theorem Signalling.hangUp (signalling : d.Signalling ∅) (worker : Worker) :
    { d with registry := d.registry.hangUp worker }.Signalling ∅ where
  tallied := signalling.tallied.hangUp worker
  silent := signalling.silent
  early := signalling.early
  told := fun due _ registered => signalling.told due (Registry.isRegistered_hangUp registered)

theorem Signalling.settle (signalling : d.Signalling ∅) (delta : Delta) :
    (d.settle delta).Signalling ∅ where
  tallied := signalling.tallied.narrow (d.settle delta) rfl rfl fun reached => ⟨reached, Iff.rfl⟩
  silent := signalling.silent
  early := signalling.early
  told := signalling.told

theorem Signalling.complete (signalling : d.Signalling ∅) :
    { d with complete := true }.Signalling d.registry.workers where
  tallied :=
    signalling.tallied.narrow { d with complete := true } rfl rfl fun reached => ⟨reached, Iff.rfl⟩
  silent := by
    intro undue
    apply signalling.silent
    simp only [shouldSignal, Bool.and_true] at undue
    rw [shouldSignal, undue, Bool.false_and]
  early := by
    intro worker told
    have due := signalling.early worker told
    simp only [shouldSignal, Bool.and_eq_true] at due ⊢
    exact ⟨due.1, trivial⟩
  told := fun _ _ registered unserved => absurd (Registry.mem_workers.mpr registered) unserved

theorem isRegistered_deliver (d : Dispatcher) (batch : Batch) (worker : Worker) :
    (d.deliver batch).registry.isRegistered worker = d.registry.isRegistered worker := by
  rw [Registry.isRegistered, d.connections_deliver batch, Registry.isRegistered]

theorem isRegistered_signal (d : Dispatcher) (workers : WorkerSet) (worker : Worker) :
    (d.signal workers).registry.isRegistered worker = d.registry.isRegistered worker := by
  obtain ⟨_, _, same, _⟩ := d.signal_same workers
  rw [Registry.isRegistered, same, Registry.isRegistered]

def served (d : Dispatcher) (batch : Batch) (workers : WorkerSet) : Dispatcher :=
  if d.shouldSignal then (d.deliver batch).signal workers else d.deliver batch

theorem served_flags (d : Dispatcher) (batch : Batch) (workers : WorkerSet) :
    (d.served batch workers).complete = d.complete ∧
      (d.served batch workers).signals = d.signals := by
  unfold served
  split
  · exact (d.deliver batch).signal_flags workers
  · exact ⟨rfl, rfl⟩

theorem Signalling.served {owing workers : WorkerSet} (signalling : d.Signalling owing)
    (serves : ∀ worker ∈ owing, worker ∈ workers) (batch : Batch) :
    (d.served batch workers).Signalling ∅ := by
  unfold Dispatcher.served
  split
  · rename_i due
    have delivered := signalling.tallied.deliver batch
    have flags := (d.deliver batch).signal_flags workers
    have still : ((d.deliver batch).signal workers).shouldSignal = true := by
      rw [shouldSignal, flags.1, flags.2]
      exact due
    refine ⟨delivered.signal workers, ?_, fun _ _ => still, ?_⟩
    · exact fun undue => Bool.noConfusion (still.symm.trans undue)
    · intro _ worker registered _
      rw [isRegistered_signal, isRegistered_deliver] at registered
      rw [mem_signalled_signal]
      by_cases owes : worker ∈ owing
      · exact Or.inl (serves worker owes)
      · exact Or.inr (signalling.told due registered owes)
  · rename_i idle
    refine ⟨signalling.tallied.deliver batch, ?_, signalling.early, fun due => absurd due idle⟩
    intro undue number
    rw [signalsOn_deliver]
    exact signalling.silent undue number

end Dispatcher

theorem Desk.dispatcher_of_flush {desk next : Desk} {workers : WorkerSet} {batch : Batch}
    (flushed : desk.flush workers = .ok (next, batch)) :
    next.dispatcher = desk.dispatcher.served (desk.batchFor workers) workers := by
  have registered := (Desk.flush_ok flushed).registered
  have delivered : ((desk.drain workers).deliver (desk.batchFor workers)).dispatcher =
      desk.dispatcher.deliver (desk.batchFor workers) := by
    rw [Desk.dispatcher_deliver, Desk.dispatcher_drain]
  have same : (desk.dispatcher.deliver (desk.batchFor workers)).shouldSignal =
      desk.dispatcher.shouldSignal := rfl
  rw [Desk.flush_eq registered] at flushed
  cases flushed
  rw [Dispatcher.served, ← delivered, Desk.signalIfDue, delivered, same]
  split
  · exact congrArg (Dispatcher.signal · workers) delivered
  · exact delivered

namespace Coordinator

variable {c next : Coordinator} {surveys : List Survey}

theorem dispatcher_flush {workers : WorkerSet}
    (registered : ∀ worker ∈ workers, c.desk.dispatcher.registry.isRegistered worker = true) :
    (c.flush workers).coordinator.desk.dispatcher =
      c.desk.dispatcher.served (c.desk.batchFor workers) workers := by
  have flushed := Desk.flush_eq registered
  rw [flush, flushed]
  exact Desk.dispatcher_of_flush flushed

/-- Workers are told that no more splits come just where the job has it so and once a cycle was
    completed. -/
structure Signals (c : Coordinator) (surveys : List Survey) : Prop where
  signalling : c.desk.dispatcher.Signalling ∅
  signals : c.desk.dispatcher.signals = c.job.settings.signals
  complete : c.desk.dispatcher.complete = true ↔ c.job.settings.isOneShot = true ∧ surveys ≠ []

structure Continues (c next : Coordinator) : Prop where
  job : next.job = c.job
  signals : next.desk.dispatcher.signals = c.desk.dispatcher.signals
  complete : next.desk.dispatcher.complete = c.desk.dispatcher.complete

theorem Continues.trans {middle : Coordinator} (first : c.Continues middle)
    (second : middle.Continues next) : c.Continues next where
  job := second.job.trans first.job
  signals := second.signals.trans first.signals
  complete := second.complete.trans first.complete

theorem Signals.proceed (signals : c.Signals surveys) (continues : c.Continues next)
    (signalling : next.desk.dispatcher.Signalling ∅) : next.Signals surveys where
  signalling := signalling
  signals := by rw [continues.signals, continues.job, signals.signals]
  complete := by rw [continues.complete, continues.job, signals.complete]

theorem continues_flush {workers : WorkerSet}
    (registered : ∀ worker ∈ workers, c.desk.dispatcher.registry.isRegistered worker = true) :
    c.Continues (c.flush workers).coordinator := by
  have flags := c.desk.dispatcher.served_flags (c.desk.batchFor workers) workers
  rw [← dispatcher_flush registered] at flags
  exact ⟨(c.goes_flush workers).job, flags.2, flags.1⟩

theorem signalling_flush {owing workers : WorkerSet}
    (signalling : c.desk.dispatcher.Signalling owing) (serves : ∀ worker ∈ owing, worker ∈ workers)
    (registered : ∀ worker ∈ workers, c.desk.dispatcher.registry.isRegistered worker = true) :
    (c.flush workers).coordinator.desk.dispatcher.Signalling ∅ := by
  rw [dispatcher_flush registered]
  exact signalling.served serves _

theorem Signals.flush {workers : WorkerSet} (signals : c.Signals surveys)
    (registered : ∀ worker ∈ workers, c.desk.dispatcher.registry.isRegistered worker = true) :
    (c.flush workers).coordinator.Signals surveys :=
  signals.proceed (continues_flush registered)
    (signalling_flush signals.signalling (fun _ owes => absurd owes ExtTreeSet.not_mem_empty)
      registered)

theorem Signals.addWorker (signals : c.Signals surveys) (worker : Worker) (isOpen : Bool) :
    (c.addWorker worker isOpen).coordinator.Signals surveys := by
  have joined : c.Continues { c with desk := c.desk.register worker isOpen } := ⟨rfl, rfl, rfl⟩
  have signalling := signals.signalling.register worker isOpen
  simp only [Coordinator.addWorker]
  split
  · rename_i there
    have registered := Registry.isRegistered_of_mem_single there
    exact signals.proceed (joined.trans (continues_flush registered))
      (signalling_flush signalling (fun _ owes => owes) registered)
  -- Its receiver is gone already, so there is nobody to tell.
  · rename_i absent
    refine signals.proceed joined (signalling.free fun other owes => ?_)
    exact Bool.eq_false_iff.mpr (Table.mem_single.mp owes ▸ absent)

theorem Signals.places {change : SplitChange} {target : Assignment} {delta : Delta}
    {placed : Coordinator} (signals : c.Signals surveys)
    (places : c.Places change target delta placed) : placed.Signals surveys := by
  have signalling := signals.signalling.settle delta
  rw [← places.settled] at signalling
  exact signals.proceed ⟨places.job, by rw [places.settled]; rfl, by rw [places.settled]; rfl⟩
    signalling

theorem Signals.released (signals : c.Signals surveys) (worker : Worker) (splits : List Split) :
    (c.released worker splits).Signals surveys :=
  signals.proceed ⟨rfl, rfl, rfl⟩ signals.signalling

theorem Signals.returnSplits (signals : c.Signals surveys) (worker : Worker)
    (splits : List Split) : (c.returnSplits worker splits).coordinator.Signals surveys := by
  have released := signals.released worker splits
  cases c.returnSplits_returns worker splits with
  | nothing _ outcome _ =>
    rw [outcome]
    exact signals
  | placed places _ outcome _ _ =>
    rw [outcome]
    exact (released.places places).flush fun _ => registered_reachable
  | failed _ _ outcome _ =>
    rw [outcome]
    exact released.proceed ⟨rfl, rfl, rfl⟩ released.signalling

theorem Signals.place (signals : c.Signals surveys) (change : QueueChange) (known : SplitMap)
    (lookup : Lookup) : (c.place change known lookup).coordinator.Signals surveys := by
  rcases c.place_cases change known lookup with
    ⟨_, delta, placed, places, done, _⟩ | ⟨failed, e, refuses, done, _⟩
  · rw [done]
    exact signals.places places
  · rw [done]
    exact signals.proceed ⟨refuses.job, by rw [refuses.dispatcher], by rw [refuses.dispatcher]⟩
      (refuses.dispatcher ▸ signals.signalling)

theorem Signals.completeCycle (signals : c.Signals surveys) (survey : Survey) :
    c.completeCycle.coordinator.Signals (surveys ++ [survey]) := by
  simp only [Coordinator.completeCycle]
  split
  · rename_i oneShot
    have registered : ∀ worker ∈ c.desk.complete.dispatcher.registry.workers,
        c.desk.complete.dispatcher.registry.isRegistered worker = true :=
      fun worker member => Registry.mem_workers.mp member
    have continues := continues_flush (c := { c with desk := c.desk.complete }) registered
    refine ⟨signalling_flush signals.signalling.complete (fun _ owes => owes) registered, ?_, ?_⟩
    · rw [continues.signals, continues.job]
      exact signals.signals
    · rw [continues.complete, continues.job]
      simp [Desk.complete, oneShot]
  · rename_i periodic
    have flushed := signals.flush fun worker member => Registry.mem_workers.mp member
    refine ⟨flushed.signalling, flushed.signals, ?_⟩
    have job := (c.goes_flush c.desk.dispatcher.registry.workers).job
    rw [flushed.complete, job]
    simp [periodic]

theorem Signals.finish (signals : c.Signals surveys) (change : QueueChange) (known : SplitMap)
    (lookup : Lookup) : (c.finish change known lookup).coordinator.Signals
      (surveys ++ c.finishSurveys change known lookup) := by
  have placed := signals.place change known lookup
  unfold Coordinator.finishSurveys Coordinator.finish Outcome.andThen
  cases done : (c.place change known lookup).result with
  | ok =>
    dsimp only
    rw [result_completeCycle]
    exact placed.completeCycle _
  | error e =>
    simp only [done, List.append_nil]
    exact placed

theorem Signals.count (signals : c.Signals surveys) (change : Metrics → Metrics) :
    (c.count change).Signals surveys :=
  signals.proceed ⟨rfl, rfl, rfl⟩ signals.signalling

theorem Signals.cycle (signals : c.Signals surveys) (broker : Broker) :
    (c.cycle broker).coordinator.Signals (surveys ++ c.cycleSurveys broker) := by
  cases scanned : Scan.run broker c.job.topics with
  | error e =>
    simp only [Coordinator.cycle, cycleSurveys, scanned, List.append_nil]
    exact signals
  | ok scan =>
    simp only [Coordinator.cycle, cycleSurveys, scanned, cycleOver]
    generalize counted : c.count _ = d
    have found : d.changeTo scan.queues = c.changeTo scan.queues := by rw [← counted]; rfl
    have before : d.Signals surveys := counted ▸ signals.count _
    rw [found]
    cases changed : c.changeTo scan.queues with
    | none =>
      dsimp only
      rw [result_completeCycle]
      exact before.completeCycle _
    | some change =>
      dsimp only
      generalize measured : d.count _ = e
      have before : e.Signals surveys := measured ▸ before.count _
      have finished := before.finish change d.desk.reconciler.known
        (c.job.lookUp broker change.wanted)
      rw [finishSurveys, between_of_changeTo changed] at finished
      rw [between_of_changeTo changed]
      exact finished

theorem Does.signals {metered : Prop} {events : Journal} {completed : List Survey}
    (does : c.Does metered next events completed) (signals : c.Signals surveys) :
    next.Signals (surveys ++ completed) := by
  have quiet : ∀ {d : Coordinator}, d.Signals surveys → d.Signals (surveys ++ []) := by
    intro d same
    rw [List.append_nil]
    exact same
  cases does with
  | rest => exact quiet signals
  | addWorker worker isOpen => exact quiet (signals.addWorker worker isOpen)
  | removeWorker worker =>
    exact quiet (signals.proceed ⟨rfl, rfl, rfl⟩ (signals.signalling.unregister worker))
  | hangUp worker =>
    exact quiet (signals.proceed ⟨rfl, rfl, rfl⟩ (signals.signalling.hangUp worker))
  | count _ change => exact quiet (signals.count change)
  | returnSplits worker splits => exact quiet (signals.returnSplits worker splits)
  | completeCycle latest => exact signals.completeCycle _
  | finish apart keyed lookup => exact signals.finish _ _ lookup
  | cycle broker => exact signals.cycle broker

end Coordinator

theorem Dispatcher.signalling_fresh {d : Dispatcher} (registry : d.registry = {})
    (signalled : d.signalled = ∅) : d.Signalling ∅ where
  tallied := by
    refine ⟨registry ▸ Registry.numbered_start, ?_, ?_⟩
    · intro number
      simp [registry, Registry.signalsOn, Registry.commandsOn]
    · intro worker number reached
      simp [registry, Registry.channelOf] at reached
  silent := by simp [registry, Registry.signalsOn, Registry.commandsOn]
  early := by simp [signalled]
  told := by simp [registry, Registry.isRegistered]

theorem Surveyed.signals {site : Site} {journal : Journal} {surveys : List Survey}
    (surveyed : Surveyed site journal surveys) : site.coordinator.Signals surveys := by
  induction surveyed with
  | start job =>
    exact ⟨Dispatcher.signalling_fresh rfl rfl, rfl, by simp [Site.coordinator, Coordinator.start]⟩
  | @restore job checkpoint metrics c opened =>
    have dispatcher := (Coordinator.restore_ok opened).2
    have job := Coordinator.job_of_restore opened
    simp only [Site.coordinator]
    refine ⟨?_, ?_, ?_⟩
    · rw [dispatcher]
      exact Dispatcher.signalling_fresh rfl rfl
    · rw [dispatcher, job]
      rfl
    · simp [dispatcher, Dispatcher.restore]
  | act before act ih => exact (Site.does before.reached.fits act).signals ih

/-- A worker that can be reached was told that no more splits come, once on the channel of its
    registration, just if the job is bounded and scans once and a cycle was completed, no matter
    what that cycle found. All that went out on its channel was for it. A channel starts with
    nothing on it, and no channel, in use or not, carries the signal twice or too early. -/
theorem no_more_splits_once_per_registration {site : Site} {journal : Journal}
    {surveys : List Survey} (surveyed : Surveyed site journal surveys) :
    let settings := site.coordinator.job.settings
    let registry := site.coordinator.desk.dispatcher.registry
    (∀ worker number, registry.channelOf worker = some number →
      (registry.commandsOn number).count .noMoreSplits =
          (if settings.boundedness = .bounded ∧ settings.isOneShot = true ∧ surveys ≠ []
            then 1 else 0) ∧
        ∀ delivery ∈ registry.sent, delivery.channel = number → delivery.worker = worker) ∧
    registry.commandsOn registry.opened = [] ∧
    ∀ number, (registry.commandsOn number).count .noMoreSplits ≤
      if settings.boundedness = .bounded ∧ settings.isOneShot = true ∧ surveys ≠ []
        then 1 else 0 := by
  intro settings registry
  obtain ⟨⟨tallied, silent, early, told⟩, signals, complete⟩ := surveyed.signals
  have due : site.coordinator.desk.dispatcher.shouldSignal = true ↔
      settings.boundedness = .bounded ∧ settings.isOneShot = true ∧ surveys ≠ [] := by
    rw [Dispatcher.shouldSignal, Bool.and_eq_true, signals, complete, Settings.signals,
      Bool.and_eq_true, decide_eq_true_eq]
    tauto
  refine ⟨?_, tallied.numbered.commandsOn_opened, ?_⟩
  · intro worker number reached
    constructor
    · have marked : worker ∈ site.coordinator.desk.dispatcher.signalled ↔
          site.coordinator.desk.dispatcher.shouldSignal = true :=
        ⟨early worker, fun now => told now (Registry.isRegistered_iff.mpr ⟨number, reached⟩)
          ExtTreeSet.not_mem_empty⟩
      have counted := tallied.counted reached
      simp only [marked, due] at counted
      exact counted
    · intro delivery member same
      exact tallied.numbered.own delivery member (same ▸ reached)
  · intro number
    split
    · exact tallied.once number
    · rename_i undue
      exact Nat.le_of_eq (silent (Bool.eq_false_iff.mpr fun now => undue (due.mp now)) number)

namespace Sample

def boundedJob : Job :=
  { job with settings := { parallelism := 2, interval := none, boundedness := .bounded } }

def boundedSite (acts : List Act) : Site := (Site.direct (.start boundedJob)).run acts

theorem boundedSurveyed (acts : List Act) :
    Surveyed (boundedSite acts) ((Site.direct (.start boundedJob)).journal acts)
      ((Site.direct (.start boundedJob)).surveys acts) :=
  (Surveyed.start boundedJob).run acts

end Sample

theorem signalled_again_after_joining_again :
    let acts := [Act.join 0 true, .cycle (Sample.broker []), .join 0 true]
    let registry := (Sample.boundedSite acts).coordinator.desk.dispatcher.registry
    (registry.commandsOn 0).count .noMoreSplits = 1 ∧
      (registry.commandsOn 1).count .noMoreSplits = 1 := by
  intro acts registry
  obtain ⟨once, _⟩ := no_more_splits_once_per_registration (Sample.boundedSurveyed acts)
  refine ⟨by decide +kernel, (once 0 1 (by decide +kernel)).1.trans ?_⟩
  exact if_pos ⟨by decide +kernel, by decide +kernel, by decide +kernel⟩

end QueueAssignment
