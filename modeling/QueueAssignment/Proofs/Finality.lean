import QueueAssignment.Proofs.Pace
import QueueAssignment.Proofs.Signals

/-!
What comes after the announcement that no more splits will come. In the loop of a job that scans
once nothing does, as long as no worker hands splits back. Splits that are handed back are placed
anew, and go out on channels that carried the announcement already.
-/
namespace QueueAssignment
open Std

namespace Registry

/-- More may have gone out on a channel, and all of it are splits, with assigns of just the queues
    that `assigned` is true of. -/
def Hands (r next : Registry) (number : Nat) (assigned : Queue → Prop) : Prop :=
  ∃ handed : List (List Split),
    next.commandsOn number = r.commandsOn number ++ handed.map .assign ∧
    ∀ queue, (∃ splits ∈ handed, ∃ split ∈ splits, split.tag = .assign ∧ split.queue = queue) ↔
      assigned queue

theorem hands_nothing {r next : Registry} {number : Nat} {assigned : Queue → Prop}
    (same : next.commandsOn number = r.commandsOn number) (none : ∀ queue, ¬ assigned queue) :
    r.Hands next number assigned := by
  refine ⟨[], same.trans (List.append_nil _).symm, fun queue => ?_⟩
  simp [none queue]

theorem exists_assign_iff {r : Registry} {batch : Batch} {number : Nat} {queue : Queue} :
    (∃ splits ∈ (batch.filter fun part => r.channelOf part.1 = some number).map Prod.snd,
        ∃ split ∈ splits, split.tag = .assign ∧ split.queue = queue) ↔
      ∃ w, r.channelOf w = some number ∧ ⟨w, queue⟩ ∈ batch.tagged .assign := by
  simp only [Batch.mem_tagged, List.mem_map, List.mem_filter, decide_eq_true_eq,
    Placement.mk.injEq]
  constructor
  · intro sent
    obtain ⟨_, ⟨part, ⟨member, reached⟩, rfl⟩, split, listed, tag, same⟩ := sent
    exact ⟨part.1, reached, part, member, split, listed, tag, rfl, same⟩
  · intro placed
    obtain ⟨_, reached, part, member, split, listed, tag, rfl, same⟩ := placed
    exact ⟨part.2, ⟨part, ⟨member, reached⟩, rfl⟩, split, listed, tag, same⟩

end Registry

namespace Dispatcher

variable {d next : Dispatcher} {batch : Batch} {workers : WorkerSet} {number : Nat}

theorem channelOf_signalOne (d : Dispatcher) (worker other : Worker) :
    (d.signalOne worker).registry.channelOf other = d.registry.channelOf other :=
  Registry.channelOf_congr (d.signalOne_same worker).2.2.1 other

theorem commandsOn_signalOne (d : Dispatcher) (worker : Worker) (number : Nat) :
    (d.signalOne worker).registry.commandsOn number = d.registry.commandsOn number ++
      (if worker ∉ d.signalled ∧ d.registry.channelOf worker = some number then [.noMoreSplits]
        else []) := by
  unfold signalOne
  by_cases told : worker ∈ d.signalled
  · simp [told]
  · simp [told, Registry.commandsOn_send]

theorem commandsOn_signal (d : Dispatcher) (workers : WorkerSet) (number : Nat) :
    ∃ times, (d.signal workers).registry.commandsOn number =
        d.registry.commandsOn number ++ List.replicate times .noMoreSplits ∧
      (times ≠ 0 → ∃ worker ∈ workers, d.registry.channelOf worker = some number) := by
  simp only [signal, ← ExtTreeSet.mem_toList (t := workers)]
  induction workers.toList generalizing d with
  | nil => exact ⟨0, (List.append_nil _).symm, fun some_signal => absurd rfl some_signal⟩
  | cons first rest ih =>
    obtain ⟨times, later, reaches⟩ := ih (d.signalOne first)
    simp only [channelOf_signalOne] at reaches
    rw [List.foldl_cons, later, commandsOn_signalOne]
    split
    · rename_i told
      refine ⟨times + 1, ?_, fun _ => ⟨first, List.mem_cons_self, told.2⟩⟩
      rw [List.append_assoc, List.replicate_succ]
      rfl
    · refine ⟨times, by rw [List.append_nil], fun some_signal => ?_⟩
      obtain ⟨worker, member, reached⟩ := reaches some_signal
      exact ⟨worker, List.mem_cons_of_mem _ member, reached⟩

inductive Serves (d next : Dispatcher) : Prop where
  | quiet : next.registry.sent = d.registry.sent → Serves d next
  | flush {ready : Dispatcher} {batch : Batch} {workers : WorkerSet} :
      ready.registry.sent = d.registry.sent → next = ready.served batch workers → Serves d next

theorem Serves.of_same {ready : Dispatcher} (serves : ready.Serves next)
    (same : ready.registry.sent = d.registry.sent) : d.Serves next := by
  cases serves with
  | quiet kept => exact .quiet (kept.trans same)
  | flush kept flushed => exact .flush (kept.trans same) flushed

theorem Serves.last (serves : d.Serves next)
    (before : .noMoreSplits ∉ d.registry.commandsOn number)
    (after : .noMoreSplits ∈ next.registry.commandsOn number) :
    (next.registry.commandsOn number).getLast? = some .noMoreSplits := by
  cases serves with
  | quiet same =>
    rw [Registry.commandsOn_congr same] at after
    exact absurd after before
  | @flush ready batch workers same flushed =>
    rw [← Registry.commandsOn_congr same] at before
    -- A flush sends the splits first, so a signal that is there now is at the end.
    have undelivered : .noMoreSplits ∉ (ready.deliver batch).registry.commandsOn number := by
      rw [commandsOn_deliver]
      simp [before]
    rw [flushed, served] at after ⊢
    split at after
    · rename_i due
      obtain ⟨times, signalled, _⟩ := (ready.deliver batch).commandsOn_signal workers number
      rw [if_pos due, signalled]
      rw [signalled, List.mem_append] at after
      have some_signal := after.resolve_left undelivered
      have positive : times ≠ 0 := (List.mem_replicate.mp some_signal).1
      simp [List.getLast?_append, List.getLast?_replicate, positive]
    · exact absurd after undelivered

theorem commandsOn_served (listed : ∀ part ∈ batch, part.1 ∈ workers)
    (elsewhere : ∀ worker ∈ workers, d.registry.channelOf worker ≠ some number) :
    (d.served batch workers).registry.commandsOn number = d.registry.commandsOn number := by
  have delivered : (d.deliver batch).registry.commandsOn number = d.registry.commandsOn number := by
    have nothing : (batch.filter fun part => d.registry.channelOf part.1 = some number) = [] := by
      rw [List.filter_eq_nil_iff]
      intro part member
      simpa using elsewhere part.1 (listed part member)
    rw [commandsOn_deliver, nothing]
    exact List.append_nil _
  rw [served]
  split
  · obtain ⟨times, signalled, reaches⟩ := (d.deliver batch).commandsOn_signal workers number
    have never : times = 0 := by
      by_contra some_signal
      obtain ⟨worker, member, reached⟩ := reaches some_signal
      rw [Registry.channelOf_congr (d.connections_deliver batch)] at reached
      exact elsewhere worker member reached
    rw [signalled, delivered, never]
    exact List.append_nil _
  · exact delivered

theorem Signalling.served_eq_deliver (signalling : d.Signalling ∅)
    (registered : ∀ worker ∈ workers, d.registry.isRegistered worker = true) (batch : Batch) :
    d.served batch workers = d.deliver batch := by
  rw [Dispatcher.served]
  split
  · rename_i due
    apply signal_of_signalled
    exact fun worker member =>
      signalling.told due (registered worker member) ExtTreeSet.not_mem_empty
  · rfl

end Dispatcher

namespace Coordinator

variable {c next : Coordinator}

theorem serves_flush {workers : WorkerSet}
    (registered : ∀ worker ∈ workers, c.desk.dispatcher.registry.isRegistered worker = true) :
    c.desk.dispatcher.Serves (c.flush workers).coordinator.desk.dispatcher :=
  .flush rfl (dispatcher_flush registered)

theorem serves_addWorker (c : Coordinator) (worker : Worker) (isOpen : Bool) :
    c.desk.dispatcher.Serves (c.addWorker worker isOpen).coordinator.desk.dispatcher := by
  simp only [addWorker]
  split
  · rename_i there
    have registered := Registry.isRegistered_of_mem_single there
    have served := serves_flush (c := { c with desk := c.desk.register worker isOpen }) registered
    exact served.of_same rfl
  · exact .quiet rfl

theorem serves_completeCycle (c : Coordinator) :
    c.desk.dispatcher.Serves c.completeCycle.coordinator.desk.dispatcher := by
  simp only [completeCycle]
  split
  · have served := serves_flush (c := { c with desk := c.desk.complete })
      fun worker member => Registry.mem_workers.mp member
    exact served.of_same rfl
  · exact serves_flush fun worker member => Registry.mem_workers.mp member

theorem serves_returnSplits (c : Coordinator) (worker : Worker) (splits : List Split) :
    c.desk.dispatcher.Serves (c.returnSplits worker splits).coordinator.desk.dispatcher := by
  cases c.returnSplits_returns worker splits with
  | nothing _ outcome _ =>
    rw [outcome]
    exact .quiet rfl
  | placed places _ outcome _ _ =>
    rw [outcome]
    exact (serves_flush fun _ => registered_reachable).of_same
      (congrArg Registry.sent places.registry)
  | failed _ _ outcome _ =>
    rw [outcome]
    exact .quiet rfl

theorem serves_finish (c : Coordinator) (change : QueueChange) (known : SplitMap)
    (lookup : Lookup) :
    c.desk.dispatcher.Serves (c.finish change known lookup).coordinator.desk.dispatcher := by
  rcases c.place_cases change known lookup with
    ⟨_, _, placed, places, done, _⟩ | ⟨failed, e, refuses, done, _⟩
  · simp only [finish, Outcome.andThen, done]
    exact placed.serves_completeCycle.of_same (congrArg Registry.sent places.registry)
  · simp only [finish, Outcome.andThen, done]
    exact .quiet (by rw [refuses.dispatcher])

theorem serves_cycle (c : Coordinator) (broker : Broker) :
    c.desk.dispatcher.Serves (c.cycle broker).coordinator.desk.dispatcher := by
  unfold cycle
  cases Scan.run broker c.job.topics with
  | error e => exact .quiet rfl
  | ok scan =>
    dsimp only
    generalize counted : c.count _ = d
    have same : d.desk.dispatcher = c.desk.dispatcher := by rw [← counted]; rfl
    rw [← same]
    unfold cycleOver
    split
    · exact d.serves_completeCycle
    · dsimp only
      generalize measured : d.count _ = e
      have same : e.desk.dispatcher = d.desk.dispatcher := by rw [← measured]; rfl
      rw [← same]
      exact e.serves_finish _ _ _

theorem Does.serves {metered : Prop} {events : Journal} {surveys : List Survey}
    (does : c.Does metered next events surveys) :
    c.desk.dispatcher.Serves next.desk.dispatcher := by
  cases does with
  | rest | removeWorker | hangUp | count => exact .quiet rfl
  | addWorker worker isOpen => exact c.serves_addWorker worker isOpen
  | returnSplits worker splits => exact c.serves_returnSplits worker splits
  | completeCycle latest => exact c.serves_completeCycle
  | finish apart keyed lookup => exact c.serves_finish _ _ lookup
  | cycle broker => exact c.serves_cycle broker

theorem commandsOn_addWorker {number : Nat}
    (earlier : number < c.desk.dispatcher.registry.opened) (worker : Worker) (isOpen : Bool) :
    (c.addWorker worker isOpen).coordinator.desk.dispatcher.registry.commandsOn number =
      c.desk.dispatcher.registry.commandsOn number := by
  simp only [addWorker]
  split
  · rename_i there
    rw [dispatcher_flush (Registry.isRegistered_of_mem_single there),
      Dispatcher.commandsOn_served]
    · rfl
    · exact fun part member => Desk.fst_mem_of_mem_batchFor member
    · intro other member reached
      rw [Table.mem_single.mp member] at reached
      have reached : (c.desk.dispatcher.registry.register worker isOpen).channelOf worker =
          some number := reached
      rw [Registry.channelOf_register, if_pos rfl] at reached
      split at reached
      · have new := Option.some.inj reached
        omega
      · cases reached
  · rfl

theorem current_flush (c : Coordinator) (workers : WorkerSet) :
    (c.flush workers).coordinator.desk.reconciler.current = c.desk.reconciler.current := by
  unfold flush
  cases flushed : c.desk.flush workers with
  | error e => rfl
  | ok pair =>
    dsimp only
    rw [(Desk.flush_ok flushed).reconciler, Reconciler.current_drain]

theorem hands_flush_reachable {r : Reconciler} {change : SplitChange} {delta : Delta}
    {placed : Coordinator} (merges : r.Merges change placed.desk.reconciler delta)
    (keyed : placed.desk.reconciler.pending.Keyed)
    (signalling : placed.desk.dispatcher.Signalling ∅)
    (idle : ∀ {w}, placed.desk.dispatcher.registry.isRegistered w = true →
      ∀ queue, r.pending[(⟨w, queue⟩ : Placement)]? = none) (number : Nat) :
    let next := (placed.flush (placed.reachable delta)).coordinator.desk
    let registry := placed.desk.dispatcher.registry
    registry.Hands next.dispatcher.registry number fun queue =>
      ∃ w, registry.channelOf w = some number ∧
        queue ∈ placed.desk.reconciler.current.queuesOf w ∧ queue ∉ r.current.queuesOf w ∧
          queue ∉ r.held := by
  intro next registry
  have registered : ∀ w ∈ placed.reachable delta, registry.isRegistered w = true :=
    fun w member => (Table.mem_filter.mp member).2
  have delivered : next.dispatcher =
      placed.desk.dispatcher.deliver (placed.desk.batchFor (placed.reachable delta)) :=
    (dispatcher_flush registered).trans (signalling.served_eq_deliver registered _)
  refine ⟨_, by rw [delivered, Dispatcher.commandsOn_deliver], fun queue => ?_⟩
  rw [Registry.exists_assign_iff]
  refine exists_congr fun w => and_congr_right fun reached => ?_
  have there : registry.isRegistered w = true := Registry.isRegistered_iff.mpr ⟨number, reached⟩
  -- Nothing waited for this worker before, so all that waits now is from the merge.
  have waits : placed.desk.reconciler.pending[(⟨w, queue⟩ : Placement)]? =
      delta.splits[(⟨w, queue⟩ : Placement)]? := by
    rw [merges.pending, PlacedSplits.getElem?_merge, idle there]
    cases delta.splits[(⟨w, queue⟩ : Placement)]? <;> rfl
  rw [Desk.mem_tagged_batchFor keyed, waits, merges.tag_eq_assign_iff]
  refine and_iff_right_of_imp fun gets => ?_
  have told := merges.tag_eq_assign_iff.mpr gets
  refine Table.mem_filter.mpr ⟨?_, there⟩
  by_contra untold
  rw [PlacedSplits.getElem?_of_not_mem_workers untold] at told
  cases told

/-- Splits that are handed back add nothing but splits to a channel. They add an assign of a queue
    just where the new target gives it to the worker behind the channel, which had it not or handed
    it back, and the queue was nobody's restored one. -/
theorem hands_returnSplits {surveys : List Survey} {journal : Journal}
    (signals : c.Signals surveys) (sound : c.Sound journal) (worker : Worker) (splits : List Split)
    (number : Nat) :
    let next := (c.returnSplits worker splits).coordinator.desk
    let released := c.desk.reconciler.release worker splits
    c.desk.dispatcher.registry.Hands next.dispatcher.registry number fun queue =>
      ∃ w, c.desk.dispatcher.registry.channelOf w = some number ∧
        queue ∈ next.reconciler.current.queuesOf w ∧ queue ∉ released.current.queuesOf w ∧
          queue ∉ released.held := by
  intro next released
  have accounted := sound.accounted.release worker splits
  cases c.returnSplits_returns worker splits with
  | nothing empty outcome _ =>
    simp only [next, outcome]
    refine Registry.hands_nothing rfl fun queue placed => ?_
    obtain ⟨w, _, has, gone, _⟩ := placed
    refine gone (Assignment.mem_queuesOf_release.mpr ⟨has, ?_⟩)
    simp [empty, Reconciler.queuesOf]
  | @placed target delta placed batch places _ outcome _ _ =>
    have fits : (c.desk.reconciler.returnedChange splits).Fits :=
      Reconciler.fits_returnedChange sound.accounted.balanced.known splits
    have merges := Reconciler.merges_of_apply accounted.balanced fits places.applied
    have keyed : placed.desk.reconciler.pending.Keyed :=
      (accounted.merge fits places.applied places.settled).balanced.pending
    have after := (signals.released worker splits).places places
    have same : placed.desk.dispatcher.registry = c.desk.dispatcher.registry := places.registry
    have idle : ∀ {w}, placed.desk.dispatcher.registry.isRegistered w = true →
        ∀ queue, released.pending[(⟨w, queue⟩ : Placement)]? = none := by
      rw [same]
      exact Desk.CaughtUp.release sound.caughtUp worker splits
    have handed := hands_flush_reachable merges keyed after.signalling idle number
    simp only [next, outcome, current_flush, ← same]
    exact handed
  | failed _ _ outcome _ =>
    simp only [next, outcome]
    refine Registry.hands_nothing rfl fun queue placed => ?_
    obtain ⟨w, _, has, gone, _⟩ := placed
    exact gone has

end Coordinator

theorem count_done_begun (tasks : List Task) : (tasks.filterMap Task.pulse?).count .done = 0 := by
  rw [List.count_eq_zero]
  intro done
  obtain ⟨task, _, pulse⟩ := List.mem_filterMap.mp done
  cases task <;> cases pulse

theorem EventLoop.count_done_pulses (loop : EventLoop) (signal : Signal) :
    (loop.pulses signal).count .done = (loop.stepSurveys signal).length := by
  unfold pulses stepSurveys
  split
  · have untimed : (loop.fired signal).count .done = 0 := by
      unfold fired
      split
      · split <;> rfl
      · rfl
    rw [List.count_append, List.count_append, untimed, count_done_begun]
    simp [List.map_const']
  · rfl

theorem EventLoop.count_done_history (loop : EventLoop) (acts : List Act) :
    ((Site.spawned loop).history acts).count .done =
      ((Site.spawned loop).surveys acts).length := by
  induction acts generalizing loop with
  | nil => rfl
  | cons act rest ih =>
    rw [Site.history, Site.surveys, List.count_append, List.length_append]
    cases act with
    | signal signal =>
      have now := loop.count_done_pulses signal
      exact congrArg₂ (· + ·) now (ih (loop.step signal))
    | hangUp worker =>
      exact congrArg (0 + ·) (ih { loop with coordinator := loop.coordinator.hangUp worker })
    | meter change =>
      exact congrArg (0 + ·) (ih { loop with coordinator := loop.coordinator.count change })
    | join | leave | takeBack | cycle | spawn => exact congrArg (0 + ·) (ih loop)

def Act.TakesBack : Act → Prop
  | .signal (.request (.takeBack _ _)) => True
  | _ => False

def Site.registry (site : Site) : Registry := site.coordinator.desk.dispatcher.registry

theorem Coordinator.registry_finish {c : Coordinator} {change : QueueChange} {known : SplitMap}
    {lookup : Lookup} (failed : c.finishSurveys change known lookup = []) :
    (c.finish change known lookup).coordinator.desk.dispatcher.registry =
      c.desk.dispatcher.registry := by
  unfold finishSurveys at failed
  unfold finish at failed ⊢
  rcases c.place_cases change known lookup with
    ⟨_, _, placed, _, done, _⟩ | ⟨_, e, refuses, done, _⟩
  · simp [Outcome.andThen, done, result_completeCycle] at failed
  · simp only [Outcome.andThen, done, refuses.dispatcher]

namespace EventLoop

variable {loop : EventLoop} {number : Nat}

theorem coordinator_tick (loop : EventLoop) : loop.tick.coordinator = loop.coordinator := by
  unfold tick
  split <;> rfl

theorem coordinator_scanned {latest : QueueSet} (quiet : loop.scannedSurveys latest = []) :
    (loop.scanned latest).coordinator = loop.coordinator := by
  unfold scannedSurveys at quiet
  unfold scanned
  cases changed : loop.coordinator.changeTo latest with
  | some change => rfl
  | none => simp [changed] at quiet

theorem registry_turn {signal : Signal} (own : ∀ request, signal ≠ .request request)
    (quiet : loop.turnSurveys signal = []) :
    (loop.turn signal).coordinator.desk.dispatcher.registry =
      loop.coordinator.desk.dispatcher.registry := by
  cases signal with
  | tick =>
    simp only [turn]
    split
    · rfl
    · rw [coordinator_tick]
  | scanned latest =>
    unfold turn
    unfold turnSurveys at quiet
    cases tasks : loop.tasks with
    | nil => rfl
    | cons task rest =>
      cases task with
      | scan =>
        simp only [tasks] at quiet
        have found : { loop with tasks := rest }.scannedSurveys latest = [] := quiet
        exact congrArg (·.desk.dispatcher.registry) (coordinator_scanned found)
      | lookUp => rfl
  | lookedUp lookup =>
    unfold turn
    unfold turnSurveys at quiet
    cases tasks : loop.tasks with
    | nil => rfl
    | cons task rest =>
      cases task with
      | scan => rfl
      | lookUp change known =>
        simp only [tasks] at quiet
        simp only [coordinator_lookedUp, Coordinator.registry_finish quiet]
  | crashed =>
    unfold turn
    cases loop.tasks with
    | nil => rfl
    | cons task rest => rfl
  | request request => exact absurd rfl (own request)
  | cancelled | abandoned => rfl

theorem commandsOn_serve (earlier : number < loop.coordinator.desk.dispatcher.registry.opened)
    {request : Request} (calm : ¬ (Act.signal (.request request)).TakesBack) :
    (loop.serve request).coordinator.desk.dispatcher.registry.commandsOn number =
      loop.coordinator.desk.dispatcher.registry.commandsOn number := by
  cases request with
  | join worker isOpen =>
    rw [serve, coordinator_resume_id]
    exact Coordinator.commandsOn_addWorker earlier worker isOpen
  | takeBack worker splits => exact absurd trivial calm
  | leave | snapshot | close => rfl

theorem commandsOn_step (earlier : number < loop.coordinator.desk.dispatcher.registry.opened)
    {signal : Signal} (calm : ¬ (Act.signal signal).TakesBack)
    (quiet : loop.stepSurveys signal = []) :
    (loop.step signal).coordinator.desk.dispatcher.registry.commandsOn number =
      loop.coordinator.desk.dispatcher.registry.commandsOn number := by
  unfold stepSurveys at quiet
  unfold step
  split
  · rename_i running
    rw [if_pos running] at quiet
    by_cases asked : ∃ request, signal = .request request
    · obtain ⟨request, rfl⟩ := asked
      exact commandsOn_serve earlier calm
    · have own : ∀ request, signal ≠ .request request := fun request same => asked ⟨request, same⟩
      rw [registry_turn own quiet]
  · rfl

end EventLoop

namespace Site

variable {loop : EventLoop} {number : Nat}

theorem commandsOn_after (earlier : number < (Site.spawned loop).registry.opened) {act : Act}
    (calm : ¬ act.TakesBack) (quiet : (Site.spawned loop).survey act = []) :
    ((Site.spawned loop).after act).registry.commandsOn number =
      (Site.spawned loop).registry.commandsOn number := by
  cases act with
  | signal signal => exact EventLoop.commandsOn_step earlier calm quiet
  | join | leave | takeBack | cycle | spawn | hangUp | meter => rfl

theorem after_spawned (loop : EventLoop) (act : Act) :
    ∃ next, (Site.spawned loop).after act = .spawned next := by
  cases act <;> exact ⟨_, rfl⟩

theorem run_spawned (loop : EventLoop) (acts : List Act) :
    ∃ next, (Site.spawned loop).run acts = .spawned next := by
  induction acts generalizing loop with
  | nil => exact ⟨loop, rfl⟩
  | cons act rest ih =>
    obtain ⟨next, step⟩ := after_spawned loop act
    rw [run, List.foldl_cons, step]
    exact ih next

theorem surveys_append (site : Site) (acts more : List Act) :
    site.surveys (acts ++ more) = site.surveys acts ++ (site.run acts).surveys more := by
  induction acts generalizing site with
  | nil => rfl
  | cons act rest ih =>
    rw [List.cons_append, surveys, surveys, ih, List.append_assoc]
    rfl

end Site

theorem Surveyed.commandsOn_run {loop : EventLoop} {journal : Journal} {surveys : List Survey}
    {number : Nat} (surveyed : Surveyed (.spawned loop) journal surveys)
    (signalled : .noMoreSplits ∈ (Site.spawned loop).registry.commandsOn number)
    {more : List Act} (calm : ∀ act ∈ more, ¬ act.TakesBack)
    (quiet : (Site.spawned loop).surveys more = []) :
    ((Site.spawned loop).run more).registry.commandsOn number =
      (Site.spawned loop).registry.commandsOn number := by
  induction more generalizing loop journal surveys with
  | nil => rfl
  | cons act rest ih =>
    obtain ⟨now, later⟩ := List.append_eq_nil_iff.mp quiet
    have earlier := surveyed.signals.signalling.tallied.numbered.lt_opened signalled
    have same := Site.commandsOn_after earlier (calm act (by simp)) now
    have stepped := surveyed.act act
    obtain ⟨next, step⟩ := Site.after_spawned loop act
    rw [step] at same stepped later
    rw [Site.run, List.foldl_cons, step]
    exact (ih stepped (same ▸ signalled) (fun other member => calm other (by simp [member]))
      later).trans same

theorem Reached.surveys_le_one {c : Coordinator} {journal : Journal}
    (reached : Reached (.direct c) journal) (oneShot : c.job.settings.isOneShot = true)
    (acts : List Act) : ((Site.direct c).surveys (.spawn :: acts)).length ≤ 1 := by
  obtain ⟨loop, spawned⟩ := Site.run_spawned (.start c) acts
  have spawned : (Site.direct c).run (.spawn :: acts) = .spawned loop := spawned
  have job := (reached.goes_run (.spawn :: acts)).job
  have fresh : (Site.direct c).Paced [] := rfl
  have whole := reached.paced_run fresh (.spawn :: acts)
  rw [spawned] at job whole
  have paced : loop.Paced ((Site.direct c).history (.spawn :: acts)) := whole
  have job : loop.coordinator.job = c.job := job
  have once := (paced.once (job ▸ oneShot)).2
  have first : ((Site.direct c).pulses .spawn).count .done = 0 := count_done_begun _
  have done : ((Site.direct c).history (.spawn :: acts)).count .done =
      ((Site.direct c).surveys (.spawn :: acts)).length := by
    rw [Site.history, List.count_append, first, Nat.zero_add]
    exact EventLoop.count_done_history (.start c) acts
  rw [← done]
  have counted := paced.rhythm.count_scan
  omega

theorem Surveyed.surveys_of_signalled {c : Coordinator} {journal : Journal}
    (surveyed : Surveyed (.direct c) journal []) {acts : List Act} {loop : EventLoop}
    (spawned : (Site.direct c).run (.spawn :: acts) = .spawned loop) {number : Nat}
    (signalled : .noMoreSplits ∈ (Site.spawned loop).registry.commandsOn number)
    (more : List Act) : (Site.spawned loop).surveys more = [] := by
  have job := (surveyed.reached.goes_run (.spawn :: acts)).job
  have ran := surveyed.run (.spawn :: acts)
  rw [spawned] at job ran
  obtain ⟨signalling, signals, complete⟩ := ran.signals
  have due : loop.coordinator.desk.dispatcher.shouldSignal = true := by
    by_contra undue
    have none := signalling.silent (Bool.eq_false_iff.mpr undue) number
    exact List.count_eq_zero.mp none signalled
  obtain ⟨oneShot, completed⟩ := complete.mp (Bool.and_eq_true_iff.mp due).2
  -- The one cycle that there can be is over, as nothing is announced before.
  have one := surveyed.reached.surveys_le_one (job ▸ oneShot) (acts ++ more)
  rw [← List.cons_append, Site.surveys_append, spawned, List.length_append] at one
  have some_cycle := List.length_pos_iff.mpr completed
  rw [List.nil_append] at some_cycle
  exact List.eq_nil_of_length_eq_zero (by omega)

/-- In an event loop the announcement that no more splits come is the last that a channel carries,
    as long as no cycle is completed afterwards and no worker hands splits back. The loop of a
    coordinator that completed no cycle before completes none after it. Where splits are handed
    back, the channel carries an assign of a queue just where the new target gives that queue to the
    worker behind the channel, which had it not or handed it back, and the queue was nobody's
    restored one. -/
theorem only_returned_splits_follow_announcement {c : Coordinator} {journal : Journal}
    {surveys : List Survey} (surveyed : Surveyed (.direct c) journal surveys) {acts : List Act}
    {loop : EventLoop} (spawned : (Site.direct c).run (.spawn :: acts) = .spawned loop) :
    let site := Site.spawned loop
    (∀ act number, .noMoreSplits ∉ site.registry.commandsOn number →
      .noMoreSplits ∈ (site.after act).registry.commandsOn number →
        ((site.after act).registry.commandsOn number).getLast? = some .noMoreSplits) ∧
    ∀ number, .noMoreSplits ∈ site.registry.commandsOn number →
      (∀ more, (∀ act ∈ more, ¬ act.TakesBack) → site.surveys more = [] →
        (site.run more).registry.commandsOn number = site.registry.commandsOn number) ∧
      (surveys = [] → ∀ more, site.surveys more = []) ∧
      (loop.isRunning = true → ∀ worker splits,
        let next := site.after (.signal (.request (.takeBack worker splits)))
        let released := loop.coordinator.desk.reconciler.release worker splits
        site.registry.Hands next.registry number fun queue =>
          ∃ w, site.registry.channelOf w = some number ∧
            queue ∈ next.coordinator.desk.reconciler.current.queuesOf w ∧
            queue ∉ released.current.queuesOf w ∧ queue ∉ released.held) := by
  intro site
  have ran := surveyed.run (.spawn :: acts)
  rw [spawned] at ran
  refine ⟨?last, fun number signalled => ⟨?stays, ?none, ?handed⟩⟩
  case last =>
    intro act number before after
    exact (Site.does ran.reached.fits act).serves.last before after
  case stays => exact fun more calm quiet => ran.commandsOn_run signalled calm quiet
  case none =>
    rintro rfl
    exact surveyed.surveys_of_signalled spawned signalled
  case handed =>
    intro running worker splits
    have handed := Coordinator.hands_returnSplits ran.signals ran.reached.sound worker splits number
    have same : (site.after (.signal (.request (.takeBack worker splits)))).coordinator =
        (loop.coordinator.returnSplits worker splits).coordinator := by
      simp only [site, Site.after, Site.coordinator, EventLoop.step, running, if_true,
        EventLoop.turn, EventLoop.serve, EventLoop.coordinator_resume_id]
    simp only [Site.registry, same]
    exact handed

namespace Sample

def announced : List Act :=
  let found := (scan [0, 1]).queues
  [.signal (.request (.join 0 true)), .signal (.scanned found),
    .signal (.lookedUp (boundedJob.lookUp (broker [0, 1]) found))]

end Sample

/-- Others come and go without a change to what the first worker is told. -/
theorem announcement_stays_last :
    let more := [Act.signal (.request (.join 1 true)), .signal (.request (.leave 0))]
    ∃ loop, (Site.direct (.start Sample.boundedJob)).run (.spawn :: Sample.announced) =
        .spawned loop ∧
      ((Site.spawned loop).run more).registry.commandsOn 0 =
        [.assign [.assign (Sample.queue 0) 0 none], .noMoreSplits] := by
  intro more
  obtain ⟨loop, spawned⟩ : ∃ loop,
      (Site.direct (.start Sample.boundedJob)).run (.spawn :: Sample.announced) =
        .spawned loop := ⟨_, rfl⟩
  have sent : (Site.spawned loop).registry.commandsOn 0 =
      [.assign [.assign (Sample.queue 0) 0 none], .noMoreSplits] := by
    rw [← spawned]
    decide +kernel
  obtain ⟨_, final⟩ := only_returned_splits_follow_announcement (.start Sample.boundedJob) spawned
  obtain ⟨stays, completes_none, _⟩ := final 0 (by simp [sent])
  have calm : ∀ act ∈ more, ¬ act.TakesBack := by simp [more, Act.TakesBack]
  exact ⟨loop, spawned, (stays more calm (completes_none rfl more)).trans sent⟩

/-- The worker loses its queue, hands it back and is given it once more, on the channel that carries
    the announcement already. -/
theorem returned_queue_assigned_after_announcement :
    let site := Sample.boundedSite (.spawn :: Sample.announced)
    let lost := [Split.assign (Sample.queue 0) 5 none]
    let later := site.after (.signal (.request (.takeBack 0 lost)))
    site.registry.commandsOn 0 =
        [.assign [.assign (Sample.queue 0) 0 none], .noMoreSplits] ∧
      later.registry.commandsOn 0 = site.registry.commandsOn 0 ++ [.assign lost] := by
  decide +kernel

end QueueAssignment
