import QueueAssignment.Proofs.Restart

/-!
How operations and event loops end. A flush only ever serves workers that can be reached, so an
operation fails just where the strategy does or its answer is refused. Where every answer passes
the check, a loop goes on until it is told to stop or a task beside it crashes.
-/
namespace QueueAssignment
open Std

deriving instance DecidableEq for Ending

namespace Scan

end Scan

namespace Coordinator

variable {c : Coordinator}

theorem result_flush {workers : WorkerSet}
    (registered : ∀ worker ∈ workers, c.desk.dispatcher.registry.isRegistered worker = true) :
    (c.flush workers).result = .ok () := by
  obtain ⟨next, batch, flushed⟩ := Desk.flush_registered registered
  rw [flush, flushed]

theorem result_addWorker (c : Coordinator) (worker : Worker) (isOpen : Bool) :
    (c.addWorker worker isOpen).result = .ok () := by
  simp only [addWorker]
  split
  · rename_i there
    exact result_flush (Registry.isRegistered_of_mem_single there)
  · rfl

theorem result_returnSplits (accepted : c.job.strategy.Accepted c.job.settings.parallelism)
    (worker : Worker) (splits : List Split) : (c.returnSplits worker splits).result = .ok () := by
  cases c.returnSplits_returns worker splits with
  | nothing _ outcome _ => rw [outcome]
  | placed _ _ _ done _ => exact done
  | failed _ fails _ _ =>
    obtain ⟨target, owners, answered, passed⟩ := accepted c.calls
      (c.desk.reconciler.returnedChange splits)
    cases fails with
    | unanswered nothing => exact absurd (nothing.symm.trans answered) nofun
    | violated other refused =>
      cases Except.ok.inj (other.symm.trans answered)
      exact absurd (refused.symm.trans passed) nofun

theorem result_place (accepted : c.job.strategy.Accepted c.job.settings.parallelism)
    (change : QueueChange) (known : SplitMap) (lookup : Lookup) :
    (c.place change known lookup).result = .ok () := by
  rcases c.place_cases change known lookup with
    ⟨_, _, _, _, done, _⟩ | ⟨_, _, refuses, _, _⟩
  · rw [done]
  · obtain ⟨target, owners, answered, passed⟩ := accepted c.calls
      (.ofOffsets change known lookup.starting.offsets lookup.stopping.offsets)
    exact absurd passed (refuses.refused target owners answered)

theorem result_completeCycle (c : Coordinator) : c.completeCycle.result = .ok () := by
  obtain ⟨_, _, _, done, _⟩ := c.completeCycle_flushes
  exact done

end Coordinator

namespace EventLoop

variable {loop : EventLoop}

def verdict (loop : EventLoop) : Signal → Option (Except Error Unit)
  | .request .close | .cancelled | .abandoned => some (.ok ())
  | .crashed => if loop.tasks.isEmpty then none else some (.error (.invalidState .scanCrashed))
  | _ => none

theorem ended_resume {outcome : Outcome} {next : EventLoop → EventLoop}
    (done : outcome.result = .ok ()) :
    (loop.resume outcome next).ended =
      (next { loop with coordinator := outcome.coordinator }).ended := by
  rw [resume, done]

theorem finishCycle_eq (loop : EventLoop) :
    loop.finishCycle =
      { loop with
        coordinator := loop.coordinator.completeCycle.coordinator
        tasks := loop.tasks ++ (if loop.rescan then [.scan] else [])
        inFlight := loop.rescan
        rescan := false } := by
  rw [finishCycle, resume, loop.coordinator.result_completeCycle]
  cases asked : loop.rescan with
  | true => simp [startCycle]
  | false => simp

theorem ended_finishCycle (loop : EventLoop) : loop.finishCycle.ended = loop.ended := by
  rw [finishCycle_eq]

theorem ended_scanned (loop : EventLoop) (latest : QueueSet) :
    (loop.scanned latest).ended = loop.ended := by
  unfold scanned
  split
  · rfl
  · exact ended_finishCycle loop

theorem ended_start (c : Coordinator) :
    (start c).ended = if c.job.settings.interval = some 0 then some .crashed else none := by
  rw [start_eq]

theorem ended_turn (accepted : loop.coordinator.job.strategy.Accepted
    loop.coordinator.job.settings.parallelism) (signal : Signal) :
    (loop.turn signal).ended = ((loop.verdict signal).map .returned).or loop.ended := by
  cases signal with
  | tick =>
    simp only [turn, tick]
    split
    · rfl
    · split <;> rfl
  | scanned latest =>
    unfold turn
    cases loop.tasks with
    | nil => rfl
    | cons task rest =>
      cases task with
      | scan => exact ended_scanned { loop with tasks := rest } latest
      | lookUp => rfl
  | lookedUp lookup =>
    unfold turn
    cases loop.tasks with
    | nil => rfl
    | cons task rest =>
      cases task with
      | scan => rfl
      | lookUp change known =>
        dsimp only [lookedUp]
        rw [ended_resume (Coordinator.result_place accepted change known lookup)]
        exact ended_finishCycle _
  | crashed =>
    unfold turn verdict
    cases loop.tasks with
    | nil => rfl
    | cons task rest => rfl
  | request request =>
    simp only [turn]
    cases request with
    | join worker isOpen => exact ended_resume (loop.coordinator.result_addWorker worker isOpen)
    | leave worker => rfl
    | takeBack worker splits =>
      exact ended_resume (Coordinator.result_returnSplits accepted worker splits)
    | snapshot => rfl
    | close => rfl
  | cancelled => rfl
  | abandoned => rfl

/-- A loop stays as it ended. One that runs, and whose targets are accepted, ends just where it is
    told to stop, or with the task that crashes. -/
theorem ended_step (accepted : loop.coordinator.job.strategy.Accepted
    loop.coordinator.job.settings.parallelism) (signal : Signal) :
    (loop.step signal).ended = loop.ended.or ((loop.verdict signal).map .returned) := by
  cases ended : loop.ended with
  | none =>
    have running : loop.isRunning = true := Option.isNone_iff_eq_none.mpr ended
    rw [step, if_pos running, ended_turn accepted, ended, Option.or_none, Option.none_or]
  | some ending => simp [step, isRunning, ended]

end EventLoop

namespace Site

/-- There is no loop, or it goes on. -/
def isRunning : Site → Bool
  | direct _ => true
  | spawned loop => loop.isRunning

end Site

def Act.Stops : Act → Prop
  | .signal (.request .close) | .signal .cancelled | .signal .abandoned => True
  | _ => False

theorem Site.run_of_ended {loop : EventLoop} {ending : Ending} (ended : loop.ended = some ending)
    (acts : List Act) :
    ∃ later, (Site.spawned loop).run acts = .spawned later ∧ later.ended = some ending := by
  induction acts generalizing loop with
  | nil => exact ⟨loop, rfl, ended⟩
  | cons act rest ih =>
    cases act with
    | signal signal =>
      have still : loop.step signal = loop := by simp [EventLoop.step, EventLoop.isRunning, ended]
      have same : (Site.spawned loop).after (.signal signal) = .spawned loop :=
        congrArg Site.spawned still
      rw [Site.run, List.foldl_cons, same]
      exact ih ended
    | join | leave | takeBack | cycle | spawn => exact ih ended
    | hangUp worker => exact ih ended
    | meter change => exact ih ended

theorem EventLoop.stops_of_verdict {loop : EventLoop} {signal : Signal} (calm : signal ≠ .crashed)
    {result : Except Error Unit} (ends : loop.verdict signal = some result) :
    (Act.signal signal).Stops ∧ result = .ok () := by
  cases signal with
  | request request =>
    cases request with
    | close => exact ⟨trivial, (Option.some.inj ends).symm⟩
    | join | leave | takeBack | snapshot => cases ends
  | cancelled | abandoned => exact ⟨trivial, (Option.some.inj ends).symm⟩
  | crashed => exact absurd rfl calm
  | tick | scanned | lookedUp => cases ends

theorem Site.stops_of_ended {site : Site} {act : Act} (running : site.isRunning = true)
    (accepted : site.coordinator.job.strategy.Accepted site.coordinator.job.settings.parallelism)
    (calm : act ≠ .signal .crashed) (halted : (site.after act).isRunning = false) :
    ∃ loop ending, site.after act = .spawned loop ∧ loop.ended = some ending ∧
      ∀ result, ending = .returned result → result = .ok () ∧ act.Stops := by
  cases site with
  | direct c =>
    cases act with
    | spawn =>
      have ended := EventLoop.ended_start c
      split at ended
      · exact ⟨_, _, rfl, ended, nofun⟩
      · exact absurd (Option.isNone_iff_eq_none.mpr ended) (Bool.eq_false_iff.mp halted)
    | join | leave | takeBack | cycle | hangUp | meter | signal => cases halted
  | spawned loop =>
    cases act with
    | signal signal =>
      have calm : signal ≠ .crashed := fun same => calm (congrArg Act.signal same)
      have ended := EventLoop.ended_step accepted signal
      rw [Option.isNone_iff_eq_none.mp running, Option.none_or] at ended
      cases verdict : loop.verdict signal with
      | none =>
        rw [verdict] at ended
        exact absurd (Option.isNone_iff_eq_none.mpr ended) (Bool.eq_false_iff.mp halted)
      | some told =>
        rw [verdict] at ended
        obtain ⟨stops, rfl⟩ := EventLoop.stops_of_verdict calm verdict
        exact ⟨_, _, rfl, ended, fun result same => ⟨(Ending.returned.inj same).symm, stops⟩⟩
    | join | leave | takeBack | cycle | hangUp | meter | spawn =>
      exact Bool.noConfusion (running.symm.trans halted)

theorem Reached.stopped {site : Site} {journal : Journal} (reached : Reached site journal)
    (accepted : site.coordinator.job.strategy.Accepted site.coordinator.job.settings.parallelism)
    (running : site.isRunning = true) {acts : List Act}
    (calm : ∀ act ∈ acts, act ≠ .signal .crashed) {loop : EventLoop}
    (spawned : site.run acts = .spawned loop) {result : Except Error Unit}
    (ended : loop.ended = some (.returned result)) : result = .ok () ∧ ∃ act ∈ acts, act.Stops := by
  induction acts generalizing site journal with
  | nil =>
    subst spawned
    simp [Site.isRunning, EventLoop.isRunning, ended] at running
  | cons act rest ih =>
    cases goes_on : (site.after act).isRunning with
    | true =>
      have job := (reached.goes act).job
      obtain ⟨fine, other, member, stops⟩ := ih (reached.act act) (job.symm ▸ accepted) goes_on
        (fun other member => calm other (by simp [member])) spawned
      exact ⟨fine, other, by simp [member], stops⟩
    | false =>
      -- This act ends the loop, and the rest of the run finds it ended.
      obtain ⟨last, ending, here, at_end, why⟩ :=
        Site.stops_of_ended running accepted (calm act (by simp)) goes_on
      have rest_of_run : (Site.spawned last).run rest = .spawned loop := here ▸ spawned
      obtain ⟨later, same, still⟩ := Site.run_of_ended at_end rest
      obtain rfl := Site.spawned.inj (same.symm.trans rest_of_run)
      obtain ⟨fine, stops⟩ := why result (Option.some.inj (still.symm.trans ended))
      exact ⟨fine, act, by simp, stops⟩

end QueueAssignment
