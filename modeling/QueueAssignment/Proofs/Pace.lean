import QueueAssignment.Proofs.Endings

/-!
The pace of an event loop. One cycle runs at a time. A tick that fires while none is under way
begins one, and all ticks that fire during a cycle become a single scan right after it.
-/
namespace QueueAssignment

inductive Pulse where
  /-- The timer fired. -/
  | tick
  /-- A cycle began with its scan. -/
  | scan
  /-- A cycle was completed. -/
  | done
  deriving DecidableEq, Repr

inductive Phase where
  /-- No cycle is under way. -/
  | resting
  /-- A cycle is to begin at once. -/
  | due
  /-- A cycle is under way, and ticks may have asked for one more. -/
  | busy (asked : Bool)
  deriving DecidableEq, Repr

def Phase.cycles : Phase → Nat
  | .resting | .due => 0
  | .busy _ => 1

/-- Which pulses can follow each other. -/
inductive Rhythm : List Pulse → Phase → Prop where
  | idle : Rhythm [] .resting
  | first : Rhythm [] .due
  | wake {past : List Pulse} : Rhythm past .resting → Rhythm (past ++ [.tick]) .due
  | begin {past : List Pulse} : Rhythm past .due → Rhythm (past ++ [.scan]) (.busy false)
  | ask {past : List Pulse} {asked : Bool} : Rhythm past (.busy asked) →
      Rhythm (past ++ [.tick]) (.busy true)
  | rest {past : List Pulse} : Rhythm past (.busy false) → Rhythm (past ++ [.done]) .resting
  | again {past : List Pulse} : Rhythm past (.busy true) → Rhythm (past ++ [.done]) .due

theorem snoc_eq_append_cons {α : Type} {past before after : List α} {last x : α}
    (cut : past ++ [last] = before ++ x :: after) :
    (past = before ∧ last = x ∧ after = []) ∨
      ∃ rest, after = rest ++ [last] ∧ past = before ++ x :: rest := by
  rcases List.eq_nil_or_concat after with rfl | ⟨rest, final, rfl⟩
  · obtain ⟨same, ends⟩ := List.append_inj' cut rfl
    exact Or.inl ⟨same, List.singleton_inj.mp ends, rfl⟩
  · have cut : past ++ [last] = (before ++ x :: rest) ++ [final] := by simpa using cut
    obtain ⟨same, ends⟩ := List.append_inj' cut rfl
    obtain rfl := List.singleton_inj.mp ends
    exact Or.inr ⟨rest, List.concat_eq_append, same⟩

namespace Rhythm

variable {past before between during after : List Pulse} {phase : Phase}

theorem done_after_scan (rhythm : Rhythm past phase) (free : ∀ asked, phase ≠ .busy asked)
    (cut : past = before ++ .scan :: after) : .done ∈ after := by
  induction rhythm generalizing after with
  | idle | first => simp at cut
  | begin | ask => exact absurd rfl (free _)
  | wake earlier ih =>
    rcases snoc_eq_append_cons cut with ⟨_, same, _⟩ | ⟨rest, rfl, shorter⟩
    · cases same
    · exact List.mem_append_left _ (ih nofun shorter)
  | rest earlier ih | again earlier ih =>
    rcases snoc_eq_append_cons cut with ⟨_, same, _⟩ | ⟨rest, rfl, shorter⟩
    · cases same
    · simp

theorem done_between (rhythm : Rhythm past phase)
    (cut : past = before ++ .scan :: between ++ .scan :: after) : .done ∈ between := by
  induction rhythm generalizing after with
  | idle | first => simp at cut
  | begin earlier ih =>
    rcases snoc_eq_append_cons cut with ⟨shorter, _, _⟩ | ⟨rest, rfl, shorter⟩
    · exact earlier.done_after_scan nofun shorter
    · exact ih shorter
  | wake earlier ih | ask earlier ih | rest earlier ih | again earlier ih =>
    rcases snoc_eq_append_cons cut with ⟨_, same, _⟩ | ⟨rest, rfl, shorter⟩
    · cases same
    · exact ih shorter

theorem scan_after_tick (rhythm : Rhythm past phase)
    (calm : phase = .resting ∨ phase = .busy false) (cut : past = before ++ .tick :: after) :
    .scan ∈ after := by
  induction rhythm generalizing after with
  | idle | first => simp at cut
  | wake | ask | again => simp at calm
  | begin earlier ih =>
    rcases snoc_eq_append_cons cut with ⟨_, same, _⟩ | ⟨rest, rfl, shorter⟩
    · cases same
    · simp
  | rest earlier ih =>
    rcases snoc_eq_append_cons cut with ⟨_, same, _⟩ | ⟨rest, rfl, shorter⟩
    · cases same
    · exact List.mem_append_left _ (ih (Or.inr rfl) shorter)

theorem tick_mem_iff_asked {asked : Bool} (rhythm : Rhythm past (.busy asked))
    (cut : past = before ++ .scan :: during) (same : .scan ∉ during) :
    .tick ∈ during ↔ asked = true := by
  generalize now : Phase.busy asked = phase at rhythm
  induction rhythm generalizing asked during with
  | idle | first | wake | rest | again => cases now
  | begin earlier ih =>
    cases now
    rcases snoc_eq_append_cons cut with ⟨_, _, rfl⟩ | ⟨rest, rfl, shorter⟩
    · simp
    · simp at same
  | ask earlier ih =>
    cases now
    rcases snoc_eq_append_cons cut with ⟨_, same, _⟩ | ⟨rest, rfl, shorter⟩
    · cases same
    · simp

/-- A scan comes next, or at least has to. -/
def Follows (after : List Pulse) (phase : Phase) : Prop :=
  (∃ rest, after = .scan :: rest) ∨ after = [] ∧ phase = .due

theorem follows_snoc_iff {rest : List Pulse} {last : Pulse} {earlier later : Phase}
    (begins : earlier = .due ↔ last = .scan) :
    Follows rest earlier ↔ Follows (rest ++ [last]) later := by
  unfold Follows
  cases rest with
  | nil => simp [begins]
  | cons first rest => simp

theorem tick_mem_iff_follows (rhythm : Rhythm past phase)
    (cut : past = before ++ .scan :: during ++ .done :: after) (same : .scan ∉ during) :
    .tick ∈ during ↔ Follows after phase := by
  induction rhythm generalizing after with
  | idle | first => simp at cut
  | wake earlier ih | ask earlier ih | begin earlier ih =>
    rcases snoc_eq_append_cons cut with ⟨_, other, _⟩ | ⟨rest, rfl, shorter⟩
    · cases other
    · exact (ih shorter).trans (follows_snoc_iff (by simp))
  | rest earlier ih | again earlier ih =>
    rcases snoc_eq_append_cons cut with ⟨shorter, _, rfl⟩ | ⟨rest, rfl, shorter⟩
    -- The cycle is completed just now.
    · rw [earlier.tick_mem_iff_asked shorter same]
      simp [Follows]
    · exact (ih shorter).trans (follows_snoc_iff (by simp))

theorem count_scan (rhythm : Rhythm past phase) :
    past.count .scan = past.count .done + phase.cycles := by
  induction rhythm with
  | idle | first => rfl
  | wake earlier ih | begin earlier ih | ask earlier ih | rest earlier ih | again earlier ih =>
    simpa [List.count_append, Phase.cycles] using ih

end Rhythm

def Task.pulse? : Task → Option Pulse
  | .scan => some .scan
  | .lookUp _ _ => none

namespace EventLoop

def ongoing (loop : EventLoop) (signal : Signal) : List Task :=
  match signal, loop.tasks with
  | .scanned _, .scan :: rest => rest
  | .lookedUp _, .lookUp _ _ :: rest => rest
  | _, tasks => tasks

def begun (loop : EventLoop) (signal : Signal) : List Task :=
  (loop.turn signal).tasks.drop (loop.ongoing signal).length

/-- Only a job that scans again and again has a timer. -/
def fired (loop : EventLoop) : Signal → List Pulse
  | .tick => if loop.coordinator.job.settings.isOneShot then [] else [.tick]
  | _ => []

def pulses (loop : EventLoop) (signal : Signal) : List Pulse :=
  if loop.isRunning then
    loop.fired signal ++ (loop.turnSurveys signal).map (fun _ => .done) ++
      (loop.begun signal).filterMap Task.pulse?
  else []

def phase (loop : EventLoop) : Phase := if loop.inFlight then .busy loop.rescan else .resting

end EventLoop

def Site.pulses : Site → Act → List Pulse
  | direct c, .spawn => (EventLoop.start c).tasks.filterMap Task.pulse?
  | spawned loop, .signal signal => loop.pulses signal
  | _, _ => []

def Site.history (site : Site) : List Act → List Pulse
  | [] => []
  | act :: rest => site.pulses act ++ (site.after act).history rest

namespace EventLoop

variable {loop next : EventLoop} {past : List Pulse}

inductive Beats (loop next : EventLoop) : List Pulse → Prop where
  | stays : next.inFlight = loop.inFlight → next.rescan = loop.rescan →
      (next.isRunning = true → next.tasks.length = loop.tasks.length) → Beats loop next []
  | wakes : loop.coordinator.job.settings.isOneShot = false → loop.inFlight = false →
      next = loop.startCycle → Beats loop next [.tick, .scan]
  | asks : loop.coordinator.job.settings.isOneShot = false → loop.inFlight = true →
      next = { loop with rescan := true } → Beats loop next [.tick]
  | ends (task : Task) (rest : List Task) : loop.isRunning = true → loop.tasks = task :: rest →
      next.tasks = rest ++ (if loop.rescan then [.scan] else []) →
      next.inFlight = loop.rescan → next.rescan = false →
      Beats loop next (.done :: if loop.rescan then [.scan] else [])

theorem begun_eq {signal : Signal} {fresh : List Task}
    (tasks : (loop.turn signal).tasks = loop.ongoing signal ++ fresh) :
    loop.begun signal = fresh := by
  rw [begun, tasks, List.drop_left]

theorem begun_of_stopped {signal : Signal} (stopped : (loop.turn signal).tasks = []) :
    loop.begun signal = [] := by
  rw [begun, stopped, List.drop_nil]

theorem beats_finishCycle (running : loop.isRunning = true) {task : Task} {rest : List Task}
    (tasks : loop.tasks = task :: rest) (coordinator : Coordinator) :
    loop.Beats { loop with coordinator, tasks := rest }.finishCycle
      (.done :: if loop.rescan then [.scan] else []) := by
  rw [finishCycle_eq]
  exact .ends task rest running tasks rfl rfl rfl

theorem beats_resume (loop : EventLoop) (outcome : Outcome) :
    loop.Beats (loop.resume outcome id) [] := by
  unfold resume
  cases outcome.result with
  | ok => exact .stays rfl rfl fun _ => rfl
  | error e => exact .stays rfl rfl nofun

theorem pulses_of_begun_nil {signal : Signal} (running : loop.isRunning = true)
    (quiet : loop.turnSurveys signal = []) (begun : loop.begun signal = []) :
    loop.pulses signal = loop.fired signal := by
  simp [pulses, running, quiet, begun]

theorem beats_tick (running : loop.isRunning = true) :
    loop.Beats (loop.turn .tick) (loop.pulses .tick) := by
  have quiet : loop.turnSurveys .tick = [] := rfl
  cases oneShot : loop.coordinator.job.settings.isOneShot with
  | true =>
    have still : loop.turn .tick = loop := if_pos oneShot
    have begun : loop.begun .tick = [] :=
      begun_eq ((congrArg tasks still).trans (List.append_nil _).symm)
    rw [still, pulses_of_begun_nil running quiet begun, fired, if_pos oneShot]
    exact .stays rfl rfl fun _ => rfl
  | false =>
    have ticked : loop.turn .tick = loop.tick := if_neg (Bool.eq_false_iff.mp oneShot)
    cases busy : loop.inFlight with
    | true =>
      have asked : loop.tick = { loop with rescan := true } := if_pos busy
      have begun : loop.begun .tick = [] := by
        apply begun_eq
        rw [ticked, asked, List.append_nil]
        rfl
      rw [pulses_of_begun_nil running quiet begun, ticked, fired, oneShot]
      exact .asks oneShot busy asked
    | false =>
      have started : loop.tick = loop.startCycle := if_neg (Bool.eq_false_iff.mp busy)
      have begun : loop.begun .tick = [.scan] := begun_eq (by rw [ticked, started]; rfl)
      have pulses : loop.pulses .tick = [.tick, .scan] := by
        simp [EventLoop.pulses, running, fired, oneShot, quiet, begun, Task.pulse?]
      rw [pulses, ticked]
      exact .wakes oneShot busy started

theorem pulses_of_finished {signal : Signal} (running : loop.isRunning = true) (survey : Survey)
    (untimed : loop.fired signal = []) (surveys : loop.turnSurveys signal = [survey])
    (tasks : (loop.turn signal).tasks =
      loop.ongoing signal ++ (if loop.rescan then [.scan] else [])) :
    loop.pulses signal = .done :: if loop.rescan then [.scan] else [] := by
  rw [pulses, if_pos running, untimed, surveys, begun_eq tasks]
  cases loop.rescan with
  | true => rfl
  | false => rfl

theorem beats_scanned (running : loop.isRunning = true) {rest : List Task}
    (tasks : loop.tasks = .scan :: rest) (latest : QueueSet) :
    loop.Beats (loop.turn (.scanned latest)) (loop.pulses (.scanned latest)) := by
  have turn : loop.turn (.scanned latest) = { loop with tasks := rest }.scanned latest := by
    simp only [EventLoop.turn, tasks]
  have ongoing : loop.ongoing (.scanned latest) = rest := by
    simp only [EventLoop.ongoing, tasks]
  have surveys : loop.turnSurveys (.scanned latest) = loop.scannedSurveys latest := by
    simp only [EventLoop.turnSurveys, tasks]
  cases changed : loop.coordinator.changeTo latest with
  | some change =>
    have next : { loop with tasks := rest }.scanned latest =
        { loop with
          tasks := rest ++ [.lookUp change loop.coordinator.desk.reconciler.known] } := by
      simp only [scanned, changed]
    have quiet : loop.turnSurveys (.scanned latest) = [] := by
      rw [surveys, scannedSurveys, changed]
    have begun := begun_eq (show (loop.turn (.scanned latest)).tasks = _ from by
      rw [turn, next, ongoing])
    have pulses : loop.pulses (.scanned latest) = [] := by
      simp [EventLoop.pulses, running, fired, quiet, begun, Task.pulse?]
    rw [pulses, turn, next]
    exact .stays rfl rfl fun _ => by simp [tasks]
  | none =>
    have next : { loop with tasks := rest }.scanned latest =
        { loop with tasks := rest }.finishCycle := by
      simp only [scanned, changed]
    have pulses : loop.pulses (.scanned latest) = .done :: if loop.rescan then [.scan] else [] := by
      apply pulses_of_finished running ⟨latest, false⟩ rfl
      · rw [surveys, scannedSurveys, changed]
      · rw [turn, next, ongoing, finishCycle_eq]
    rw [pulses, turn, next]
    exact beats_finishCycle running tasks loop.coordinator

theorem beats_lookedUp (running : loop.isRunning = true) {change : QueueChange} {known : SplitMap}
    {rest : List Task} (tasks : loop.tasks = .lookUp change known :: rest) (lookup : Lookup) :
    loop.Beats (loop.turn (.lookedUp lookup)) (loop.pulses (.lookedUp lookup)) := by
  have turn : loop.turn (.lookedUp lookup) =
      { loop with tasks := rest }.lookedUp change known lookup := by
    simp only [EventLoop.turn, tasks]
  have ongoing : loop.ongoing (.lookedUp lookup) = rest := by
    simp only [EventLoop.ongoing, tasks]
  have surveys : loop.turnSurveys (.lookedUp lookup) =
      loop.coordinator.finishSurveys change known lookup := by
    simp only [EventLoop.turnSurveys, tasks]
  cases placed : (loop.coordinator.place change known lookup).result with
  | ok =>
    have next : { loop with tasks := rest }.lookedUp change known lookup =
        { loop with
          coordinator := (loop.coordinator.place change known lookup).coordinator
          tasks := rest }.finishCycle := by
      simp only [lookedUp, resume, placed]
    have pulses : loop.pulses (.lookedUp lookup) =
        .done :: if loop.rescan then [.scan] else [] := by
      apply pulses_of_finished running ⟨change.latest, true⟩ rfl
      · simp only [surveys, Coordinator.finishSurveys, Coordinator.finish, Outcome.andThen, placed,
          Coordinator.result_completeCycle]
      · rw [turn, next, ongoing, finishCycle_eq]
    rw [pulses, turn, next]
    exact beats_finishCycle running tasks _
  | error e =>
    have next : { loop with tasks := rest }.lookedUp change known lookup =
        { loop with
          coordinator := (loop.coordinator.place change known lookup).coordinator
          tasks := rest }.stop (.error e) := by
      simp only [lookedUp, resume, placed]
    have quiet : loop.turnSurveys (.lookedUp lookup) = [] := by
      simp only [surveys, Coordinator.finishSurveys, Coordinator.finish, Outcome.andThen, placed]
    have begun : loop.begun (.lookedUp lookup) = [] := begun_of_stopped (by rw [turn, next]; rfl)
    rw [pulses_of_begun_nil running quiet begun, turn, next]
    exact .stays rfl rfl fun goes_on => Bool.noConfusion goes_on

theorem tasks_resume (loop : EventLoop) (outcome : Outcome) :
    (loop.resume outcome id).tasks = loop.tasks ∨ (loop.resume outcome id).tasks = [] := by
  unfold resume
  cases outcome.result with
  | ok => exact Or.inl rfl
  | error e => exact Or.inr rfl

theorem beats_request (running : loop.isRunning = true) (request : Request) :
    loop.Beats (loop.turn (.request request)) (loop.pulses (.request request)) := by
  have served : (loop.serve request).tasks = loop.tasks ∨ (loop.serve request).tasks = [] := by
    cases request with
    | join | takeBack => exact tasks_resume _ _
    | leave | snapshot => exact Or.inl rfl
    | close => exact Or.inr rfl
  have begun : loop.begun (.request request) = [] := by
    rcases served with same | none
    · exact begun_eq (same.trans (List.append_nil _).symm)
    · exact begun_of_stopped none
  rw [pulses_of_begun_nil running rfl begun]
  cases request with
  | join worker isOpen => exact loop.beats_resume (loop.coordinator.addWorker worker isOpen)
  | leave | snapshot => exact .stays rfl rfl fun _ => rfl
  | takeBack worker splits =>
    exact loop.beats_resume (loop.coordinator.returnSplits worker splits)
  | close => exact .stays rfl rfl nofun

theorem beats_still {signal : Signal} (running : loop.isRunning = true)
    (untimed : loop.fired signal = []) (quiet : loop.turnSurveys signal = [])
    (ongoing : loop.ongoing signal = loop.tasks) (still : loop.turn signal = loop) :
    loop.Beats (loop.turn signal) (loop.pulses signal) := by
  have begun : loop.begun signal = [] :=
    begun_eq (by rw [still, ongoing, List.append_nil])
  rw [pulses_of_begun_nil running quiet begun, untimed, still]
  exact .stays rfl rfl fun _ => rfl

theorem beats_stop {signal : Signal} {result : Except Error Unit} (running : loop.isRunning = true)
    (untimed : loop.fired signal = []) (quiet : loop.turnSurveys signal = [])
    (stopped : loop.turn signal = loop.stop result) :
    loop.Beats (loop.turn signal) (loop.pulses signal) := by
  have begun : loop.begun signal = [] := begun_of_stopped (congrArg tasks stopped)
  rw [pulses_of_begun_nil running quiet begun, untimed, stopped]
  exact .stays rfl rfl nofun

theorem beats_step (loop : EventLoop) (signal : Signal) :
    loop.Beats (loop.step signal) (loop.pulses signal) := by
  cases running : loop.isRunning with
  | false =>
    rw [step, pulses, running]
    exact .stays rfl rfl fun _ => rfl
  | true =>
    rw [step, if_pos running]
    cases signal with
    | tick => exact beats_tick running
    | scanned latest =>
      cases tasks : loop.tasks with
      | nil => apply beats_still running <;> simp [fired, turnSurveys, ongoing, turn, tasks]
      | cons task rest =>
        cases task with
        | scan => exact beats_scanned running tasks latest
        | lookUp => apply beats_still running <;> simp [fired, turnSurveys, ongoing, turn, tasks]
    | lookedUp lookup =>
      cases tasks : loop.tasks with
      | nil => apply beats_still running <;> simp [fired, turnSurveys, ongoing, turn, tasks]
      | cons task rest =>
        cases task with
        | scan => apply beats_still running <;> simp [fired, turnSurveys, ongoing, turn, tasks]
        | lookUp change known => exact beats_lookedUp running tasks lookup
    | crashed =>
      cases tasks : loop.tasks with
      | nil => apply beats_still running <;> simp [fired, turnSurveys, ongoing, turn, tasks]
      | cons task rest =>
        have stopped : loop.turn .crashed = loop.stop (.error (.invalidState .scanCrashed)) := by
          simp only [turn, tasks]
        exact beats_stop running rfl rfl stopped
    | request request => exact beats_request running request
    | cancelled | abandoned => exact beats_stop running rfl rfl rfl

structure Paced (loop : EventLoop) (past : List Pulse) : Prop where
  tasks : loop.isRunning = true → loop.tasks.length = if loop.inFlight then 1 else 0
  rescan : loop.rescan = true → loop.inFlight = true
  rhythm : Rhythm past loop.phase
  once : loop.coordinator.job.settings.isOneShot = true →
    loop.rescan = false ∧ past.count .scan = 1

theorem paced_start (c : Coordinator) :
    (start c).Paced ((start c).tasks.filterMap Task.pulse?) := by
  rw [start_eq]
  cases oneShot : c.job.settings.isOneShot with
  | true => exact ⟨fun _ => rfl, nofun, .begin .first, fun _ => ⟨rfl, rfl⟩⟩
  | false => exact ⟨fun _ => rfl, nofun, .idle, fun once => absurd (oneShot.symm.trans once) nofun⟩

theorem Paced.beats {pulses : List Pulse} (paced : loop.Paced past)
    (beats : loop.Beats next pulses) (running : next.isRunning = true → loop.isRunning = true)
    (job : next.coordinator.job = loop.coordinator.job) : next.Paced (past ++ pulses) := by
  cases beats with
  | stays inFlight rescan tasks =>
    rw [List.append_nil]
    refine ⟨?_, ?_, ?_, ?_⟩
    · intro goes_on
      rw [tasks goes_on, inFlight]
      exact paced.tasks (running goes_on)
    · rw [rescan, inFlight]
      exact paced.rescan
    · rw [phase, inFlight, rescan]
      exact paced.rhythm
    · rw [rescan, job]
      exact paced.once
  | wakes periodic rests started =>
    subst started
    have calm : loop.rescan = false := by
      by_contra asked
      exact Bool.noConfusion (rests.symm.trans (paced.rescan (Bool.not_eq_false _ ▸ asked)))
    have rhythm := paced.rhythm
    rw [phase, rests] at rhythm
    refine ⟨?_, fun _ => rfl, ?_, ?_⟩
    · intro goes_on
      have none := paced.tasks (running goes_on)
      rw [rests] at none
      simp [startCycle, List.eq_nil_of_length_eq_zero none]
    · have begins := rhythm.wake.begin
      rw [List.append_assoc] at begins
      simpa [phase, startCycle, calm] using begins
    · exact fun once => Bool.noConfusion (periodic.symm.trans once)
  | asks periodic busy asked =>
    subst asked
    have rhythm := paced.rhythm
    rw [phase, busy] at rhythm
    refine ⟨paced.tasks, fun _ => busy, ?_, fun once => Bool.noConfusion (periodic.symm.trans once)⟩
    rw [phase, busy]
    exact rhythm.ask
  | ends task rest before tasks after inFlight rescan =>
    have one := paced.tasks before
    -- The task that was done was the only one, so a cycle was under way and nothing else runs now.
    cases busy : loop.inFlight with
    | false => simp [tasks, busy] at one
    | true =>
      have alone : rest = [] := by simpa [tasks, busy] using one
      have rhythm := paced.rhythm
      rw [phase, busy] at rhythm
      cases asked : loop.rescan with
      | true =>
        have begins := (asked ▸ rhythm).again.begin
        rw [List.append_assoc] at begins
        refine ⟨?_, fun _ => inFlight.trans asked, ?_, ?_⟩
        · intro _
          simp [after, alone, asked, inFlight]
        · simpa [phase, inFlight, asked, rescan] using begins
        · intro once
          exact Bool.noConfusion (asked.symm.trans (paced.once (job ▸ once)).1)
      | false =>
        refine ⟨?_, fun again => Bool.noConfusion (rescan.symm.trans again), ?_, ?_⟩
        · intro _
          simp [after, alone, asked, inFlight]
        · simpa [phase, inFlight, asked] using (asked ▸ rhythm).rest
        · intro once
          refine ⟨rescan, ?_⟩
          simpa [List.count_append] using (paced.once (job ▸ once)).2

theorem running_of_step {signal : Signal} (goes_on : (loop.step signal).isRunning = true) :
    loop.isRunning = true := by
  cases running : loop.isRunning with
  | true => rfl
  | false => simp [step, running] at goes_on

end EventLoop

namespace Site

def Paced (site : Site) (past : List Pulse) : Prop :=
  match site with
  | direct _ => past = []
  | spawned loop => loop.Paced past

theorem Paced.after {site : Site} {past : List Pulse} (paced : site.Paced past) (act : Act)
    (job : (site.after act).coordinator.job = site.coordinator.job) :
    (site.after act).Paced (past ++ site.pulses act) := by
  cases site with
  | direct c =>
    obtain rfl := paced
    cases act with
    | spawn => exact EventLoop.paced_start c
    | join | leave | takeBack | cycle | hangUp | meter | signal => exact rfl
  | spawned loop =>
    cases act with
    | signal signal =>
      exact EventLoop.Paced.beats paced (loop.beats_step signal) EventLoop.running_of_step job
    | join | leave | takeBack | cycle | spawn =>
      exact (List.append_nil past).symm ▸ paced
    | hangUp worker =>
      have same : (spawned loop |>.after (.hangUp worker)).Paced past :=
        ⟨paced.tasks, paced.rescan, paced.rhythm, paced.once⟩
      exact (List.append_nil past).symm ▸ same
    | meter change =>
      have same : (spawned loop |>.after (.meter change)).Paced past :=
        ⟨paced.tasks, paced.rescan, paced.rhythm, paced.once⟩
      exact (List.append_nil past).symm ▸ same

end Site

theorem Reached.paced_run {site : Site} {journal : Journal} (reached : Reached site journal)
    {past : List Pulse} (paced : site.Paced past) (acts : List Act) :
    (site.run acts).Paced (past ++ site.history acts) := by
  induction acts generalizing site journal past with
  | nil => exact (List.append_nil past).symm ▸ paced
  | cons act rest ih =>
    have later := ih (reached.act act) (paced.after act (reached.goes act).job)
    rw [List.append_assoc] at later
    exact later

/-- An event loop has one task while a cycle is under way and none otherwise, and completes a cycle
    before it begins the next. While it rests every tick has had its scan. A cycle during which
    ticks fired is followed at once by a scan, one for all of them, and any other cycle is not. A
    job without an interval is scanned once. -/
theorem one_cycle_at_a_time {c : Coordinator} {journal : Journal}
    (reached : Reached (.direct c) journal) {acts : List Act} {loop : EventLoop}
    (spawned : (Site.direct c).run acts = .spawned loop) :
    let history := (Site.direct c).history acts
    (loop.isRunning = true → loop.tasks.length = if loop.inFlight then 1 else 0) ∧
    (loop.rescan = true → loop.inFlight = true) ∧
    (history.count .scan = history.count .done + if loop.inFlight then 1 else 0) ∧
    (∀ before between after, history = before ++ .scan :: between ++ .scan :: after →
      .done ∈ between) ∧
    (loop.inFlight = false → ∀ before after, history = before ++ .tick :: after →
      .scan ∈ after) ∧
    (∀ before during after, history = before ++ .scan :: during ++ .done :: after →
      .scan ∉ during → (.tick ∈ during ↔ ∃ rest, after = .scan :: rest)) ∧
    (loop.coordinator.job.settings.isOneShot = true → history.count .scan = 1) := by
  intro history
  have paced : loop.Paced history := by
    have fresh : (Site.direct c).Paced [] := rfl
    have whole := reached.paced_run fresh acts
    rwa [spawned] at whole
  refine ⟨paced.tasks, paced.rescan, ?_, ?_, ?_, ?_, fun once => (paced.once once).2⟩
  · rw [paced.rhythm.count_scan]
    unfold EventLoop.phase
    cases loop.inFlight <;> rfl
  · exact fun before between after cut => paced.rhythm.done_between cut
  · intro rests before after cut
    have calm : loop.phase = .resting := by simp [EventLoop.phase, rests]
    exact paced.rhythm.scan_after_tick (Or.inl calm) cut
  · intro before during after cut same
    have punctual : loop.phase ≠ .due := by
      unfold EventLoop.phase
      split <;> nofun
    rw [paced.rhythm.tick_mem_iff_follows cut same, Rhythm.Follows,
      or_iff_left fun due => punctual due.2]

theorem two_ticks_become_one_scan :
    let ticks := List.replicate 3 (Act.signal .tick)
    let acts := .spawn :: ticks ++ [.signal (.scanned ∅)]
    (Site.direct (.start Sample.job)).history acts = [.tick, .scan, .tick, .tick, .done, .scan] ∧
      ∃ rest, [.scan] = Pulse.scan :: rest := by
  intro ticks acts
  have history : (Site.direct (.start Sample.job)).history acts =
      [.tick, .scan, .tick, .tick, .done, .scan] := by decide +kernel
  obtain ⟨_, _, _, _, _, coalesces, _⟩ :=
    one_cycle_at_a_time (.start Sample.job)
      (show (Site.direct (.start Sample.job)).run acts = _ from rfl)
  exact ⟨history, (coalesces [.tick] [.tick, .tick] [.scan] history (by decide)).mp (by decide)⟩

end QueueAssignment
