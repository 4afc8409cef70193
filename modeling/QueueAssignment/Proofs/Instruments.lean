import QueueAssignment.Proofs.Formed

/-!
The instruments show the state. The gauges are set at some of the places where the state changes, and
each operation that succeeds comes by one of them after its last change. Only where splits are handed
back and cannot be placed anew does the gauge of the pending splits stay behind.
-/
namespace QueueAssignment
open Std

def Delivery.splits (delivery : Delivery) : List Split :=
  match delivery.command with
  | .assign splits => splits
  | .noMoreSplits => []

def Registry.splitsSent (r : Registry) (tag : Tag) : Nat :=
  (r.sent.flatMap Delivery.splits).countP fun split => split.tag = tag

def Event.carries (tag : Tag) : Event → Bool
  | .told _ split => split.tag = tag
  | _ => false

theorem Delivery.countP_events (delivery : Delivery) (tag : Tag) :
    delivery.events.countP (Event.carries tag) =
      delivery.splits.countP fun split => split.tag = tag := by
  unfold Delivery.events Delivery.splits
  cases delivery.command with
  | assign splits => rw [List.countP_map]; rfl
  | noMoreSplits => rfl

theorem Registry.splitsSent_eq (r : Registry) (tag : Tag) :
    r.splitsSent tag = r.told.countP (Event.carries tag) := by
  rw [splitsSent, told, List.countP_flatMap, List.countP_flatMap]
  congr 2
  funext delivery
  exact (delivery.countP_events tag).symm

theorem Batch.countP_events (batch : Batch) (tag : Tag) :
    batch.events.countP (Event.carries tag) = (batch.tagged tag).length := by
  rw [events, tagged, List.countP_flatMap, List.length_flatMap]
  congr 2
  funext part
  rw [Function.comp_apply, List.countP_map, List.length_map, ← List.countP_eq_length_filter]
  rfl

namespace Metrics

structure Beside (m next : Metrics) : Prop where
  owned : next.owned = m.owned
  pending : next.pending = m.pending
  registered : next.registered = m.registered
  assigned : next.assigned = m.assigned
  revoked : next.revoked = m.revoked

theorem beside_scan (m : Metrics) (refused found : Nat) :
    m.Beside ((m.countRefusals refused).countScan found) :=
  ⟨rfl, rfl, rfl, rfl, rfl⟩

theorem beside_countMissing (m : Metrics) (queues : Nat) : m.Beside (m.countMissing queues) :=
  ⟨rfl, rfl, rfl, rfl, rfl⟩

end Metrics

namespace Desk

variable {desk next : Desk} {before : Metrics}

/-- The instruments of the dispatcher show what it did since they stood as `before`. A gauge that was
    not set since then belongs to a count of zero. -/
structure Tallies (desk : Desk) (before : Metrics) : Prop where
  owned : desk.metrics.owned = desk.dispatcher.ownedCount
  registered : desk.metrics.registered = desk.dispatcher.registry.size ∨
    desk.dispatcher.registry.size = 0 ∧ desk.metrics.registered = before.registered
  assigned : desk.metrics.assigned = before.assigned + desk.dispatcher.registry.splitsSent .assign
  revoked : desk.metrics.revoked = before.revoked + desk.dispatcher.registry.splitsSent .revoke

structure Shows (desk : Desk) (before : Metrics) : Prop extends desk.Tallies before where
  pending : desk.metrics.pending = desk.reconciler.pendingCount ∨
    desk.reconciler.pendingCount = 0 ∧ desk.metrics.pending = before.pending

theorem Shows.redispatch (shows : desk.Shows before) {d : Dispatcher}
    (owned : d.owned = desk.dispatcher.owned) (held : d.held = desk.dispatcher.held)
    (size : d.registry.size = desk.dispatcher.registry.size)
    (told : d.registry.told = desk.dispatcher.registry.told) :
    Shows { desk with dispatcher := d } before := by
  have sent : ∀ tag, d.registry.splitsSent tag = desk.dispatcher.registry.splitsSent tag := by
    intro tag
    rw [Registry.splitsSent_eq, Registry.splitsSent_eq, told]
  refine ⟨⟨?_, ?_, ?_, ?_⟩, shows.pending⟩
  · dsimp only
    rw [shows.owned, Dispatcher.ownedCount, Dispatcher.ownedCount, owned, held]
  · dsimp only
    rw [size]
    exact shows.registered
  · dsimp only
    rw [sent]
    exact shows.assigned
  · dsimp only
    rw [sent]
    exact shows.revoked

theorem Shows.register (shows : desk.Shows before) (worker : Worker) (isOpen : Bool) :
    (desk.register worker isOpen).Shows before :=
  ⟨⟨shows.owned, .inl rfl, shows.assigned, shows.revoked⟩, shows.pending⟩

theorem Shows.unregister (shows : desk.Shows before) (worker : Worker) :
    (desk.unregister worker).Shows before :=
  ⟨⟨shows.owned, .inl rfl, shows.assigned, shows.revoked⟩, shows.pending⟩

theorem Shows.hangUp (shows : desk.Shows before) (worker : Worker) :
    (desk.hangUp worker).Shows before :=
  shows.redispatch rfl rfl ExtTreeMap.size_map rfl

theorem Shows.complete (shows : desk.Shows before) : desk.complete.Shows before :=
  shows.redispatch rfl rfl rfl rfl

theorem Shows.count (shows : desk.Shows before) {m : Metrics} (beside : desk.metrics.Beside m) :
    Shows { desk with metrics := m } before :=
  ⟨⟨beside.owned.trans shows.owned, by
      dsimp only
      rw [beside.registered]
      exact shows.registered,
    beside.assigned.trans shows.assigned, beside.revoked.trans shows.revoked⟩, by
    dsimp only
    rw [beside.pending]
    exact shows.pending⟩

theorem Shows.settle (shows : desk.Shows before) (delta : Delta) :
    (desk.settle delta).Shows before :=
  ⟨⟨rfl, shows.registered, shows.assigned, shows.revoked⟩, shows.pending⟩

theorem Tallies.reconcile (tallies : desk.Tallies before) {change : SplitChange}
    {strategy : Strategy} {call : Nat} {parallelism : UInt32} {delta : Delta}
    (merged : desk.reconcile change strategy call parallelism = .ok (next, delta)) :
    next.Shows before := by
  unfold Desk.reconcile at merged
  split at merged
  · cases merged
  · unfold Desk.apply at merged
    split at merged
    · cases merged
    · cases merged
      exact ⟨⟨tallies.owned, tallies.registered, tallies.assigned, tallies.revoked⟩, .inl rfl⟩

theorem Shows.drain (shows : desk.Shows before) (workers : WorkerSet) :
    (desk.drain workers).Shows before := by
  unfold Desk.drain
  split
  · exact shows
  · exact ⟨⟨shows.owned, shows.registered, shows.assigned, shows.revoked⟩, .inl rfl⟩

theorem Shows.deliver (shows : desk.Shows before) {batch : Batch}
    (registered : ∀ part ∈ batch, desk.dispatcher.registry.isRegistered part.1 = true) :
    (desk.deliver batch).Shows before := by
  have sent : ∀ tag, (desk.dispatcher.deliver batch).registry.splitsSent tag =
      desk.dispatcher.registry.splitsSent tag + (batch.tagged tag).length := by
    intro tag
    have told : (desk.dispatcher.deliver batch).registry.told = _ :=
      Registry.told_sendAll registered
    rw [Registry.splitsSent_eq, Registry.splitsSent_eq, told, List.countP_append,
      Batch.countP_events]
  have size : (desk.dispatcher.deliver batch).registry.size = desk.dispatcher.registry.size :=
    congrArg ExtTreeMap.size (Registry.connections_sendAll ..)
  unfold Desk.deliver
  split
  · exact shows
  · refine ⟨⟨rfl, ?_, ?_, ?_⟩, shows.pending⟩
    · dsimp only [setOwned]
      rw [size]
      exact shows.registered
    · dsimp only [setOwned]
      rw [sent, ← Nat.add_assoc, ← shows.assigned]
    · dsimp only [setOwned]
      rw [sent, ← Nat.add_assoc, ← shows.revoked]

theorem Shows.signalIfDue (shows : desk.Shows before) (workers : WorkerSet) :
    (desk.signalIfDue workers).Shows before := by
  unfold Desk.signalIfDue
  split
  · obtain ⟨owned, held, connections, told⟩ := Dispatcher.signal_same desk.dispatcher workers
    exact shows.redispatch owned held (congrArg ExtTreeMap.size connections) told
  · exact shows

theorem Shows.flush (shows : desk.Shows before) {workers : WorkerSet} {batch : Batch}
    (flushed : desk.flush workers = .ok (next, batch)) : next.Shows before := by
  have registered := (flush_ok flushed).registered
  rw [flush_eq registered] at flushed
  cases flushed
  refine ((shows.drain workers).deliver ?_).signalIfDue workers
  rw [dispatcher_drain]
  exact fun part member => registered_of_mem_batchFor registered member

end Desk

namespace Coordinator

variable {c next : Coordinator} {before : Metrics}

theorem shows_flush (shows : c.desk.Shows before) (workers : WorkerSet) :
    (c.flush workers).coordinator.desk.Shows before := by
  unfold flush
  cases flushed : c.desk.flush workers with
  | error e => exact shows
  | ok pair => exact shows.flush flushed

theorem shows_addWorker (shows : c.desk.Shows before) (worker : Worker) (isOpen : Bool) :
    (c.addWorker worker isOpen).coordinator.desk.Shows before := by
  have registered := shows.register worker isOpen
  simp only [addWorker]
  split
  · exact shows_flush registered _
  · exact registered

theorem shows_completeCycle (shows : c.desk.Shows before) :
    c.completeCycle.coordinator.desk.Shows before := by
  unfold completeCycle
  split
  · exact shows_flush shows.complete _
  · exact shows_flush shows _

theorem shows_count (shows : c.desk.Shows before) {change : Metrics → Metrics}
    (beside : ∀ m : Metrics, m.Beside (change m)) : (c.count change).desk.Shows before :=
  shows.count (beside _)

theorem shows_reconcile (tallies : c.desk.Tallies before) {change : SplitChange} {delta : Delta}
    (merged : c.reconcile change = (next, .ok delta)) : next.desk.Shows before := by
  simp only [reconcile] at merged
  split at merged
  · rename_i desk delta placed
    cases merged
    exact (tallies.reconcile placed).settle delta
  · cases merged

theorem shows_place (shows : c.desk.Shows before) (change : QueueChange) (known : SplitMap)
    (lookup : Lookup) : (c.place change known lookup).coordinator.desk.Shows before := by
  simp only [place]
  generalize counted : c.count _ = d
  have same : d.desk.Shows before := by
    rw [← counted]
    exact shows_count shows fun m => m.beside_countMissing _
  generalize merged : d.reconcile _ = pair
  obtain ⟨placed, result⟩ := pair
  cases result with
  | ok delta => exact shows_reconcile same.toTallies merged
  | error e =>
    rw [(reconcile_fails merged).1]
    exact same

theorem shows_finish (shows : c.desk.Shows before) (change : QueueChange) (known : SplitMap)
    (lookup : Lookup) : (c.finish change known lookup).coordinator.desk.Shows before := by
  have placed := shows_place shows change known lookup
  unfold finish Outcome.andThen
  split
  · exact shows_completeCycle placed
  · exact placed

theorem shows_cycle (shows : c.desk.Shows before) (broker : Broker) :
    (c.cycle broker).coordinator.desk.Shows before := by
  unfold cycle
  cases Scan.run broker c.job.topics with
  | error e => exact shows
  | ok scan =>
    have scanned : (c.count fun m =>
        (m.countRefusals scan.refused).countScan scan.queues.size).desk.Shows before :=
      shows_count shows fun m => m.beside_scan _ _
    dsimp only
    unfold cycleOver
    split
    · exact shows_completeCycle scanned
    · exact shows_finish (shows_count scanned fun m => m.beside_countMissing _) _ _ _

theorem shows_returnSplits (shows : c.desk.Shows before) {worker : Worker} {splits : List Split}
    (done : (c.returnSplits worker splits).result = .ok ()) :
    (c.returnSplits worker splits).coordinator.desk.Shows before := by
  have released : (c.desk.release worker splits).Tallies before :=
    ⟨shows.owned, shows.registered, shows.assigned, shows.revoked⟩
  simp only [returnSplits] at done ⊢
  split
  · exact shows
  · rename_i some_split
    rw [if_neg some_split] at done
    generalize merged : reconcile { c with desk := c.desk.release worker splits } _ = pair at done ⊢
    obtain ⟨placed, result⟩ := pair
    cases result with
    | ok delta => exact shows_flush (shows_reconcile released merged) _
    | error e => cases done

theorem shows_start (job : Job) : (start job).desk.Shows {} :=
  ⟨⟨rfl, .inl rfl, rfl, rfl⟩, .inl rfl⟩

theorem shows_restore {job : Job} {checkpoint : Checkpoint}
    (restored : restore job checkpoint before = .ok c) : c.desk.Shows before := by
  simp only [restore] at restored
  split at restored
  · cases restored
  · cases restored
    exact ⟨⟨rfl, .inr ⟨rfl, rfl⟩, rfl, rfl⟩, .inr ⟨rfl, rfl⟩⟩

end Coordinator

def Act.HandsBack : Act → Prop
  | .takeBack .. | .signal (.request (.takeBack ..)) => True
  | _ => False

/-- A task beside the coordinator leaves the five instruments alone. -/
def Act.Spares : Act → Prop
  | .meter change => ∀ m : Metrics, m.Beside (change m)
  | _ => True

def EventLoop.result (loop : EventLoop) : Except Error Unit :=
  match loop.ended with
  | some (.returned result) => result
  | _ => .ok ()

/-- How the operation of an act ends. An act on a loop fails where the loop then has failed. -/
def Site.result : Site → Act → Except Error Unit
  | .direct c, .join worker isOpen => (c.addWorker worker isOpen).result
  | .direct c, .takeBack worker splits => (c.returnSplits worker splits).result
  | .direct c, .cycle broker => (c.cycle broker).result
  | .spawned loop, .signal signal => (loop.step signal).result
  | _, _ => .ok ()

/-- The runs on instruments that stood as `before`, in which splits that are handed back are always
    placed anew and no task touches an instrument of the coordinator. -/
inductive Shown : Metrics → Site → Journal → Prop where
  | start (job : Job) : Shown {} (.direct (.start job)) []
  | restore {job : Job} {checkpoint : Checkpoint} {metrics : Metrics} {c : Coordinator} :
      Coordinator.restore job checkpoint metrics = .ok c →
      Shown metrics (.direct c) c.restoredEvents
  | act {before : Metrics} {site : Site} {journal : Journal} (shown : Shown before site journal)
      (act : Act) (succeeds : act.HandsBack → site.result act = .ok ()) (spares : act.Spares) :
      Shown before (site.after act) (journal ++ site.events act)

theorem Shown.reached {before : Metrics} {site : Site} {journal : Journal}
    (shown : Shown before site journal) : Reached site journal := by
  induction shown with
  | start job => exact .start job
  | restore opened => exact .restore opened
  | act _ act _ _ ih => exact ih.act act

namespace EventLoop

variable {loop : EventLoop} {before : Metrics}

theorem shows_serve (shows : loop.coordinator.desk.Shows before) {request : Request}
    (succeeds : Act.HandsBack (.signal (.request request)) →
      (loop.serve request).result = .ok ()) :
    (loop.serve request).coordinator.desk.Shows before := by
  cases request with
  | join worker isOpen =>
    rw [serve, coordinator_resume_id]
    exact Coordinator.shows_addWorker shows worker isOpen
  | leave worker => exact shows.unregister worker
  | takeBack worker splits =>
    have done := succeeds trivial
    rw [serve, coordinator_resume_id]
    apply Coordinator.shows_returnSplits shows
    simp only [serve, resume] at done
    cases ends : (loop.coordinator.returnSplits worker splits).result with
    | ok => rfl
    | error e =>
      rw [ends] at done
      cases done
  | snapshot => exact shows
  | close => exact shows

theorem shows_scanned (shows : loop.coordinator.desk.Shows before) (latest : QueueSet) :
    (loop.scanned latest).coordinator.desk.Shows before := by
  unfold scanned
  split
  · exact shows
  · rw [coordinator_finishCycle]
    exact Coordinator.shows_completeCycle shows

theorem shows_turn (shows : loop.coordinator.desk.Shows before) {signal : Signal}
    (succeeds : Act.HandsBack (.signal signal) → (loop.turn signal).result = .ok ()) :
    (loop.turn signal).coordinator.desk.Shows before := by
  cases signal with
  | tick =>
    simp only [turn, tick]
    split
    · exact shows
    · split
      · exact shows
      · exact shows
  | scanned latest =>
    unfold turn
    cases loop.tasks with
    | nil => exact shows
    | cons task rest =>
      cases task with
      | scan => exact @shows_scanned { loop with tasks := rest } before shows latest
      | lookUp => exact shows
  | lookedUp lookup =>
    unfold turn
    cases loop.tasks with
    | nil => exact shows
    | cons task rest =>
      cases task with
      | scan => exact shows
      | lookUp change known =>
        dsimp only
        rw [coordinator_lookedUp]
        exact Coordinator.shows_finish shows change known lookup
  | crashed =>
    unfold turn
    cases loop.tasks with
    | nil => exact shows
    | cons task rest => exact shows
  | request request => exact shows_serve shows succeeds
  | cancelled => exact shows
  | abandoned => exact shows

theorem shows_step (shows : loop.coordinator.desk.Shows before) {signal : Signal}
    (succeeds : Act.HandsBack (.signal signal) → (loop.step signal).result = .ok ()) :
    (loop.step signal).coordinator.desk.Shows before := by
  unfold step at succeeds ⊢
  split
  · rename_i running
    rw [if_pos running] at succeeds
    exact shows_turn shows succeeds
  · exact shows

end EventLoop

theorem Site.shows_after {site : Site} {before : Metrics}
    (shows : site.coordinator.desk.Shows before) {act : Act}
    (succeeds : act.HandsBack → site.result act = .ok ()) (spares : act.Spares) :
    (site.after act).coordinator.desk.Shows before := by
  cases site with
  | direct c =>
    cases act with
    | join worker isOpen => exact Coordinator.shows_addWorker shows worker isOpen
    | leave worker => exact shows.unregister worker
    | takeBack worker splits => exact Coordinator.shows_returnSplits shows (succeeds trivial)
    | cycle broker => exact Coordinator.shows_cycle shows broker
    | hangUp worker => exact shows.hangUp worker
    | meter change => exact Coordinator.shows_count shows spares
    | spawn => simpa [Site.after, Site.coordinator] using shows
    | signal signal => exact shows
  | spawned loop =>
    cases act with
    | hangUp worker => exact shows.hangUp worker
    | meter change => exact Coordinator.shows_count shows spares
    | signal signal => exact EventLoop.shows_step shows succeeds
    | join | leave | takeBack | cycle | spawn => exact shows

theorem Shown.shows {before : Metrics} {site : Site} {journal : Journal}
    (shown : Shown before site journal) : site.coordinator.desk.Shows before := by
  induction shown with
  | start job => exact Coordinator.shows_start job
  | restore opened => exact Coordinator.shows_restore opened
  | act _ act succeeds spares ih => exact Site.shows_after ih succeeds spares

theorem Coordinator.size_snapshot {c : Coordinator}
    (ownerless : ∀ queue ∈ c.desk.dispatcher.held, c.desk.dispatcher.owned[queue]? = none) :
    c.snapshot.owned.size = c.desk.dispatcher.ownedCount := by
  have unplaced : (c.desk.dispatcher.ownedQueues.filter fun queue =>
      (c.desk.dispatcher.ownerOf queue).isNone) = c.desk.dispatcher.held := by
    apply ExtTreeSet.ext_mem
    intro queue
    rw [Table.mem_filter, Dispatcher.ownedQueues, ExtTreeSet.mem_union_iff, Table.mem_keys,
      Dispatcher.ownerOf]
    constructor
    · rintro ⟨owned | held, none⟩
      · rw [ExtTreeMap.getElem?_eq_some_getElem owned] at none
        cases none
      · exact held
    · intro held
      rw [ownerless queue held]
      exact ⟨.inr held, rfl⟩
  have apart : ∀ queue ∈ Table.keys c.desk.dispatcher.owned, queue ∉ c.desk.dispatcher.held := by
    intro queue owned held
    rw [Table.mem_keys, ExtTreeMap.mem_iff_isSome_getElem?, ownerless queue held] at owned
    cases owned
  simp only [snapshot, Checkpoint.ofOwners, unplaced]
  rw [ExtTreeSet.size_union_of_not_mem apart, Table.size_keys]
  rfl

/-- The instruments show the state after every run. Where the run began with instruments at zero a
    gauge that was never set is right too; else it stays where it stood as long as its count is zero. -/
theorem instruments_show_state {before : Metrics} {site : Site} {journal : Journal}
    (shown : Shown before site journal) :
    let c := site.coordinator
    let registry := c.desk.dispatcher.registry
    let m := c.desk.metrics
    m.owned = c.snapshot.owned.size ∧
      (m.pending = c.desk.reconciler.pendingCount ∨
        c.desk.reconciler.pendingCount = 0 ∧ m.pending = before.pending) ∧
      (m.registered = registry.size ∨ registry.size = 0 ∧ m.registered = before.registered) ∧
      m.assigned = before.assigned + registry.splitsSent .assign ∧
      m.revoked = before.revoked + registry.splitsSent .revoke ∧
      (before = {} → m.pending = c.desk.reconciler.pendingCount ∧ m.registered = registry.size ∧
        m.assigned = registry.splitsSent .assign ∧ m.revoked = registry.splitsSent .revoke) := by
  intro c registry m
  have shows := shown.shows
  have owned := shows.owned.trans
    (Coordinator.size_snapshot shown.reached.tidy.ownerless).symm
  refine ⟨owned, shows.pending, shows.registered, shows.assigned, shows.revoked, ?_⟩
  rintro rfl
  refine ⟨?_, ?_, ?_, ?_⟩
  · rcases shows.pending with same | ⟨none, unset⟩
    · exact same
    · exact unset.trans none.symm
  · rcases shows.registered with same | ⟨none, unset⟩
    · exact same
    · exact unset.trans none.symm
  · exact shows.assigned.trans (Nat.zero_add _)
  · exact shows.revoked.trans (Nat.zero_add _)

theorem queue_given_again_shows :
    let acts := [Act.join 0 true, .cycle (Sample.broker [0, 1]),
      .takeBack 0 [.assign (Sample.queue 0) 5 none]]
    let c := (Sample.site acts).coordinator
    c.desk.metrics.owned = c.snapshot.owned.size ∧
      c.desk.metrics.pending = c.desk.reconciler.pendingCount ∧
      c.desk.metrics.registered = c.desk.dispatcher.registry.size ∧
      c.desk.metrics.assigned = c.desk.dispatcher.registry.splitsSent .assign ∧
      c.desk.metrics.revoked = c.desk.dispatcher.registry.splitsSent .revoke ∧
      c.desk.reconciler.pendingCount = 1 ∧ c.desk.dispatcher.registry.splitsSent .assign = 2 := by
  intro acts c
  have joined : Shown {} (Sample.site [.join 0 true]) _ :=
    .act (.start Sample.job) (.join 0 true) False.elim trivial
  have cycled : Shown {} (Sample.site [.join 0 true, .cycle (Sample.broker [0, 1])]) _ :=
    .act joined (.cycle (Sample.broker [0, 1])) False.elim trivial
  have returned : Shown {} (Sample.site acts) _ :=
    .act cycled (.takeBack 0 [.assign (Sample.queue 0) 5 none]) (fun _ => by decide +kernel) trivial
  obtain ⟨owned, _, _, _, _, fresh⟩ := instruments_show_state returned
  obtain ⟨pending, registered, assigned, revoked⟩ := fresh rfl
  exact ⟨owned, pending, registered, assigned, revoked, by decide +kernel, by decide +kernel⟩

-- A worker that is not there hands back the queue that waits for it, and the target fails.
example :
    let job := { Sample.job with strategy := .scripted [
      .ok (Table.ofEntries [(0, ExtTreeSet.ofList [Sample.queue 0])]),
      .error (.allocation .noWorkers)] }
    let c := ((Site.direct (.start job)).run [.cycle (Sample.broker [0]),
      .takeBack 0 [.assign (Sample.queue 0) 5 none]]).coordinator
    c.desk.metrics.pending = 1 ∧ c.desk.reconciler.pendingCount = 0 := by
  decide +kernel

end QueueAssignment
