import QueueAssignment.Proofs.Sound

/-!
What went out on each channel. A worker is reached by the channel of its latest registration as long
as its receiver is there. No channel is opened twice, so all that goes out on one is for one worker.
-/
namespace QueueAssignment
open Std

namespace Registry

variable {r s : Registry} {worker : Worker} {number : Nat}

def channelOf (r : Registry) (worker : Worker) : Option Nat :=
  (r.connections[worker]?.filter Channel.isOpen).map Channel.number

def commandsOn (r : Registry) (number : Nat) : List Command :=
  (r.sent.filter fun delivery => delivery.channel = number).map Delivery.command

theorem isRegistered_iff :
    r.isRegistered worker = true ↔ ∃ number, r.channelOf worker = some number := by
  unfold isRegistered channelOf
  cases r.connections[worker]? with
  | none => simp
  | some channel => simp [Option.filter_some]

theorem channelOf_congr (same : s.connections = r.connections) (worker : Worker) :
    s.channelOf worker = r.channelOf worker := by
  rw [channelOf, same, channelOf]

theorem channelOf_register (r : Registry) (worker other : Worker) (isOpen : Bool) :
    (r.register worker isOpen).channelOf other =
      if worker = other then (if isOpen then some r.opened else none) else r.channelOf other := by
  simp only [channelOf, register, ExtTreeMap.getElem?_insert, Std.compare_eq_iff_eq]
  split
  · cases isOpen <;> rfl
  · rfl

theorem channelOf_unregister (r : Registry) (worker other : Worker) :
    (r.unregister worker).channelOf other =
      if worker = other then none else r.channelOf other := by
  simp only [channelOf, unregister, ExtTreeMap.getElem?_erase, Std.compare_eq_iff_eq]
  split <;> rfl

theorem channelOf_hangUp (r : Registry) (worker other : Worker) :
    (r.hangUp worker).channelOf other = if worker = other then none else r.channelOf other := by
  simp only [channelOf, hangUp, ExtTreeMap.getElem?_map]
  cases r.connections[other]? with
  | none => simp
  | some channel =>
    by_cases same : other = worker
    · simp [same, Option.filter_some]
    · simp [same, Ne.symm same]

theorem channelOf_send (r : Registry) (worker other : Worker) (command : Command) :
    (r.send worker command).channelOf other = r.channelOf other :=
  channelOf_congr (connections_send r worker command) other

theorem send_unreached (unreached : r.channelOf worker = none) (command : Command) :
    r.send worker command = r := by
  unfold channelOf at unreached
  unfold send
  cases found : r.connections[worker]? with
  | none => rfl
  | some channel =>
    have closed : channel.isOpen = false := by simpa [found, Option.filter_some] using unreached
    exact if_neg (Bool.eq_false_iff.mp closed)

theorem sent_send_reached (reached : r.channelOf worker = some number) (command : Command) :
    (r.send worker command).sent = r.sent ++ [⟨worker, number, command⟩] := by
  unfold channelOf at reached
  unfold send
  cases found : r.connections[worker]? with
  | none => simp [found] at reached
  | some channel =>
    simp only [found, Option.filter_some] at reached
    cases there : channel.isOpen with
    | false => simp [there] at reached
    | true =>
      have same : channel.number = number := by simpa [there] using reached
      simp [same, there]

theorem opened_send (r : Registry) (worker : Worker) (command : Command) :
    (r.send worker command).opened = r.opened := by
  unfold send
  split
  · split <;> rfl
  · rfl

theorem commandsOn_congr (same : s.sent = r.sent) (number : Nat) :
    s.commandsOn number = r.commandsOn number := by
  rw [commandsOn, same, commandsOn]

theorem commandsOn_send (r : Registry) (worker : Worker) (command : Command) (number : Nat) :
    (r.send worker command).commandsOn number =
      r.commandsOn number ++ (if r.channelOf worker = some number then [command] else []) := by
  cases reached : r.channelOf worker with
  | none => simp [send_unreached reached]
  | some other =>
    rw [commandsOn, sent_send_reached reached, List.filter_append, List.map_append]
    by_cases same : other = number
    · simp [same, commandsOn]
    · simp [same, commandsOn]

theorem commandsOn_sendAll (r : Registry) (batch : Batch) (number : Nat) :
    (batch.foldl (fun r part => r.send part.1 (.assign part.2)) r).commandsOn number =
      r.commandsOn number ++ ((batch.filter fun part => r.channelOf part.1 = some number).map
        Prod.snd).map .assign := by
  induction batch generalizing r with
  | nil => simp
  | cons part rest ih =>
    rw [List.foldl_cons, ih, commandsOn_send]
    simp only [channelOf_send]
    by_cases here : r.channelOf part.1 = some number
    · simp [here]
    · simp [here]

/-- All channels that reach somebody, and all that something went out on, were opened, and no two
    workers share one. -/
structure Numbered (r : Registry) : Prop where
  opened : ∀ {worker number}, r.channelOf worker = some number → number < r.opened
  apart : ∀ {v w number}, r.channelOf v = some number → r.channelOf w = some number → v = w
  sent : ∀ delivery ∈ r.sent, delivery.channel < r.opened
  own : ∀ {worker}, ∀ delivery ∈ r.sent, r.channelOf worker = some delivery.channel →
    delivery.worker = worker

theorem numbered_start : Numbered {} where
  opened := by simp [channelOf]
  apart := by simp [channelOf]
  sent := by simp
  own := by simp

theorem Numbered.commandsOn_opened (numbered : r.Numbered) : r.commandsOn r.opened = [] := by
  rw [commandsOn, List.map_eq_nil_iff, List.filter_eq_nil_iff]
  intro delivery member
  have before := numbered.sent delivery member
  simp only [decide_eq_true_eq]
  omega

theorem Numbered.lt_opened (numbered : r.Numbered) {command : Command}
    (sent : command ∈ r.commandsOn number) : number < r.opened := by
  obtain ⟨delivery, listed, _⟩ := List.mem_map.mp sent
  obtain ⟨member, same⟩ := List.mem_filter.mp listed
  exact of_decide_eq_true same ▸ numbered.sent delivery member

theorem Numbered.narrow (numbered : r.Numbered) (sent : s.sent = r.sent)
    (opened : s.opened = r.opened)
    (fewer : ∀ {worker number}, s.channelOf worker = some number →
      r.channelOf worker = some number) : s.Numbered where
  opened := fun reached => opened ▸ numbered.opened (fewer reached)
  apart := fun first second => numbered.apart (fewer first) (fewer second)
  sent := by
    rw [sent, opened]
    exact numbered.sent
  own := by
    rw [sent]
    exact fun delivery member reached => numbered.own delivery member (fewer reached)

theorem Numbered.register (numbered : r.Numbered) (worker : Worker) (isOpen : Bool) :
    (r.register worker isOpen).Numbered where
  opened := by
    intro other number reached
    rw [channelOf_register] at reached
    have grows : (r.register worker isOpen).opened = r.opened + 1 := rfl
    split at reached
    · split at reached
      · cases reached
        omega
      · cases reached
    · have before := numbered.opened reached
      omega
  apart := by
    intro v w number first second
    rw [channelOf_register] at first second
    by_cases same : worker = v
    · by_cases again : worker = w
      · exact same.symm.trans again
      · -- The new channel is none that reached a worker before.
        rw [if_neg again] at second
        have before := numbered.opened second
        cases isOpen with
        | false => simp [same] at first
        | true =>
          have new : r.opened = number := by simpa [same] using first
          omega
    · rw [if_neg same] at first
      have before := numbered.opened first
      by_cases again : worker = w
      · cases isOpen with
        | false => simp [again] at second
        | true =>
          have new : r.opened = number := by simpa [again] using second
          omega
      · rw [if_neg again] at second
        exact numbered.apart first second
  sent := fun delivery member => Nat.lt_succ_of_lt (numbered.sent delivery member)
  own := by
    intro other delivery member reached
    rw [channelOf_register] at reached
    have before := numbered.sent delivery member
    split at reached
    · split at reached
      · have new : r.opened = delivery.channel := Option.some.inj reached
        omega
      · cases reached
    · exact numbered.own delivery member reached

theorem Numbered.unregister (numbered : r.Numbered) (worker : Worker) :
    (r.unregister worker).Numbered := by
  apply numbered.narrow (s := r.unregister worker) rfl rfl
  intro other number reached
  rw [channelOf_unregister] at reached
  split at reached
  · cases reached
  · exact reached

theorem Numbered.hangUp (numbered : r.Numbered) (worker : Worker) :
    (r.hangUp worker).Numbered := by
  apply numbered.narrow (s := r.hangUp worker) rfl rfl
  intro other number reached
  rw [channelOf_hangUp] at reached
  split at reached
  · cases reached
  · exact reached

theorem Numbered.send (numbered : r.Numbered) (worker : Worker) (command : Command) :
    (r.send worker command).Numbered := by
  cases reached : r.channelOf worker with
  | none => exact (send_unreached reached command).symm ▸ numbered
  | some number =>
    have sent := sent_send_reached reached command
    refine ⟨?opened, ?apart, ?sent, ?own⟩
    case opened =>
      intro other place
      rw [channelOf_send, opened_send]
      exact numbered.opened
    case apart =>
      intro v w place
      rw [channelOf_send, channelOf_send]
      exact numbered.apart
    case sent =>
      intro delivery member
      rw [opened_send]
      rw [sent, List.mem_append, List.mem_singleton] at member
      rcases member with before | rfl
      · exact numbered.sent delivery before
      · exact numbered.opened reached
    case own =>
      intro other delivery member found
      rw [channelOf_send] at found
      rw [sent, List.mem_append, List.mem_singleton] at member
      rcases member with before | rfl
      · exact numbered.own delivery before found
      · exact numbered.apart reached found

theorem Numbered.sendAll (numbered : r.Numbered) (batch : Batch) :
    (batch.foldl (fun r part => r.send part.1 (.assign part.2)) r).Numbered := by
  induction batch generalizing r with
  | nil => exact numbered
  | cons part rest ih => exact ih (numbered.send part.1 (.assign part.2))

end Registry

end QueueAssignment
