import QueueAssignment.Checkpoint
import QueueAssignment.Proofs.Json.Objects

/-!
Objects that are no queues or checkpoints because a member comes twice or is missing, whatever the
values are.
-/
namespace QueueAssignment
open Std Json

section Places

variable {σ α : Type} {shape : Shape σ α} {entries : List Entry} {draft final : σ}
  {member : Member σ}

/-- Each member that is read into a free place fills that place and no other. -/
def Json.Shape.Fits (shape : Shape σ α) : Prop :=
  ∀ ⦃draft bytes next rest⦄, ∀ member ∈ shape.members, member.isGiven draft = false →
    member.read draft bytes = .ok (next, rest) → ∀ other ∈ shape.members,
      (other.isGiven next).toNat =
        (if member.name == other.name then 1 else 0) + (other.isGiven draft).toNat

theorem count_of_chain (fits : shape.Fits) (chain : Chain shape.Gives draft entries final)
    (known : member ∈ shape.members) : (member.isGiven final).toNat =
      (entries.map Entry.name).count member.name + (member.isGiven draft).toNat := by
  induction chain with
  | nil => simp
  | @cons draft next final entry entries gives chain ih =>
    have one : (member.isGiven next).toNat =
        (if entry.name == member.name then 1 else 0) + (member.isGiven draft).toNat := by
      unfold Shape.Gives at gives
      cases found : shape.members.find? fun member => member.name = entry.name with
      | some filled =>
        rw [found] at gives
        obtain ⟨free, gap, after, _, _, read⟩ := gives
        have name := List.find?_some found
        rw [← of_decide_eq_true name]
        exact fits filled (List.mem_of_find?_eq_some found) free read member known
      | none =>
        rw [found] at gives
        subst gives
        have apart := List.find?_eq_none.mp found member known
        have other : (entry.name == member.name) = false :=
          beq_eq_false_iff_ne.mpr fun same => apart (decide_eq_true same.symm)
        simp [other]
    rw [ih, one, List.map_cons, List.count_cons]
    omega

end Places

theorem Checkpoint.skipText_of_readWorker {core mid : Bytes} {worker : Worker}
    (read : readWorker core = .ok (worker, mid)) : skipText core = .ok ((), mid) := by
  cases core with
  | nil => cases read
  | cons b more =>
    simp only [readWorker] at read
    split at read
    · rename_i begins
      cases found : word32 (b :: more) with
      | error failure =>
        rw [found] at read
        cases read
      | ok pair =>
        obtain ⟨number, rest⟩ := pair
        rw [found] at read
        obtain ⟨n, left, counted, later⟩ := bind_inv found
        cases later
        have plain := plain_anyNumber begins (natural_inv counted)
        cases rest with
        | nil => cases read
        | cons q rest =>
          simp only at read
          split at read
          · rename_i quoted
            cases read
            subst quoted
            exact skipText_of_plain plain
          · cases read
    · cases read

namespace Queue

theorem mem_members {member : Member Draft} (known : member ∈ shape.members) :
    member = Draft.topicMember ∨ member = Draft.brokerMember ∨ member = Draft.indexMember := by
  simpa only [shape, List.mem_cons, List.not_mem_nil, or_false] using known

theorem agrees_members : ∀ member ∈ shape.members, ∀ draft, Agrees (member.read draft) := by
  intro member known draft
  rcases mem_members known with rfl | rfl | rfl
  · exact agrees_string.map _
  · exact agrees_string.map _
  · exact agrees_word32.map _

theorem agrees_read : Agrees read := agrees_shape agrees_members

theorem fits : shape.Fits := by
  intro draft bytes next rest member known free read other listed
  obtain ⟨topic, broker, index⟩ := draft
  rcases mem_members known with rfl | rfl | rfl
  · obtain ⟨value, mid, _, read⟩ := bind_inv read
    cases topic <;> cases free
    cases read
    rcases mem_members listed with rfl | rfl | rfl <;>
      simp [Draft.topicMember, Draft.brokerMember, Draft.indexMember]
  · obtain ⟨value, mid, _, read⟩ := bind_inv read
    cases broker <;> cases free
    cases read
    rcases mem_members listed with rfl | rfl | rfl <;>
      simp [Draft.topicMember, Draft.brokerMember, Draft.indexMember]
  · obtain ⟨value, mid, _, read⟩ := bind_inv read
    cases index <;> cases free
    cases read
    rcases mem_members listed with rfl | rfl | rfl <;>
      simp [Draft.topicMember, Draft.brokerMember, Draft.indexMember]

theorem isGiven_of_finish {draft : Draft} {queue : Queue} (made : draft.queue? = some queue)
    {member : Member Draft} (known : member ∈ shape.members) : member.isGiven draft = true := by
  simp only [Draft.queue?, Option.bind_eq_bind, Option.bind_eq_some_iff] at made
  obtain ⟨topic, hasTopic, broker, hasBroker, index, hasIndex, _⟩ := made
  rcases mem_members known with rfl | rfl | rfl
  · exact Option.isSome_iff_exists.mpr ⟨topic, hasTopic⟩
  · exact Option.isSome_iff_exists.mpr ⟨broker, hasBroker⟩
  · exact Option.isSome_iff_exists.mpr ⟨index, hasIndex⟩

/-- An object in which a member of a queue is missing or comes twice, whatever else it holds. -/
def Faulty (text : Bytes) : Prop := ∃ entries, Entries entries text ∧
  ∃ member ∈ shape.members, (entries.map Entry.name).count member.name ≠ 1

theorem not_read_faulty {before text rest left : Bytes} {queue : Queue} (faulty : Faulty text)
    (blanks : Blanks before) : read (before ++ (text ++ rest)) ≠ .ok (queue, left) := by
  obtain ⟨entries, spelled, member, known, amiss⟩ := faulty
  intro taken
  obtain ⟨_, final, chain, made⟩ := Shape.chain_of_read agrees_members spelled blanks taken
  have counted := count_of_chain fits chain known
  have blank : member.isGiven shape.blank = false := by
    rcases mem_members known with rfl | rfl | rfl <;> rfl
  rw [isGiven_of_finish made known, blank] at counted
  exact amiss counted.symm

end Queue

namespace Checkpoint

def FaultyQueues (text : Bytes) : Prop :=
  ∃ values, Items values text ∧ ∃ value ∈ values, Queue.Faulty value.val

def FaultyOwners (text : Bytes) : Prop :=
  ∃ entries, Entries entries text ∧ ∃ entry ∈ entries, FaultyQueues entry.value

/-- An object that is no checkpoint: a member is missing or comes twice, in it or in one of its
    queues. -/
inductive Faulty (entries : List Entry) : Prop where
  | owned (amiss : (entries.map Entry.name).count "owned_queues" ≠ 1)
  | owners (again : 1 < (entries.map Entry.name).count "owners")
  | ownedQueue (entry : Entry) (listed : entry ∈ entries) (name : entry.name = "owned_queues")
      (amiss : FaultyQueues entry.value)
  | ownerQueue (entry : Entry) (listed : entry ∈ entries) (name : entry.name = "owners")
      (amiss : FaultyOwners entry.value)

section Refusals

variable {before text rest left : Bytes} {queues : QueueSet} {owners : Assignment}

theorem not_readQueues_faulty (faulty : FaultyQueues text) (blanks : Blanks before) :
    readQueues (before ++ (text ++ rest)) ≠ .ok (queues, left) := by
  obtain ⟨values, spelled, value, listed, amiss⟩ := faulty
  intro taken
  obtain ⟨found, mid, listRead, _⟩ := bind_inv taken
  obtain ⟨after, queue, _, read⟩ :=
    items_of_list Queue.agrees_read spelled blanks listRead value listed
  exact Queue.not_read_faulty amiss blanks_nil read

theorem agrees_readQueues : Agrees readQueues := (agrees_list Queue.agrees_read).map _

theorem not_readOwners_faulty (faulty : FaultyOwners text) (blanks : Blanks before) :
    readOwners (before ++ (text ++ rest)) ≠ .ok (owners, left) := by
  obtain ⟨entries, spelled, entry, listed, amiss⟩ := faulty
  intro taken
  obtain ⟨found, mid, entriesRead, _⟩ := bind_inv taken
  obtain ⟨gap, after, queues, space, _, read⟩ :=
    values_of_entries skipText_of_readWorker agrees_readQueues spelled blanks entriesRead entry
      listed
  exact not_readQueues_faulty amiss space read

theorem agrees_readOwners : Agrees readOwners :=
  (agrees_entries skipText_of_readWorker agrees_readQueues).map _

theorem mem_members {member : Member Draft} (known : member ∈ shape.members) :
    member = Draft.ownedMember ∨ member = Draft.ownersMember := by
  simpa only [shape, List.mem_cons, List.not_mem_nil, or_false] using known

theorem agrees_members : ∀ member ∈ shape.members, ∀ draft, Agrees (member.read draft) := by
  intro member known draft
  rcases mem_members known with rfl | rfl
  · exact agrees_readQueues.map _
  · exact agrees_readOwners.map _

theorem fits : shape.Fits := by
  intro draft bytes next rest member known free read other listed
  obtain ⟨owned, owners⟩ := draft
  rcases mem_members known with rfl | rfl
  · obtain ⟨value, mid, _, read⟩ := bind_inv read
    cases owned <;> cases free
    cases read
    rcases mem_members listed with rfl | rfl <;> simp [Draft.ownedMember, Draft.ownersMember]
  · obtain ⟨value, mid, _, read⟩ := bind_inv read
    cases owners <;> cases free
    cases read
    rcases mem_members listed with rfl | rfl <;> simp [Draft.ownedMember, Draft.ownersMember]

theorem not_read_faulty {entries : List Entry} {checkpoint : Checkpoint}
    (spelled : Entries entries text) (faulty : Faulty entries) (blanks : Blanks before) :
    read (before ++ (text ++ rest)) ≠ .ok (checkpoint, left) := by
  intro taken
  obtain ⟨_, final, chain, made⟩ := Shape.chain_of_read agrees_members spelled blanks taken
  cases faulty with
  | owned amiss =>
    have listed : Draft.ownedMember ∈ shape.members := .head _
    have counted := count_of_chain fits chain listed
    obtain ⟨owned, has, _⟩ := Option.map_eq_some_iff.mp made
    have given : Draft.ownedMember.isGiven final = true := Option.isSome_iff_exists.mpr ⟨owned, has⟩
    rw [given] at counted
    exact amiss counted.symm
  | owners again =>
    have listed : Draft.ownersMember ∈ shape.members := .tail _ (.head _)
    have counted := count_of_chain fits chain listed
    have atMost := Bool.toNat_le (Draft.ownersMember.isGiven final)
    rw [counted] at atMost
    exact absurd atMost (Nat.not_le.mpr (Nat.lt_of_lt_of_le again (Nat.le_add_right _ _)))
  | ownedQueue entry listed name amiss =>
    obtain ⟨draft, next, gives⟩ := chain.mem listed
    unfold Shape.Gives at gives
    rw [name] at gives
    obtain ⟨_, gap, after, space, _, read⟩ := gives
    obtain ⟨_, _, read, _⟩ := bind_inv read
    exact not_readQueues_faulty amiss space read
  | ownerQueue entry listed name amiss =>
    obtain ⟨draft, next, gives⟩ := chain.mem listed
    unfold Shape.Gives at gives
    rw [name] at gives
    obtain ⟨_, gap, after, space, _, read⟩ := gives
    obtain ⟨_, _, read, _⟩ := bind_inv read
    exact not_readOwners_faulty amiss space read

theorem ofBytes_faulty {entries : List Entry} (spelled : Entries entries text)
    (faulty : Faulty entries) (blanks : Blanks before) (rest : Bytes) :
    ∃ failure, ofBytes (before ++ (text ++ rest)) = .error failure := by
  cases taken : read (before ++ (text ++ rest)) with
  | error failure => exact ⟨failure, by simp [ofBytes, readAll, taken]⟩
  | ok pair => exact absurd taken (not_read_faulty spelled faulty blanks)

end Refusals

end Checkpoint

end QueueAssignment
