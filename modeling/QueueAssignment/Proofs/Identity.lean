import Mathlib.Data.Nat.Digits.Defs
import QueueAssignment.Proofs.Json.Spelling
import QueueAssignment.QueueKey

/-!
The bytes that are hashed of a queue read as that queue and as no other one. No name holds the byte
that ends one, so the topic goes to the first such byte and the broker to the next. The index may hold
that byte too, but its bytes are the last ones. So two queues share a key only where the hash itself
takes different bytes to the same word.
-/
namespace QueueAssignment.Queue

variable {bytes : List UInt8} {name other : String} {i j : UInt32} {a b : Queue}

def IsName (bytes : List UInt8) (name : String) : Prop :=
  String.fromUTF8? ⟨bytes.toArray⟩ = some name

structure IsIndex (bytes : List UInt8) (index : UInt32) : Prop where
  length : bytes.length = 4
  value : Nat.ofDigits 256 (bytes.map UInt8.toNat) = index.toNat

/-- Bytes that read as a queue: both names, each with its end, and the index. -/
def IdentifiedBy (queue : Queue) (bytes : List UInt8) : Prop :=
  ∃ topic broker index,
    bytes = topic ++ nameEnd :: (broker ++ nameEnd :: index) ∧
      IsName topic queue.topic ∧ IsName broker queue.broker ∧ IsIndex index queue.index

theorem isName_toUTF8 (name : String) : IsName name.toUTF8.data.toList name := by
  have same := Json.fromUTF8?_encode name.toList
  rwa [← Json.bytes_ofList, String.ofList_toList] at same

theorem IsName.eq_encode (named : IsName bytes name) : bytes = Json.encode name.toList := by
  rw [IsName, String.fromUTF8?] at named
  by_cases valid : ByteArray.IsValidUTF8 ⟨bytes.toArray⟩
  · rw [dif_pos valid] at named
    rw [← Json.bytes_ofList, String.ofList_toList, ← Option.some.inj named]
    rfl
  · rw [dif_neg valid] at named
    cases named

theorem IsName.unique (named : IsName bytes name) (also : IsName bytes other) : name = other :=
  Option.some.inj (named.symm.trans also)

theorem IsName.end_not_mem (named : IsName bytes name) : nameEnd ∉ bytes := by
  rw [named.eq_encode, Json.encode, List.mem_flatMap]
  rintro ⟨c, _, member⟩
  exact absurd (Json.lt_of_mem_utf8EncodeChar member) (by decide)

theorem isIndex_indexBytes (index : UInt32) : IsIndex (indexBytes index) index := by
  refine ⟨rfl, ?_⟩
  have bound := index.toNat_lt
  simp only [indexBytes, List.map_cons, List.map_nil, Nat.ofDigits_cons, Nat.ofDigits_nil,
    UInt32.toNat_toUInt8, UInt32.toNat_shiftRight, Nat.shiftRight_eq_div_pow, UInt32.reduceToNat,
    Nat.reduceMod, Nat.reducePow]
  omega

theorem IsIndex.unique (here : IsIndex bytes i) (there : IsIndex bytes j) : i = j :=
  UInt32.toNat_inj.mp (here.value.symm.trans there.value)

/-- A name is cut off at the first end. Nothing is asked of the bytes after it, as those of an index
    may look like ends. -/
theorem cut_unique {first second rest left : List UInt8} (inside : nameEnd ∉ first)
    (within : nameEnd ∉ second) (same : first ++ nameEnd :: rest = second ++ nameEnd :: left) :
    first = second ∧ rest = left := by
  induction first generalizing second with
  | nil =>
    cases second with
    | nil => exact ⟨rfl, (List.cons.inj same).2⟩
    | cons byte second =>
      exact absurd (List.mem_cons.mpr (Or.inl (List.cons.inj same).1)) within
  | cons byte first ih =>
    cases second with
    | nil => exact absurd (List.mem_cons.mpr (Or.inl (List.cons.inj same).1.symm)) inside
    | cons byte' second =>
      obtain ⟨rfl, later⟩ := List.cons.inj same
      obtain ⟨rfl, eq⟩ := ih (List.not_mem_of_not_mem_cons inside)
        (List.not_mem_of_not_mem_cons within) later
      exact ⟨rfl, eq⟩

theorem identifiedBy_keyBytes (queue : Queue) : queue.IdentifiedBy queue.keyBytes :=
  ⟨_, _, _, rfl, isName_toUTF8 _, isName_toUTF8 _, isIndex_indexBytes _⟩

theorem IdentifiedBy.unique (here : a.IdentifiedBy bytes) (there : b.IdentifiedBy bytes) : a = b := by
  obtain ⟨topic, broker, index, rfl, topic_a, broker_a, index_a⟩ := here
  obtain ⟨topic', broker', index', same, topic_b, broker_b, index_b⟩ := there
  -- The topics end at the same byte, so the brokers do, and what is left on both sides is the index.
  obtain ⟨rfl, later⟩ := cut_unique topic_a.end_not_mem topic_b.end_not_mem same
  obtain ⟨rfl, rfl⟩ := cut_unique broker_a.end_not_mem broker_b.end_not_mem later
  have topics := topic_a.unique topic_b
  have brokers := broker_a.unique broker_b
  have indices := index_a.unique index_b
  cases a
  cases b
  simp_all only

theorem keyBytes_inj : a.keyBytes = b.keyBytes ↔ a = b := by
  constructor
  · intro same
    exact (identifiedBy_keyBytes a).unique (same ▸ identifiedBy_keyBytes b)
  · rintro rfl
    rfl

/-- What is hashed of a queue is its two names, each with its end, and its index, and no other queue
    has the same bytes. So two queues that share a key are one queue, or the hash itself takes
    different bytes to the same word. -/
theorem keys_meet_only_by_collision (a b : Queue) :
    a.IdentifiedBy a.keyBytes ∧ (a.keyBytes = b.keyBytes ↔ a = b) ∧
      (a.key = b.key ↔ a = b ∨
        a.keyBytes ≠ b.keyBytes ∧ Sip.hash 0 0 a.keyBytes = Sip.hash 0 0 b.keyBytes) := by
  refine ⟨identifiedBy_keyBytes a, keyBytes_inj, ?_⟩
  constructor
  · intro same
    by_cases eq : a = b
    · exact Or.inl eq
    · exact Or.inr ⟨fun bytes => eq (keyBytes_inj.mp bytes), same⟩
  · rintro (rfl | ⟨_, collision⟩)
    · rfl
    · exact collision

/-- Two empty names, and an index whose bytes look like ends. -/
example : (⟨"", "", 0xffffffff⟩ : Queue).keyBytes = List.replicate 6 nameEnd := by decide

end QueueAssignment.Queue
