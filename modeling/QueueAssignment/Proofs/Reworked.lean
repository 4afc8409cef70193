import Mathlib.Data.List.Perm.Basic
import Mathlib.Logic.Relation
import QueueAssignment.Proofs.Faults
import QueueAssignment.Proofs.RoundTrip

/-!
Documents that mean the same. Members may change places, unknown ones may come in, a queue may be
listed again, and owners that are none may be left out; what the document makes up stays.
-/
namespace QueueAssignment
open Std Json

section Folding

variable {σ ι : Type} {fill : σ → ι → Option σ} {items others : List ι}

/-- Where the order of two steps makes no difference, the order of all makes none. -/
theorem foldlM_perm (commutes : ∀ state a b,
      (fill state a).bind (fill · b) = (fill state b).bind (fill · a))
    (perm : items.Perm others) (state : σ) :
    items.foldlM fill state = others.foldlM fill state := by
  induction perm generalizing state with
  | nil => rfl
  | cons item perm ih =>
    rw [List.foldlM_cons, List.foldlM_cons]
    exact Option.bind_congr fun next _ => ih next
  | swap a b rest =>
    have same := congrArg (Option.bind · fun next => rest.foldlM fill next) (commutes state b a)
    simp only [Option.bind_assoc] at same
    simp only [List.foldlM_cons]
    exact same
  | trans first second ih next => exact (ih state).trans (next state)

theorem foldlM_congr {front back : List ι} {item other : ι}
    (same : ∀ state, fill state item = fill state other) (state : σ) :
    (front ++ item :: back).foldlM fill state = (front ++ other :: back).foldlM fill state := by
  simp only [List.foldlM_append, List.foldlM_cons, same]

theorem foldlM_idle {front back : List ι} {item : ι} (idle : ∀ state, fill state item = some state)
    (state : σ) :
    (front ++ item :: back).foldlM fill state = (front ++ back).foldlM fill state := by
  simp only [List.foldlM_append, List.foldlM_cons, idle]
  rfl

end Folding

section Readings

variable {α β : Type} {read : α → Option β} {items : List α} {values : List β}

theorem mapM_eq_some : items.mapM read = some values ↔ items.map read = values.map some := by
  induction items generalizing values with
  | nil => cases values <;> simp
  | cons item rest ih =>
    cases found : read item with
    | none => cases values <;> simp [List.mapM_cons, found]
    | some value =>
      cases values with
      | nil => cases all : rest.mapM read <;> simp [List.mapM_cons, found, all]
      | cons first others =>
        simp [List.mapM_cons, found, ← ih, Option.bind_eq_some_iff, and_comm]

theorem mapM_isSome (known : none ∉ items.map read) : ∃ values, items.mapM read = some values := by
  induction items with
  | nil => exact ⟨[], rfl⟩
  | cons item rest ih =>
    rw [List.map_cons, List.mem_cons, not_or] at known
    obtain ⟨value, found⟩ := Option.ne_none_iff_exists'.mp (Ne.symm known.1)
    obtain ⟨values, all⟩ := ih known.2
    exact ⟨value :: values, by simp [List.mapM_cons, found, all]⟩

end Readings

theorem queues?_eq_some {documents : List QueueDocument} {queues : QueueSet} :
    QueueDocument.queues? documents = some queues ↔
    none ∉ documents.map QueueDocument.queue? ∧
      ∀ queue, queue ∈ queues ↔ some queue ∈ documents.map QueueDocument.queue? := by
  constructor
  · intro found
    obtain ⟨values, read, rfl⟩ := Option.map_eq_some_iff.mp found
    rw [mapM_eq_some] at read
    rw [read]
    exact ⟨by simp, fun queue => Table.mem_ofList.trans (by simp)⟩
  · rintro ⟨known, listed⟩
    obtain ⟨values, read⟩ := mapM_isSome known
    have same : ExtTreeSet.ofList values = queues := by
      refine ExtTreeSet.ext_mem fun queue => Table.mem_ofList.trans ?_
      rw [listed, mapM_eq_some.mp read]
      simp
    rw [QueueDocument.queues?, read, Option.map_some, same]

/-- A change of the object of a queue that does not change the queue. -/
inductive QueueEdit : QueueDocument → QueueDocument → Prop where
  | permute {document other : QueueDocument} : document.Perm other → QueueEdit document other
  | insert (front back : QueueDocument) (name : Queue.shape.Unknown) :
      QueueEdit (front ++ back) (front ++ .other name :: back)

inductive SetEdit : List QueueDocument → List QueueDocument → Prop where
  | permute {documents others : List QueueDocument} : documents.Perm others →
      SetEdit documents others
  | again {document : QueueDocument} {documents : List QueueDocument} : document ∈ documents →
      SetEdit documents (document :: documents)
  | queue (front back : List QueueDocument) {document other : QueueDocument} :
      QueueEdit document other → SetEdit (front ++ document :: back) (front ++ other :: back)

inductive CheckpointEdit : CheckpointDocument → CheckpointDocument → Prop where
  | permute {document other : CheckpointDocument} : document.Perm other →
      CheckpointEdit document other
  | insert (front back : CheckpointDocument) (name : Checkpoint.shape.Unknown) :
      CheckpointEdit (front ++ back) (front ++ .other name :: back)
  | owned (front back : CheckpointDocument) {documents others : List QueueDocument} :
      SetEdit documents others →
      CheckpointEdit (front ++ .owned documents :: back) (front ++ .owned others :: back)
  | owners (front back : CheckpointDocument) (before after : List (Worker × List QueueDocument))
      (worker : Worker) {documents others : List QueueDocument} : SetEdit documents others →
      CheckpointEdit (front ++ .owners (before ++ (worker, documents) :: after) :: back)
        (front ++ .owners (before ++ (worker, others) :: after) :: back)
  | ownerless (front back : CheckpointDocument) :
      CheckpointEdit (front ++ .owners [] :: back) (front ++ back)

abbrev Reworked : CheckpointDocument → CheckpointDocument → Prop :=
  Relation.ReflTransGen CheckpointEdit

theorem QueueMember.fill_commutes (draft : Queue.Draft) (a b : QueueMember) :
    (fill draft a).bind (fill · b) = (fill draft b).bind (fill · a) := by
  -- Two members of one name are refused in both orders, and others fill different places.
  obtain ⟨topic, broker, index⟩ := draft
  cases a <;> cases b <;> cases topic <;> cases broker <;> cases index <;> rfl

theorem QueueEdit.queue? {document other : QueueDocument} (edit : QueueEdit document other) :
    other.queue? = document.queue? := by
  cases edit with
  | permute perm =>
    rw [QueueDocument.queue?, foldlM_perm QueueMember.fill_commutes perm.symm, QueueDocument.queue?]
  | insert front back name =>
    rw [QueueDocument.queue?, foldlM_idle (fun _ => rfl), QueueDocument.queue?]

section Sets

variable {documents others : List QueueDocument}

theorem queues?_congr (same : ∀ found,
      found ∈ documents.map QueueDocument.queue? ↔ found ∈ others.map QueueDocument.queue?) :
    QueueDocument.queues? documents = QueueDocument.queues? others := by
  refine Option.ext fun queues => ?_
  simp only [queues?_eq_some, same]

theorem SetEdit.queues? (edit : SetEdit documents others) :
    QueueDocument.queues? others = QueueDocument.queues? documents := by
  cases edit with
  | permute perm => exact queues?_congr fun found => (perm.map _).symm.mem_iff
  | @again document _ member =>
    refine queues?_congr fun found => ?_
    have listed : document.queue? ∈ List.map QueueDocument.queue? _ := List.mem_map_of_mem member
    rw [List.map_cons, List.mem_cons]
    exact or_iff_right_of_imp fun same => same ▸ listed
  | queue front back edit =>
    refine queues?_congr fun found => ?_
    rw [List.map_append, List.map_cons, edit.queue?, List.map_append, List.map_cons]

end Sets

theorem CheckpointMember.fill_commutes (draft : Checkpoint.Draft) (a b : CheckpointMember) :
    (fill draft a).bind (fill · b) = (fill draft b).bind (fill · a) := by
  obtain ⟨owned, owners⟩ := draft
  cases a with
  | other name => exact (Option.bind_fun_some _).symm
  | owned documents =>
    cases b with
    | other name => exact Option.bind_fun_some _
    | owned others =>
      simp only [fill]
      cases QueueDocument.queues? documents <;> cases QueueDocument.queues? others <;>
        cases owned <;> rfl
    | owners entries =>
      simp only [fill]
      cases QueueDocument.queues? documents <;> cases owners? entries <;> cases owned <;>
        cases owners <;> rfl
  | owners entries =>
    cases b with
    | other name => exact Option.bind_fun_some _
    | owned documents =>
      simp only [fill]
      cases QueueDocument.queues? documents <;> cases owners? entries <;> cases owned <;>
        cases owners <;> rfl
    | owners others =>
      simp only [fill]
      cases owners? entries <;> cases owners? others <;> cases owners <;> rfl

namespace CheckpointEdit

variable {document other : CheckpointDocument} {saved : Checkpoint}

theorem owners?_congr {before after : List (Worker × List QueueDocument)} {worker : Worker}
    {documents others : List QueueDocument} (edit : SetEdit documents others) :
    CheckpointMember.owners? (before ++ (worker, others) :: after) =
      CheckpointMember.owners? (before ++ (worker, documents) :: after) := by
  simp only [CheckpointMember.owners?, List.mapM_append, List.mapM_cons, edit.queues?]

/-- Without the owners that are none the place stays free, and that means none too. -/
theorem checkpoint?_ownerless {front back : CheckpointDocument}
    (made : (front ++ .owners [] :: back : CheckpointDocument).checkpoint? = some saved) :
    (front ++ back : CheckpointDocument).checkpoint? = some saved := by
  -- At the end the member fills a place that all others left free.
  have last : (front ++ .owners [] :: back : CheckpointDocument).Perm
      ((front ++ back) ++ [.owners []]) :=
    List.perm_middle.trans (List.perm_append_singleton _ _).symm
  rw [CheckpointDocument.checkpoint?, foldlM_perm CheckpointMember.fill_commutes last,
    List.foldlM_append] at made
  rw [CheckpointDocument.checkpoint?]
  cases filled : (front ++ back).foldlM CheckpointMember.fill {} with
  | none =>
    rw [filled] at made
    cases made
  | some draft =>
    rw [filled] at made
    obtain ⟨owned, owners⟩ := draft
    cases owners with
    | none => exact made
    | some owners => cases made

theorem checkpoint? (edit : CheckpointEdit document other)
    (made : document.checkpoint? = some saved) : other.checkpoint? = some saved := by
  cases edit with
  | permute perm =>
    rw [CheckpointDocument.checkpoint?, foldlM_perm CheckpointMember.fill_commutes perm.symm]
    exact made
  | insert front back name =>
    rw [CheckpointDocument.checkpoint?, foldlM_idle fun _ => rfl]
    exact made
  | owned front back edit =>
    rw [CheckpointDocument.checkpoint?, ← foldlM_congr fun draft => ?_]
    · exact made
    · rw [CheckpointMember.fill, CheckpointMember.fill, edit.queues?]
  | owners front back before after worker edit =>
    rw [CheckpointDocument.checkpoint?, ← foldlM_congr fun draft => ?_]
    · exact made
    · rw [CheckpointMember.fill, CheckpointMember.fill, owners?_congr edit]
  | ownerless front back => exact checkpoint?_ownerless made

end CheckpointEdit

theorem Reworked.checkpoint? {document other : CheckpointDocument} {saved : Checkpoint}
    (reworked : Reworked document other) (made : document.checkpoint? = some saved) :
    other.checkpoint? = some saved := by
  induction reworked with
  | refl => exact made
  | tail _ edit ih => exact edit.checkpoint? ih

/-- A saved text loads to the same checkpoint after any changes that do not change its meaning, in
    every spelling of the changed document, and does not load with anything but white space behind
    it. No text of a faulty object loads, whatever its values are. -/
theorem reworked_texts_load_the_same (saved : Checkpoint) :
    saved.document.Spells saved.toBytes ∧
    (∀ {document : CheckpointDocument} {before text : Bytes}, document.Spells text →
      Blanks before →
      (Reworked saved.document document → ∀ after, Blanks after →
        Checkpoint.ofBytes (before ++ (text ++ after)) = .ok saved) ∧
      ∀ rest, ¬ Blanks rest →
        ∃ failure, Checkpoint.ofBytes (before ++ (text ++ rest)) = .error failure) ∧
    ∀ {members : List Entry} {before text : Bytes}, Entries members text →
      Checkpoint.Faulty members → Blanks before → ∀ rest,
        ∃ failure, Checkpoint.ofBytes (before ++ (text ++ rest)) = .error failure := by
  refine ⟨saved.spells_toBytes, fun {document before text} spelled blanks => ⟨?_, ?_⟩,
    Checkpoint.ofBytes_faulty⟩
  · intro reworked after tail
    rw [CheckpointDocument.ofBytes_spells spelled blanks tail,
      reworked.checkpoint? saved.checkpoint?_document]
    rfl
  · intro rest filled
    exact readAll_trailing (CheckpointDocument.read_checkpoint spelled blanks rest) filled

namespace Sample

def seventh : Queue := ⟨"orders", "a", 7⟩

def ownerless : Checkpoint := { owned := ExtTreeSet.ofList [seventh] }

def reordered : QueueDocument :=
  [.index 7, .other ⟨"x", by decide⟩, .topic "orders", .broker "a"]

def later : CheckpointDocument :=
  [.other ⟨"new", by decide⟩, .owned [reordered, seventh.document]]

theorem reworked_later : Reworked ownerless.document later := by
  have dropped : CheckpointEdit ownerless.document [.owned [seventh.document]] :=
    .ownerless [.owned [seventh.document]] []
  have listed : CheckpointEdit [.owned [seventh.document]]
      [.owned [seventh.document, seventh.document]] :=
    .owned [] [] (.again (.head _))
  have moves : seventh.document.Perm [.index 7, .topic "orders", .broker "a"] :=
    List.perm_append_singleton (QueueMember.index 7) [.topic "orders", .broker "a"]
  have moved : CheckpointEdit [.owned [seventh.document, seventh.document]]
      [.owned [[.index 7, .topic "orders", .broker "a"], seventh.document]] :=
    .owned [] [] (.queue [] _ (.permute moves))
  have grown : CheckpointEdit
      [.owned [[.index 7, .topic "orders", .broker "a"], seventh.document]]
      [.owned [reordered, seventh.document]] :=
    .owned [] [] (.queue [] _ (.insert [.index 7] [.topic "orders", .broker "a"] _))
  have added : CheckpointEdit [.owned [reordered, seventh.document]] later := .insert [] _ _
  exact .tail (.tail (.tail (.tail (.single dropped) listed) moved) grown) added

def laterText : Bytes :=
  ascii "\x7b \"new\": [true,\x7b\"a\":[]\x7d],\"owned_queues\":[ " ++
  ascii "\x7b\"queue_id\":7,\"x\":null,\"topic\":\"orders\",\"broker_name\":\"a\"\x7d\n," ++
  ascii "\x7b\"topic\":\"orders\",\"broker_name\":\"a\",\"queue_id\":7\x7d]\x7d"

theorem space : Blanks [0x20] := List.all_eq_true.mp rfl

theorem line : Blanks [0x0a] := List.all_eq_true.mp rfl

theorem spells_laterText : later.Spells laterText := by
  have unread : Unread [0x61] := .plain ⟨by decide, by decide, by decide⟩ .nil
  have member := Members.last blanks_nil unread blanks_nil blanks_nil (.emptyList blanks_nil)
    blanks_nil
  have value := Value.list (.more blanks_nil .yes blanks_nil
    (.last blanks_nil (.object member) blanks_nil))
  have queues : QueueDocument.SpellAll [reordered, seventh.document] _ :=
    ⟨_, .some (.more space reordered.spells_write line
      (.last blanks_nil seventh.document.spells_write blanks_nil)), rfl⟩
  refine ⟨_, .some (.more space ⟨_, _, content_flatMap_escape _, value,
    ⟨[], [0x20], blanks_nil, space, rfl⟩⟩ blanks_nil (.last blanks_nil ⟨_, _,
      content_flatMap_escape _, queues, ⟨[], [], blanks_nil, blanks_nil, rfl⟩⟩ blanks_nil)), ?_⟩
  decide +kernel

/-- A queue whose number is given twice, by values that are no numbers. -/
def numbered : List Entry :=
  [⟨"queue_id", _, .null⟩, ⟨"queue_id", _, .emptyList blanks_nil⟩]

def numberedText : Bytes := ascii "\x7b\"queue_id\":null,\"queue_id\":[]\x7d"

theorem entries_numbered : Entries numbered numberedText :=
  ⟨_, .some (.more blanks_nil ⟨_, _, content_flatMap_escape _, rfl,
    ⟨[], [], blanks_nil, blanks_nil, rfl⟩⟩ blanks_nil (.last blanks_nil ⟨_, _,
      content_flatMap_escape _, rfl, ⟨[], [], blanks_nil, blanks_nil, rfl⟩⟩ blanks_nil)),
    by decide +kernel⟩

def numberedList : Bytes := 0x5b :: (numberedText ++ [0x5d])

theorem items_numberedList : Items [⟨numberedText, entries_numbered.isValue⟩] numberedList :=
  ⟨_, .some (.last blanks_nil rfl blanks_nil), rfl⟩

def faulty : List Entry := [⟨"owned_queues", numberedList, items_numberedList.isValue⟩]

def faultyText : Bytes :=
  ascii "\x7b\"owned_queues\":[\x7b\"queue_id\":null,\"queue_id\":[]\x7d]\x7d"

theorem entries_faulty : Entries faulty faultyText :=
  ⟨_, .some (.last blanks_nil ⟨_, _, content_flatMap_escape _, rfl,
    ⟨[], [], blanks_nil, blanks_nil, rfl⟩⟩ blanks_nil), by decide +kernel⟩

theorem faulty_faulty : Checkpoint.Faulty faulty :=
  .ownedQueue _ (.head _) rfl ⟨_, items_numberedList, _, .head _, _, entries_numbered,
    Queue.Draft.indexMember, .tail _ (.tail _ (.head _)), by decide⟩

end Sample

theorem rearranged_text_loads :
    Blanks [0x0a] ∧ Sample.later.Spells Sample.laterText ∧
    Reworked Sample.ownerless.document Sample.later ∧
    Checkpoint.ofBytes ([0x0a] ++ (Sample.laterText ++ [0x0a])) = .ok Sample.ownerless ∧
    ¬ Blanks [0x2c] ∧
    (∃ failure, Checkpoint.ofBytes ([0x0a] ++ (Sample.laterText ++ [0x2c])) = .error failure) ∧
    Entries Sample.faulty Sample.faultyText ∧ Checkpoint.Faulty Sample.faulty ∧
    ∃ failure, Checkpoint.ofBytes ([0x0a] ++ (Sample.faultyText ++ [])) = .error failure := by
  have comma : ¬ Blanks [0x2c] := fun blanks => absurd (blanks 0x2c (.head _)) (by decide)
  obtain ⟨_, spellings, faults⟩ := reworked_texts_load_the_same Sample.ownerless
  obtain ⟨loads, trailing⟩ := spellings Sample.spells_laterText Sample.line
  exact ⟨Sample.line, Sample.spells_laterText, Sample.reworked_later,
    loads Sample.reworked_later [0x0a] Sample.line, comma, trailing [0x2c] comma,
    Sample.entries_faulty, Sample.faulty_faulty,
    faults Sample.entries_faulty Sample.faulty_faulty Sample.line []⟩

end QueueAssignment
