import QueueAssignment.Checkpoint
import QueueAssignment.Proofs.Json.Records

/-!
Queues, splits and checkpoints as JSON objects. A document lists the members of the object as they
are written. `Spells` tells its texts, and `queue?`, `checkpoint?` and `split?` what its members
make up; the readers make the same of each text. A known member may come once, and members of other
names may stand anywhere.
-/
namespace QueueAssignment
open Std Json

inductive QueueMember where
  | topic (name : String)
  | broker (name : String)
  | index (n : UInt32)
  | other (name : Queue.shape.Unknown)

abbrev QueueDocument := List QueueMember

namespace QueueMember

def name : QueueMember → String
  | topic _ => "topic"
  | broker _ => "broker_name"
  | index _ => "queue_id"
  | other name => name.val

def Spells : QueueMember → Bytes → Prop
  | topic name => Quoted name
  | broker name => Quoted name
  | index n => fun text => text = numeral n.toNat
  | other _ => Value

def fill (draft : Queue.Draft) : QueueMember → Option Queue.Draft
  | topic name => place draft.topic.isSome (some name) fun name => { draft with topic := name }
  | broker name => place draft.broker.isSome (some name) fun name => { draft with broker := name }
  | index n => place draft.index.isSome (some n) fun n => { draft with index := n }
  | other _ => some draft

theorem fills {member : QueueMember} {text : Bytes} (spelled : member.Spells text) :
    Queue.shape.Fills member.name text fun draft => fill draft member := by
  cases member with
  | topic name => exact .known Queue.Draft.topicMember rfl (fun _ => rfl) (takes_quoted spelled)
  | broker name => exact .known Queue.Draft.brokerMember rfl (fun _ => rfl) (takes_quoted spelled)
  | index n =>
    cases spelled
    exact .known Queue.Draft.indexMember rfl (fun _ => rfl) (takes_word32 n)
  | other name => exact .unknown name.property spelled

end QueueMember

namespace QueueDocument

def Spells (document : QueueDocument) : Bytes → Prop :=
  Enclosed .object (Labelled QueueMember.name QueueMember.Spells) document

def queue? (document : QueueDocument) : Option Queue :=
  (document.foldlM QueueMember.fill {}).bind Queue.Draft.queue?

theorem takes_queue {document : QueueDocument} {text : Bytes} (spelled : document.Spells text) :
    Takes Queue.read text document.queue? := by
  intro before rest blanks _
  exact Shape.read_object spelled QueueMember.fills blanks rest

def SpellAll (documents : List QueueDocument) : Bytes → Prop := Enclosed .list Spells documents

def queues? (documents : List QueueDocument) : Option QueueSet :=
  (documents.mapM queue?).map fun queues => ExtTreeSet.ofList queues

theorem takes_queues {documents : List QueueDocument} {text : Bytes}
    (spelled : SpellAll documents text) : Takes Checkpoint.readQueues text (queues? documents) := by
  refine Takes.map (takes_list (fun document text spells => ?_) spelled) _
  exact ⟨enclosed_starts spells, takes_queue spells⟩

end QueueDocument

inductive CheckpointMember where
  | owned (documents : List QueueDocument)
  | owners (entries : List (Worker × List QueueDocument))
  | other (name : Checkpoint.shape.Unknown)

abbrev CheckpointDocument := List CheckpointMember

namespace CheckpointMember

def name : CheckpointMember → String
  | owned _ => "owned_queues"
  | owners _ => "owners"
  | other name => name.val

/-- The texts of a worker with its queues. No white space may stand in the name of the worker. -/
def SpellsOwner (entry : Worker × List QueueDocument) (text : Bytes) : Prop :=
  ∃ value, QueueDocument.SpellAll entry.2 value ∧ Named (numeral entry.1.toNat) value text

def Spells : CheckpointMember → Bytes → Prop
  | owned documents => QueueDocument.SpellAll documents
  | owners entries => Enclosed .object SpellsOwner entries
  | other _ => Value

def owners? (entries : List (Worker × List QueueDocument)) : Option Assignment :=
  (entries.mapM fun entry => (QueueDocument.queues? entry.2).map (Prod.mk entry.1)).map
    Table.ofEntries

def fill (draft : Checkpoint.Draft) : CheckpointMember → Option Checkpoint.Draft
  | owned documents => place draft.owned.isSome (QueueDocument.queues? documents) fun queues =>
      { draft with owned := queues }
  | owners entries => place draft.owners.isSome (owners? entries) fun owners =>
      { draft with owners := owners }
  | other _ => some draft

theorem readWorker_numeral (worker : Worker) (rest : Bytes) :
    Checkpoint.readWorker (numeral worker.toNat ++ quote :: rest) = .ok (worker, rest) := by
  have ends : Ends (quote :: rest) := ends_cons (by decide)
  have read := takes_word32 worker blanks_nil ends
  rw [answer, List.nil_append] at read
  obtain ⟨b, more, same, digit⟩ := numeral_begins worker.toNat
  rw [same, List.cons_append] at read ⊢
  simp only [Checkpoint.readWorker, digit, true_or, if_true, read]

theorem takes_owners {entries : List (Worker × List QueueDocument)} {text : Bytes}
    (spelled : Enclosed .object SpellsOwner entries text) :
    Takes Checkpoint.readOwners text (owners? entries) := by
  refine Takes.map (takes_entries (fun entry text spells => ?_) spelled) _
  obtain ⟨value, queues, named⟩ := spells
  exact ⟨_, value, named, readWorker_numeral entry.1, QueueDocument.takes_queues queues⟩

theorem fills {member : CheckpointMember} {text : Bytes} (spelled : member.Spells text) :
    Checkpoint.shape.Fills member.name text fun draft => fill draft member := by
  cases member with
  | owned documents =>
    exact .known Checkpoint.Draft.ownedMember rfl (fun _ => rfl)
      (QueueDocument.takes_queues spelled)
  | owners entries =>
    exact .known Checkpoint.Draft.ownersMember rfl (fun _ => rfl) (takes_owners spelled)
  | other name => exact .unknown name.property spelled

end CheckpointMember

namespace CheckpointDocument

def Spells (document : CheckpointDocument) : Bytes → Prop :=
  Enclosed .object (Labelled CheckpointMember.name CheckpointMember.Spells) document

def checkpoint? (document : CheckpointDocument) : Option Checkpoint :=
  (document.foldlM CheckpointMember.fill {}).bind Checkpoint.Draft.checkpoint?

theorem read_checkpoint {document : CheckpointDocument} {before text : Bytes}
    (spelled : document.Spells text) (blanks : Blanks before) (rest : Bytes) :
    Checkpoint.read (before ++ (text ++ rest)) = answer document.checkpoint? rest :=
  Shape.read_object spelled CheckpointMember.fills blanks rest

end CheckpointDocument

inductive SplitMember where
  | queue (document : QueueDocument)
  | start (offset : Offset)
  | stop (offset : Option Offset)
  | tag (kind : Tag)

abbrev SplitDocument := List SplitMember

namespace SplitMember

def name : SplitMember → String
  | queue _ => "queue"
  | start _ => "starting_offset"
  | stop _ => "stopping_offset"
  | tag _ => "tag"

def Spells : SplitMember → Bytes → Prop
  | queue document => document.Spells
  | start offset => fun text => text = encode (writeInt offset.toInt)
  | stop (some offset) => fun text => text = encode (writeInt offset.toInt)
  | stop none => fun text => text = ascii "null"
  | tag kind => fun text => text = numeral kind.byte.toNat

def fill (draft : Split.Draft) : SplitMember → Option Split.Draft
  | queue document => place draft.queue.isSome document.queue? fun queue =>
      { draft with queue := queue }
  | start offset => place draft.start.isSome (some offset) fun offset =>
      { draft with start := offset }
  | stop offset => place draft.stop.isSome (some offset) fun offset =>
      { draft with stop := some offset }
  | tag kind => place draft.tag.isSome (some kind) fun kind => { draft with tag := kind }

theorem takes_stop {stop : Option Offset} {text : Bytes}
    (spelled : (SplitMember.stop stop).Spells text) : Takes (optional int64) text (some stop) := by
  cases stop with
  | none =>
    cases spelled
    exact takes_null
  | some offset =>
    cases spelled
    obtain ⟨b, more, begins, solid, filled⟩ := writeInt_begins offset.toInt
    exact takes_present begins solid filled (takes_int64 offset)

theorem takes_tag (kind : Tag) : Takes Tag.read (numeral kind.byte.toNat) (some kind) := by
  intro before rest blanks ends
  have read : natural 0x100 (before ++ (numeral kind.byte.toNat ++ rest)) =
      .ok (kind.byte.toNat, rest) :=
    takes_natural kind.byte.toNat_lt (by decide) blanks ends
  refine (bind_ok read).trans ?_
  rw [UInt8.ofNat_toNat, Tag.ofByte_byte]
  rfl

theorem fills {member : SplitMember} {text : Bytes} (spelled : member.Spells text) :
    Split.shape.Fills member.name text fun draft => fill draft member := by
  cases member with
  | queue document =>
    exact .known Split.Draft.queueMember rfl (fun _ => rfl) (QueueDocument.takes_queue spelled)
  | start offset =>
    cases spelled
    exact .known Split.Draft.startMember rfl (fun _ => rfl) (takes_int64 offset)
  | stop offset =>
    exact .known Split.Draft.stopMember rfl (fun _ => rfl) (takes_stop spelled)
  | tag kind =>
    cases spelled
    exact .known Split.Draft.tagMember rfl (fun _ => rfl) (takes_tag kind)

end SplitMember

namespace SplitDocument

def Spells (document : SplitDocument) : Bytes → Prop :=
  Enclosed .object (Labelled SplitMember.name SplitMember.Spells) document

def split? (document : SplitDocument) : Option Split :=
  (document.foldlM SplitMember.fill {}).bind Split.Draft.split?

theorem read_split {document : SplitDocument} {before text : Bytes}
    (spelled : document.Spells text) (blanks : Blanks before) (rest : Bytes) :
    Split.read (before ++ (text ++ rest)) = answer document.split? rest :=
  Shape.read_object spelled SplitMember.fills blanks rest

end SplitDocument

end QueueAssignment
