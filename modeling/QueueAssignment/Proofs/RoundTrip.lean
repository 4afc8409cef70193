import QueueAssignment.Proofs.Documents
import QueueAssignment.Proofs.Json.Written
import QueueAssignment.Proofs.Table

/-!
What is saved is read back: a written queue, split or checkpoint is a text of its document, and its
document makes it up again.
-/
namespace QueueAssignment
open Std Json

namespace QueueMember

def write : QueueMember → List Char
  | topic name => writeText name
  | broker name => writeText name
  | index n => writeNat n.toNat
  | other _ => writeNull

theorem spells_write (member : QueueMember) : member.Spells (encode member.write) := by
  cases member with
  | topic name | broker name => exact quoted_writeText name
  | index n => rfl
  | other name => exact .null

end QueueMember

namespace QueueDocument

def write (document : QueueDocument) : List Char :=
  writeObject (document.map fun member => (member.name, member.write))

theorem spells_write (document : QueueDocument) : document.Spells (encode document.write) :=
  enclosed_writeObject fun member _ => labelled_write member.spells_write

def writeAll (documents : List QueueDocument) : List Char := writeList (documents.map write)

theorem spellAll_write (documents : List QueueDocument) :
    SpellAll documents (encode (writeAll documents)) :=
  enclosed_writeList fun document _ => document.spells_write

end QueueDocument

def Queue.document (queue : Queue) : QueueDocument :=
  [.topic queue.topic, .broker queue.broker, .index queue.index]

theorem Queue.queue?_document (queue : Queue) : queue.document.queue? = some queue := rfl

theorem Queue.write_document (queue : Queue) : queue.write = queue.document.write := rfl

def documents (queues : QueueSet) : List QueueDocument := queues.toList.map Queue.document

theorem mapM_map_some {α β : Type} {read : β → Option α} {write : α → β}
    (inverse : ∀ a, read (write a) = some a) (items : List α) :
    (items.map write).mapM read = some items := by
  induction items with
  | nil => rfl
  | cons item rest ih => simp [List.mapM_cons, inverse, ih]

theorem queues?_documents (queues : QueueSet) :
    QueueDocument.queues? (documents queues) = some queues := by
  have all : (documents queues).mapM QueueDocument.queue? = some queues.toList :=
    mapM_map_some Queue.queue?_document queues.toList
  have same : ExtTreeSet.ofList queues.toList = queues :=
    ExtTreeSet.ext_mem fun queue => Table.mem_ofList.trans ExtTreeSet.mem_toList
  rw [QueueDocument.queues?, all, Option.map_some, same]

namespace CheckpointMember

def write : CheckpointMember → List Char
  | owned documents => QueueDocument.writeAll documents
  | owners entries => writeObject (entries.map fun entry =>
      (String.ofList (writeNat entry.1.toNat), QueueDocument.writeAll entry.2))
  | other _ => writeNull

theorem spells_write (member : CheckpointMember) : member.Spells (encode member.write) := by
  cases member with
  | owned documents => exact QueueDocument.spellAll_write documents
  | owners entries =>
    refine enclosed_writeObject fun entry _ => ?_
    exact ⟨_, QueueDocument.spellAll_write entry.2, named_write (encode_writeText_writeNat _)⟩
  | other name => exact .null

end CheckpointMember

namespace CheckpointDocument

def write (document : CheckpointDocument) : List Char :=
  writeObject (document.map fun member => (member.name, member.write))

theorem spells_write (document : CheckpointDocument) : document.Spells (encode document.write) :=
  enclosed_writeObject fun member _ => labelled_write member.spells_write

theorem ofBytes_spells {document : CheckpointDocument} {before text after : Bytes}
    (spelled : document.Spells text) (blanks : Blanks before) (tail : Blanks after) :
    Checkpoint.ofBytes (before ++ (text ++ after)) = verdict document.checkpoint? :=
  readAll_answer (read_checkpoint spelled blanks after) tail

end CheckpointDocument

namespace Checkpoint

def document (saved : Checkpoint) : CheckpointDocument :=
  [.owned (documents saved.owned),
    .owners (saved.owners.toList.map fun entry => (entry.1, documents entry.2))]

theorem owners?_document (owners : Assignment) :
    CheckpointMember.owners? (owners.toList.map fun entry => (entry.1, documents entry.2)) =
      some owners := by
  have each : ∀ entry : Worker × QueueSet,
      (QueueDocument.queues? (documents entry.2)).map (Prod.mk entry.1) = some entry := by
    intro entry
    rw [queues?_documents]
    rfl
  have all : (owners.toList.map fun entry => (entry.1, documents entry.2)).mapM
      (fun entry => (QueueDocument.queues? entry.2).map (Prod.mk entry.1)) =
      some owners.toList := mapM_map_some each owners.toList
  rw [CheckpointMember.owners?, all, Option.map_some, Table.ofEntries_toList]

theorem checkpoint?_document (saved : Checkpoint) :
    saved.document.checkpoint? = some saved := by
  have owned := queues?_documents saved.owned
  have owners := owners?_document saved.owners
  simp [CheckpointDocument.checkpoint?, document, CheckpointMember.fill, place, owned, owners,
    Draft.checkpoint?]

theorem write_document (saved : Checkpoint) : saved.write = saved.document.write := by
  have queues : ∀ set, writeQueues set = QueueDocument.writeAll (documents set) := by
    intro set
    rw [writeQueues, QueueDocument.writeAll, documents, List.map_map]
    rfl
  rw [write, funext queues, CheckpointDocument.write, document, List.map_cons, List.map_cons,
    CheckpointMember.write, CheckpointMember.write, List.map_map]
  rfl

theorem spells_toBytes (saved : Checkpoint) : saved.document.Spells saved.toBytes := by
  rw [toBytes, bytes_ofList, write_document]
  exact saved.document.spells_write

end Checkpoint

namespace SplitMember

def write : SplitMember → List Char
  | queue document => document.write
  | start offset => writeInt offset.toInt
  | stop offset => Split.writeStop offset
  | tag kind => kind.write

theorem spells_write (member : SplitMember) : member.Spells (encode member.write) := by
  cases member with
  | queue document => exact document.spells_write
  | start offset => rfl
  | stop offset =>
    cases offset with
    | none => rfl
    | some offset => rfl
  | tag kind => rfl

end SplitMember

namespace SplitDocument

def write (document : SplitDocument) : List Char :=
  writeObject (document.map fun member => (member.name, member.write))

theorem spells_write (document : SplitDocument) : document.Spells (encode document.write) :=
  enclosed_writeObject fun member _ => labelled_write member.spells_write

end SplitDocument

def Split.document (split : Split) : SplitDocument :=
  [.queue split.queue.document, .start split.start, .stop split.stop, .tag split.tag]

theorem Split.split?_document (split : Split) : split.document.split? = some split := rfl

theorem Split.write_document (split : Split) : split.write = split.document.write := rfl

/-- Every checkpoint, split and queue is read back from the bytes that are written of it. -/
theorem written_state_reads_back :
    (∀ saved : Checkpoint, Checkpoint.ofBytes saved.toBytes = .ok saved) ∧
    (∀ split : Split,
      readAll Split.read (String.ofList split.write).toUTF8.data.toList = .ok split) ∧
    ∀ queue : Queue,
      readAll Queue.read (String.ofList queue.write).toUTF8.data.toList = .ok queue := by
  refine ⟨fun saved => ?_, fun split => ?_, fun queue => ?_⟩
  · have read := CheckpointDocument.ofBytes_spells saved.spells_toBytes blanks_nil blanks_nil
    rwa [List.nil_append, List.append_nil, saved.checkpoint?_document] at read
  · have read := SplitDocument.read_split split.document.spells_write blanks_nil []
    rw [List.nil_append, List.append_nil, split.split?_document] at read
    rw [bytes_ofList, split.write_document]
    exact readAll_answer read blanks_nil
  · have read := QueueDocument.takes_queue queue.document.spells_write blanks_nil ends_nil
    rw [List.nil_append, List.append_nil, queue.queue?_document] at read
    rw [bytes_ofList, queue.write_document]
    exact readAll_answer read blanks_nil

end QueueAssignment
