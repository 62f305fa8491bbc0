import Leani.EvmEvents.Agreement
import Leani.Library.Codec
import Leani.Library.Newest
import Leani.Processor.Following

/-!
# Reducing deltas

The reducer of the event processor, and what it is for: the collections that it writes, and a
consumer that keeps one view for each kind of the changes it emits. Blocks are applied in order, and
the newest one can be undone with its inverse changes.
-/

namespace Leani.EvmEvents

open Library Std Filtering
open Processor (Bytes EntityKey ReducerProgram MutationBatch Output ProcessorCursor Stamp
  applyMutations buildInverseChanges writeRows)
open Delivery (DomainChange)

variable (tools : Tools)

def MappedEvent.slot (event : MappedEvent) : EntityKey := (event.collection, event.key)

/-- The events that `reduce` keeps. Each emitted change must match its key's net mutation in the
block, so a key keeps only its last event. -/
def lastEvents (events : List MappedEvent) : List MappedEvent :=
  let lastEvent : Table EntityKey Nat :=
    events.zipIdx.foldl (fun t item => t.insert item.1.slot item.2) ∅
  (events.zipIdx.filter fun item => lastEvent[item.1.slot]? = some item.2).map Prod.fst

def MappedEvent.change (entity : Codec DecodedEvent) (event : MappedEvent) : DomainChange :=
  ⟨event.kind, event.key, .upsert, entity.encode event.entity⟩

/-- The loop of `reduce` over the events it keeps, which returns the changes it emitted. -/
def putEvents (entity : Codec DecodedEvent) (changes : List DomainChange) :
    List MappedEvent → ReducerProgram
  | [] => .done changes
  | event :: events =>
    .put event.slot (entity.encode event.entity)
      (.emit (event.change entity) (putEvents entity (changes ++ [event.change entity]) events))

def validateCursor (descriptor : ProcessorDescriptor) (cursor : ProcessorCursor)
    (delta : EncodedDelta) : Except String Unit := do
  (delta.validate tools descriptor).mapError fun
    | .deltaContract => "DeltaContract"
    | _ => "DeltaChecksum"
  ensure (cursor.processorId = descriptor.id ∧ cursor.processorVersion = descriptor.version ∧
    cursor.chainId = delta.chainId ∧ cursor.blockNumber = delta.block.number ∧
      cursor.blockHash = delta.block.hash) "CursorMismatch"

variable (entity : Codec DecodedEvent)

def EvmEventsProcessor.reduce (processor : EvmEventsProcessor) (cursor : ProcessorCursor)
    (delta : EncodedDelta) : ReducerProgram :=
  match validateCursor tools processor.descriptor cursor delta with
  | .error reason => .fail reason
  | .ok () =>
    match tools.decodeDelta delta.payload with
    | .error text => .fail text
    | .ok decoded => putEvents entity [] (lastEvents decoded.events)

structure AppliedBlock where
  block : ChainFrame
  batch : MutationBatch
  inverseChanges : List DomainChange

/-- The store's side and the consumer's: the collections with the blocks they hold, newest first, and
a view of kinds and keys. -/
structure Feed where
  output : Output
  applied : List AppliedBlock
  views : Table (String × Bytes) Bytes

namespace Feed

def empty : Feed := ⟨.empty, [], ∅⟩

def observe (views : Table (String × Bytes) Bytes) (changes : List DomainChange) :
    Table (String × Bytes) Bytes :=
  writeRows views (changes.map fun change => ((change.kind, change.key), change.value))

def cursorOf (processor : EvmEventsProcessor) (delta : EncodedDelta) (finality : Finality)
    (sequence : Nat) : ProcessorCursor :=
  ⟨processor.descriptor.id, processor.descriptor.version, delta.chainId, delta.block.number,
    delta.block.hash, finality, sequence⟩

-- The clock when a mutation is written.
variable (writeTime : Processor.Mutation → Nat) (processor : EvmEventsProcessor) (s : Feed)

def apply (block : ChainFrame) : Except StoreError Feed := do
  let delta ← (processor.map tools block).mapError fun _ => .processor "map"
  let cursor := cursorOf processor delta block.finality s.applied.length
  let (returned, overlay) ← (processor.reduce tools entity cursor delta).run s.output.toValues .new
  ensure (returned = overlay.changes)
    (.invariant "processor returned changes that differ from emitted changes")
  let batch := overlay.intoBatch
  let inverseChanges ← buildInverseChanges batch
  let output ← applyMutations s.output batch.mutations false true
    ⟨block.block, block.finality, writeTime⟩
  pure ⟨output, ⟨block, batch, inverseChanges⟩ :: s.applied, observe s.views batch.changes⟩

def undo : Except StoreError Feed :=
  match s.applied with
  | [] => .error (.undoNotFound 0)
  | newest :: applied => do
    let output ← applyMutations s.output newest.batch.mutations true true
      ⟨newest.block.block, newest.block.finality, writeTime⟩
    pure ⟨output, applied, observe s.views newest.inverseChanges⟩

def Follows (block : ChainFrame) : Prop :=
  ∀ newest ∈ s.applied.head?, block.block.number = newest.block.block.number + 1 ∧
    block.block.parentHash = newest.block.block.hash

def blocks : List ChainFrame := s.applied.map AppliedBlock.block

/-- Any run of blocks applied in order and undone newest first. A block is applied only where `P`
permits it above the blocks that are. -/
inductive Reached (P : List ChainFrame → ChainFrame → Prop) : Feed → Prop where
  | start : Reached P .empty
  | apply {s s' : Feed} {block : ChainFrame} : Reached P s → s.Follows block → P s.blocks block →
      s.apply tools entity writeTime processor block = .ok s' → Reached P s'
  | undo {s s' : Feed} : Reached P s → s.undo writeTime = .ok s' → Reached P s'

end Feed

end Leani.EvmEvents
