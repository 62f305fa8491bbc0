import Leani.Processor.Batches
import Leani.Processor.Runs

/-!
# Query snapshots and their followers

A query snapshot copies the rows of one collection next to the boundary of the default stream. A
consumer starts from the copy and applies the records after the boundary, page by page. Ids and
expiry times of snapshots are left out, and so are the bounds of a query: an unbounded one copies
the whole collection.
-/

namespace Leani

open Library Std

namespace Delivery

def DomainChange.value (change : DomainChange) : Option (List UInt8) :=
  match change.operation with
  | .upsert => some change.payload
  | .delete => none

def readChanges (s : Stream) (chainId : Nat) (after : Option Nat) (limit : Nat)
    (checkRetention : Bool) : Except StoreError (List (Nat × ChangeRow)) := do
  let pruned := s.prunedThroughSequence
  ensure (checkRetention → ∀ sequence ∈ after, pruned ≤ sequence)
    (.changeCursorExpired
      (((Table.firstWhere s.changeLog fun _ _ => true).map (·.1)).getD (satAdd pruned 1))
      ((latestSequence s).getD pruned))
  let after ← u64I64 (after.getD (if checkRetention then pruned else 0)) "sequence"
  decodeChangeRows chainId ((Table.rowsWhere s.changeLog fun seq _ => after < seq).take limit)

end Delivery

namespace Processor

open Delivery

structure QuerySnapshotLimits where
  ttl : Nat
  maxRows : Nat
  maxBytes : Nat
  maxTotalSnapshots : Nat
  maxTotalBytes : Nat
  maxRows_le : maxRows ≤ 1000000

structure SnapshotUsage where
  count : Nat
  bytes : Nat
  probedBytes : Nat

structure QuerySnapshotEntity where
  key : Bytes
  value : Bytes
  blockNumber : Nat
  blockTimestamp : Nat
  finality : Finality
  deriving DecidableEq

structure QuerySnapshot where
  collection : String
  boundarySequence : Nat
  rowCount : Nat
  valueBytes : Nat
  entities : List QuerySnapshotEntity
  deriving DecidableEq

/-- `output_rows_sql`: the entities of a collection that have metadata, in key order. -/
def outputRows (o : Output) (collection : String) : List QuerySnapshotEntity :=
  (Table.rowsWhere o.entities fun key _ => key.1 = collection).filterMap fun row =>
    (o.entityMeta[row.1]?).map fun entry =>
      ⟨row.1.2, row.2, entry.blockNumber, entry.blockTimestamp, entry.finality⟩

namespace Store

variable (s : Store)

def snapshotBoundary (d : ProcessorDescriptor) : Nat :=
  (s.streams[d.defaultStreamId]?).elim 0 fun stream =>
    (latestSequence stream).getD stream.prunedThroughSequence

def createQuerySnapshot (d : ProcessorDescriptor) (collection : String)
    (limits : QuerySnapshotLimits) (usage : SnapshotUsage) : Except StoreError QuerySnapshot := do
  ensure (collection ≠ "" ∧ limits.ttl ≠ 0 ∧ limits.maxRows ≠ 0 ∧ limits.maxBytes ≠ 0 ∧
      limits.maxTotalSnapshots ≠ 0 ∧ limits.maxTotalBytes ≠ 0)
    (.invalidConfig "query snapshots require a collection and non-zero TTL/row/byte budgets")
  ensure (usage.count < limits.maxTotalSnapshots ∧
      satAdd usage.bytes usage.probedBytes ≤ limits.maxTotalBytes)
    (.querySnapshotCapacity limits.maxTotalSnapshots limits.maxTotalBytes)
  let boundary ← u64I64 (s.snapshotBoundary d) "query snapshot boundary"
  -- One row past the cap is enough to refuse a collection that grew after the probe.
  let entities := (outputRows s.output collection).take (limits.maxRows + 1)
  let rowCount := entities.length
  let valueBytes := (entities.map fun entity => entity.value.length + entity.key.length + 128).sum
  ensure (rowCount ≤ limits.maxRows ∧ valueBytes ≤ limits.maxBytes)
    (.queryTooExpensive rowCount valueBytes limits.maxRows limits.maxBytes)
  ensure (satAdd usage.bytes valueBytes ≤ limits.maxTotalBytes)
    (.querySnapshotCapacity limits.maxTotalSnapshots limits.maxTotalBytes)
  pure ⟨collection, boundary, rowCount, valueBytes, entities⟩

def readChangesInStream (streamId : String) (chainId : Nat) (after : Option Nat) (limit : Nat)
    (checkRetention : Bool) : Except StoreError (List (Nat × ChangeRow)) := do
  ensure (0 < limit ∧ limit ≤ 10000) (.invalidConfig "change limit must be in 1..=10000")
  let stream ← required s.streams[streamId]?
    (.invalidConfig ("delivery stream \"" ++ streamId ++ "\" does not exist"))
  readChanges stream chainId after limit checkRetention

def resumableChanges (d : ProcessorDescriptor) (chainId : Nat) (after : Option Nat) (limit : Nat) :
    Except StoreError (List (Nat × ChangeRow)) :=
  s.readChangesInStream d.defaultStreamId chainId after limit true

def head (d : ProcessorDescriptor) : Nat :=
  (s.streams[d.defaultStreamId]?).elim 0 fun stream => stream.nextSequence - 1

def Pruned (d : ProcessorDescriptor) (sequence : Nat) : Prop :=
  0 < sequence ∧ sequence ≤ s.head d ∧
    ∀ stream, s.streams[d.defaultStreamId]? = some stream → stream.changeLog[sequence]? = none

end Store

structure Follower where
  contents : Table Bytes Bytes
  after : Nat

def follow (mirror : String → Option String) (collection : String) (contents : Table Bytes Bytes)
    (row : ChangeRow) : Table Bytes Bytes :=
  if mirror row.change.kind = some collection then
    writeRow contents row.change.key row.change.value
  else contents

namespace Follower

def start (snapshot : QuerySnapshot) : Follower where
  contents := Table.insertRows ∅ (snapshot.entities.map fun entity => (entity.key, entity.value))
  after := snapshot.boundarySequence

def read (mirror : String → Option String) (collection : String) (d : ProcessorDescriptor)
    (s : Store) (chainId limit : Nat) (follower : Follower) : Except StoreError (Follower × Nat) := do
  let rows ← s.resumableChanges d chainId (some follower.after) limit
  pure (⟨rows.foldl (fun contents row => follow mirror collection contents row.2) follower.contents,
    ((rows.getLast?).map (·.1)).getD follower.after⟩, rows.length)

end Follower

def Operation.Published (d : ProcessorDescriptor) : Operation → Prop
  | .apply _ _ _ publish streamId => publish = true ∧ streamId = d.defaultStreamId
  -- A replay writes nothing.
  | .republish _ _ _ _ streamId => streamId ≠ d.defaultStreamId
  | _ => True

inductive Publication (d : ProcessorDescriptor) where
  | operate (op : Operation) (published : op.Published d)
  | materialize (env : Environment) (held : EncodedDelta → Bool) (items : List HistoricalBatchItem)
      (limits : HistoricalCommitLimits) (published : ∀ item ∈ items, item.publishChanges = true)

def publicationStep (p : Processor) (s : Store) : Publication p.descriptor → Store
  | .operate op _ => step p s op
  | .materialize env held items limits _ =>
    commit s (s.commitHistoricalMaterializationMicrobatch p env held items limits)

def publicationRun (p : Processor) (s : Store) (events : List (Publication p.descriptor)) : Store :=
  events.foldl (publicationStep p) s

structure Following where
  store : Store
  follower : Follower

inductive FollowEvent (d : ProcessorDescriptor) where
  | publish (event : Publication d)
  | read (chainId limit : Nat)

def followStep (p : Processor) (mirror : String → Option String) (collection : String)
    (f : Following) : FollowEvent p.descriptor → Following
  | .publish event => { f with store := publicationStep p f.store event }
  | .read chainId limit => { f with
      follower := commit f.follower
        (f.follower.read mirror collection p.descriptor f.store chainId limit) }

def followRun (p : Processor) (mirror : String → Option String) (collection : String)
    (f : Following) (events : List (FollowEvent p.descriptor)) : Following :=
  events.foldl (followStep p mirror collection) f

namespace ReducerOverlay

structure Rested (overlay : ReducerOverlay) : Prop where
  state : ∀ (key : StateKey) value, overlay.state[key]? = some value → value.before = value.after
  entities : ∀ (key : EntityKey) value, overlay.entities[key]? = some value →
    value.before = value.after
  indexes : ∀ (key : IndexKey) value, overlay.indexes[key]? = some value → value.before = value.after
  changes : overlay.changes = []

end ReducerOverlay

def mirrored (mirror : String → Option String) (collection : String)
    (changes : List DomainChange) : List (Bytes × Option Bytes) :=
  (changes.filter fun change => mirror change.kind = some collection).map fun change =>
    (change.key, change.value)

/-- The changes that mirror a collection are the block's net mutations of it: a change for every
entity the block leaves with another value, with the value it leaves, and no other. -/
def Describes (mirror : String → Option String) (batch : MutationBatch) : Prop :=
  ∀ ⦃kind collection⦄, mirror kind = some collection → ∀ key value,
    (key, value) ∈ mirrored mirror collection batch.changes ↔
      ∃ before, Mutation.entity (collection, key) before value ∈ batch.mutations

/-- A processor that publishes from unattested with canonical ordering, retains full output and
describes its net mutations of the collections that its kinds of changes mirror. -/
structure MirroringProcessor extends Processor where
  mirror : String → Option String
  canonical : descriptor.deliveryOrdering = .canonical
  unattested : descriptor.publication = .unattested
  full : descriptor.output.mode = .full
  delivers : descriptor.deliveryEnabled = true
  reserved : mirror "system.finality" = none ∧ mirror Store.liveGapChangeKind = none
  describes : ∀ cursor delta db overlay changes after, overlay.Rested →
    (reduce cursor delta).run db overlay = .ok (changes, after) → Describes mirror after.intoBatch

end Processor

end Leani
