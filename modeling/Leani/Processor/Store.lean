import Leani.Processor.Reducer

/-!
# The store of one processor instance

The rows of one processor instance and the operations that write them: applying and undoing blocks,
raising finality, publishing the changes that were held back, notices and replays. Every operation
is one transaction; the ones that fail leave no effect. Postcard encodings are left out: a journal
row holds the record itself.
-/

namespace Leani.Processor

open Library Std Delivery

/-! ## Descriptors, cursors and deltas -/

inductive ReductionMode where
  | blockLocal
  | orderedState
  deriving DecidableEq

inductive DeliveryOrdering where
  | canonical
  | blockVersionedIdempotent
  deriving DecidableEq

inductive PublicationPolicy where
  | unattested
  | attested
  | finalized
  | jobResult
  deriving DecidableEq

def PublicationPolicy.firstLevel : PublicationPolicy → Finality
  | unattested => .unattested
  | attested => .attested
  | finalized | jobResult => .finalized

inductive DeliveryPolicyMode where
  | none
  | bestEffort
  | window
  | untilAcknowledged
  deriving DecidableEq

inductive UndoPolicyMode where
  | none
  | unfinalized
  deriving DecidableEq

structure ProcessorDescriptor where
  id : String
  inst : String
  version : String
  configHash : BlockHash
  deltaVersion : Nat
  mode : ReductionMode
  deliveryOrdering : DeliveryOrdering
  publication : PublicationPolicy
  delivery : DeliveryPolicyMode
  output : OutputPolicy
  undoMode : UndoPolicyMode
  safetyBlocks : Nat

namespace ProcessorDescriptor

def deliveryEnabled (d : ProcessorDescriptor) : Bool := d.delivery ≠ .none

def retainsOutput (d : ProcessorDescriptor) : Bool := d.output.mode ≠ .none

def defaultStreamId (d : ProcessorDescriptor) : String :=
  match d.deliveryOrdering with
  | .canonical => d.inst ++ ":canonical"
  | .blockVersionedIdempotent => d.inst ++ ":live"

def defaultStreamKind (d : ProcessorDescriptor) : DeliveryStreamKind :=
  match d.deliveryOrdering with
  | .canonical => .canonical
  | .blockVersionedIdempotent => .live

end ProcessorDescriptor

structure ProcessorCursor where
  processorId : String
  processorVersion : String
  chainId : Nat
  blockNumber : Nat
  blockHash : BlockHash
  finality : Finality
  sequence : Nat
  deriving DecidableEq

structure EncodedDelta where
  processorId : String
  processorVersion : String
  configHash : BlockHash
  schemaVersion : Nat
  chainId : Nat
  block : BlockRef
  payload : Bytes
  checksum : BlockHash
  deriving DecidableEq

structure Processor where
  descriptor : ProcessorDescriptor
  calculateChecksum : EncodedDelta → BlockHash
  reduce : ProcessorCursor → EncodedDelta → ReducerProgram

def validateDelta (p : Processor) (delta : EncodedDelta) : Except StoreError Unit := do
  ensure (delta.processorId = p.descriptor.id ∧ delta.processorVersion = p.descriptor.version ∧
    delta.configHash = p.descriptor.configHash ∧ delta.schemaVersion = p.descriptor.deltaVersion)
    (.processor "DeltaContract")
  ensure (delta.checksum = p.calculateChecksum delta) (.processor "DeltaChecksum")

def validateCursor (d : ProcessorDescriptor) (cursor : ProcessorCursor) (delta : EncodedDelta) :
    Except StoreError Unit :=
  ensure (cursor.processorId = d.id ∧ cursor.processorVersion = d.version ∧
    cursor.chainId = delta.chainId ∧ cursor.blockNumber = delta.block.number ∧
    cursor.blockHash = delta.block.hash) (.processor "CursorMismatch")

/-! ## Rows -/

structure CoverageRow where
  hash : BlockHash
  parentHash : BlockHash
  finality : Finality
  deriving DecidableEq

/-- A row of `finalized_coverage_segments`, next to its end. -/
structure CoverageSegment where
  intervalStart : Nat
  segmentStart : Nat
  startParentHash : BlockHash
  endHash : BlockHash
  deriving DecidableEq

structure UndoRecord where
  mutations : List Mutation
  inverseChanges : List DomainChange
  priorCursor : Option ProcessorCursor
  block : BlockRef
  finality : Finality

structure JournalRow where
  undo : UndoRecord
  images : List EntityMetaImage
  finalized : Bool

structure DeferredRow where
  streamId : String
  chainId : Nat
  block : BlockRef
  origin : DeliveryOrigin
  changes : List DomainChange
  deriving DecidableEq

structure Store where
  output : Output
  applied : Table (Nat × BlockHash) BlockHash
  coverage : Table Nat CoverageRow
  intervals : Table Nat Nat
  segments : Table Nat CoverageSegment
  journal : Table (Nat × BlockHash) JournalRow
  cursor : Option ProcessorCursor
  /-- `deferred_changes` in the order of its index: block number, then id. An id is given out above
  all others, so rows of other instances only shift it. -/
  deferred : Table (Nat × Nat) DeferredRow
  streams : Table String Stream
  backfillOrigins : Table String DeliveryOrigin

def Store.registered (d : ProcessorDescriptor) : Store where
  output := .empty
  applied := ∅
  coverage := ∅
  intervals := ∅
  segments := ∅
  journal := ∅
  cursor := none
  deferred := ∅
  streams := if d.deliveryEnabled then
    (∅ : Table String Stream).insert d.defaultStreamId (Stream.new d.defaultStreamKind) else ∅
  backfillOrigins := ∅

structure Environment where
  now : Nat
  writeTime : Mutation → Nat
  refusal : Option StoreError

def Environment.enforceCapacity (env : Environment) : Except StoreError Unit :=
  match env.refusal with
  | some e => .error e
  | none => .ok ()

namespace Store

variable (s : Store)

/-! ## Coverage -/

def compactedCoverageContains (number : Nat) (hash : BlockHash) : Except StoreError Bool :=
  match Table.firstWhere s.segments fun segmentEnd _ => number ≤ segmentEnd with
  | none => .ok false
  | some (segmentEnd, segment) =>
    if number < segment.segmentStart then .ok false
    else if segmentEnd = number ∧ segment.endHash ≠ hash then
      .error (.canonicalConflict number segment.endHash hash)
    else .ok true

def alreadyApplied (cursor : ProcessorCursor) (delta : EncodedDelta) : Except StoreError Bool :=
  match s.applied[(cursor.blockNumber, cursor.blockHash)]? with
  | some checksum =>
    if checksum = delta.checksum then .ok true else .error (.conflictingApply cursor.blockNumber)
  | none => s.compactedCoverageContains cursor.blockNumber cursor.blockHash

def validateCoverage (number : Nat) (hash : BlockHash) : Except StoreError Unit :=
  match s.coverage[number]? with
  | some row => ensure (row.hash = hash) (.canonicalConflict number row.hash hash)
  | none => .ok ()

def cover (block : BlockRef) (finality : Finality) : Store :=
  let level := (s.coverage[block.number]?).elim finality fun row => max row.finality finality
  { s with coverage := s.coverage.insert block.number ⟨block.hash, block.parentHash, level⟩ }

def finalizedThrough : Option Nat :=
  let exact := (Table.lastWhere s.coverage fun _ row => row.finality = .finalized).map (·.1)
  let compact := (s.intervals.toList.map (·.2)).max?
  match exact, compact with
  | some exact, some compact => some (max exact compact)
  | exact, compact => exact.or compact

def coveredLevel (number : Nat) : Option Finality := (s.coverage[number]?).map (·.finality)

def highestCoverageCursor (d : ProcessorDescriptor) (chainId : Nat) : Option ProcessorCursor :=
  let exact := Table.lastWhere s.coverage fun _ _ => true
  let compact := Table.lastWhere s.segments fun _ _ => true
  let head : Option (Nat × BlockHash × Finality) :=
    match exact, compact with
    | some (number, row), some (segmentEnd, segment) =>
      if segmentEnd ≤ number then some (number, row.hash, row.finality)
      else some (segmentEnd, segment.endHash, .finalized)
    | some (number, row), none => some (number, row.hash, row.finality)
    | none, some (segmentEnd, segment) => some (segmentEnd, segment.endHash, .finalized)
    | none, none => none
  head.map fun (number, hash, finality) =>
    ⟨d.id, d.version, chainId, number, hash, finality, number⟩

/-! ## Publication -/

def appendTo (streamId : String) (now chainId : Nat) (origin : DeliveryOrigin) (block : BlockRef)
    (finality : Finality) (direction : ChangeDirection) (changes : List DomainChange) :
    Except StoreError (Store × Option Nat × Option Nat) := do
  let stream ← required s.streams[streamId]? (.sqlx "RowNotFound")
  let (stream, bounds) ← appendChanges stream now chainId origin block finality direction changes
  pure ({ s with streams := s.streams.insert streamId stream }, bounds)

def park (row : DeferredRow) : Store :=
  let id := ((s.deferred.toList.map (·.1.2)).max?).elim 1 (· + 1)
  { s with deferred := s.deferred.insert (row.block.number, id) row }

def releaseRow (now : Nat) (finality : Finality) (s : Store) (row : (Nat × Nat) × DeferredRow) :
    Except StoreError Store := do
  let (s, _) ← s.appendTo row.2.streamId now row.2.chainId row.2.origin row.2.block finality .apply
    row.2.changes
  pure { s with deferred := s.deferred.erase row.1 }

/-- Rows a release publishes for each statement, `DEFERRED_FLUSH_BATCH`. -/
def deferredFlushBatch : Nat := 256

def parkedThrough (through : Nat) : List ((Nat × Nat) × DeferredRow) :=
  Table.rowsWhere s.deferred fun key _ => key.1 ≤ through

/-- The loop of `release_deferred_changes`. A full batch is deleted before the next is read, so the
rows bound the batches. -/
def releaseBatches (now through : Nat) (finality : Finality) :
    Nat → Store → Bool → Except StoreError (Store × Bool)
  | 0, s, released => .ok (s, released)
  | fuel + 1, s, released =>
    let rows := (s.parkedThrough through).take deferredFlushBatch
    if rows.isEmpty then .ok (s, released)
    else do
      let s ← foldExcept (releaseRow now finality) s rows
      if rows.length < deferredFlushBatch then .ok (s, true)
      else releaseBatches now through finality fuel s true

def releaseDeferredChanges (now through : Nat) (finality : Finality) :
    Except StoreError (Store × Bool) := do
  let through ← u64I64 through "block_number"
  releaseBatches now through finality (s.deferred.size + 1) s false

/-! ## Applying a block -/

inductive ApplyOutcome where
  | applied (cursor : ProcessorCursor) (first last : Option Nat)
  | alreadyApplied
  deriving DecidableEq

def reduceBlock (p : Processor) (cursor : ProcessorCursor) (delta : EncodedDelta) :
    Except StoreError MutationBatch := do
  let (returned, overlay) ← (p.reduce cursor delta).run s.output.toValues .new
  ensure (returned = overlay.changes)
    (.invariant "processor returned changes that differ from emitted changes")
  pure overlay.intoBatch

def journalBlock (row : JournalRow) : Except StoreError Store :=
  if row.undo.finality = .finalized then .ok s
  else do
    let key := (row.undo.block.number, row.undo.block.hash)
    ensure (key ∉ s.journal) (.sqlx "UNIQUE constraint failed: undo_journal")
    pure { s with journal := s.journal.insert key row }

def recordApplied (block : BlockRef) (checksum : BlockHash) : Except StoreError Store := do
  ensure ((block.number, block.hash) ∉ s.applied) (.sqlx "UNIQUE constraint failed: applied_blocks")
  pure { s with applied := s.applied.insert (block.number, block.hash) checksum }

def isBackfill (streamId : String) : Bool := (s.streams[streamId]?).any fun stream =>
  stream.kind = .backfill

def applyOrigin (d : ProcessorDescriptor) (streamId : String) (recovery : Bool) :
    Except StoreError DeliveryOrigin :=
  if d.deliveryEnabled && s.isBackfill streamId then
    required s.backfillOrigins[streamId]? (.sqlx "RowNotFound")
  else if recovery then .ok (.liveRecovery d.inst)
  else .ok (.live d.inst)

def backfillProgressChange (fromBlock throughBlock processedBlocks : Nat) : DomainChange where
  kind := "system.backfill_progress"
  key := toBeBytes throughBlock
  operation := .upsert
  payload := toBeBytes fromBlock ++ toBeBytes throughBlock ++ toBeBytes processedBlocks

def Defers (d : ProcessorDescriptor) (cursor : ProcessorCursor) (publish : Bool) : Prop :=
  cursor.finality < d.publication.firstLevel ∧ d.deliveryEnabled ∧ publish

instance (d : ProcessorDescriptor) (cursor : ProcessorCursor) (publish : Bool) :
    Decidable (Defers d cursor publish) := by
  unfold Defers
  infer_instance

/-- `admitted_changes`: the changes of a block that count against the delivery budget. -/
def admittedChanges (d : ProcessorDescriptor) (publish : Bool) (batch : MutationBatch) :
    List DomainChange := if d.deliveryEnabled && publish then batch.changes else []

def ReleasesBelow (d : ProcessorDescriptor) (cursor : ProcessorCursor) (publish : Bool) : Prop :=
  .unattested < d.publication.firstLevel ∧ d.deliveryOrdering = .canonical ∧ d.deliveryEnabled ∧
    publish ∧ d.publication.firstLevel ≤ cursor.finality ∧ 0 < cursor.blockNumber

instance (d : ProcessorDescriptor) (cursor : ProcessorCursor) (publish : Bool) :
    Decidable (ReleasesBelow d cursor publish) := by
  unfold ReleasesBelow
  infer_instance

def releaseBelow (d : ProcessorDescriptor) (now : Nat) (cursor : ProcessorCursor) (publish : Bool) :
    Except StoreError (Store × Bool) :=
  if ReleasesBelow d cursor publish then
    s.releaseDeferredChanges now (cursor.blockNumber - 1) cursor.finality
  else .ok (s, false)

def publishBlock (d : ProcessorDescriptor) (now : Nat) (streamId : String) (origin : DeliveryOrigin)
    (cursor : ProcessorCursor) (block : BlockRef) (changes : List DomainChange) :
    Except StoreError (Store × Option Nat × Option Nat) :=
  if d.deliveryEnabled then do
    let (s, first, last) ←
      s.appendTo streamId now cursor.chainId origin block cursor.finality .apply changes
    if s.isBackfill streamId then do
      let (s, progressFirst, progressLast) ← s.appendTo streamId now cursor.chainId origin block
        .finalized .apply [backfillProgressChange cursor.blockNumber cursor.blockNumber 1]
      pure (s, first.or progressFirst, progressLast.or last)
    else pure (s, first, last)
  else .ok (s, none, none)

def journalRow (d : ProcessorDescriptor) (cursor : ProcessorCursor) (block : BlockRef)
    (batch : MutationBatch) (inverseChanges : List DomainChange) (pruned : PrunedOutput) :
    JournalRow where
  undo := {
    -- Pruning belongs to this block: its undo puts the rows back.
    mutations := batch.mutations ++ pruned.mutations
    inverseChanges := inverseChanges
    priorCursor := s.cursor
    block := block
    finality := cursor.finality }
  images :=
    (if cursor.finality ≠ .finalized ∧ d.retainsOutput then
      entityMetaImages s.output batch.mutations else []) ++ pruned.entities
  finalized := false

def AdvancesCursor (d : ProcessorDescriptor) (cursor : ProcessorCursor) : Prop :=
  d.mode = .orderedState ∨ ∀ prior ∈ s.cursor, prior.blockNumber ≤ cursor.blockNumber

instance (d : ProcessorDescriptor) (cursor : ProcessorCursor) :
    Decidable (s.AdvancesCursor d cursor) := by
  unfold AdvancesCursor
  infer_instance

def recordBlock (d : ProcessorDescriptor) (env : Environment) (cursor : ProcessorCursor)
    (delta : EncodedDelta) (batch : MutationBatch) (inverseChanges : List DomainChange) :
    Except StoreError Store := do
  let block := delta.block
  let output ← applyMutations s.output batch.mutations false d.retainsOutput
    ⟨block, cursor.finality, env.writeTime⟩
  let (output, pruned) ← pruneOutputWindow output d.output block env.now
  let recorded ← { s with output := output }.journalBlock
    (s.journalRow d cursor block batch inverseChanges pruned)
  let recorded ← recorded.recordApplied block delta.checksum
  let _ ← u64I64 cursor.sequence "processor sequence"
  pure { recorded.cover block cursor.finality with
    cursor := if s.AdvancesCursor d cursor then some cursor else s.cursor }

def commitBlock (d : ProcessorDescriptor) (env : Environment) (cursor : ProcessorCursor)
    (delta : EncodedDelta) (publish : Bool) (streamId : String) (origin : DeliveryOrigin)
    (batch : MutationBatch) (inverseChanges : List DomainChange) :
    Except StoreError (Store × ApplyOutcome) := do
  let committed ← s.recordBlock d env cursor delta batch inverseChanges
  ensure (Defers d cursor publish → cursor.chainId ≤ i64Max) (.numeric "chain_id")
  let committed := if Defers d cursor publish then
    committed.park ⟨streamId, cursor.chainId, delta.block, origin, batch.changes⟩ else committed
  let (committed, _) ← committed.releaseBelow d env.now cursor publish
  let (committed, first, last) ← committed.publishBlock d env.now streamId origin cursor delta.block
    (if Defers d cursor publish then [] else admittedChanges d publish batch)
  pure (committed,
    .applied (if s.AdvancesCursor d cursor then cursor else s.cursor.getD cursor) first last)

def inverseChanges (d : ProcessorDescriptor) (cursor : ProcessorCursor) (publish : Bool)
    (batch : MutationBatch) : Except StoreError (List DomainChange) :=
  if cursor.finality ≠ .finalized ∧ d.deliveryEnabled ∧ publish then buildInverseChanges batch
  else .ok []

/-- `apply_with_origin_to_stream`; `recovery` is the override of `apply_live_recovery`. -/
def applyToStream (p : Processor) (env : Environment) (cursor : ProcessorCursor)
    (delta : EncodedDelta) (publish : Bool) (streamId : String) (recovery : Bool) :
    Except StoreError (Store × ApplyOutcome) := do
  validateDelta p delta
  validateCursor p.descriptor cursor delta
  ensure (p.descriptor.deliveryEnabled → streamId ∈ s.streams)
    (.invalidConfig "delivery stream does not exist")
  let _ ← u64I64 cursor.blockNumber "block_number"
  let applied ← s.alreadyApplied cursor delta
  if applied then pure (s, .alreadyApplied)
  else do
    s.validateCoverage cursor.blockNumber cursor.blockHash
    let batch ← s.reduceBlock p cursor delta
    let inverse ← inverseChanges p.descriptor cursor publish batch
    env.enforceCapacity
    let origin ← s.applyOrigin p.descriptor streamId recovery
    s.commitBlock p.descriptor env cursor delta publish streamId origin batch inverse

def apply (p : Processor) (env : Environment) (cursor : ProcessorCursor) (delta : EncodedDelta) :
    Except StoreError (Store × ApplyOutcome) :=
  s.applyToStream p env cursor delta true p.descriptor.defaultStreamId false

def applyLiveRecovery (p : Processor) (env : Environment) (cursor : ProcessorCursor)
    (delta : EncodedDelta) : Except StoreError (Store × ApplyOutcome) := do
  ensure (cursor.finality = .finalized) (.invalidConfig "live recovery publication must be finalized")
  s.applyToStream p env cursor delta true p.descriptor.defaultStreamId true

/-! ## Undoing a block -/

def forget (number : Nat) (hash : BlockHash) : Store :=
  { s with
    coverage := Table.deleteWhere s.coverage fun n row => n = number && row.hash = hash
    applied := s.applied.erase (number, hash)
    journal := s.journal.erase (number, hash) }

def parkedOf (number : Nat) (hash : BlockHash) : List ((Nat × Nat) × DeferredRow) :=
  Table.rowsWhere s.deferred fun key row => key.1 = number && row.block.hash = hash

/-- A block whose changes are still parked was never published: only the parked changes go away. A
released block publishes its inverse. -/
def publishUndo (d : ProcessorDescriptor) (now chainId : Nat) (undo : UndoRecord) (number : Nat)
    (hash : BlockHash) (level : Finality) : Except StoreError (Store × Option Nat × Option Nat) :=
  if d.deliveryEnabled then
    let kept := { s with
      deferred := Table.deleteWhere s.deferred fun key row => key.1 = number && row.block.hash = hash }
    if (s.parkedOf number hash).isEmpty then
      kept.appendTo d.defaultStreamId now chainId (.live d.inst) undo.block level .undo
        undo.inverseChanges
    else .ok (kept, none, none)
  else .ok (s, none, none)

def undoRow (number : Nat) (hash : BlockHash) : Except StoreError JournalRow :=
  match s.journal[(number, hash)]? with
  | some row => do
    ensure (row.finalized = false) (.finalizedUndo number)
    pure row
  | none =>
    if (s.coverage[number]?).any fun row => row.hash = hash && row.finality = .finalized then
      .error (.finalizedUndo number)
    else .error (.undoNotFound number)

/-- The level an undone block has: `mark_attested` promotes coverage, not the undo record. -/
def undoLevel (number : Nat) (hash : BlockHash) (recorded : Finality) : Finality :=
  match s.coverage[number]? with
  | some row => if row.hash = hash then max row.finality recorded else recorded
  | none => recorded

def undo (d : ProcessorDescriptor) (env : Environment) (chainId number : Nat) (hash : BlockHash) :
    Except StoreError (Store × Option Nat × Option Nat) := do
  let _ ← u64I64 number "block_number"
  let row ← s.undoRow number hash
  let through :=
    if row.images.any fun image => image.row.finality ≠ .finalized then s.finalizedThrough else none
  let output ← applyMutations s.output row.undo.mutations true d.retainsOutput
    ⟨row.undo.block, row.undo.finality, env.writeTime⟩
  let output :=
    if d.retainsOutput then restoreEntityMetadata s.coveredLevel through output row.images
    else output
  let undone := { s with output := output }.forget number hash
  let undone := { undone with
    cursor :=
      match d.mode with
      | .blockLocal => undone.highestCoverageCursor d chainId
      | .orderedState => row.undo.priorCursor }
  undone.publishUndo d env.now chainId row.undo number hash (s.undoLevel number hash row.undo.finality)

/-! ## Raising finality -/

def unfinalizedContext (through : Nat) : Option UndoRecord :=
  (Table.lastWhere s.journal fun key row => key.1 ≤ through && !row.finalized).map (·.2.undo)

/-- Undo records one pass deletes at most, `UNDO_PRUNE_BATCH`. -/
def undoPruneBatch : Nat := 10000

def pruneFinalizedUndo (d : ProcessorDescriptor) (through : Nat) : Store :=
  let retainedFrom :=
    match d.undoMode with
    | .none => min (through + 1) i64Max
    | .unfinalized => through - d.safetyBlocks
  let old := Table.rowsWhere s.journal fun key row => row.finalized && key.1 < retainedFrom
  let batchEnd := (old[undoPruneBatch]?).elim retainedFrom fun row => row.1.1
  { s with journal := Table.deleteWhere s.journal fun key row => row.finalized && key.1 < batchEnd }

def promote (through : Nat) (level : Finality) : Store :=
  { s with
    coverage := Table.updateWhere s.coverage (fun n row => n ≤ through && row.finality < level)
      fun row => { row with finality := level }
    output := { s.output with
      entityMeta := Table.updateWhere s.output.entityMeta
        (fun _ row => row.blockNumber ≤ through && row.finality < level)
        fun row => { row with finality := level } } }

def promoteCursor (through : Nat) (level : Finality) : Store :=
  { s with
    cursor := s.cursor.map fun cursor =>
      if cursor.blockNumber ≤ through ∧ cursor.finality < level then
        { cursor with finality := level } else cursor }

def finalityChange (through : Nat) : DomainChange :=
  ⟨"system.finality", toBeBytes through, .upsert, toBeBytes through⟩

def publishMarker (d : ProcessorDescriptor) (now through : Nat) (level : Finality) (marks : Bool)
    (cursor : Option ProcessorCursor) (context : Option UndoRecord) : Except StoreError Store :=
  match cursor, context with
  | some cursor, some context =>
    if d.deliveryEnabled && marks then do
      let (s, _) ← s.appendTo d.defaultStreamId now cursor.chainId (.live d.inst) context.block level
        .finalized [finalityChange through]
      pure s
    else .ok s
  | _, _ => .ok s

def releaseAt (d : ProcessorDescriptor) (now through : Nat) (level : Finality) (holds : Bool) :
    Except StoreError (Store × Bool) :=
  if holds && d.deliveryEnabled then s.releaseDeferredChanges now through level else .ok (s, false)

def validateMark (through : Nat) (hash : BlockHash) (conflict : BlockHash → StoreError) :
    Except StoreError Unit :=
  match s.coverage[through]? with
  | some row => ensure (row.hash = hash) (conflict row.hash)
  | none => .ok ()

def markFinalized (d : ProcessorDescriptor) (env : Environment) (through : Nat) (hash : BlockHash) :
    Except StoreError (Store × Nat) := do
  let through ← u64I64 through "block_number"
  s.validateMark through hash (.finalizedCoverageConflict through hash)
  let promoted := Table.rowsWhere s.journal fun key row => key.1 ≤ through && !row.finalized
  let marked := { s with
    journal := Table.updateWhere s.journal (fun key row => key.1 ≤ through && !row.finalized)
      fun row => { row with finalized := true } }
  let marked := (marked.pruneFinalizedUndo d through).promote through .finalized
  let (marked, _) ← marked.releaseAt d env.now through .finalized
    (.unattested < d.publication.firstLevel)
  let marked := marked.promoteCursor through .finalized
  let marked ← marked.publishMarker d env.now through .finalized (!promoted.isEmpty) s.cursor
    (s.unfinalizedContext through)
  pure (marked, promoted.length)

def markAttested (d : ProcessorDescriptor) (env : Environment) (through : Nat) (hash : BlockHash) :
    Except StoreError (Store × Nat) := do
  let through ← u64I64 through "block_number"
  s.validateMark through hash (.attestedCoverageConflict through hash)
  let promoted := Table.rowsWhere s.coverage fun n row => n ≤ through && row.finality = .unattested
  let marked := s.promote through .attested
  let (marked, _) ← marked.releaseAt d env.now through .attested (d.publication = .attested)
  let marked := marked.promoteCursor through .attested
  let marked ← marked.publishMarker d env.now through .attested
    (d.publication = .unattested && !promoted.isEmpty) s.cursor (s.unfinalizedContext through)
  pure (marked, promoted.length)

/-! ## Notices and replays -/

def liveGapChangeKind : String := "system.live_gap"

def decodeLiveGapNotice (payload : Bytes) : Option (Nat × Nat) :=
  let start := fromBeBytes (payload.take 8)
  let last := fromBeBytes ((payload.drop 8).take 8)
  if 16 ≤ payload.length ∧ start ≤ last then some (start, last) else none

def noticeCovered (stream : Stream) (block : BlockRef) (skipped : BlockRange) : Bool :=
  (Table.lastWhere stream.changeLog fun _ _ => true).any fun (_, head) =>
    head.change.kind = liveGapChangeKind && head.block.number = block.number && head.block.hash =
      block.hash && (decodeLiveGapNotice head.change.payload).any fun (start, last) =>
        start ≤ skipped.start && skipped.last ≤ last

def liveGapChange (skipped : BlockRange) : DomainChange :=
  let range := toBeBytes skipped.start ++ toBeBytes skipped.last
  ⟨liveGapChangeKind, range, .upsert, range⟩

def appendLiveGapNotice (d : ProcessorDescriptor) (env : Environment) (chainId : Nat)
    (block : BlockRef) (skipped : BlockRange) : Except StoreError (Store × Bool) :=
  if d.deliveryEnabled then do
    let stream ← required s.streams[d.defaultStreamId]? (.sqlx "RowNotFound")
    if noticeCovered stream block skipped then pure (s, true)
    else do
      let (s, _) ← s.appendTo d.defaultStreamId env.now chainId (.live d.inst) block .finalized
        .finalized [liveGapChange skipped]
      pure (s, true)
  else .ok (s, false)

def validateReplay (cursor : ProcessorCursor) : Except StoreError Unit :=
  match s.coverage[cursor.blockNumber]? with
  | some row =>
    ensure (row.hash = cursor.blockHash)
      (.canonicalConflict cursor.blockNumber row.hash cursor.blockHash)
  | none => .error (.invalidConfig ("cannot replay uncovered block " ++ toString cursor.blockNumber))

def replayOrigin (d : ProcessorDescriptor) (streamId : String) : Except StoreError DeliveryOrigin :=
  if s.isBackfill streamId then required s.backfillOrigins[streamId]? (.sqlx "RowNotFound")
  else .ok ⟨.recompute, d.inst, 0⟩

def republishBlockLocal (p : Processor) (env : Environment) (cursor : ProcessorCursor)
    (delta : EncodedDelta) (publish : Bool) (streamId : String) :
    Except StoreError (Store × Option Nat × Option Nat) := do
  ensure (p.descriptor.mode = .blockLocal)
    (.invalidConfig "only block-local processors can republish historical changes")
  ensure (cursor.finality = .finalized)
    (.invalidConfig "historical change replay requires a finalized block")
  validateDelta p delta
  validateCursor p.descriptor cursor delta
  ensure (streamId ∈ s.streams) (.invalidConfig "delivery stream does not exist")
  let _ ← u64I64 cursor.blockNumber "block_number"
  s.validateReplay cursor
  let batch ← s.reduceBlock p cursor delta
  env.enforceCapacity
  let origin ← s.replayOrigin p.descriptor streamId
  let (s, first, last) ← s.appendTo streamId env.now cursor.chainId origin delta.block
    cursor.finality .apply (if publish then batch.changes else [])
  if s.isBackfill streamId then do
    let (s, progressFirst, progressLast) ← s.appendTo streamId env.now cursor.chainId origin
      delta.block .finalized .apply
      [backfillProgressChange cursor.blockNumber cursor.blockNumber 1]
    pure (s, first.or progressFirst, progressLast.or last)
  else pure (s, first, last)

end Store

end Leani.Processor
