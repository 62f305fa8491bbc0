import Leani.Processor.Effects

/-!
# Historical batches

The two transactions that commit a contiguous batch of finalized blocks: the one of a backfill
subscription, into its own stream and for a processor without output, and the one of a
materialization, into the default stream. The rows of the job and the counters of the subscription
live outside the instance; `completion` is what a subscription's last batch publishes about them.
-/

namespace Leani.Processor

open Library Std Delivery

structure HistoricalBatchItem where
  delta : EncodedDelta
  finality : Finality
  publishChanges : Bool

inductive HistoricalBatchMode where
  | apply
  | republish
  | republishVerifiedCompact
  deriving DecidableEq

/-- Bounds of a batch; `encodedBytes` is the length of its encoded changes. -/
structure HistoricalCommitLimits where
  maximumChanges : Nat
  maximumEncodedBytes : Nat
  encodedBytes : List (List DomainChange) → Nat

def HistoricalCommitLimits.enforce (limits : HistoricalCommitLimits)
    (changes : List (List DomainChange)) : Except StoreError Unit :=
  ensure ((changes.map List.length).sum ≤ limits.maximumChanges ∧
    limits.encodedBytes changes ≤ limits.maximumEncodedBytes) (.limit "historical batch")

structure HistoricalBatchOutcome where
  processedBlocks : Nat
  publishedChanges : Nat
  firstChangeSequence : Option Nat
  lastChangeSequence : Option Nat

def historicalBatchCursor (d : ProcessorDescriptor) (item : HistoricalBatchItem) (sequence : Nat) :
    ProcessorCursor where
  processorId := d.id
  processorVersion := d.version
  chainId := item.delta.chainId
  blockNumber := item.delta.block.number
  blockHash := item.delta.block.hash
  finality := item.finality
  sequence := sequence

def validateItem (p : Processor) (chainId : Nat) (finalized : Bool) (message : String)
    (expected : Nat × Option BlockHash) (item : HistoricalBatchItem) :
    Except StoreError (Nat × Option BlockHash) := do
  validateDelta p item.delta
  ensure ((finalized → item.finality = .finalized) ∧ item.delta.chainId = chainId ∧
      item.delta.block.number = expected.1 ∧ expected.2.all (item.delta.block.parentHash = ·))
      (.invalidConfig message)
  pure (satAdd expected.1 1, some item.delta.block.hash)

def validateItems (p : Processor) (first : HistoricalBatchItem) (finalized : Bool)
    (message : String) (items : List HistoricalBatchItem) : Except StoreError Unit := do
  let _ ← foldExcept (validateItem p first.delta.chainId finalized message)
    (first.delta.block.number, none) items
  pure ()

namespace Store

variable (s : Store)

def validateFresh (item : HistoricalBatchItem) : Except StoreError Unit := do
  let block := item.delta.block
  let _ ← u64I64 block.number "block_number"
  ensure ((block.number, block.hash) ∉ s.applied) .historicalBatchRequiresFallback
  s.validateCoverage block.number block.hash
  ensure (block.number ∉ s.coverage) .historicalBatchRequiresFallback
  let compacted ← s.compactedCoverageContains block.number block.hash
  ensure (compacted = false) .historicalBatchRequiresFallback

def coverageHash (number : Nat) : Option BlockHash :=
  match s.coverage[number]? with
  | some row => some row.hash
  | none => (s.segments[number]?).map (·.endHash)

def validateCovered (mode : HistoricalBatchMode) (item : HistoricalBatchItem) :
    Except StoreError Unit := do
  let block := item.delta.block
  let _ ← u64I64 block.number "block_number"
  match s.coverageHash block.number with
  | some hash => ensure (hash = block.hash) (.canonicalConflict block.number hash block.hash)
  | none =>
    ensure (mode = .republishVerifiedCompact ∧ (Table.firstWhere s.segments fun segmentEnd segment =>
        block.number ≤ segmentEnd && segment.segmentStart ≤ block.number).isSome)
      (.invalidConfig ("cannot republish uncovered block " ++ toString block.number))

def validateBatch (mode : HistoricalBatchMode) (items : List HistoricalBatchItem) :
    Except StoreError Unit :=
  if mode = .apply then foldExcept (fun _ item => s.validateFresh item) () items
  else foldExcept (fun _ item => s.validateCovered mode item) () items

def firstSequence : Nat := s.cursor.elim 1 fun cursor => satAdd cursor.sequence 1

def reduceItem (p : Processor) (overlay : ReducerOverlay) (item : HistoricalBatchItem)
    (sequence : Nat) : Except StoreError (ReducerOverlay × List DomainChange) := do
  let cursor := historicalBatchCursor p.descriptor item sequence
  let (returned, after) ← (p.reduce cursor item.delta).run s.output.toValues overlay
  ensure (returned = after.changes.drop overlay.changes.length)
    (.invariant "processor returned changes that differ from emitted changes")
  pure (after, returned)

def reduceIsolated (p : Processor) : ReducerOverlay → Nat → List HistoricalBatchItem →
    Except StoreError (List Mutation × List (List DomainChange))
  | overlay, _, [] => .ok (overlay.intoBatch.mutations, [])
  | overlay, sequence, item :: items => do
    let (overlay, returned) ← s.reduceItem p overlay item sequence
    let (mutations, changes) ← reduceIsolated p { overlay with entities := ∅, indexes := ∅ }
      (satAdd sequence 1) items
    pure (mutations, (if item.publishChanges then returned else []) :: changes)

def reduceReplayed (p : Processor) : Nat → List HistoricalBatchItem →
    Except StoreError (List (List DomainChange))
  | _, [] => .ok []
  | sequence, item :: items => do
    let (_, returned) ← s.reduceItem p .new item sequence
    let changes ← reduceReplayed p (satAdd sequence 1) items
    pure ((if item.publishChanges then returned else []) :: changes)

def reduceBatch (p : Processor) (mode : HistoricalBatchMode) (items : List HistoricalBatchItem) :
    Except StoreError (List Mutation × List (List DomainChange)) :=
  if mode = .apply then s.reduceIsolated p .new s.firstSequence items
  else do
    let changes ← s.reduceReplayed p s.firstSequence items
    pure ([], changes)

/-- Reduce a materialization's blocks: each sees its predecessors' writes, those to output only if
the processor retains output. -/
def reduceMaterialized (p : Processor) : ReducerOverlay → Nat → List HistoricalBatchItem →
    Except StoreError (ReducerOverlay × List MutationBatch)
  | overlay, _, [] => .ok (overlay, [])
  | overlay, sequence, item :: items => do
    let (overlay, _) ← s.reduceItem p overlay item sequence
    let (batch, overlay) := overlay.takeBatch
    let overlay := if p.descriptor.retainsOutput then overlay
      else { overlay with entities := ∅, indexes := ∅ }
    let (overlay, batches) ← reduceMaterialized p overlay (satAdd sequence 1) items
    pure (overlay, batch :: batches)

def coverFinalized (delta : EncodedDelta) : Except StoreError Store := do
  let recorded ← s.recordApplied delta.block delta.checksum
  ensure (delta.block.number ∉ s.coverage) (.sqlx "UNIQUE constraint failed: processor_coverage")
  pure { recorded with
    coverage := s.coverage.insert delta.block.number
      ⟨delta.block.hash, delta.block.parentHash, .finalized⟩ }

structure Publishing where
  store : Store
  first : Option Nat
  last : Option Nat

def Publishing.append (st : Publishing) (streamId : String) (now chainId : Nat)
    (origin : DeliveryOrigin) (block : BlockRef) (changes : List DomainChange) :
    Except StoreError Publishing := do
  let (s, first, last) ← st.store.appendTo streamId now chainId origin block .finalized .apply changes
  pure ⟨s, st.first.or first, last.or st.last⟩

def commitItem (env : Environment) (mode : HistoricalBatchMode) (streamId : String)
    (origin : DeliveryOrigin) (st : Publishing) (x : HistoricalBatchItem × List DomainChange) :
    Except StoreError Publishing := do
  let s ← (if mode = .apply then st.store.coverFinalized x.1.delta else .ok st.store)
  { st with store := s }.append streamId env.now x.1.delta.chainId origin x.1.delta.block x.2

def commitHistoricalMicrobatch (p : Processor) (env : Environment) (mode : HistoricalBatchMode)
    (items : List HistoricalBatchItem) (streamId : String)
    (completion : List (BlockRef × DomainChange)) (limits : HistoricalCommitLimits) :
    Except StoreError (Store × HistoricalBatchOutcome) := do
  let first ← required items.head?
    (.invalidConfig "historical microbatch must contain at least one block")
  let final := items.getLastD first
  ensure (limits.maximumChanges ≠ 0 ∧ limits.maximumEncodedBytes ≠ 0)
    (.invalidConfig "historical commit limits must be greater than zero")
  ensure (p.descriptor.output.mode = .none ∧ (mode = .apply ∨ p.descriptor.mode = .blockLocal))
    (.invalidConfig ("historical microbatching requires output-none; " ++
      "recompute additionally requires a block-local processor"))
  ensure (streamId ∈ s.streams) (.invalidConfig "delivery stream does not exist")
  ensure (s.isBackfill streamId)
    (.invalidConfig "historical microbatching requires a backfill delivery stream")
  validateItems p first true "historical microbatch must be contiguous, finalized, and single-chain"
    items
  s.validateBatch mode items
  let (mutations, changes) ← s.reduceBatch p mode items
  limits.enforce changes
  env.enforceCapacity
  let finalCursor := historicalBatchCursor p.descriptor final
    (satAdd s.firstSequence (items.length - 1))
  let origin ← required s.backfillOrigins[streamId]? (.sqlx "RowNotFound")
  let output ← (if mode = .apply then
      applyMutations s.output mutations false false ⟨final.delta.block, .finalized, env.writeTime⟩
    else .ok s.output)
  let st ← foldExcept (commitItem env mode streamId origin) ⟨{ s with output := output }, none, none⟩
    (items.zip changes)
  let advances := mode = .apply ∧ ∀ prior ∈ s.cursor, prior.blockNumber ≤ finalCursor.blockNumber
  ensure (advances → finalCursor.sequence ≤ i64Max) (.numeric "processor sequence")
  let st := { st with store := { st.store with
    cursor := if advances then some finalCursor else s.cursor } }
  let st ← st.append streamId env.now first.delta.chainId origin final.delta.block
    [backfillProgressChange first.delta.block.number final.delta.block.number items.length]
  let st ← foldExcept (fun st (x : BlockRef × DomainChange) =>
    st.append streamId env.now first.delta.chainId origin x.1 [x.2]) st completion
  pure (st.store, ⟨items.length, (changes.map List.length).sum, st.first, st.last⟩)

def holdsForFinality (d : ProcessorDescriptor) : Bool :=
  .unattested < d.publication.firstLevel && d.deliveryOrdering = .canonical

def commitMaterialized (d : ProcessorDescriptor) (env : Environment) (st : Publishing)
    (x : HistoricalBatchItem × MutationBatch) : Except StoreError Publishing := do
  let block := x.1.delta.block
  let output ← applyMutations st.store.output x.2.mutations false d.retainsOutput
    ⟨block, .finalized, env.writeTime⟩
  let (output, _) ← pruneOutputWindow output d.output block env.now
  let s ← { st.store with output := output }.coverFinalized x.1.delta
  if d.deliveryEnabled then do
    let (s, _) ← (if holdsForFinality d && x.1.publishChanges && 0 < block.number then
        s.releaseDeferredChanges env.now (block.number - 1) .finalized
      else .ok (s, false))
    { st with store := s }.append d.defaultStreamId env.now x.1.delta.chainId (.live d.inst) block
      (if x.1.publishChanges then x.2.changes else [])
  else pure { st with store := s }

def materializedCursor (d : ProcessorDescriptor) (prior : Option ProcessorCursor) :
    Nat → List HistoricalBatchItem → Option ProcessorCursor
  | _, [] => prior
  | sequence, item :: items =>
    let cursor := historicalBatchCursor d item sequence
    materializedCursor d (if ∀ c ∈ prior,
      c.blockNumber ≤ cursor.blockNumber then some cursor else prior) (satAdd sequence 1) items

/-- `commit_historical_materialization_microbatch`; `held` says that the live lane holds another
delta for the block. -/
def commitHistoricalMaterializationMicrobatch (p : Processor) (env : Environment)
    (held : EncodedDelta → Bool) (items : List HistoricalBatchItem)
    (limits : HistoricalCommitLimits) : Except StoreError (Store × HistoricalBatchOutcome) := do
  let d := p.descriptor
  let first ← required items.head?
    (.invalidConfig "historical materialization microbatch must contain at least one block")
  ensure (limits.maximumChanges ≠ 0 ∧ limits.maximumEncodedBytes ≠ 0)
    (.invalidConfig "historical commit limits must be greater than zero")
  ensure (d.deliveryEnabled → d.defaultStreamId ∈ s.streams)
    (.invalidConfig "delivery stream does not exist")
  validateItems p first false
    "historical materialization microbatch must be contiguous and single-chain" items
  ensure (∀ item ∈ items, item.finality = .finalized) .historicalBatchRequiresFallback
  foldExcept (fun _ item => do
    s.validateFresh item
    ensure (held item.delta = false) .historicalBatchRequiresFallback) () items
  let (overlay, batches) ← s.reduceMaterialized p .new s.firstSequence items
  ensure (¬ (d.output.mode = .window ∧ overlay.windowDependent)) .historicalBatchRequiresFallback
  limits.enforce (batches.map MutationBatch.changes)
  env.enforceCapacity
  let st ← foldExcept (commitMaterialized d env) ⟨s, none, none⟩ (items.zip batches)
  let cursor := materializedCursor d s.cursor s.firstSequence items
  let _ ← u64I64 (cursor.elim 0 ProcessorCursor.sequence) "processor sequence"
  pure ({ st.store with cursor := cursor }, ⟨items.length, ((items.zip batches).map fun x =>
        if d.deliveryEnabled && x.1.publishChanges then x.2.changes.length else 0).sum,
      st.first, st.last⟩)

end Store

end Leani.Processor
