import Leani.Processor.Batches
import Leani.Processor.Runs

/-!
# Recovery checkpoints

A processor with automatic checkpoints keeps copies of its working state, each next to the cursor it
was taken at. They are taken when a finalized block or batch is applied and when finality is raised,
at a cadence of blocks, and when a job completes. A checkpoint may be restored where its cursor
stands; the encoding of a snapshot and its checksum are left out.
-/

namespace Leani.Processor

open Library Std Delivery

inductive CheckpointPolicyMode where
  | none
  | automatic
  deriving DecidableEq

structure CheckpointPolicy where
  mode : CheckpointPolicyMode
  keep : Nat

structure Checkpoint where
  cursor : ProcessorCursor
  state : Table StateKey Bytes

def ProcessorCursor.at (cursor : ProcessorCursor) : Nat × BlockHash :=
  (cursor.blockNumber, cursor.blockHash)

structure Checkpointed extends Store where
  checkpoints : Table Nat Checkpoint
  lastCheckpointId : Nat

def Checkpointed.registered (d : ProcessorDescriptor) : Checkpointed where
  toStore := .registered d
  checkpoints := ∅
  lastCheckpointId := 0

def automaticCheckpointIntervalBlocks : Nat := 1000

namespace Checkpointed

variable (s : Checkpointed)

def keptBefore (a b : Nat × Checkpoint) : Bool :=
  b.2.cursor.blockNumber < a.2.cursor.blockNumber ||
    (b.2.cursor.blockNumber = a.2.cursor.blockNumber && b.1 ≤ a.1)

def pruneCheckpoints (keep : Nat) : Checkpointed :=
  let newest := ((s.checkpoints.toList.mergeSort keptBefore).take keep).map (·.1)
  { s with checkpoints := Table.deleteWhere s.checkpoints fun id _ => id ∉ newest }

/-- `insert_recovery_checkpoint`: one checkpoint for a block; the first is kept. -/
def insertRecoveryCheckpoint (cursor : ProcessorCursor) (keep : Nat) :
    Except StoreError Checkpointed := do
  let _ ← u64I64 cursor.blockNumber "checkpoint block number"
  let inserted := if (Table.firstWhere s.checkpoints fun _ row => row.cursor.at = cursor.at).isSome
    then s
    else { s with
      checkpoints := s.checkpoints.insert (s.lastCheckpointId + 1) ⟨cursor, s.output.state⟩
      lastCheckpointId := s.lastCheckpointId + 1 }
  pure (inserted.pruneCheckpoints keep)

def createRecoveryCheckpoint (cursor : ProcessorCursor) (keep : Nat) :
    Except StoreError Checkpointed :=
  let latest := (s.checkpoints.toList.map fun row => row.2.cursor.blockNumber).max?
  if latest.any fun latest =>
      cursor.blockNumber < satAdd latest automaticCheckpointIntervalBlocks then .ok s
  else s.insertRecoveryCheckpoint cursor keep

def automatic (policy : CheckpointPolicy) (cursor : Option ProcessorCursor) (take : Checkpointed →
    ProcessorCursor → Nat → Except StoreError Checkpointed) : Except StoreError Checkpointed :=
  match policy.mode, cursor with
  | .automatic, some cursor => take s cursor policy.keep
  | _, _ => .ok s

def checkpointApplied (policy : CheckpointPolicy) (cursor : ProcessorCursor)
    (r : Except StoreError (Store × Store.ApplyOutcome)) :
    Except StoreError (Checkpointed × Store.ApplyOutcome) := do
  let (t, outcome) ← r
  match outcome with
  | .applied committed _ _ =>
    let taken ← (if cursor.finality = .finalized then
        ({ s with toStore := t }).automatic policy (some committed) createRecoveryCheckpoint
      else .ok { s with toStore := t })
    pure (taken, outcome)
  | .alreadyApplied => pure ({ s with toStore := t }, outcome)

/-- `mark_finalized` takes a checkpoint if an undo record became final. -/
def markFinalized (d : ProcessorDescriptor) (policy : CheckpointPolicy) (env : Environment)
    (through : Nat) (hash : BlockHash) : Except StoreError (Checkpointed × Nat) := do
  let (t, promoted) ← s.toStore.markFinalized d env through hash
  let taken ← (if 0 < promoted then
      ({ s with toStore := t }).automatic policy t.cursor createRecoveryCheckpoint
    else .ok { s with toStore := t })
  pure (taken, promoted)

/-- `commit_historical_materialization_microbatch` takes a checkpoint at the cursor it leaves. -/
def materialize (p : Processor) (policy : CheckpointPolicy) (env : Environment)
    (held : EncodedDelta → Bool) (items : List HistoricalBatchItem)
    (limits : HistoricalCommitLimits) : Except StoreError (Checkpointed × HistoricalBatchOutcome) := do
  let (t, outcome) ← s.commitHistoricalMaterializationMicrobatch p env held items limits
  let taken ← ({ s with toStore := t }).automatic policy t.cursor createRecoveryCheckpoint
  pure (taken, outcome)

def completeJob (policy : CheckpointPolicy) : Except StoreError (Checkpointed × Unit) := do
  let taken ← s.automatic policy s.cursor insertRecoveryCheckpoint
  pure (taken, ())

def restorable (checkpoint : ProcessorCursor) (current : ProcessorCursor) : Bool :=
  checkpoint.finality ≤ current.finality && current = { checkpoint with finality := current.finality }

def restoreRecoveryCheckpoint (d : ProcessorDescriptor) (checkpointId : Nat) :
    Except StoreError (Checkpointed × ProcessorCursor) := do
  let checkpointId ← u64I64 checkpointId "checkpoint ID"
  let snapshot ← required s.checkpoints[checkpointId]?
    (.recoveryCheckpointNotFound d.inst checkpointId)
  ensure (snapshot.cursor.processorId = d.id ∧ snapshot.cursor.processorVersion = d.version)
    .savepointContract
  let boundary := StoreError.checkpointRestoreBoundary snapshot.cursor.blockNumber
    (s.cursor.map (·.blockNumber))
  let current ← required s.cursor boundary
  ensure (restorable snapshot.cursor current = true) boundary
  pure ({ s with output := { s.output with state := snapshot.state } }, current)

end Checkpointed

inductive CheckpointEvent where
  | operate (op : Operation)
  | historical (env : Environment) (mode : HistoricalBatchMode) (items : List HistoricalBatchItem)
      (streamId : String) (completion : List (BlockRef × DomainChange))
      (limits : HistoricalCommitLimits)
  | materialize (env : Environment) (held : EncodedDelta → Bool) (items : List HistoricalBatchItem)
      (limits : HistoricalCommitLimits)
  | completeJob
  | restore (checkpointId : Nat)

def checkpointStep (p : Processor) (policy : CheckpointPolicy) (s : Checkpointed) :
    CheckpointEvent → Checkpointed
  | .operate (.apply env cursor delta publish streamId) =>
    commit s (s.checkpointApplied policy cursor
      (s.applyToStream p env cursor delta publish streamId false))
  | .operate (.applyLiveRecovery env cursor delta) =>
    commit s (s.checkpointApplied policy cursor (s.applyLiveRecovery p env cursor delta))
  | .operate (.markFinalized env through hash) =>
    commit s (s.markFinalized p.descriptor policy env through hash)
  | .operate op => { s with toStore := step p s.toStore op }
  | .historical env mode items streamId completion limits =>
    { s with
      toStore := commit s.toStore
        (s.commitHistoricalMicrobatch p env mode items streamId completion limits) }
  | .materialize env held items limits => commit s (s.materialize p policy env held items limits)
  | .completeJob => commit s (s.completeJob policy)
  | .restore checkpointId => commit s (s.restoreRecoveryCheckpoint p.descriptor checkpointId)

def checkpointRun (p : Processor) (policy : CheckpointPolicy) (s : Checkpointed)
    (events : List CheckpointEvent) : Checkpointed := events.foldl (checkpointStep p policy) s

def Mutation.writesState : Mutation → Bool
  | .state .. => true
  | _ => false

def writeState (state : Table StateKey Bytes) : Mutation → Table StateKey Bytes
  | .state key _ after => writeRow state key after
  | _ => state

def writeStates (state : Table StateKey Bytes) (mutations : List Mutation) :
    Table StateKey Bytes := mutations.foldl writeState state

namespace Store

variable (s : Store)

def Restful : Prop := ∀ (key : Nat × BlockHash) (row : JournalRow), s.journal[key]? = some row →
  row.finalized = false → row.undo.mutations.any Mutation.writesState = false

def Reaches (last : BlockRef) : Prop := ∀ prior ∈ s.cursor, prior.blockNumber ≤ last.number

end Store

namespace Checkpointed

variable (s : Checkpointed)

def Agrees (block : Nat × BlockHash) (state : Table StateKey Bytes) : Prop :=
  ∀ (id : Nat) (row : Checkpoint), s.checkpoints[id]? = some row → row.cursor.at = block →
    row.state = state

/-- A commit whose last block is `block` makes these mutations. If it moves the cursor there, the
checkpoints of the block hold what it leaves; otherwise it writes no working state, and a checkpoint
of the block holds the current one, which no block that can be undone wrote to. -/
def Keeps (advances : Prop) (block : Nat × BlockHash) (mutations : List Mutation) : Prop :=
  (advances → s.Agrees block (writeStates s.output.state mutations)) ∧
    (¬ advances → mutations.any Mutation.writesState = false ∧ ∀ (id : Nat) (row : Checkpoint),
    s.checkpoints[id]? = some row → row.cursor.at = block → row.state = s.output.state ∧ s.Restful)

def KeepsApply (p : Processor) (cursor : ProcessorCursor) (delta : EncodedDelta) : Prop :=
  s.alreadyApplied cursor delta = .ok false → ∀ batch, s.reduceBlock p cursor delta = .ok batch →
    s.Keeps (s.AdvancesCursor p.descriptor cursor) cursor.at batch.mutations

def KeepsUndo (d : ProcessorDescriptor) (number : Nat) (hash : BlockHash) : Prop :=
  s.cursor.map ProcessorCursor.at = some (number, hash) ∨ d.mode = .blockLocal ∧
    ∀ row, s.journal[(number, hash)]? = some row → row.undo.mutations.any Mutation.writesState = false

def KeepsBatch (items : List HistoricalBatchItem) (mutations : List Mutation) : Prop :=
  ∀ last ∈ items.getLast?, s.Keeps (s.Reaches last.delta.block)
    (last.delta.block.number, last.delta.block.hash) mutations

end Checkpointed

/-- The step writes working state only where it moves the cursor, and it moves the cursor to a block
with a checkpoint only with the working state of the checkpoint. -/
def KeepsToCursor (p : Processor) (s : Checkpointed) : CheckpointEvent → Prop
  | .operate (.apply _ cursor delta _ _) | .operate (.applyLiveRecovery _ cursor delta) =>
    s.KeepsApply p cursor delta
  | .operate (.undo _ _ number hash) => s.KeepsUndo p.descriptor number hash
  | .historical _ .apply items .. => ∀ mutations changes,
    s.reduceBatch p .apply items = .ok (mutations, changes) → s.KeepsBatch items mutations
  | .materialize _ _ items _ => ∀ overlay batches, s.reduceMaterialized p .new s.firstSequence items =
    .ok (overlay, batches) → s.KeepsBatch items (batches.flatMap MutationBatch.mutations)
  | _ => True

def RunKeepsToCursor (p : Processor) (policy : CheckpointPolicy) :
    Checkpointed → List CheckpointEvent → Prop
  | _, [] => True
  | s, event :: events =>
    KeepsToCursor p s event ∧ RunKeepsToCursor p policy (checkpointStep p policy s event) events

end Leani.Processor
