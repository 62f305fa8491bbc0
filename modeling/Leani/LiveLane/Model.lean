import Leani.Processor.Store

/-!
# The live lane of one processor

The run state of a processor's live lane (`processor_runtime_state`), the marker of its first
unapplied block (`live_lane_gaps`) and the deltas that wait for it (`pending_deltas`), with every
operation that writes them. The store's writer lock makes each operation one step. An operation
whose writes outlive its failure gives back the lane next to its answer.
-/

namespace Leani.LiveLane

open Library Std Delivery Processor

inductive ProcessorRunState where
  | running
  | paused
  | failed
  deriving DecidableEq

structure ProcessorRuntimeState where
  state : ProcessorRunState
  reason : Option String
  updatedAt : Nat
  deriving DecidableEq

structure LiveLaneGap where
  firstUnapplied : BlockRef
  requiredDeliveryBytes : Nat
  reason : String
  createdAt : Nat
  updatedAt : Nat
  deriving DecidableEq

structure Lane where
  runtime : Option ProcessorRuntimeState
  gap : Option LiveLaneGap
  pending : Table (Nat × BlockHash) EncodedDelta

def Lane.new : Lane := ⟨none, none, ∅⟩

def singleBlockExceedsLimit : String := "single_block_exceeds_delivery_limit"

def spoolHardLimit : String := "delivery_spool_hard_limit"

def finalityConflict : String := "processor_finality_conflict"

inductive DeliveryLimitAction where
  | pause
  | fail
  | expireAndReset
  deriving DecidableEq

def deliveryResumeMark (limitBytes : Nat) : Nat := satMul limitBytes 9 / 10

namespace Lane

variable (lane : Lane)

/-- `register_processor`, as far as it reaches the lane. -/
def registerProcessor (now : Nat) : Lane :=
  { lane with runtime := lane.runtime.or (some ⟨.running, none, now⟩) }

def updateRuntime (p : ProcessorRuntimeState → Bool) (row : ProcessorRuntimeState) : Lane :=
  { lane with runtime := lane.runtime.map fun old => if p old then row else old }

def setProcessorRunState (now : Nat) (state : ProcessorRunState) (reason : Option String) : Lane :=
  lane.updateRuntime (fun _ => true) ⟨state, reason, now⟩

def markedAt (block : BlockRef) : Bool :=
  lane.gap.any fun gap =>
    gap.firstUnapplied.number = block.number && gap.firstUnapplied.hash = block.hash

/-- `live_lane_park_guard`: nothing when the lane already failed and keeps its first failure,
otherwise whether it is failed already. -/
def liveLaneParkGuard : Option Bool :=
  let alreadyFailed := lane.runtime.any fun row => row.state = .failed
  let storeRecorded := (lane.runtime.any fun row =>
    [singleBlockExceedsLimit, spoolHardLimit].contains (row.reason.getD "")) && lane.gap.isNone
  if !alreadyFailed || storeRecorded then some alreadyFailed else none

def setParkedLaneState (now : Nat) (alreadyFailed failed : Bool) (reason : String) : Lane :=
  if alreadyFailed then lane
  else lane.updateRuntime (fun _ => true) ⟨if failed then .failed else .paused, some reason, now⟩

def insertGap (now : Nat) (block : BlockRef) (requiredDeliveryBytes : Nat) (reason : String) :
    Except StoreError Lane := do
  let number ← u64I64 block.number "live gap block number"
  let timestamp ← u64I64 block.timestamp "live gap timestamp"
  let required ← u64I64 requiredDeliveryBytes "required live delivery bytes"
  pure { lane with
    gap := lane.gap.or (some ⟨⟨number, block.hash, block.parentHash, timestamp⟩, required, reason,
      now, now⟩) }

def insertPendingDelta (delta : EncodedDelta) (field : String) : Except StoreError Lane := do
  let number ← u64I64 delta.block.number field
  let key := (number, delta.block.hash)
  let stored := lane.pending[key]?.getD delta
  ensure (stored = delta) (.conflictingPendingDelta delta.block.number)
  pure { lane with pending := lane.pending.insert key stored }

/-- The transaction of a park: behind the guard, the writes of `record` and the lane's state. -/
def park (now : Nat) (reason : String) (failed : Bool) (record : Lane → Except StoreError Lane) :
    Except StoreError (Lane × Bool) :=
  match lane.liveLaneParkGuard with
  | none => .ok (lane, false)
  | some alreadyFailed => do
    let marked ← record lane
    pure (marked.setParkedLaneState now alreadyFailed failed reason, true)

def checkParkReason (reason : String) : Except StoreError Unit :=
  ensure (isBlank reason = false) (.invalidConfig "processor live-lane park reason must not be empty")

/-- What `park_processor_live_lane` records: the delta if it is to be kept, and the marker. -/
def recordDelta (now : Nat) (delta : EncodedDelta) (reason : String) (requiredDeliveryBytes : Nat)
    (persistDelta : Bool) (lane : Lane) : Except StoreError Lane :=
  (if persistDelta then lane.insertPendingDelta delta "live gap block number" else .ok lane) >>=
    fun lane => lane.insertGap now delta.block requiredDeliveryBytes reason

/-- `park_processor_live_lane`. The answer tells whether anything was recorded. -/
def parkProcessorLiveLane (p : Processor) (now : Nat) (delta : EncodedDelta) (reason : String)
    (requiredDeliveryBytes : Nat) (failed persistDelta : Bool) : Lane × Except StoreError Bool :=
  match (do checkParkReason reason; validateDelta p delta) with
  | .error e => (lane, .error e)
  | .ok () =>
    let lane := lane.registerProcessor now
    settle lane (lane.park now reason failed
      (recordDelta now delta reason requiredDeliveryBytes persistDelta))

def parkProcessorLiveLaneAt (now : Nat) (firstUnapplied : BlockRef) (reason : String)
    (failed : Bool) : Lane × Except StoreError Bool :=
  match checkParkReason reason with
  | .error e => (lane, .error e)
  | .ok () =>
    let lane := lane.registerProcessor now
    settle lane (lane.park now reason failed fun lane => lane.insertGap now firstUnapplied 0 reason)

def persistDelta (p : Processor) (now : Nat) (delta : EncodedDelta) : Lane × Except StoreError Unit :=
  match validateDelta p delta with
  | .error e => (lane, .error e)
  | .ok () =>
    let lane := lane.registerProcessor now
    settle lane (do
      let lane ← lane.insertPendingDelta delta "block_number"
      pure (lane, ()))

def advanceLiveLaneGap (p : Processor) (now : Nat) (applied next : BlockRef) :
    Except StoreError (Lane × Unit) := do
  let number ← u64I64 next.number "next live gap block"
  let timestamp ← u64I64 next.timestamp "next live gap timestamp"
  let _ ← u64I64 applied.number "applied live gap block"
  ensure (lane.markedAt applied)
    (.invariant ("live gap marker changed while advancing " ++ p.descriptor.inst))
  pure ({ lane with
    gap := lane.gap.map fun gap => { gap with
      firstUnapplied := ⟨number, next.hash, next.parentHash, timestamp⟩
      updatedAt := now } }, ())

def rebaseLiveLaneGap (p : Processor) (now : Nat) (reverted : BlockRef) (replacement : EncodedDelta) :
    Except StoreError (Lane × Bool) := do
  validateDelta p replacement
  ensure (replacement.block.number = reverted.number)
    (.invalidConfig "live gap replacement must retain the reverted block number")
  let timestamp ← u64I64 replacement.block.timestamp "replacement live gap timestamp"
  let number ← u64I64 reverted.number "reverted live gap block"
  if lane.markedAt reverted then
    pure ({ lane with
      gap := lane.gap.map fun gap => { gap with
        firstUnapplied := ⟨gap.firstUnapplied.number, replacement.block.hash,
          replacement.block.parentHash, timestamp⟩
        updatedAt := now }
      pending := (lane.pending.erase (number, reverted.hash)).insert
        (number, replacement.block.hash) replacement }, true)
  else pure (lane, false)

def completeLiveLaneGap (p : Processor) (now : Nat) (expected : BlockRef) :
    Except StoreError (Lane × Unit) := do
  let _ ← u64I64 expected.number "completed live gap block"
  ensure (lane.markedAt expected)
    (.invariant ("live gap marker changed while completing " ++ p.descriptor.inst))
  pure (({ lane with gap := none } : Lane).updateRuntime (fun row => row.state = .paused)
    ⟨.running, none, now⟩, ())

/-- `reset_failed_live_lane`; the limit is the one the descriptor has at the time. -/
def resetFailedLiveLane (p : Processor) (now maxBytes : Nat) :
    Except StoreError (Lane × LiveLaneGap) := do
  ensure (lane.runtime.bind (·.reason) ≠ some finalityConflict)
    (.liveLaneRequiresRebuild p.descriptor.inst)
  let gap ← required lane.gap
    (.invalidConfig ("processor " ++ p.descriptor.inst ++ " has no durable live gap to reset"))
  ensure (gap.requiredDeliveryBytes ≤ maxBytes)
    (.deliveryItemTooLarge p.descriptor.inst gap.requiredDeliveryBytes maxBytes 1 none)
  ensure (lane.runtime.any fun row => row.state = .failed)
    (.invalidConfig ("processor " ++ p.descriptor.inst ++ " live lane is not failed"))
  pure (lane.updateRuntime (fun row => row.state = .failed)
    ⟨.paused, some "operator_reset_pending_replay", now⟩, gap)

def failProcessorLiveLane (p : Processor) (now : Nat) (reason : String) :
    Except StoreError (Lane × Unit) := do
  ensure (isBlank reason = false)
    (.invalidConfig "processor live-lane failure reason must not be empty")
  let row ← required lane.runtime
    (.invariant ("processor runtime state is missing for " ++ p.descriptor.inst))
  if row.state = .failed ∧ reason ≠ finalityConflict then pure (lane, ())
  else pure (lane.updateRuntime (fun _ => true) ⟨.failed, some reason, now⟩, ())

def pauseProcessorLiveLane (p : Processor) (now : Nat) (reason : String) :
    Except StoreError (Lane × Unit) := do
  ensure (isBlank reason = false)
    (.invalidConfig "processor live-lane pause reason must not be empty")
  ensure (lane.runtime.any fun row => row.state ≠ .failed) (.processorFailed p.descriptor.inst)
  pure (lane.updateRuntime (fun row => row.state ≠ .failed) ⟨.paused, some reason, now⟩, ())

def resumeProcessorLiveLane (now : Nat) : Lane :=
  lane.updateRuntime (fun row => row.state = .paused) ⟨.running, none, now⟩

def resumePruned (now liveBytes maxBytes : Nat) : Lane :=
  if liveBytes ≤ deliveryResumeMark maxBytes then lane.resumeProcessorLiveLane now else lane

end Lane

/-- What `enforce_delivery_capacity` reads of a backfill subscription. -/
structure BackfillLimits where
  backpressured : Bool
  blockLimit : Nat
  byteLimit : Nat
  resumeBelowRatioMillionths : Nat
  processedWorkBlocks : Nat
  requiredAcknowledgedWorkBlocks : Nat

namespace BackfillLimits

variable (limits : BackfillLimits)

def outstandingBlocks : Nat := limits.processedWorkBlocks - limits.requiredAcknowledgedWorkBlocks

def blocksWithinLimit (incomingWorkBlocks : Nat) : Bool :=
  satAdd limits.outstandingBlocks incomingWorkBlocks ≤ limits.blockLimit

def belowResumeWater (currentBytes : Nat) : Bool :=
  !limits.backpressured ||
    (currentBytes ≤ satMul limits.byteLimit limits.resumeBelowRatioMillionths / 1000000 &&
      limits.outstandingBlocks ≤
        satMul limits.blockLimit limits.resumeBelowRatioMillionths / 1000000)

end BackfillLimits

/-- An apply before `enforce_delivery_capacity`: what it would add to its stream, what the stream
holds, and the delivery limits of the descriptor, the subscription and the node. -/
structure Demand where
  streamKind : DeliveryStreamKind
  subscription : Option BackfillLimits
  currentBytes : Nat
  incomingBytes : Nat
  incomingWorkBlocks : Nat
  maxBytes : Nat
  onLimit : DeliveryLimitAction
  /-- `node_delivery_budget_failure`: the scope of the budget that has no room. -/
  budgetFailure : Except StoreError (Option String)

namespace Demand

variable (demand : Demand)

def processorScoped : Bool := demand.streamKind ≠ .backfill

def backfillLimits : Option BackfillLimits :=
  if demand.streamKind = .backfill then demand.subscription else none

def limit : Nat :=
  match demand.backfillLimits with
  | some limits => min limits.byteLimit demand.maxBytes
  | none => demand.maxBytes

def tooLarge : Bool :=
  demand.limit < demand.incomingBytes ||
    demand.backfillLimits.any fun limits => limits.blockLimit < demand.incomingWorkBlocks

def withinLimits : Bool :=
  demand.currentBytes + demand.incomingBytes ≤ demand.limit && demand.backfillLimits.all fun limits =>
      limits.blocksWithinLimit demand.incomingWorkBlocks &&
        limits.belowResumeWater demand.currentBytes

end Demand

namespace Lane

variable (lane : Lane)

/-- The last part of `enforce_delivery_capacity`: the lane is neither failed nor paused, and the item
alone would fit. -/
def enforceLimits (now : Nat) (demand : Demand) : Lane × Except StoreError Unit :=
  if u64Max < demand.currentBytes + demand.incomingBytes then
    (lane, .error (.numeric "projected delivery bytes"))
  else match demand.budgetFailure with
  | .error e => (lane, .error e)
  | .ok budgetFailure =>
    if demand.withinLimits && budgetFailure.isNone then (lane, .ok ())
    else
      let state := if demand.onLimit = .fail then ProcessorRunState.failed else .paused
      (if demand.processorScoped then lane.setProcessorRunState now state (some spoolHardLimit)
        else lane,
        .error (.limit (budgetFailure.getD "stream")))

/-- `enforce_delivery_capacity`. What it writes outlives its refusal. -/
def enforceDeliveryCapacity (p : Processor) (now : Nat) (demand : Demand) :
    Lane × Except StoreError Unit :=
  let state :=
    if demand.processorScoped then lane.runtime.map (·.state) else some ProcessorRunState.running
  match state with
  | none => (lane, .error (.sqlx "RowNotFound"))
  | some .failed => (lane, .error (.processorFailed p.descriptor.inst))
  | some state =>
    if demand.tooLarge then
      (if demand.processorScoped then
          lane.setProcessorRunState now .failed (some singleBlockExceedsLimit)
        else lane,
        .error (.deliveryItemTooLarge p.descriptor.inst demand.incomingBytes demand.limit
          demand.incomingWorkBlocks (demand.backfillLimits.map (·.blockLimit))))
    else if state = .paused then
      if deliveryResumeMark demand.limit < demand.currentBytes then
        (lane, .error (.processorPaused p.descriptor.inst demand.currentBytes
          (deliveryResumeMark demand.limit)))
      else (lane.setProcessorRunState now .running none).enforceLimits now demand
    else lane.enforceLimits now demand

end Lane

inductive Event where
  | register (now : Nat)
  | park (now : Nat) (delta : EncodedDelta) (reason : String) (requiredDeliveryBytes : Nat)
      (failed persistDelta : Bool)
  | parkAt (now : Nat) (firstUnapplied : BlockRef) (reason : String) (failed : Bool)
  | advance (now : Nat) (applied next : BlockRef)
  | rebase (now : Nat) (reverted : BlockRef) (replacement : EncodedDelta)
  | complete (now : Nat) (expected : BlockRef)
  | reset (now maxBytes : Nat)
  | fail (now : Nat) (reason : String)
  | pause (now : Nat) (reason : String)
  | resume (now : Nat)
  | enforce (now : Nat) (demand : Demand)
  | prune (now liveBytes maxBytes : Nat)
  | persistDelta (now : Nat) (delta : EncodedDelta)
  | deletePendingDeltas (gone : Nat × BlockHash → Bool)

def step (p : Processor) (lane : Lane) : Event → Lane
  | .register now => lane.registerProcessor now
  | .park now delta reason requiredDeliveryBytes failed persistDelta =>
    (lane.parkProcessorLiveLane p now delta reason requiredDeliveryBytes failed persistDelta).1
  | .parkAt now firstUnapplied reason failed =>
    (lane.parkProcessorLiveLaneAt now firstUnapplied reason failed).1
  | .advance now applied next => commit lane (lane.advanceLiveLaneGap p now applied next)
  | .rebase now reverted replacement => commit lane (lane.rebaseLiveLaneGap p now reverted replacement)
  | .complete now expected => commit lane (lane.completeLiveLaneGap p now expected)
  | .reset now maxBytes => commit lane (lane.resetFailedLiveLane p now maxBytes)
  | .fail now reason => commit lane (lane.failProcessorLiveLane p now reason)
  | .pause now reason => commit lane (lane.pauseProcessorLiveLane p now reason)
  | .resume now => lane.resumeProcessorLiveLane now
  | .enforce now demand => (lane.enforceDeliveryCapacity p now demand).1
  | .prune now liveBytes maxBytes => lane.resumePruned now liveBytes maxBytes
  | .persistDelta now delta => (lane.persistDelta p now delta).1
  | .deletePendingDeltas gone => { lane with pending := Table.deleteWhere lane.pending fun key _ => gone key }

def run (p : Processor) (lane : Lane) (events : List Event) : Lane := events.foldl (step p) lane

end Leani.LiveLane
