import Leani.Processor.Coverage

/-!
# Backfill subscriptions and their deletion

The rows of a node: its processor instances, the backfill subscriptions with their ranges, and the
jobs that run them. A subscription's rows appear with its job, and `delete_terminal_historical_work`
removes them together with the stream, the owner ranges and what only these owners kept covered.
-/

namespace Leani.Processor

open Library Std Delivery

inductive JobState where
  | queued
  | running
  | storageBackpressured
  | completed
  | failed
  | cancelled
  deriving DecidableEq

structure JobRecord where
  id : String
  kind : String
  state : JobState
  payload : Bytes
  checkpoint : Option Bytes
  attempts : Nat
  updatedAt : Nat
  deriving DecidableEq

inductive BackfillSubscriptionMode where
  | fillMissing
  | recompute
  deriving DecidableEq

inductive BackfillSubscriptionState where
  | waitingForConsumer
  | queued
  | running
  | backpressured
  | draining
  | completeReclaimable
  | cancelled
  | failed
  deriving DecidableEq

def BackfillSubscriptionState.asStr : BackfillSubscriptionState → String
  | waitingForConsumer => "waiting_for_consumer"
  | queued => "queued"
  | running => "running"
  | backpressured => "backpressured"
  | draining => "draining"
  | completeReclaimable => "complete_reclaimable"
  | cancelled => "cancelled"
  | failed => "failed"

inductive BackfillDeliveryCompression where
  | none
  | gzip
  deriving DecidableEq

structure BackfillDeliveryBatchLimits where
  targetEncodedBytes : Nat
  maximumEncodedBytes : Nat
  maximumEvents : Nat
  maximumProcessedBlocks : Nat
  maximumDelayMs : Nat
  maximumBufferedBatches : Nat
  maximumBufferedBytes : Nat
  compression : BackfillDeliveryCompression
  deriving DecidableEq

structure BackfillSubscriptionRecord where
  subscriptionId : String
  jobId : String
  processorInstance : String
  historyStreamId : String
  mode : BackfillSubscriptionMode
  publicationRevision : Nat
  state : BackfillSubscriptionState
  consumerId : String
  ranges : List Range
  range : Range
  preexistingCoverage : List Range
  capturedFinalizedTarget : Nat
  idempotencyKey : String
  effectiveBlockLimit : Nat
  effectiveByteLimit : Nat
  resumeBelowRatioMillionths : Nat
  deliveryBatchLimits : BackfillDeliveryBatchLimits
  initialSequence : Nat
  completionSequence : Option Nat
  processedWorkBlocks : Nat

structure Registered where
  processor : Processor
  rows : Instance

structure Node where
  instances : Table String Registered
  subscriptions : Table String BackfillSubscriptionRecord
  /-- Subscription and ordinal, start and end, of `backfill_subscription_ranges`. -/
  ranges : Table (String × Nat) (Nat × Nat)
  preexistingRanges : Table (String × Nat) (Nat × Nat)
  jobs : Table String JobRecord
  identities : Table String BlockHash

def Node.empty : Node := ⟨∅, ∅, ∅, ∅, ∅, ∅⟩

def normalizedSubscriptionRanges (subscription : BackfillSubscriptionRecord) :
    Except StoreError (List Range) := do
  let normalized := normalizeRanges
    (if subscription.ranges.isEmpty then [subscription.range] else subscription.ranges)
  let first ← required normalized.head?
    (.invalidConfig "backfill subscription range set must not be empty")
  let last := normalized.getLastD first
  ensure (first.start ≤ last.last) (.invalidConfig "block range end precedes start")
  ensure (first.start = subscription.range.start ∧ last.last = subscription.range.last)
    (.invalidConfig "backfill subscription bounding range does not match its range set")
  pure normalized

namespace BackfillDeliveryBatchLimits

def Valid (limits : BackfillDeliveryBatchLimits) : Prop :=
  limits.targetEncodedBytes ≠ 0 ∧ limits.targetEncodedBytes ≤ limits.maximumEncodedBytes ∧
    limits.maximumEvents ≠ 0 ∧ limits.maximumProcessedBlocks ≠ 0 ∧ limits.maximumDelayMs ≠ 0 ∧
    limits.maximumBufferedBatches ≠ 0 ∧ limits.maximumEncodedBytes ≤ limits.maximumBufferedBytes

instance (limits : BackfillDeliveryBatchLimits) : Decidable limits.Valid := by
  unfold Valid
  infer_instance

end BackfillDeliveryBatchLimits

namespace BackfillSubscriptionRecord

def Valid (subscription : BackfillSubscriptionRecord) (ranges : List Range) (job : JobRecord) :
    Prop :=
  subscription.subscriptionId ≠ "" ∧ subscription.jobId = job.id ∧
    (∀ range ∈ ranges.getLast?, range.last ≤ subscription.capturedFinalizedTarget) ∧
    subscription.publicationRevision = 0 ∧ subscription.effectiveBlockLimit ≠ 0 ∧
    subscription.effectiveByteLimit ≠ 0 ∧ subscription.resumeBelowRatioMillionths ≠ 0 ∧
    subscription.resumeBelowRatioMillionths < 1000000 ∧ subscription.deliveryBatchLimits.Valid

instance (subscription : BackfillSubscriptionRecord) (ranges : List Range) (job : JobRecord) :
    Decidable (subscription.Valid ranges job) := by
  unfold Valid
  infer_instance

def Conflicts (stored subscription : BackfillSubscriptionRecord) : Prop :=
  stored.subscriptionId = subscription.subscriptionId ∨ stored.jobId = subscription.jobId ∨
    stored.historyStreamId = subscription.historyStreamId ∨ stored.processorInstance =
    subscription.processorInstance ∧ stored.idempotencyKey = subscription.idempotencyKey

instance (stored subscription : BackfillSubscriptionRecord) :
    Decidable (stored.Conflicts subscription) := by
  unfold Conflicts
  infer_instance

/-- `same_identity`: a repeated request agrees with the stored row. -/
def SameIdentity (stored subscription : BackfillSubscriptionRecord) : Prop :=
  stored.subscriptionId = subscription.subscriptionId ∧ stored.jobId = subscription.jobId ∧
    stored.historyStreamId = subscription.historyStreamId ∧ stored.mode = subscription.mode ∧
    stored.consumerId = subscription.consumerId ∧ stored.range = subscription.range ∧
    stored.effectiveBlockLimit = subscription.effectiveBlockLimit ∧
    stored.effectiveByteLimit = subscription.effectiveByteLimit ∧
    stored.resumeBelowRatioMillionths = subscription.resumeBelowRatioMillionths ∧
    stored.deliveryBatchLimits = subscription.deliveryBatchLimits

instance (stored subscription : BackfillSubscriptionRecord) :
    Decidable (stored.SameIdentity subscription) := by
  unfold SameIdentity
  infer_instance

def columns (subscription : BackfillSubscriptionRecord) : List (Nat × String) :=
  let limits := subscription.deliveryBatchLimits
  [(subscription.publicationRevision, "subscription publication revision"),
    (subscription.initialSequence, "initial subscription sequence"),
    (subscription.range.start, "subscription start block"),
    (subscription.range.last, "subscription end block"),
    (subscription.capturedFinalizedTarget, "captured finalized target"),
    (subscription.effectiveBlockLimit, "subscription block limit"),
    (subscription.effectiveByteLimit, "subscription byte limit"),
    (limits.targetEncodedBytes, "delivery target encoded bytes"),
    (limits.maximumEncodedBytes, "delivery maximum encoded bytes"),
    (limits.maximumEvents, "delivery maximum events"),
    (limits.maximumProcessedBlocks, "delivery maximum processed blocks"),
    (limits.maximumDelayMs, "delivery maximum delay"),
    (limits.maximumBufferedBatches, "delivery maximum buffered batches"),
    (limits.maximumBufferedBytes, "delivery maximum buffered bytes"),
    (subscription.completionSequence.getD 0, "completion sequence"),
    (subscription.processedWorkBlocks, "processed subscription blocks")]

end BackfillSubscriptionRecord

def insertRanges (table : Table (String × Nat) (Nat × Nat)) (subscriptionId : String)
    (ranges : List Range) (conflict : StoreError) :
    Except StoreError (Table (String × Nat) (Nat × Nat)) := do
  foldExcept (fun _ range => do
    let _ ← u64I64 range.last "subscription range end"
    pure ()) () ranges
  let expected := ranges.map fun range => (range.start, range.last)
  let inserted := expected.zipIdx.foldl
    (fun table row => table.insertIfNew (subscriptionId, row.2) row.1) table
  let stored := (Table.rowsWhere inserted fun key _ => key.1 = subscriptionId).map Prod.snd
  ensure (stored = expected) conflict
  pure inserted

namespace Node

variable (node : Node)

def stream? (inst streamId : String) : Option Stream :=
  (node.instances[inst]?).bind fun registered => registered.rows.streams[streamId]?

def nextPublicationRevision (subscription : BackfillSubscriptionRecord) : Except StoreError Nat :=
  match subscription.mode with
  | .fillMissing => .ok 0
  | .recompute =>
    let highest := (((Table.rowsWhere node.subscriptions fun _ row =>
      row.processorInstance = subscription.processorInstance).map fun row =>
        row.2.publicationRevision).max?).getD 0
    do
      ensure (highest + 1 ≤ u64Max) (.numeric "next publication revision")
      pure (highest + 1)

def insertSubscription (subscription : BackfillSubscriptionRecord) : Except StoreError Node := do
  foldExcept (fun _ column => do
    let _ ← u64I64 column.1 column.2
    pure ()) () subscription.columns
  if (Table.firstWhere node.subscriptions fun _ stored => stored.Conflicts subscription).isSome then
    pure node
  else do
    ensure ((node.stream? subscription.processorInstance
        (subscription.processorInstance ++ ":live")).isSome)
      (.sqlx "FOREIGN KEY constraint failed")
    pure { node with subscriptions := node.subscriptions.insert subscription.jobId subscription }

def ownRanges (subscription : BackfillSubscriptionRecord) (ranges : List Range) : Node :=
  match node.instances[subscription.processorInstance]? with
  | some registered => { node with
      instances := node.instances.insert subscription.processorInstance
        { registered with rows := registered.rows.own subscription.subscriptionId ranges } }
  | none => node

/-- `INSERT INTO jobs` and its identity, `ON CONFLICT(job_id) DO NOTHING`, and the checks that what
is stored is what was asked for. -/
def insertJob (job : JobRecord) (requestIdentity : BlockHash) : Except StoreError Node := do
  let _ ← u64I64 job.updatedAt "updated_at_unix_ms"
  let inserted := { node with
    jobs := node.jobs.insertIfNew job.id job
    identities := node.identities.insertIfNew job.id requestIdentity }
  ensure (∀ stored ∈ inserted.jobs[job.id]?, stored.kind = job.kind ∧ stored.payload = job.payload)
    (.invalidConfig "backfill job identity conflicts with an existing job")
  ensure ((inserted.identities[job.id]?).all (· = requestIdentity))
    (.invalidConfig "backfill idempotency key is already used by another unresolved request")
  pure inserted

def validateSubscription (subscription : BackfillSubscriptionRecord) (job : JobRecord) :
    Except StoreError (List Range × List Range) := do
  let ranges ← normalizedSubscriptionRanges subscription
  let preexisting := normalizeRanges subscription.preexistingCoverage
  ensure (∀ covered ∈ preexisting, ∃ requested ∈ ranges,
      requested.start ≤ covered.start ∧ covered.last ≤ requested.last)
    (.invalidConfig "preexisting subscription coverage must be contained in requested ranges")
  ensure (subscription.Valid ranges job)
    (.invalidConfig "invalid durable backfill subscription identity or limits")
  ensure ((subscription.state = .waitingForConsumer ∨ subscription.state = .queued) ∧
      job.state = .queued)
    (.invalidConfig
      "new backfill subscriptions and jobs must start queued or waiting for a consumer")
  let stream ← required (node.stream? subscription.processorInstance subscription.historyStreamId)
    (.invalidConfig "backfill history stream does not belong to the subscription processor")
  ensure (∃ consumer ∈ stream.consumers[subscription.consumerId]?, consumer.role = .required)
    (.invalidConfig "backfill subscription requires its durable consumer before scheduling")
  pure (ranges, preexisting)

def createBackfillSubscriptionJob (subscription : BackfillSubscriptionRecord) (job : JobRecord)
    (requestIdentity : BlockHash) : Except StoreError (Node × JobRecord) := do
  let (ranges, preexisting) ← node.validateSubscription subscription job
  match node.jobs[job.id]?, node.identities[job.id]? with
  | some stored, some identity =>
    ensure (stored.kind = job.kind ∧ identity = requestIdentity)
      (.invalidConfig "backfill idempotency key is already used by another unresolved request")
    pure (node, stored)
  | _, _ =>
    let revision ← node.nextPublicationRevision subscription
    let inserted ← node.insertSubscription { subscription with publicationRevision := revision }
    ensure (((Table.firstWhere inserted.subscriptions fun _ stored =>
        stored.processorInstance = subscription.processorInstance &&
          stored.idempotencyKey = subscription.idempotencyKey).any fun stored =>
            stored.2.SameIdentity subscription))
      (.invalidConfig "backfill idempotency key is already used by another subscription")
    let requested ← insertRanges inserted.ranges subscription.subscriptionId ranges
      (.invalidConfig "backfill idempotency key is already used by another range set")
    let covered ← insertRanges inserted.preexistingRanges subscription.subscriptionId preexisting
      (.invalidConfig
        "backfill idempotency key is already used by another preexisting coverage snapshot")
    let created ← ({ inserted.ownRanges subscription ranges with
      ranges := requested
      preexistingRanges := covered }).insertJob job requestIdentity
    let stored ← required created.jobs[job.id]? (.invariant "created backfill job disappeared")
    pure (created, stored)

/-- `save_job`. A job that ended is not queued again, and one that was cancelled stays so. -/
def saveJob (job : JobRecord) : Except StoreError (Node × JobState) := do
  ensure (job.id ≠ "" ∧ job.kind ≠ "") (.invalidConfig "job id and kind must not be empty")
  let _ ← u64I64 job.updatedAt "updated_at_unix_ms"
  let kept := fun (stored : JobRecord) =>
    if stored.state = .cancelled ∨ (stored.state = .completed ∨ stored.state = .failed) ∧
        (job.state = .queued ∨ job.state = .running) then stored.state else job.state
  let state := (node.jobs[job.id]?).elim job.state kept
  pure ({ node with jobs := node.jobs.insert job.id { job with state } }, state)

end Node

inductive UnacknowledgedDelivery where
  | protect
  | discard
  deriving DecidableEq

structure HistoricalWorkDeletion where
  jobs : Nat
  subscriptionRanges : Nat
  consumers : Nat
  deliveryRecords : Nat
  deliveryStreams : Nat
  coverageIntervals : Nat
  coverageSegments : Nat
  exactCoverage : Nat
  appliedBlocks : Nat
  finalizedUndo : Nat
  deriving DecidableEq

def HistoricalWorkDeletion.default : HistoricalWorkDeletion := ⟨0, 0, 0, 0, 0, 0, 0, 0, 0, 0⟩

def protectedDelivery (stream : Stream) : Bool :=
  (Table.firstWhere stream.consumers fun _ consumer => consumer.role = .required &&
    consumer.state = .active && consumer.acknowledgedSequence < stream.nextSequence - 1).isSome

def Deletable (state : BackfillSubscriptionState) (unacknowledged : UnacknowledgedDelivery)
    (stream : Option Stream) : Prop :=
  state = .completeReclaimable ∨ (state = .cancelled ∨ state = .failed) ∧
    (unacknowledged = .discard ∨ stream.any protectedDelivery = false)

instance (state : BackfillSubscriptionState) (unacknowledged : UnacknowledgedDelivery)
    (stream : Option Stream) : Decidable (Deletable state unacknowledged stream) := by
  unfold Deletable
  infer_instance

/-- `DELETE FROM delivery_streams`; records and consumers go with it. -/
def Instance.dropStream (i : Instance) (streamId : String) : Instance :=
  { i with
    streams := i.streams.erase streamId
    backfillOrigins := i.backfillOrigins.erase streamId }

def removed {κ ν : Type} [Ord κ] [TransOrd κ] (before after : Table κ ν) : Nat :=
  before.size - after.size

namespace Node

variable (node : Node)

def deleteSubscription (jobId : String) (unacknowledged : UnacknowledgedDelivery) :
    Except StoreError (Node × HistoricalWorkDeletion) := do
  let row ← required node.subscriptions[jobId]?
    (.invariant ("historical subscription " ++ jobId ++ " disappeared before deletion"))
  let stream := node.stream? row.processorInstance row.historyStreamId
  ensure (Deletable row.state unacknowledged stream)
    (.historicalWorkNotDeletable jobId row.state.asStr)
  let registered ← required node.instances[row.processorInstance]? (.sqlx "RowNotFound")
  let before := registered.rows
  let after := before.release registered.processor.descriptor row.subscriptionId
  let ofSubscription := fun (key : String × Nat) (_ : Nat × Nat) => key.1 = row.subscriptionId
  pure ({ node with
      instances := node.instances.insert row.processorInstance
        { registered with rows := after.dropStream row.historyStreamId }
      subscriptions := node.subscriptions.erase jobId
      ranges := Table.deleteWhere node.ranges fun key range => ofSubscription key range
      preexistingRanges := Table.deleteWhere node.preexistingRanges fun key range =>
        ofSubscription key range },
    { HistoricalWorkDeletion.default with
      subscriptionRanges := (Table.rowsWhere node.ranges fun key range =>
        ofSubscription key range).length
      consumers := stream.elim 0 fun stream => stream.consumers.size
      deliveryRecords := stream.elim 0 fun stream => stream.changeLog.size
      deliveryStreams := stream.elim 0 fun _ => 1
      coverageIntervals := removed before.intervals after.intervals
      coverageSegments := removed before.segments after.segments
      exactCoverage := removed before.coverage after.coverage
      appliedBlocks := removed before.applied after.applied
      finalizedUndo := removed before.journal after.journal })

def deleteTerminalHistoricalWork (jobId outcomeId : String) (subscription : Bool)
    (unacknowledged : UnacknowledgedDelivery) :
    Except StoreError (Node × HistoricalWorkDeletion) := do
  ensure (jobId ∈ node.jobs)
    (.invariant ("historical job " ++ jobId ++ " disappeared before deletion"))
  let (kept, deletion) ← (if subscription then node.deleteSubscription jobId unacknowledged
    else do
      ensure (jobId ∉ node.subscriptions)
        (.invariant ("historical job " ++ jobId ++ " is a subscription, not a materialization"))
      pure (node, HistoricalWorkDeletion.default))
  let jobs := (kept.jobs.erase jobId).erase outcomeId
  pure ({ kept with
      jobs := jobs
      identities := (kept.identities.erase jobId).erase outcomeId },
    { deletion with jobs := removed kept.jobs jobs })

end Node

def CoverageEvent.Direct : CoverageEvent → Prop
  | .operate op => op.Forward
  | .own .. | .release .. => False
  | _ => True

inductive NodeEvent where
  | register (p : Processor)
  | coverage (inst : String) (event : CoverageEvent) (direct : event.Direct)
  | create (subscription : BackfillSubscriptionRecord) (job : JobRecord) (requestIdentity : BlockHash)
  | progress (jobId : String) (state : BackfillSubscriptionState)
  | saveJob (job : JobRecord)
  | delete (jobId outcomeId : String) (subscription : Bool) (unacknowledged : UnacknowledgedDelivery)

def nodeStep (node : Node) : NodeEvent → Node
  | .register p =>
    if p.descriptor.inst ∈ node.instances then node
    else { node with
      instances := node.instances.insert p.descriptor.inst ⟨p, .registered p.descriptor⟩ }
  | .coverage inst event _ =>
    match node.instances[inst]? with
    | some registered => { node with
        instances := node.instances.insert inst
          { registered with rows := coverageStep registered.processor registered.rows event } }
    | none => node
  | .create subscription job requestIdentity =>
    commit node (node.createBackfillSubscriptionJob subscription job requestIdentity)
  | .progress jobId state =>
    match node.subscriptions[jobId]? with
    | some row => { node with subscriptions := node.subscriptions.insert jobId { row with state } }
    | none => node
  | .saveJob job => commit node (node.saveJob job)
  | .delete jobId outcomeId subscription unacknowledged =>
    commit node (node.deleteTerminalHistoricalWork jobId outcomeId subscription unacknowledged)

def nodeRun (node : Node) (events : List NodeEvent) : Node := events.foldl nodeStep node

end Leani.Processor
