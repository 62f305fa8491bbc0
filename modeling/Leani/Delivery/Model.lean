import Leani.Primitives

/-!
# Delivery streams

One delivery stream of the store: its `delivery_streams` row, its rows of `change_log` and its
`durable_consumers`. Every statement on these tables selects by stream, so a stream is a value of
its own. A function that fails leaves its transaction, and with it the stream, untouched.
-/

namespace Leani.Delivery

open Library Std

inductive DeliveryOriginKind where
  | live
  | liveRecovery
  | historicalBackfill
  | recompute
  deriving DecidableEq

structure DeliveryOrigin where
  kind : DeliveryOriginKind
  id : String
  publicationRevision : Nat
  deriving DecidableEq

def DeliveryOrigin.live (inst : String) : DeliveryOrigin := ⟨.live, inst, 0⟩

def DeliveryOrigin.liveRecovery (inst : String) : DeliveryOrigin := ⟨.liveRecovery, inst, 0⟩

inductive ChangeDirection where
  | apply
  | undo
  | finalized
  | resetRequired
  deriving DecidableEq

inductive ChangeOperation where
  | upsert
  | delete
  deriving DecidableEq

structure DomainChange where
  kind : String
  key : List UInt8
  operation : ChangeOperation
  payload : List UInt8
  deriving DecidableEq

structure ChangeRow where
  chainId : Nat
  origin : DeliveryOrigin
  block : BlockRef
  finality : Finality
  direction : ChangeDirection
  change : DomainChange
  createdAt : Nat
  deriving DecidableEq

def ChangeRow.bytes (r : ChangeRow) : Nat := r.change.key.length + r.change.payload.length

/-- The columns `live_commit_continues_after` compares: a commit is one block's records at one
finality, direction and origin. -/
def ChangeRow.SameCommit (current next : ChangeRow) : Prop :=
  next.block.number = current.block.number ∧ next.block.hash = current.block.hash ∧
    next.finality = current.finality ∧ next.direction = current.direction ∧
    next.origin = current.origin

instance (current next : ChangeRow) : Decidable (current.SameCommit next) := by
  unfold ChangeRow.SameCommit
  infer_instance

inductive DeliveryStreamKind where
  | canonical
  | live
  | backfill
  deriving DecidableEq

inductive ConsumerRole where
  | required
  | bestEffort
  deriving DecidableEq

structure Consumer where
  role : ConsumerRole
  state : ConsumerState
  acknowledgedSequence : Nat
  deliveredSequence : Nat
  acknowledgedWorkBlocks : Nat
  leaseGeneration : Nat
  leaseExpiresAt : Nat
  leaseTtl : Nat
  deriving DecidableEq

structure Stream where
  kind : DeliveryStreamKind
  nextSequence : Nat
  prunedThroughSequence : Nat
  liveBytes : Int
  changeLog : Table Nat ChangeRow
  consumers : Table String Consumer

def Stream.new (kind : DeliveryStreamKind) : Stream := ⟨kind, 1, 0, 0, ∅, ∅⟩

def changeRow (now chainId : Nat) (origin : DeliveryOrigin) (block : BlockRef) (finality : Finality)
    (direction : ChangeDirection) (change : DomainChange) : ChangeRow where
  chainId := chainId
  origin := origin
  block := block
  finality := finality
  direction := direction
  change := change
  createdAt := now

structure Appending where
  changeLog : Table Nat ChangeRow
  nextSequence : Nat
  appendedBytes : Nat
  first : Option Nat
  last : Option Nat

def appendRow (st : Appending) (row : ChangeRow) : Except StoreError Appending := do
  ensure (row.bytes ≤ u64Max) (.numeric "appended delivery change bytes")
  ensure (st.appendedBytes + row.bytes ≤ u64Max) (.numeric "appended delivery change bytes")
  let _ ← u64I64 row.chainId "chain_id"
  let _ ← u64I64 row.origin.publicationRevision "publication revision"
  let _ ← u64I64 row.block.number "block_number"
  let _ ← u64I64 row.block.timestamp "block_timestamp"
  ensure (st.changeLog[st.nextSequence]? = none)
    (.sqlx "UNIQUE constraint failed: change_log.stream_id, change_log.stream_sequence")
  ensure (row.change.kind = "system.backfill_complete" →
      (Table.firstWhere st.changeLog fun _ r => r.change.kind = "system.backfill_complete") = none)
    (.sqlx "UNIQUE constraint failed: change_log.stream_id")
  ensure (st.nextSequence + 1 ≤ i64Max) (.numeric "next stream change sequence")
  pure {
    changeLog := st.changeLog.insert st.nextSequence row
    nextSequence := st.nextSequence + 1
    appendedBytes := st.appendedBytes + row.bytes
    first := st.first.or (some st.nextSequence)
    last := some st.nextSequence }

/-- `append_changes`: the records of one commit, and the first and last sequence they got. -/
def appendChanges (s : Stream) (now chainId : Nat) (origin : DeliveryOrigin) (block : BlockRef)
    (finality : Finality) (direction : ChangeDirection) (changes : List DomainChange) :
    Except StoreError (Stream × Option Nat × Option Nat) := do
  let st ← foldExcept appendRow ⟨s.changeLog, s.nextSequence, 0, none, none⟩
    (changes.map (changeRow now chainId origin block finality direction))
  -- Without changes the row is not written, which is the same as adding nothing to it.
  let appendedBytes ← u64I64 st.appendedBytes "appended delivery change bytes"
  pure ({ s with
    changeLog := st.changeLog
    nextSequence := st.nextSequence
    liveBytes := s.liveBytes + appendedBytes }, st.first, st.last)

/-- `live_commit_continues_after`: the block whose commit the next record carries on. -/
def liveCommitContinuesAfter (s : Stream) (sequence : Nat) : Option Nat :=
  match s.changeLog[sequence]?, Table.firstWhere s.changeLog fun seq _ => sequence < seq with
  | some current, some (_, next) =>
    if current.SameCommit next then some current.block.number else none
  | _, _ => none

/-- The newest sequence of the stream, `MAX(stream_sequence)`. -/
def latestSequence (s : Stream) : Option Nat := (Table.lastWhere s.changeLog fun _ _ => true).map (·.1)

def backfillProgressBlocks (payload : List UInt8) : Except StoreError Nat :=
  if payload = [] then .ok 1 else do
    ensure (payload.length = 24) (.invariant "invalid backfill progress payload")
    ensure (fromBeBytes (payload.take 8) ≤ fromBeBytes ((payload.drop 8).take 8))
      (.invariant "invalid backfill progress boundary")
    pure (fromBeBytes (payload.drop 16))

/-- The work blocks that the progress records after `acknowledged` and through `sequence` report. -/
def newlyAcknowledgedWork (s : Stream) (acknowledged sequence : Nat) : Except StoreError Nat :=
  foldExcept (fun total row => do
      let blocks ← backfillProgressBlocks row.2.change.payload
      ensure (total + blocks ≤ u64Max) (.numeric "newly acknowledged work blocks")
      pure (total + blocks)) 0
    (Table.rowsWhere s.changeLog fun seq row =>
      acknowledged < seq && seq ≤ sequence && row.change.kind = "system.backfill_progress")

/-- Where a consumer may acknowledge: a backfill stream at its progress and completion records, a
live stream where a commit ends. -/
def validateBoundary (s : Stream) (sequence : Nat) : Except StoreError Unit :=
  match s.kind with
  | .backfill =>
    ensure (∃ row ∈ s.changeLog[sequence]?, row.change.kind = "system.backfill_progress" ∨
        row.change.kind = "system.backfill_complete") (.acknowledgementNotBoundary sequence)
  | .live =>
    match liveCommitContinuesAfter s sequence with
    | some block => .error (.acknowledgementMidBlock sequence block)
    | none => .ok ()
  | .canonical => .ok ()

def validateAdvance (s : Stream) (consumer : Consumer) (sequence : Nat) : Except StoreError Unit :=
  if consumer.acknowledgedSequence < sequence then do
    let head := (latestSequence s).getD 0
    ensure (sequence ≤ head) (.acknowledgementBeyondHead sequence head)
    ensure (sequence ≤ consumer.deliveredSequence)
      (.acknowledgementBeyondDelivered sequence consumer.deliveredSequence)
    validateBoundary s sequence
  else pure ()

def Consumer.SessionCurrent (consumer : Consumer) (now : Nat) (session : Option Nat) : Prop :=
  ∀ generation ∈ session, consumer.leaseGeneration = generation ∧ now < consumer.leaseExpiresAt

instance (consumer : Consumer) (now : Nat) (session : Option Nat) :
    Decidable (consumer.SessionCurrent now session) := by
  unfold Consumer.SessionCurrent
  infer_instance

def advanceAcknowledgement (s : Stream) (now : Nat) (consumerId : String) (consumer : Consumer)
    (session : Option Nat) (sequence : Nat) : Except StoreError (Stream × Consumer) := do
  ensure (consumer.acknowledgedSequence ≤ sequence)
    (.acknowledgementBackwards sequence consumer.acknowledgedSequence)
  validateAdvance s consumer sequence
  let work ← newlyAcknowledgedWork s consumer.acknowledgedSequence sequence
  ensure (consumer.acknowledgedWorkBlocks + work ≤ u64Max)
    (.numeric "consumer acknowledged work blocks")
  let acknowledged ← u64I64 sequence "acknowledged sequence"
  let workBlocks ← u64I64 (consumer.acknowledgedWorkBlocks + work) "consumer acknowledged work blocks"
  ensure (session.isSome → now + consumer.leaseTtl ≤ i64Max) (.numeric "consumer lease expiry")
  let updated := { consumer with
    acknowledgedSequence := acknowledged
    deliveredSequence := max consumer.deliveredSequence acknowledged
    acknowledgedWorkBlocks := workBlocks
    leaseExpiresAt := if session.isSome then now + consumer.leaseTtl else consumer.leaseExpiresAt }
  pure ({ s with consumers := s.consumers.insert consumerId updated }, updated)

/-- `acknowledge_consumer_in_stream_inner`. A session that has ended, but that no other has
replaced, may repeat the acknowledged sequence, which writes nothing. -/
def acknowledgeConsumer (s : Stream) (now : Nat) (consumerId : String) (session : Option Nat)
    (sequence : Nat) : Except StoreError (Stream × Consumer) := do
  let consumer ← required s.consumers[consumerId]? (.consumerNotFound consumerId)
  ensure (consumer.state = .active) (.consumerInactive consumerId consumer.state)
  if consumer.SessionCurrent now session then
    advanceAcknowledgement s now consumerId consumer session sequence
  else do
    ensure (session = some consumer.leaseGeneration ∧ sequence = consumer.acknowledgedSequence)
      (.consumerSessionLost consumerId (session.getD 0))
    pure (s, consumer)

def recordConsumerDelivery (s : Stream) (now : Nat) (consumerId : String) (session : Option Nat)
    (sequence : Nat) : Except StoreError (Stream × Bool) := do
  let sequence ← u64I64 sequence "delivered sequence"
  match s.consumers[consumerId]? with
  | none => pure (s, false)
  | some consumer =>
    let updated := { consumer with deliveredSequence := max consumer.deliveredSequence sequence }
    if consumer.state = .active ∧ consumer.SessionCurrent now session then
      pure ({ s with consumers := s.consumers.insert consumerId updated }, true)
    else pure (s, false)

end Leani.Delivery
