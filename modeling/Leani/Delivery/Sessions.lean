import Leani.Delivery.Retention

/-!
# Consumer sessions

Registration of a stream's consumers and the exclusive sessions under which they read: a session is
a generation of the consumer's lease. Every write happens under the store's writer lock, so each of
the operations is one step of the stream; a check that an operation makes before it takes the lock
is a read and decides nothing on its own.
-/

namespace Leani.Delivery

open Library Std

def validConsumerId (value : String) : Bool :=
  value ≠ "" && value.utf8ByteSize ≤ 128 &&
    value.toList.all fun ch => ch.isAlphanum || ch = '-' || ch = '_' || ch = '.'

/-- `MAXIMUM_CONSUMER_LEASE_TTL`, a hundred years, in nanoseconds. -/
def maximumConsumerLeaseTtl : Nat := 100 * 365 * 24 * 3600 * 1000000000

/-- `validate_consumer_registration`; the lease is given in nanoseconds. -/
def validateConsumerRegistration (consumerId : String) (ttl : Nat) : Except StoreError Unit :=
  ensure (validConsumerId consumerId = true ∧ ttl ≠ 0 ∧ ttl ≤ maximumConsumerLeaseTtl)
    (.invalidConfig ("consumer ID must be 1-128 portable characters and lease TTL must be non-zero " ++
      "and at most 100 years"))

def validateConsumerCredential (credential : String) : Except StoreError Unit :=
  ensure (32 ≤ credential.utf8ByteSize ∧ credential.utf8ByteSize ≤ 512 ∧
      credential.toList.all fun ch => 33 ≤ ch.toNat && ch.toNat ≤ 126)
    (.invalidConfig ("consumer credential must hold 32 to 512 printable ASCII characters without " ++
      "spaces; use a random value such as `openssl rand -hex 32`"))

inductive ConsumerStartPosition where
  | earliestRetained
  | currentHead
  | after (sequence : Nat)
  deriving DecidableEq

structure Registration where
  consumerId : String
  role : ConsumerRole
  start : ConsumerStartPosition
  ttl : Nat
  credential : Option String
  untilAcknowledged : Bool
  deriving DecidableEq

def ensureRequiredConsumerRetention (s : Stream) (registration : Registration) :
    Except StoreError Unit :=
  ensure (registration.role = .required → registration.untilAcknowledged = true ∨ s.kind = .backfill)
    (.invalidConfig ("required consumers need until_acknowledged delivery; the stream prunes " ++
      "without waiting for acknowledgements, so register a best_effort consumer instead"))

def startSequence (s : Stream) : ConsumerStartPosition → Except StoreError Nat
  | .earliestRetained =>
    .ok (((Table.firstWhere s.changeLog fun _ _ => true).map (·.1 - 1)).getD s.prunedThroughSequence)
  | .currentHead => .ok ((latestSequence s).getD s.prunedThroughSequence)
  | .after sequence => do
    ensure (s.prunedThroughSequence ≤ sequence)
      (.consumerResetRequired ((Table.firstWhere s.changeLog fun _ _ => true).map (·.1))
        (latestSequence s))
    let head := (latestSequence s).getD s.prunedThroughSequence
    ensure (sequence ≤ head) (.acknowledgementBeyondHead sequence head)
    pure sequence

def createConsumer (s : Stream) (now : Nat) (registration : Registration) :
    Except StoreError (Stream × Consumer) := do
  validateConsumerRegistration registration.consumerId registration.ttl
  let ttl ← u64I64 (registration.ttl / 1000000) "consumer lease TTL"
  ensure (s.consumers[registration.consumerId]? = none) (.consumerExists registration.consumerId)
  registration.credential.elim (.ok ()) validateConsumerCredential
  ensureRequiredConsumerRetention s registration
  let acknowledged ← startSequence s registration.start
  ensure (now + ttl ≤ i64Max) (.numeric "consumer lease expiry")
  let acknowledged ← u64I64 acknowledged "acknowledged sequence"
  ensure (0 < ttl) (.sqlx "CHECK constraint failed: lease_ttl_ms > 0")
  let consumer : Consumer := ⟨registration.role, .active, acknowledged, acknowledged, 0, 0, now + ttl,
    ttl⟩
  pure ({ s with consumers := s.consumers.insert registration.consumerId consumer }, consumer)

structure ConsumerSessionLease where
  generation : Nat
  expiresAt : Nat
  deriving DecidableEq

def Stream.putConsumer (s : Stream) (consumerId : String) (consumer : Consumer) : Stream :=
  { s with consumers := s.consumers.insert consumerId consumer }

def consumerSessionIsCurrent (s : Stream) (now : Nat) (consumerId : String) (generation : Nat) : Bool :=
  s.consumers[consumerId]?.any fun consumer =>
    consumer.state = .active && consumer.leaseGeneration = generation && now < consumer.leaseExpiresAt

def acquireConsumerSession (s : Stream) (now : Nat) (consumerId : String) :
    Except StoreError (Stream × ConsumerSessionLease) := do
  let consumer ← required s.consumers[consumerId]? (.consumerNotFound consumerId)
  ensure (consumer.state = .active) (.consumerInactive consumerId consumer.state)
  ensure (¬ (0 < consumer.leaseGeneration ∧ now < consumer.leaseExpiresAt))
    (.consumerSessionActive consumerId consumer.leaseExpiresAt)
  ensure (consumer.leaseGeneration + 1 ≤ u64Max) (.numeric "consumer lease generation")
  ensure (now + consumer.leaseTtl ≤ i64Max) (.numeric "consumer lease expiry")
  let generation ← u64I64 (consumer.leaseGeneration + 1) "consumer lease generation"
  pure (s.putConsumer consumerId { consumer with
    leaseGeneration := generation
    leaseExpiresAt := now + consumer.leaseTtl }, ⟨generation, now + consumer.leaseTtl⟩)

/-- `renew_consumer_in_stream`: the lease of whatever session the consumer has. -/
def renewConsumer (s : Stream) (now : Nat) (consumerId : String) :
    Except StoreError (Stream × Consumer) := do
  let consumer ← required s.consumers[consumerId]? (.consumerNotFound consumerId)
  ensure (consumer.state = .active) (.consumerInactive consumerId consumer.state)
  ensure (now + consumer.leaseTtl ≤ i64Max)
    (.sqlx "cannot store REAL value in INTEGER column durable_consumers.lease_expires_at_unix_ms")
  let renewed := { consumer with leaseExpiresAt := now + consumer.leaseTtl }
  pure (s.putConsumer consumerId renewed, renewed)

def renewConsumerSession (s : Stream) (now : Nat) (consumerId : String) (generation : Nat) :
    Except StoreError (Stream × ConsumerSessionLease) := do
  let generation ← u64I64 generation "consumer lease generation"
  ensure (consumerSessionIsCurrent s now consumerId generation)
    (.consumerSessionLost consumerId generation)
  let consumer ← required s.consumers[consumerId]? (.consumerSessionLost consumerId generation)
  ensure (now + consumer.leaseTtl ≤ i64Max)
    (.sqlx "cannot store REAL value in INTEGER column durable_consumers.lease_expires_at_unix_ms")
  pure (s.putConsumer consumerId { consumer with leaseExpiresAt := now + consumer.leaseTtl },
    ⟨generation, now + consumer.leaseTtl⟩)

def releaseConsumerSession (s : Stream) (now : Nat) (consumerId : String) (generation : Nat) :
    Except StoreError (Stream × Bool) := do
  let generation ← u64I64 generation "consumer lease generation"
  match s.consumers[consumerId]? with
  | none => pure (s, false)
  | some consumer =>
    if consumer.leaseGeneration = generation then
      pure (s.putConsumer consumerId { consumer with leaseExpiresAt := now }, true)
    else pure (s, false)

/-- The check of `record_consumer_delivery_in_stream` before it takes the writer lock: its answer
where it already knows it. -/
def checkConsumerDelivery (s : Stream) (now : Nat) (consumerId : String) (session : Option Nat)
    (sequence : Nat) : Option Bool :=
  match s.consumers[consumerId]? with
  | none => some false
  | some consumer =>
    if consumer.state = .active ∧ consumer.SessionCurrent now session then
      if sequence ≤ consumer.deliveredSequence then some true else none
    else some false

/-- `transition_consumer`, which revokes a consumer or marks it as requiring a reset. -/
def transitionConsumer (s : Stream) (consumerId : String) (state : ConsumerState) :
    Except StoreError (Stream × Consumer) := do
  let consumer ← required s.consumers[consumerId]? (.consumerNotFound consumerId)
  let transitioned := { consumer with state := state }
  pure (s.putConsumer consumerId transitioned, transitioned)

def revokeConsumer (s : Stream) (consumerId : String) : Except StoreError (Stream × Consumer) :=
  transitionConsumer s consumerId .revoked

def resetConsumerRequired (s : Stream) (consumerId : String) :
    Except StoreError (Stream × Consumer) :=
  transitionConsumer s consumerId .resetRequired

/-- The delivery limit's `expire_and_reset`: every active required consumer needs a reset. -/
def expireRequired (s : Stream) : Stream :=
  let affected := fun (_ : String) (consumer : Consumer) =>
    decide (consumer.role = .required ∧ consumer.state = .active)
  { s with
    consumers := Table.updateWhere s.consumers affected fun consumer =>
      { consumer with state := .resetRequired } }

inductive SessionEvent where
  | publish (chainId : Nat) (origin : DeliveryOrigin) (block : BlockRef) (finality : Finality)
      (direction : ChangeDirection) (changes : List DomainChange)
  | prune (requestedBefore : Nat)
  | create (registration : Registration)
  | acquire (consumerId : String)
  | renew (consumerId : String)
  | renewSession (consumerId : String) (generation : Nat)
  | release (consumerId : String) (generation : Nat)
  | deliver (consumerId : String) (session : Option Nat) (sequence : Nat)
  | acknowledge (consumerId : String) (session : Option Nat) (sequence : Nat)
  | revoke (consumerId : String)
  | resetRequired (consumerId : String)
  | markReset (consumerId : String)
  | expireRequired

def sessionStep (s : Stream) (now : Nat) : SessionEvent → Stream
  | .publish chainId origin block finality direction changes =>
    commit s (appendChanges s now chainId origin block finality direction changes)
  | .prune requestedBefore => commit s (pruneChangesBefore s requestedBefore)
  | .create registration => commit s (createConsumer s now registration)
  | .acquire consumerId => commit s (acquireConsumerSession s now consumerId)
  | .renew consumerId => commit s (renewConsumer s now consumerId)
  | .renewSession consumerId generation => commit s (renewConsumerSession s now consumerId generation)
  | .release consumerId generation => commit s (releaseConsumerSession s now consumerId generation)
  | .deliver consumerId session sequence =>
    commit s (recordConsumerDelivery s now consumerId session sequence)
  | .acknowledge consumerId session sequence =>
    commit s (acknowledgeConsumer s now consumerId session sequence)
  | .revoke consumerId => commit s (revokeConsumer s consumerId)
  | .resetRequired consumerId => commit s (resetConsumerRequired s consumerId)
  | .markReset consumerId => (markResetRequired s consumerId).1
  | .expireRequired => expireRequired s

def recordsOf (s : Stream) (now : Nat) : SessionEvent → List ChangeRow
  | .publish chainId origin block finality direction changes =>
    publishedBy s (.append now chainId origin block finality direction changes)
  | _ => []

def sessionRun (s : Stream) (events : List (Nat × SessionEvent)) : Stream :=
  events.foldl (fun s event => sessionStep s event.1 event.2) s

def sessionPublished : Stream → List (Nat × SessionEvent) → List ChangeRow
  | _, [] => []
  | s, (now, event) :: events =>
    recordsOf s now event ++ sessionPublished (sessionStep s now event) events

def acquiredBy (s : Stream) (now : Nat) (consumerId : String) : SessionEvent → List Nat
  | .acquire id =>
    if id = consumerId then
      match acquireConsumerSession s now id with
      | .ok (_, lease) => [lease.generation]
      | .error _ => []
    else []
  | _ => []

def acquired (consumerId : String) : Stream → List (Nat × SessionEvent) → List Nat
  | _, [] => []
  | s, (now, event) :: events =>
    acquiredBy s now consumerId event ++ acquired consumerId (sessionStep s now event) events

def startedBy (s : Stream) (now : Nat) (consumerId : String) : SessionEvent → Option Nat
  | .create registration =>
    if registration.consumerId = consumerId then
      match createConsumer s now registration with
      | .ok (_, consumer) => some consumer.acknowledgedSequence
      | .error _ => none
    else none
  | _ => none

def started (consumerId : String) : Stream → List (Nat × SessionEvent) → Option Nat
  | _, [] => none
  | s, (now, event) :: events =>
    (started consumerId (sessionStep s now event) events).or (startedBy s now consumerId event)

def SessionEvent.Names (consumerId : String) (generation : Nat) : SessionEvent → Prop
  | .renewSession id named | .release id named => id = consumerId ∧ named = generation
  | .deliver id session _ | .acknowledge id session _ =>
    id = consumerId ∧ session = some generation
  | _ => False

def progressBlocks (records : List ChangeRow) : Except StoreError (List Nat) :=
  (records.filter fun row => row.change.kind = "system.backfill_progress").mapM fun row =>
    backfillProgressBlocks row.change.payload

end Leani.Delivery
