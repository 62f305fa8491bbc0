import Leani.RawHistory.Specs

/-!
# The raw-history catalog

Jobs, retained segments and the owners that keep them. Every transaction of the catalog is a
function that fails and changes nothing, or returns the new catalog; a call with several
transactions keeps what the earlier ones did when a later one fails. What happens to the segment
files is an argument of the calls that look at them. A call that returns a job reads it back after
its transaction, which changes nothing.
-/

namespace Leani.RawHistory

open Library Std Leani.Filtering

inductive RawHistoryJobState where
  | queued
  | running
  | storageBackpressured
  | complete
  | cancelled
  | failed
  deriving DecidableEq

namespace RawHistoryJobState

def asStr : RawHistoryJobState → String
  | queued => "queued"
  | running => "running"
  | storageBackpressured => "storage_backpressured"
  | complete => "complete"
  | cancelled => "cancelled"
  | failed => "failed"

def isTerminal : RawHistoryJobState → Bool
  | complete | cancelled | failed => true
  | queued | running | storageBackpressured => false

def isSettled : RawHistoryJobState → Bool
  | cancelled | failed => true
  | queued | running | storageBackpressured | complete => false

end RawHistoryJobState

structure JobRow where
  identity : Digest
  spec : RawHistoryJobSpec
  state : RawHistoryJobState
  attempts : Nat
  committedSegments : Nat
  committedLogicalBytes : Nat
  committedPhysicalBytes : Nat
  lastError : Option String

structure RawHistoryJob where
  id : String
  identity : Digest
  spec : RawHistoryJobSpec
  state : RawHistoryJobState
  attempts : Nat
  committedSegments : Nat
  committedLogicalBytes : Nat
  committedPhysicalBytes : Nat
  remainingRanges : List Range
  lastError : Option String

structure SegmentDescriptor where
  chainId : Nat
  range : Range
  materialShape : Digest
  presentCapabilities : CapabilitySet
  completeCapabilities : CapabilitySet
  verification : VerificationClass
  trust : TrustModel
  deriving DecidableEq

structure ClosedFile where
  logicalBytes : Nat
  physicalBytes : Nat
  firstParentHash : BlockHash
  lastHash : BlockHash
  orderedHashDigest : Digest
  contentChecksum : Digest

structure SegmentMetadata extends ClosedFile where
  descriptor : SegmentDescriptor

inductive SegmentState where
  | closed
  | deleting
  deriving DecidableEq

structure SegmentRow where
  metadata : SegmentMetadata
  profile : RawHistoryProfile
  blockHashIndexed : Bool
  transactionHashIndexed : Bool
  state : SegmentState

def SegmentRow.indexes (row : SegmentRow) : RawHistoryIndexPolicy :=
  ⟨row.blockHashIndexed, row.transactionHashIndexed, false⟩

inductive SegmentOwnerKind where
  | rawHistoryJob
  | processorJob
  | operatorPin
  deriving DecidableEq

namespace SegmentOwnerKind

def asStr : SegmentOwnerKind → String
  | rawHistoryJob => "raw_history_job"
  | processorJob => "processor_job"
  | operatorPin => "operator_pin"

def toNat : SegmentOwnerKind → Nat
  | rawHistoryJob => 0
  | processorJob => 1
  | operatorPin => 2

theorem asStr_injective : Function.Injective asStr := by
  intro a b h
  cases a <;> cases b <;> first | rfl | (revert h; decide)

end SegmentOwnerKind

structure SegmentOwnerClaim where
  kind : SegmentOwnerKind
  ownerId : String
  deriving DecidableEq

instance : Ord SegmentOwnerClaim where
  compare a b := compare (a.kind.toNat, a.ownerId) (b.kind.toNat, b.ownerId)

structure SegmentReservation where
  maximumLogicalBytes : Nat
  maximumPhysicalBytes : Nat

structure PendingSegment where
  descriptor : SegmentDescriptor
  reservation : SegmentReservation
  profile : RawHistoryProfile
  indexes : RawHistoryIndexPolicy
  logs : indexes.logs = false

instance ownerKeyTransOrd : TransOrd (String × String × String) := pairTransOrd

structure Catalog where
  jobs : Table String JobRow
  segments : Table String SegmentRow
  owners : Table (String × String × String) Unit
  reservations : Table String PendingSegment

namespace Catalog

def empty : Catalog := ⟨∅, ∅, ∅, ∅⟩

variable (c : Catalog)

def owns (segment : String) (claim : SegmentOwnerClaim) : Bool :=
  c.owners.contains (segment, claim.kind.asStr, claim.ownerId)

def ownedSegments (jobId : String) : List (String × SegmentRow) :=
  Table.rowsWhere c.segments fun segment row =>
    row.state = .closed && c.owns segment ⟨.rawHistoryJob, jobId⟩

def jobOwners (segment : String) : List String :=
  (Table.rowsWhere c.owners fun key _ =>
    key.1 = segment && key.2.1 = SegmentOwnerKind.rawHistoryJob.asStr).map (·.1.2.2)

end Catalog

structure Digests where
  material : RawHistoryMaterialProfile → Digest
  job : RawHistoryJobSpec → Digest

variable (digests : Digests)

def shapeId (material : RawHistoryMaterialProfile) : Digest :=
  if material = .complete then 0 else digests.material material

def checkedSum : List Nat → Except HistoryStoreError Nat
  | [] => pure 0
  | value :: values => do
    let sum ← checkedSum values
    ensure (value + sum ≤ u64Max) .arithmeticOverflow
    pure (value + sum)

def rawHistoryJob (c : Catalog) (id : String) : Except HistoryStoreError (Option RawHistoryJob) :=
  match c.jobs[id]? with
  | none => pure none
  | some row => do
    let spec ← decodeSpec row.spec
    ensure (row.identity = digests.job spec)
      (.catalogIntegrity s!"raw-history job `{id}` identity mismatch")
    let covered := (c.ownedSegments id).map (·.2.metadata.descriptor.range)
    pure (some
      { id := id
        identity := row.identity
        spec := spec
        state := row.state
        attempts := row.attempts
        committedSegments := row.committedSegments
        committedLogicalBytes := row.committedLogicalBytes
        committedPhysicalBytes := row.committedPhysicalBytes
        remainingRanges := requestedGaps spec.ranges covered
        lastError := row.lastError })

def requiredJob (c : Catalog) (id : String) : Except HistoryStoreError RawHistoryJob := do
  required (← rawHistoryJob digests c id) (.unknownJob id)

/-- `refresh_job_progress_tx`: recompute counters and completion from owned coverage. -/
def refreshJobProgress (c : Catalog) (id : String) : Except HistoryStoreError Catalog := do
  let row ← required c.jobs[id]? (.unknownJob id)
  let spec ← decodeSpec row.spec
  let segments := c.ownedSegments id
  let logical ← checkedSum (segments.map (·.2.metadata.logicalBytes))
  let physical ← checkedSum (segments.map (·.2.metadata.physicalBytes))
  let covered := segments.map (·.2.metadata.descriptor.range)
  let state :=
    if (requestedGaps spec.ranges covered).isEmpty && !row.state.isSettled then .complete
    else row.state
  let count ← u64I64 segments.length "committed segment count"
  let logical ← u64I64 logical "committed logical bytes"
  let physical ← u64I64 physical "committed physical bytes"
  pure { c with
    jobs := c.jobs.insert id { row with
      state := state
      committedSegments := count
      committedLogicalBytes := logical
      committedPhysicalBytes := physical } }

/-- `create_raw_history_job`: a request known under the id, or under another one, is kept. -/
def createRawHistoryJob (c : Catalog) (id : RawHistoryJobId) (spec : RawHistoryJobSpec) :
    Except HistoryStoreError Catalog := do
  let spec ← spec.normalize
  let identity := digests.job spec
  match ← rawHistoryJob digests c id.value with
  | some existing =>
    ensure (existing.identity = identity) (.jobConflict existing.id)
    pure c
  | none =>
    match Table.firstWhere c.jobs fun _ row => row.identity = identity with
    | some _ => pure c
    | none => do
      spec.ranges.forM fun range => do
        ensure (range.start ≤ i64Max) (.numericRange "range start")
        ensure (range.last ≤ i64Max) (.numericRange "range end")
      pure { c with
        jobs := c.jobs.insert id.value
          { identity := identity
            spec := spec
            state := .queued
            attempts := 0
            committedSegments := 0
            committedLogicalBytes := 0
            committedPhysicalBytes := 0
            lastError := none } }

def transition (c : Catalog) (id : RawHistoryJobId) (update : JobRow → JobRow) :
    Except HistoryStoreError Catalog :=
  match c.jobs[id.value]? with
  | none => .error (.unknownJob id.value)
  | some row =>
    if row.state.isTerminal then .error (.jobState id.value row.state.asStr)
    else .ok { c with jobs := c.jobs.insert id.value (update row) }

def startRawHistoryJob (c : Catalog) (id : RawHistoryJobId) : Except HistoryStoreError Catalog :=
  transition c id fun row => { row with state := .running, attempts := row.attempts + 1 }

def backpressureRawHistoryJob (c : Catalog) (id : RawHistoryJobId) (error : String) :
    Except HistoryStoreError Catalog :=
  transition c id fun row => { row with state := .storageBackpressured, lastError := some error }

def waitRawHistoryJob (c : Catalog) (id : RawHistoryJobId) (error : String) :
    Except HistoryStoreError Catalog :=
  transition c id fun row => { row with state := .running, lastError := some error }

def failRawHistoryJob (c : Catalog) (id : RawHistoryJobId) (error : String) :
    Except HistoryStoreError Catalog :=
  transition c id fun row => { row with state := .failed, lastError := some error }

/-- `cancel_raw_history_job`: a terminal job stays as it is. -/
def cancelRawHistoryJob (c : Catalog) (id : RawHistoryJobId) : Except HistoryStoreError Catalog :=
  match c.jobs[id.value]? with
  | none => .error (.unknownJob id.value)
  | some row =>
    if row.state.isTerminal then .ok c
    else .ok { c with jobs := c.jobs.insert id.value { row with state := .cancelled } }

/-- `delete_raw_history_job`: release, but do not delete, the segments of a terminal job. -/
def deleteRawHistoryJob (c : Catalog) (id : RawHistoryJobId) : Except HistoryStoreError Catalog := do
  let job ← requiredJob digests c id.value
  ensure job.state.isTerminal (.jobState id.value job.state.asStr)
  pure { c with
    owners := Table.deleteWhere c.owners fun key _ =>
      key.2.1 = SegmentOwnerKind.rawHistoryJob.asStr && key.2.2 = id.value
    jobs := c.jobs.erase id.value }

def validateOwnerId (value : String) : Except HistoryStoreError Unit :=
  ensure (value ≠ "" ∧ value.utf8ByteSize ≤ 128 ∧ value.toList.all fun ch =>
      ch.isAlphanum || ch = '-' || ch = '_' || ch = '.' || ch = ':')
    (.invalidOwnerId value)

/-- `normalize_owner_claims`: a set of claims with valid owners. -/
def normalizeOwnerClaims (owners : List SegmentOwnerClaim) :
    Except HistoryStoreError (List SegmentOwnerClaim) := do
  owners.forM fun owner => validateOwnerId owner.ownerId
  pure (sortDedup owners)

/-- The conditions of `validate_initial_owner_claims` on a job's request. -/
def describes (descriptor : SegmentDescriptor) (spec : RawHistoryJobSpec) : Bool :=
  descriptor.chainId = spec.chainId &&
    descriptor.materialShape = shapeId digests spec.material &&
    descriptor.completeCapabilities.withDerivable.containsAll spec.requiredCapabilities &&
    spec.verification ≤ descriptor.verification && spec.minimumTrust ≤ descriptor.trust &&
    spec.ranges.any fun range => rangesOverlap range descriptor.range

def validateOwnerClaim (c : Catalog) (descriptor : SegmentDescriptor) (owner : SegmentOwnerClaim) :
    Except HistoryStoreError Unit :=
  match owner.kind with
  | .processorJob | .operatorPin => pure ()
  | .rawHistoryJob => do
    let id ← RawHistoryJobId.new? owner.ownerId
    let job ← requiredJob digests c id.value
    ensure (job.state.isTerminal = false ∧ describes digests descriptor job.spec = true)
      (.invalidJob s!"segment is incompatible with raw-history job `{id.value}`")

def validateInitialOwnerClaims (c : Catalog) (descriptor : SegmentDescriptor)
    (owners : List SegmentOwnerClaim) : Except HistoryStoreError Unit :=
  owners.forM (validateOwnerClaim digests c descriptor)

def insertOwner (segment : String) (c : Catalog) (owner : SegmentOwnerClaim) :
    Except HistoryStoreError Catalog :=
  let c := { c with owners := c.owners.insert (segment, owner.kind.asStr, owner.ownerId) () }
  match owner.kind with
  | .processorJob | .operatorPin => pure c
  | .rawHistoryJob =>
    refreshJobProgress { c with
        jobs := Table.updateWhere c.jobs (fun id row => id = owner.ownerId && !row.state.isTerminal)
          fun row => { row with lastError := none } } owner.ownerId

def insertOwners (c : Catalog) (segment : String) (owners : List SegmentOwnerClaim) :
    Except HistoryStoreError Catalog :=
  foldExcept (insertOwner segment) c owners

def closedSegment (c : Catalog) (id : String) : Option SegmentRow :=
  c.segments[id]?.filter fun row => row.state = .closed

def addOwner (c : Catalog) (id : String) (owner : SegmentOwnerClaim) :
    Except HistoryStoreError Catalog := do
  validateOwnerId owner.ownerId
  let row ← required (closedSegment c id) (.unknownSegment id)
  validateInitialOwnerClaims digests c row.metadata.descriptor [owner]
  insertOwner id c owner

def removeOwner (c : Catalog) (id : String) (owner : SegmentOwnerClaim) :
    Except HistoryStoreError Catalog := do
  validateOwnerId owner.ownerId
  ensure (owner.kind ≠ .rawHistoryJob) (.invalidJob
    "raw-history job ownership is released by deleting the terminal job")
  pure { c with owners := c.owners.erase (id, owner.kind.asStr, owner.ownerId) }

/-- Record on an owning job why its segment is gone, and count its coverage again. A complete job
goes back to the queue; a failed or cancelled one keeps the reason it ended. -/
def lapseJob (error : String) (c : Catalog) (owner : String) : Except HistoryStoreError Catalog :=
  refreshJobProgress { c with
      jobs := Table.updateWhere c.jobs (fun id row => id = owner && !row.state.isSettled) fun row =>
        { row with
          lastError := some error
          state := if row.state = .complete then .queued else row.state } } owner

/-- `drop_segment`: forget a segment whose file is unusable, with its owners. A catalog without this
exact segment is left alone. -/
def dropSegment (c : Catalog) (id : String) (metadata : SegmentMetadata) (reason : String) :
    Except HistoryStoreError Catalog :=
  match closedSegment c id with
  | none => .ok c
  | some row =>
    if row.metadata.contentChecksum = metadata.contentChecksum then
      let range := metadata.descriptor.range
      let error := s!"retained segment `{id}` for blocks {range.start} to {range.last} " ++
        s!"{reason}; those blocks are no longer retained"
      foldExcept (lapseJob error) { c with
          segments := c.segments.erase id
          owners := Table.deleteWhere c.owners fun key _ => key.1 = id }
        (c.jobOwners id)
    else .ok c

def dropMissingSegment (c : Catalog) (id : String) (metadata : SegmentMetadata) :
    Except HistoryStoreError Catalog :=
  dropSegment c id metadata "is missing from disk"

/-- `quarantine`, after a read of the segment failed validation. -/
def quarantine (c : Catalog) (id : String) (metadata : SegmentMetadata) (reason : String) :
    Except HistoryStoreError Catalog :=
  dropSegment c id metadata s!"failed validation and was quarantined: {reason}"

/-- The first transaction of `delete_unowned`: nothing reads the segment any more. -/
def markUnowned (c : Catalog) (id : String) : Except HistoryStoreError Catalog := do
  let owners := Table.rowsWhere c.owners fun key _ => key.1 = id
  ensure (owners = []) (.ownedSegment id owners.length)
  let row ← required (closedSegment c id) (.unknownSegment id)
  pure { c with segments := c.segments.insert id { row with state := .deleting } }

def deleteMarked (c : Catalog) (id : String) : Catalog :=
  match c.segments[id]? with
  | some row =>
    if row.state = .deleting then
      { c with
        segments := c.segments.erase id
        owners := Table.deleteWhere c.owners fun key _ => key.1 = id }
    else c
  | none => c

/-- `delete_unowned`. When its file cannot be removed, the segment stays marked. -/
def deleteUnowned (c : Catalog) (id : String) (removed : Except HistoryStoreError Unit) :
    Catalog × Except HistoryStoreError Unit :=
  match markUnowned c id with
  | .error error => (c, .error error)
  | .ok c =>
    match removed with
    | .error error => (c, .error error)
    | .ok () => (deleteMarked c id, .ok ())

end Leani.RawHistory
