import Leani.RawHistory.Catalog

/-!
# Publishing and recovering segments

The calls with more than one transaction: publishing a segment with its first owners, claiming what
is retained already, and opening the store again. A run is any sequence of calls.
-/

namespace Leani.RawHistory

open Library Std Leani.Filtering

variable (digests : Digests)

inductive FileState where
  | present
  | missing
  | corrupt
  | unavailable
  deriving DecidableEq

/-- `begin_segment_profiled`: reserve capacity and open a segment. `admission` is the answer of the
budgets and of the files at its paths. -/
def beginSegment (c : Catalog) (id : SegmentId) (descriptor : SegmentDescriptor)
    (reservation : SegmentReservation) (profile : RawHistoryProfile) (indexes : RawHistoryIndexPolicy)
    (admission : Except HistoryStoreError Unit) : Except HistoryStoreError Catalog :=
  if logs : indexes.logs = false then do
    admission
    ensure (id.value ∉ c.reservations) (.sql "raw_segment_reservations.segment_id")
    pure { c with
      reservations := c.reservations.insert id.value
        ⟨descriptor, reservation, profile, indexes, logs⟩ }
  else .error (.invalidJob "raw log indexes are not implemented")

def clearReservation (c : Catalog) (id : String) : Catalog :=
  { c with reservations := c.reservations.erase id }

/-- The columns of the material identity, `raw_segments_material_identity`. -/
def isSameMaterial (metadata : SegmentMetadata) (pending : PendingSegment) (row : SegmentRow) :
    Bool :=
  row.metadata.descriptor = metadata.descriptor && row.profile = pending.profile &&
    row.blockHashIndexed = pending.indexes.blockHash &&
    row.transactionHashIndexed = pending.indexes.transactionHash

def profileColumns : RawHistoryProfile → Except HistoryStoreError Unit
  | .processorReuse => pure ()
  | .postMergeExecutionRpc mergeBlock => ensure (mergeBlock ≤ i64Max) (.numericRange "Merge block")

/-- `same_material`: the catalogued segment with the same material identity. -/
def sameMaterial (c : Catalog) (metadata : SegmentMetadata) (pending : PendingSegment) :
    Except HistoryStoreError (Option (String × SegmentRow)) := do
  profileColumns pending.profile
  ensure (metadata.descriptor.chainId ≤ i64Max) (.numericRange "chain ID")
  ensure (metadata.descriptor.range.start ≤ i64Max) (.numericRange "start block")
  ensure (metadata.descriptor.range.last ≤ i64Max) (.numericRange "end block")
  match Table.firstWhere c.segments fun _ row => isSameMaterial metadata pending row with
  | none => pure none
  | some (id, row) => do
    ensure (row.state = .closed)
      (.catalogIntegrity s!"segment `{id}` of the same material is being deleted")
    pure (some (id, row))

def insertSegment (c : Catalog) (id : String) (metadata : SegmentMetadata)
    (pending : PendingSegment) : Except HistoryStoreError Catalog := do
  ensure (metadata.logicalBytes ≤ i64Max) (.numericRange "logical bytes")
  ensure (metadata.physicalBytes ≤ i64Max) (.numericRange "physical bytes")
  ensure (0 < metadata.descriptor.chainId ∧ 0 < metadata.logicalBytes ∧ 0 < metadata.physicalBytes)
    (.sql "raw_segments")
  ensure (id ∉ c.segments) (.sql "raw_segments.segment_id")
  pure { c with
    segments := c.segments.insert id
      { metadata := metadata
        profile := pending.profile
        blockHashIndexed := pending.indexes.blockHash
        transactionHashIndexed := pending.indexes.transactionHash
        state := .closed } }

/-- A retained segment of the same material is verified before it is adopted: an unusable one is
dropped, and this copy published instead. `file` is what opening it finds. -/
def dropUnusable (c : Catalog) (id : String) (file : FileState) :
    Option (String × SegmentRow) → Except HistoryStoreError Catalog
  | none => .ok c
  | some (retained, row) =>
    if retained = id then dropMissingSegment c retained row.metadata
    else
      match file with
      | .missing => dropMissingSegment c retained row.metadata
      | .corrupt => quarantine c retained row.metadata "segment validation failed"
      | .present | .unavailable => .ok c

def insertOrAdopt (c : Catalog) (id : String) (metadata : SegmentMetadata) (pending : PendingSegment)
    (owners : List SegmentOwnerClaim) : Except HistoryStoreError Catalog := do
  match ← sameMaterial c metadata pending with
  | some (retained, row) =>
    ensure (row.metadata.firstParentHash = metadata.firstParentHash ∧
        row.metadata.lastHash = metadata.lastHash ∧
        row.metadata.orderedHashDigest = metadata.orderedHashDigest) (.catalogIntegrity
      (s!"segment `{id}` disagrees with retained segment `{retained}` over the same finalized " ++
        "blocks"))
    insertOwners c retained owners
  | none => do
    let c ← insertSegment c id metadata pending
    insertOwners c id owners

/-- The checks of `publish` before its transactions; `file` is the outcome of closing the file. -/
def finish (c : Catalog) (id : String) (file : Except HistoryStoreError ClosedFile)
    (owners : List SegmentOwnerClaim) :
    Except HistoryStoreError (PendingSegment × SegmentMetadata × List SegmentOwnerClaim) := do
  let pending ← required c.reservations[id]? (.missingReservation id)
  let owners ← normalizeOwnerClaims owners
  validateInitialOwnerClaims digests c pending.descriptor owners
  let file ← file
  ensure (file.logicalBytes ≤ pending.reservation.maximumLogicalBytes ∧
    file.physicalBytes ≤ pending.reservation.maximumPhysicalBytes) .reservationExceeded
  pure (pending, { file with descriptor := pending.descriptor }, owners)

def publishSegment (c : Catalog) (id : String) (file : Except HistoryStoreError ClosedFile)
    (owners : List SegmentOwnerClaim) (retainedFile : FileState) :
    Catalog × Except HistoryStoreError Unit :=
  match finish digests c id file owners with
  | .error error => (c, .error error)
  | .ok (pending, metadata, owners) =>
    match sameMaterial c metadata pending >>= dropUnusable c id retainedFile with
    | .error error => (c, .error error)
    | .ok c =>
      match insertOrAdopt c id metadata pending owners with
      | .error error => (c, .error error)
      | .ok c => (c, .ok ())

/-- `commit`: publish, and clear the reservation however it ended. -/
def publish (c : Catalog) (id : String) (file : Except HistoryStoreError ClosedFile)
    (owners : List SegmentOwnerClaim) (retainedFile : FileState) :
    Catalog × Except HistoryStoreError Unit :=
  let published := publishSegment digests c id file owners retainedFile
  (clearReservation published.1 id, published.2)

/-- The conditions of `claim_compatible_segments_for_raw_history_job` on a closed segment. -/
def isCompatible (job : RawHistoryJob) (row : SegmentRow) : Bool :=
  describes digests row.metadata.descriptor job.spec && row.profile.satisfies job.spec.profile &&
    row.indexes.contains job.spec.indexes

/-- One segment of the list: a segment whose file is gone serves nothing, and one nothing owns is
forgotten. `files` answers for the segment files. -/
def claimSegment (job : RawHistoryJob) (files : String → FileState) (claimed : Catalog × Nat)
    (segment : String × SegmentRow) : Except HistoryStoreError (Catalog × Nat) :=
  let (c, count) := claimed
  let (id, row) := segment
  let owner : SegmentOwnerClaim := ⟨.rawHistoryJob, job.id⟩
  if !isCompatible digests job row || c.owns id owner then .ok (c, count)
  else
    match files id with
    | .missing =>
      if (Table.rowsWhere c.owners fun key _ => key.1 = id) = [] then do
        let c ← dropMissingSegment c id row.metadata
        pure (c, count)
      else .ok (c, count)
    | .unavailable => .error (.segment "segment file unavailable")
    | .present | .corrupt => do
      let c ← addOwner digests c id owner
      ensure (count < u64Max) .arithmeticOverflow
      pure (c, count + 1)

/-- `claim_compatible_segments_for_raw_history_job`: the catalog it leaves, and how many segments it
claimed. -/
def claimCompatibleSegments (c : Catalog) (id : RawHistoryJobId) (files : String → FileState) :
    Catalog × Except HistoryStoreError Nat :=
  match requiredJob digests c id.value with
  | .error error => (c, .error error)
  | .ok job =>
    if job.state.isTerminal then (c, .error (.jobState id.value job.state.asStr))
    else
      let segments := Table.rowsWhere c.segments fun _ row => row.state = .closed
      let claimed := foldKeeping (claimSegment digests job files) (c, 0) segments
      (claimed.1.1, claimed.2.map fun _ => claimed.1.2)

def unavailableMissingSegmentsPercent : Nat := 50

def recoverSegment (files : String → FileState) (c : Catalog) (segment : String × SegmentRow) :
    Except HistoryStoreError Catalog :=
  match files segment.1 with
  | .present | .missing => .ok c
  | .corrupt => dropSegment c segment.1 segment.2.metadata
      "failed validation and was quarantined: it no longer has its closed length"
  | .unavailable => .error (.segment "segment file unavailable")

def recoverMarked (files : String → FileState) (c : Catalog) (segment : String × SegmentRow) :
    Except HistoryStoreError Catalog :=
  match files segment.1 with
  | .present | .missing | .corrupt => .ok (deleteMarked c segment.1)
  | .unavailable => .error (.segment "segment file unavailable")

def dropMissing (c : Catalog) (files : String → FileState) (rows : List (String × SegmentRow)) :
    Catalog × Except HistoryStoreError Unit :=
  let missing := rows.filter fun segment => files segment.1 = .missing
  if satMul rows.length unavailableMissingSegmentsPercent < satMul missing.length 100 then
    (c, .ok ())
  else foldKeeping (fun c segment => dropMissingSegment c segment.1 segment.2.metadata) c missing

/-- `recover`: finish interrupted publications and deletions, then drop the segments whose files are
unusable. -/
def recover (c : Catalog) (files : String → FileState) : Catalog × Except HistoryStoreError Unit :=
  let marked := Table.rowsWhere c.segments fun _ row => row.state = .deleting
  match foldKeeping (recoverMarked files) { c with reservations := ∅ } marked with
  | (c, .error error) => (c, .error error)
  | (c, .ok ()) =>
    let rows := Table.rowsWhere c.segments fun _ row => row.state = .closed
    match foldKeeping (recoverSegment files) c rows with
    | (c, .error error) => (c, .error error)
    | (c, .ok ()) => dropMissing c files rows

def reconcileAllJobs (c : Catalog) : Catalog × Except HistoryStoreError Unit :=
  foldKeeping (fun c job => refreshJobProgress c job.1) c c.jobs.toList

def reopen (c : Catalog) (files : String → FileState) : Catalog × Except HistoryStoreError Unit :=
  match recover c files with
  | (c, .error error) => (c, .error error)
  | (c, .ok ()) => reconcileAllJobs c

inductive Call where
  | createJob (id : RawHistoryJobId) (spec : RawHistoryJobSpec)
  | startJob (id : RawHistoryJobId)
  | backpressureJob (id : RawHistoryJobId) (error : String)
  | waitJob (id : RawHistoryJobId) (error : String)
  | failJob (id : RawHistoryJobId) (error : String)
  | cancelJob (id : RawHistoryJobId)
  | deleteJob (id : RawHistoryJobId)
  | reconcileJob (id : RawHistoryJobId)
  | beginSegment (id : SegmentId) (descriptor : SegmentDescriptor)
      (reservation : SegmentReservation) (profile : RawHistoryProfile)
      (indexes : RawHistoryIndexPolicy) (admission : Except HistoryStoreError Unit)
  | publish (id : SegmentId) (file : Except HistoryStoreError ClosedFile)
      (owners : List SegmentOwnerClaim) (retainedFile : FileState)
  | abort (id : SegmentId)
  | claimCompatible (id : RawHistoryJobId) (files : String → FileState)
  | addOwner (id : SegmentId) (owner : SegmentOwnerClaim)
  | removeOwner (id : SegmentId) (owner : SegmentOwnerClaim)
  | quarantine (id : SegmentId) (metadata : SegmentMetadata) (reason : String)
  | deleteUnowned (id : SegmentId) (removed : Except HistoryStoreError Unit)
  | reopen (files : String → FileState)

def Catalog.after (c : Catalog) : Except HistoryStoreError Catalog → Catalog
  | .ok c' => c'
  | .error _ => c

def step (c : Catalog) : Call → Catalog
  | .createJob id spec => c.after (createRawHistoryJob digests c id spec)
  | .startJob id => c.after (startRawHistoryJob c id)
  | .backpressureJob id error => c.after (backpressureRawHistoryJob c id error)
  | .waitJob id error => c.after (waitRawHistoryJob c id error)
  | .failJob id error => c.after (failRawHistoryJob c id error)
  | .cancelJob id => c.after (cancelRawHistoryJob c id)
  | .deleteJob id => c.after (deleteRawHistoryJob digests c id)
  | .reconcileJob id => c.after (refreshJobProgress c id.value)
  | .beginSegment id descriptor reservation profile indexes admission =>
    c.after (beginSegment c id descriptor reservation profile indexes admission)
  | .publish id file owners retainedFile => (publish digests c id.value file owners retainedFile).1
  | .abort id => clearReservation c id.value
  | .claimCompatible id files => (claimCompatibleSegments digests c id files).1
  | .addOwner id owner => c.after (addOwner digests c id.value owner)
  | .removeOwner id owner => c.after (removeOwner c id.value owner)
  | .quarantine id metadata reason => c.after (quarantine c id.value metadata reason)
  | .deleteUnowned id removed => (deleteUnowned c id.value removed).1
  | .reopen files => (reopen c files).1

def run (c : Catalog) (calls : List Call) : Catalog := calls.foldl (step digests) c

end Leani.RawHistory
