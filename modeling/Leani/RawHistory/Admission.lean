import Leani.RawHistory.Completion
import Leani.Library.Grants

/-!
# Admission of segments

`begin_segment` reserves the most a segment may hold, and its publication replaces that by what it
does hold. Both run under the lifecycle lock of the store; the files of a segment are removed, and
its reservation cleared, without it. A step is one transaction of one call; any calls interleave.
-/

namespace Leani.RawHistory

open Library Std

/-- `StorageBudget`, less the bytes of the whole directory. -/
structure StorageBudget where
  maximumLogicalBytes : Nat
  maximumFrameLogicalBytes : Nat
  maximumSegmentLogicalBytes : Nat
  maximumSegmentPhysicalBytes : Nat

inductive AdmissionError where
  | invalidReservation
  | arithmeticOverflow
  | logicalBudget (limit observed : Nat)
  | store (error : HistoryStoreError)

def Catalog.retainedLogical (c : Catalog) : Nat :=
  Table.sum c.segments fun _ row => row.metadata.logicalBytes

def Catalog.reservedLogical (c : Catalog) : Nat :=
  Table.sum c.reservations fun _ pending => pending.reservation.maximumLogicalBytes

def validateReservation (budget : StorageBudget) (reservation : SegmentReservation) :
    Except AdmissionError Unit :=
  ensure (0 < reservation.maximumLogicalBytes ∧ 0 < reservation.maximumPhysicalBytes ∧
      reservation.maximumLogicalBytes ≤ budget.maximumSegmentLogicalBytes ∧
      reservation.maximumPhysicalBytes ≤ budget.maximumSegmentPhysicalBytes) .invalidReservation

/-- `admit`: `files` is the answer of the physical budget, which measures the directory. -/
def admitSegment (budget : StorageBudget) (c : Catalog) (reservation : SegmentReservation)
    (files : Except HistoryStoreError Unit) : Except AdmissionError Unit := do
  -- `SUM` and the columns are 64-bit signed.
  ensure (c.retainedLogical ≤ i64Max ∧ c.reservedLogical ≤ i64Max) .arithmeticOverflow
  let projected := c.retainedLogical + c.reservedLogical + reservation.maximumLogicalBytes
  ensure (projected ≤ u64Max) .arithmeticOverflow
  ensure (projected ≤ budget.maximumLogicalBytes)
    (.logicalBudget budget.maximumLogicalBytes projected)
  files.mapError .store

inductive Stage where
  | admitted
  | reserved
  | writing (logicalBytes : Nat) (failed : Bool)
  | publishing (metadata : SegmentMetadata) (owners : List SegmentOwnerClaim)
  /-- `discard`; `adopted` after a publication that adopted a retained segment. -/
  | discarding (adopted : Bool)

structure SegmentTask where
  id : SegmentId
  pending : PendingSegment
  stage : Stage

inductive Holder where
  | begin (task : Nat)
  | deletion (id : String)
  deriving DecidableEq

/-- The store: its catalog, the lifecycle lock and the segments under way. `ledger` follows whose
reservation each row is, and `abandoned` the segments that ended without clearing theirs: dropped
values, and files that could not be removed. -/
structure Store where
  catalog : Catalog
  lifecycle : Option Holder
  tasks : Table Nat SegmentTask
  next : Nat
  ledger : Ledger String
  abandoned : List Nat

def Store.opened (c : Catalog) : Store where
  catalog := c
  lifecycle := none
  tasks := ∅
  next := 0
  ledger := .empty
  abandoned := []

inductive Event where
  | begin (id : SegmentId) (descriptor : SegmentDescriptor) (reservation : SegmentReservation)
      (profile : RawHistoryProfile) (indexes : RawHistoryIndexPolicy)
      (files : Except HistoryStoreError Unit)
  | insertReservation (task : Nat)
  | createWriter (task : Nat) (created : Bool)
  | append (task : Nat) (logicalLen : Option Nat) (valid : Bool)
  | commit (task : Nat) (file : Except HistoryStoreError ClosedFile) (owners : List SegmentOwnerClaim)
  | verifyRetained (task : Nat) (file : FileState)
  | publish (task : Nat)
  | abort (task : Nat)
  | discard (task : Nat) (removed : Bool)
  | forget (task : Nat)
  | dropSegment (id : SegmentId) (metadata : SegmentMetadata) (reason : String)
  | markUnowned (id : SegmentId)
  | deleteMarked (id : SegmentId) (removed : Bool)
  | reopen (files : String → FileState)

namespace Store

variable (s : Store)

def setStage (t : Nat) (task : SegmentTask) (stage : Stage) : Store :=
  { s with tasks := s.tasks.insert t { task with stage := stage } }

def finished (t : Nat) : Store := { s with tasks := s.tasks.erase t }

def clear (id : SegmentId) (t : Nat) : Store :=
  { s with
    catalog := clearReservation s.catalog id.value
    ledger := s.ledger.release id.value (some t) }

def unlocked : Store := { s with lifecycle := none }

end Store

/-- What `append` leaves of its writer. `valid`: the frame continues the segment, and its stored
bytes fit; `logicalLen`: its length, unless it cannot be encoded. -/
def appended (budget : StorageBudget) (reservation : SegmentReservation) (logicalBytes : Nat)
    (failed : Bool) (logicalLen : Option Nat) (valid : Bool) : Stage :=
  if failed = true ∨ valid = false then .writing logicalBytes true
  else
    match logicalLen with
    | none => .writing logicalBytes false
    | some logicalLen =>
      if logicalLen ≤ min budget.maximumFrameLogicalBytes reservation.maximumLogicalBytes ∧
          logicalBytes + logicalLen ≤ reservation.maximumLogicalBytes then
        .writing (logicalBytes + logicalLen) false
      else .writing logicalBytes true

def close (digests : Digests) (c : Catalog) (pending : PendingSegment) (logicalBytes : Nat)
    (failed : Bool) (file : Except HistoryStoreError ClosedFile) (owners : List SegmentOwnerClaim) :
    Except HistoryStoreError (SegmentMetadata × List SegmentOwnerClaim) := do
  let owners ← normalizeOwnerClaims owners
  validateInitialOwnerClaims digests c pending.descriptor owners
  ensure (failed = false) (.segment "the writer failed before")
  let file ← file
  ensure (logicalBytes ≤ pending.reservation.maximumLogicalBytes ∧
    file.physicalBytes ≤ pending.reservation.maximumPhysicalBytes) .reservationExceeded
  pure ({ file with logicalBytes := logicalBytes, descriptor := pending.descriptor }, owners)

/-- The publishing transaction: whether it adopted a retained segment, and the catalog it leaves
with the reservation cleared. -/
def publishTransaction (c : Catalog) (id : SegmentId) (metadata : SegmentMetadata)
    (pending : PendingSegment) (owners : List SegmentOwnerClaim) :
    Except HistoryStoreError (Bool × Catalog) := do
  ensure (id.value ∈ c.reservations) (.missingReservation id.value)
  let retained ← sameMaterial c metadata pending
  let published ← insertOrAdopt c id.value metadata pending owners
  pure (retained.isSome, clearReservation published id.value)

def Store.step (digests : Digests) (budget : StorageBudget) (s : Store) : Event → Store
  | .begin id descriptor reservation profile indexes files =>
    if logs : indexes.logs = false then
      if s.lifecycle = none then
        match (do validateReservation budget reservation
                  admitSegment budget s.catalog reservation files) with
        | .error _ => s
        | .ok () =>
          { s with
            lifecycle := some (.begin s.next)
            tasks := s.tasks.insert s.next
              ⟨id, ⟨descriptor, reservation, profile, indexes, logs⟩, .admitted⟩
            next := s.next + 1 }
      else s
    else s
  | .insertReservation t =>
    match s.tasks[t]? with
    | some ⟨id, pending, .admitted⟩ =>
      if id.value ∈ s.catalog.reservations then (s.finished t).unlocked
      else
        { s.setStage t ⟨id, pending, .admitted⟩ .reserved with
          catalog := { s.catalog with
            reservations := s.catalog.reservations.insert id.value pending }
          ledger := s.ledger.grant id.value t }
    | _ => s
  | .createWriter t created =>
    match s.tasks[t]? with
    | some ⟨id, pending, .reserved⟩ =>
      if created then (s.setStage t ⟨id, pending, .reserved⟩ (.writing 0 false)).unlocked
      else ((s.clear id t).finished t).unlocked
    | _ => s
  | .append t logicalLen valid =>
    match s.tasks[t]? with
    | some ⟨id, pending, .writing logicalBytes failed⟩ =>
      s.setStage t ⟨id, pending, .writing logicalBytes failed⟩
        (appended budget pending.reservation logicalBytes failed logicalLen valid)
    | _ => s
  | .commit t file owners =>
    match s.tasks[t]? with
    | some ⟨id, pending, .writing logicalBytes failed⟩ =>
      match close digests s.catalog pending logicalBytes failed file owners with
      | .error _ => s.setStage t ⟨id, pending, .writing logicalBytes failed⟩ (.discarding false)
      | .ok (metadata, owners) =>
        s.setStage t ⟨id, pending, .writing logicalBytes failed⟩ (.publishing metadata owners)
    | _ => s
  | .verifyRetained t file =>
    match s.tasks[t]? with
    | some ⟨id, pending, .publishing metadata owners⟩ =>
      if s.lifecycle = none then
        match sameMaterial s.catalog metadata pending >>= dropUnusable s.catalog id.value file with
        | .error _ => s.setStage t ⟨id, pending, .publishing metadata owners⟩ (.discarding false)
        | .ok c => { s with catalog := c }
      else s
    | _ => s
  | .publish t =>
    match s.tasks[t]? with
    | some ⟨id, pending, .publishing metadata owners⟩ =>
      if s.lifecycle = none then
        match publishTransaction s.catalog id metadata pending owners with
        | .error _ => s.setStage t ⟨id, pending, .publishing metadata owners⟩ (.discarding false)
        | .ok (adopted, c) =>
          let s := { s with catalog := c, ledger := s.ledger.release id.value (some t) }
          -- The files of a publication that adopted are removed as those of a failed one.
          if adopted then s.setStage t ⟨id, pending, .publishing metadata owners⟩ (.discarding true)
          else s.finished t
      else s
    | _ => s
  | .abort t =>
    match s.tasks[t]? with
    | some ⟨id, pending, .writing logicalBytes failed⟩ =>
      s.setStage t ⟨id, pending, .writing logicalBytes failed⟩ (.discarding false)
    | _ => s
  | .discard t removed =>
    match s.tasks[t]? with
    | some ⟨id, _, .discarding _⟩ =>
      if removed then (s.clear id t).finished t
      else { s.finished t with abandoned := t :: s.abandoned }
    | _ => s
  | .forget t =>
    match s.tasks[t]? with
    | some _ =>
      { s.finished t with
        lifecycle := if s.lifecycle = some (.begin t) then none else s.lifecycle
        abandoned := t :: s.abandoned }
    | none => s
  | .dropSegment id metadata reason =>
    if s.lifecycle = none then
      { s with catalog := s.catalog.after (RawHistory.dropSegment s.catalog id.value metadata reason) }
    else s
  | .markUnowned id =>
    if s.lifecycle = none then
      match RawHistory.markUnowned s.catalog id.value with
      | .error _ => s
      | .ok c => { s with catalog := c, lifecycle := some (.deletion id.value) }
    else s
  | .deleteMarked id removed =>
    if s.lifecycle = some (.deletion id.value) then
      if removed then
        { s with catalog := RawHistory.deleteMarked s.catalog id.value, lifecycle := none }
      else s.unlocked
    else s
  | .reopen files =>
    { s with
      catalog := (RawHistory.reopen s.catalog files).1
      lifecycle := none
      tasks := ∅
      ledger := s.ledger.releaseAll
      abandoned := [] }

def Store.run (digests : Digests) (budget : StorageBudget) (s : Store) (events : List Event) :
    Store :=
  events.foldl (Store.step digests budget) s

end Leani.RawHistory
