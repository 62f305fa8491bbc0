import Leani.Library.Ranges
import Leani.Processor.Batches
import Leani.Processor.Runs

/-!
# Coverage, its owners and its compaction

Which blocks an instance covers is kept as exact rows and, once `compact_finalized_coverage` has
folded a run of finalized rows, as an interval with the segments that prove it. Ranges of owners say
for whom a block stays covered: the live lane and materializations share one owner, each backfill
subscription is its own, and deleting a subscription lets go of what nobody else owns.
-/

namespace Leani.Processor

open Library Std Delivery

def mergeBlockNumbers (numbers : List Nat) : List Range := Range.runs u64Max numbers

def normalizeRanges (ranges : List Range) : List Range := Range.normalize u64Max ranges

def clip (requested : BlockRange) (interval : Nat × Nat) : Except StoreError Range :=
  if h : max interval.1 requested.start ≤ min interval.2 requested.last then
    .ok ⟨max interval.1 requested.start, min interval.2 requested.last, h⟩
  else .error (.invariant "block range end precedes start")

/-- The ranges of the exact rows that satisfy `p` and of the intervals. -/
def Store.reportCoverage (s : Store) (p : CoverageRow → Bool) (requested : BlockRange) :
    Except StoreError (List Range) := do
  let start ← u64I64 requested.start "block_number"
  let last ← u64I64 requested.last "block_number"
  let exact := mergeBlockNumbers ((Table.rowsWhere s.coverage fun number row =>
    start ≤ number && number ≤ last && p row).map Prod.fst)
  let compact ← (Table.rowsWhere s.intervals fun intervalStart intervalEnd =>
    start ≤ intervalEnd && intervalStart ≤ last).mapM (clip requested)
  pure (normalizeRanges (exact ++ compact))

def Store.reportedCoverage (s : Store) : BlockRange → Except StoreError (List Range) :=
  s.reportCoverage fun _ => true

def Store.finalizedCoverage (s : Store) : BlockRange → Except StoreError (List Range) :=
  s.reportCoverage fun row => row.finality = .finalized

/-- The rows of one instance with those of `finalized_coverage_owners`. -/
structure Instance extends Store where
  sharedOwner : Table Nat Nat
  subscriptionOwners : Table (String × Nat) Nat

def Instance.registered (d : ProcessorDescriptor) : Instance where
  toStore := .registered d
  sharedOwner := ∅
  subscriptionOwners := ∅

namespace Instance

variable (i : Instance)

def ownsWithin (first last : Nat) : Bool :=
  (Table.firstWhere i.sharedOwner fun start stop => start ≤ last && first ≤ stop).isSome ||
    (Table.firstWhere i.subscriptionOwners fun key stop => key.2 ≤ last && first ≤ stop).isSome

def owned (number : Nat) : Bool := i.ownsWithin number number

/-- `extend_shared_coverage_owner_range`: merge the range with those it overlaps or touches. -/
def extendSharedOwner (first last : Nat) : Instance :=
  let touching := Table.rowsWhere i.sharedOwner fun start stop =>
    start ≤ last + 1 && first - 1 ≤ stop
  let mergedStart := touching.head?.elim first fun row => min first row.1
  let mergedEnd := touching.foldl (fun merged row => max merged row.2) last
  let replaced := { i with
    sharedOwner := (Table.deleteWhere i.sharedOwner fun start stop =>
      start ≤ last + 1 && first - 1 ≤ stop).insert mergedStart mergedEnd }
  match touching with
  | [(start, stop)] =>
    if start = mergedStart then
      if stop ≠ mergedEnd then { i with sharedOwner := i.sharedOwner.insert start mergedEnd } else i
    else replaced
  | _ => replaced

def own (subscriptionId : String) (ranges : List Range) : Instance :=
  ranges.foldl (fun i range =>
    let key := (subscriptionId, range.start)
    { i with
      subscriptionOwners := i.subscriptionOwners.insert key
        (i.subscriptionOwners[key]?.elim range.last fun stop => max stop range.last) }) i

inductive HandoffState where
  | running
  | verified
  | failed
  deriving DecidableEq

structure Handoff where
  state : HandoffState
  overlapFrom : Nat
  overlapTo : Nat
  deriving DecidableEq

structure CompactionContext where
  activeSubscriptions : Nat
  handoffs : List Handoff
  audits : List Nat
  unanchored : Nat → Bool

def archiveAuditHoldBlocks : Nat := 65536

def CompactionContext.archiveAuditBound (context : CompactionContext) (through : Nat) : Nat :=
  match ((context.handoffs.filter (·.state = .verified)).map Handoff.overlapTo).min? with
  | none => through
  | some liveAfter =>
    let heldAfter := context.audits.max?.elim liveAfter fun audited => max audited liveAfter
    min through (max heldAfter (through - archiveAuditHoldBlocks))

def CompactionContext.held (context : CompactionContext) (number : Nat) : Bool :=
  context.handoffs.any fun handoff =>
    handoff.state = .running && handoff.overlapFrom ≤ number && number ≤ handoff.overlapTo

def compacted (number : Nat) : Bool :=
  (Table.firstWhere i.intervals fun start stop => start ≤ number && number ≤ stop).isSome

def compactable (context : CompactionContext) (bound : Nat) : List (Nat × CoverageRow) :=
  Table.rowsWhere i.coverage fun number row => row.finality = .finalized && number ≤ bound &&
    i.owned number && !i.compacted number && !context.held number

def exactRun (context : CompactionContext) : Option (Nat × CoverageRow) →
    List (Nat × CoverageRow) → Except StoreError (List (Nat × CoverageRow))
  | _, [] => .ok []
  | prior, row :: rows => do
    ensure (context.unanchored row.1 = false)
      (.invalidConfig ("coverage block " ++ toString row.1 ++ " predates retained parent anchors"))
    if prior.all fun below => row.1 = satAdd below.1 1 then do
      ensure (prior.all fun below => row.2.parentHash = below.2.hash)
        (.invariant ("finalized coverage parent mismatch at block " ++ toString row.1))
      let rest ← exactRun context (some row) rows
      pure (row :: rest)
    else pure []

def chunksFrom {α : Type} (size : Nat) : Nat → List α → List (List α)
  | 0, _ => []
  | fuel + 1, rows =>
    if rows.isEmpty then [] else rows.take size :: chunksFrom size fuel (rows.drop size)

/-- `slice::chunks`; no chunk is empty, so the rows bound the chunks. -/
def chunks {α : Type} (size : Nat) (rows : List α) : List (List α) :=
  chunksFrom size rows.length rows

def segmentOf (intervalStart : Nat) (chunk : List (Nat × CoverageRow)) :
    Except StoreError (Nat × CoverageSegment) := do
  let first ← required chunk.head? (.invariant "coverage compaction produced an empty segment")
  let last ← required chunk.getLast? (.invariant "coverage compaction produced an empty segment")
  pure (last.1, ⟨intervalStart, first.1, first.2.parentHash, last.2.hash⟩)

structure FinalizedCoverageCompaction where
  intervalsCreated : Nat
  segmentsCreated : Nat
  exactCoverageDeleted : Nat
  appliedBlocksDeleted : Nat
  finalizedUndoDeleted : Nat
  compactedRange : Option (Nat × Nat)
  deriving DecidableEq

def FinalizedCoverageCompaction.empty : FinalizedCoverageCompaction := ⟨0, 0, 0, 0, 0, none⟩

def fold (first last : Nat) (segments : List (Nat × CoverageSegment)) :
    Except StoreError (Instance × FinalizedCoverageCompaction) := do
  ensure (first ∉ i.intervals) (.sqlx "UNIQUE constraint failed: finalized_coverage_intervals")
  let covered := fun (number : Nat) (row : CoverageRow) =>
    first ≤ number && number ≤ last && row.finality = .finalized
  let applied := fun (key : Nat × BlockHash) (_ : BlockHash) => first ≤ key.1 && key.1 ≤ last
  let journaled := fun (key : Nat × BlockHash) (row : JournalRow) =>
    first ≤ key.1 && key.1 ≤ last && row.finalized
  pure ({ i with
      intervals := i.intervals.insert first last
      segments := Table.insertRows i.segments segments
      coverage := Table.deleteWhere i.coverage covered
      applied := Table.deleteWhere i.applied applied
      journal := Table.deleteWhere i.journal journaled },
    ⟨1, segments.length, (Table.rowsWhere i.coverage covered).length,
      (Table.rowsWhere i.applied applied).length, (Table.rowsWhere i.journal journaled).length,
      some (first, last)⟩)

def compactFinalizedCoverage (d : ProcessorDescriptor) (context : CompactionContext)
    (through segmentSize maximumBlocks : Nat) :
    Except StoreError (Instance × FinalizedCoverageCompaction) := do
  ensure (d.mode = .blockLocal)
    (.invalidConfig "finalized coverage compaction requires a block-local processor")
  ensure (segmentSize ≠ 0 ∧ maximumBlocks ≠ 0)
    (.invalidConfig "coverage segment and compaction batch sizes must be greater than zero")
  if context.activeSubscriptions ≠ 0 then pure (i, .empty)
  else do
    let _ ← u64I64 through "coverage compaction through"
    let bound ← u64I64 (context.archiveAuditBound through) "coverage compaction through"
    let rows := (i.compactable context bound).take (min maximumBlocks 100000)
    if rows.isEmpty then pure (i, .empty)
    else do
      let exact ← exactRun context none rows
      let first ← required exact.head? (.invariant "coverage compaction lost its non-empty range")
      let last ← required exact.getLast? (.invariant "coverage compaction lost its non-empty range")
      let segments ← (chunks (max (min segmentSize maximumBlocks) 1) exact).mapM (segmentOf first.1)
      i.fold first.1 last.1 segments

def rangesOf (subscriptionId : String) : List (Nat × Nat) :=
  (Table.rowsWhere i.subscriptionOwners fun key _ => key.1 = subscriptionId).map
    fun row => (row.1.2, row.2)

def orphaned (ranges : List (Nat × Nat)) (number : Nat) : Bool :=
  (ranges.any fun range => range.1 ≤ number && number ≤ range.2) && !i.owned number

def orphanedInterval (ranges : List (Nat × Nat)) (first last : Nat) : Bool :=
  (ranges.any fun range => range.1 ≤ last && first ≤ range.2) && !i.ownsWithin first last &&
    (Table.firstWhere i.segments fun _ segment => segment.intervalStart = first).isSome

/-- What deleting a subscription does to the instance's coverage: its owner ranges go, and for a
processor without output the intervals and the rows that nobody owns any more. -/
def release (d : ProcessorDescriptor) (subscriptionId : String) : Instance :=
  let ranges := i.rangesOf subscriptionId
  let i := { i with
    subscriptionOwners := Table.deleteWhere i.subscriptionOwners fun key _ => key.1 = subscriptionId }
  if d.output.mode = .none then
    let kept := { i with
      intervals := Table.deleteWhere i.intervals (i.orphanedInterval ranges)
      -- Segments go with their interval.
      segments := Table.deleteWhere i.segments fun _ segment =>
        (i.intervals[segment.intervalStart]?).any (i.orphanedInterval ranges segment.intervalStart)
      coverage := Table.deleteWhere i.coverage fun number _ => i.orphaned ranges number
      applied := Table.deleteWhere i.applied fun key _ => i.orphaned ranges key.1
      journal := Table.deleteWhere i.journal fun key row =>
        row.finalized && i.orphaned ranges key.1 }
    { kept with
      cursor := kept.cursor.bind fun cursor => kept.highestCoverageCursor d cursor.chainId }
  else i

end Instance

def sharedBlock (d : ProcessorDescriptor) (s : Store) (streamId : String) (number : Nat)
    (r : Except StoreError (Store × Store.ApplyOutcome)) : Option Nat :=
  match r with
  | .ok (_, .applied ..) => if d.deliveryEnabled && s.isBackfill streamId then none else some number
  | _ => none

def Operation.shared (p : Processor) (s : Store) : Operation → Option Nat
  | .apply env cursor delta publish streamId => sharedBlock p.descriptor s streamId
    cursor.blockNumber (s.applyToStream p env cursor delta publish streamId false)
  | .applyLiveRecovery env cursor delta => sharedBlock p.descriptor s p.descriptor.defaultStreamId
    cursor.blockNumber (s.applyLiveRecovery p env cursor delta)
  | _ => none

/-- `commit_historical_materialization_microbatch` with the owner of its range. -/
def Instance.materialize (i : Instance) (p : Processor) (env : Environment)
    (held : EncodedDelta → Bool) (items : List HistoricalBatchItem)
    (limits : HistoricalCommitLimits) : Except StoreError (Instance × HistoricalBatchOutcome) := do
  let (s, outcome) ← i.commitHistoricalMaterializationMicrobatch p env held items limits
  let first ← required items.head?
    (.invalidConfig "historical materialization microbatch must contain at least one block")
  let last := items.getLastD first
  let committed := { i with toStore := s }
  pure (committed.extendSharedOwner first.delta.block.number last.delta.block.number, outcome)

inductive CoverageEvent where
  | operate (op : Operation)
  | historical (env : Environment) (mode : HistoricalBatchMode) (items : List HistoricalBatchItem)
      (streamId : String) (completion : List (BlockRef × DomainChange))
      (limits : HistoricalCommitLimits)
  | materialize (env : Environment) (held : EncodedDelta → Bool) (items : List HistoricalBatchItem)
      (limits : HistoricalCommitLimits)
  | own (subscriptionId : String) (ranges : List Range)
  | compact (context : Instance.CompactionContext) (through segmentSize maximumBlocks : Nat)
  | release (subscriptionId : String)

def coverageStep (p : Processor) (i : Instance) : CoverageEvent → Instance
  | .operate op =>
    let operated := { i with toStore := step p i.toStore op }
    (op.shared p i.toStore).elim operated fun number => operated.extendSharedOwner number number
  | .historical env mode items streamId completion limits =>
    { i with
      toStore := commit i.toStore
        (i.commitHistoricalMicrobatch p env mode items streamId completion limits) }
  | .materialize env held items limits => commit i (i.materialize p env held items limits)
  | .own subscriptionId ranges => i.own subscriptionId ranges
  | .compact context through segmentSize maximumBlocks =>
    commit i (i.compactFinalizedCoverage p.descriptor context through segmentSize maximumBlocks)
  | .release subscriptionId => i.release p.descriptor subscriptionId

def coverageRun (p : Processor) (i : Instance) (events : List CoverageEvent) : Instance :=
  events.foldl (coverageStep p) i

end Leani.Processor
