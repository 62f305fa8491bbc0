import Leani.Processor.BackfillRecords
import Mathlib.Algebra.Order.BigOperators.Group.List

/-!
# Completing a backfill

When every requested block of a backfill is accounted for, its stream gets a last record. The bytes
it takes are admitted before: once for a backfill completed on its own, whose stream may also need a
progress record saying that nothing had to be done, and once for a backfill completed by its last
batch. What is appended never takes more than what was admitted, and the record reads back as the
counts it was made of (`completion_record_iff`), unless there are more covered ranges than the record
can count.
-/

namespace Leani.Backfills

open Library Library.BigEndian Delivery Processor List

/-- Columns `from_block` and `to_block`. Every table that holds them checks their order. -/
structure RangeRow where
  fromBlock : Int64
  toBlock : Int64
  ordered : fromBlock.toInt ≤ toBlock.toInt

def RangeRow.blocks (row : RangeRow) : Int := row.toBlock.toInt - row.fromBlock.toInt + 1

/-- A row of `backfill_subscriptions` with its rows of `backfill_subscription_ranges` and
`backfill_subscription_preexisting_ranges`. -/
structure BackfillSubscription where
  mode : BackfillSubscriptionMode
  whole : RangeRow
  processedWorkBlocks : Int64
  publishedDomainChanges : Int64
  ranges : List RangeRow
  preexistingRanges : List RangeRow

def i64U64 (value : Int) (label : String) : Except StoreError Nat :=
  if 0 ≤ value then .ok value.toNat else .error (.numeric label)

/-- The column `requested_blocks`. A total beyond `i64` is an overflow or a real number, neither of
which reads as an integer. -/
def BackfillSubscription.requestedColumn (s : BackfillSubscription) : Except StoreError Int := do
  let total := if s.ranges.isEmpty then s.whole.blocks else (s.ranges.map RangeRow.blocks).sum
  ensure (total ≤ i64Max) (.sqlx "integer overflow")
  pure total

def RangeRow.decode (row : RangeRow) : Except StoreError BlockRange := do
  let start ← i64U64 row.fromBlock.toInt "preexisting coverage start"
  let last ← i64U64 row.toBlock.toInt "preexisting coverage end"
  newRange start last

def CompleteCounts (mode : BackfillSubscriptionMode) (covered processed requested : Nat) : Prop :=
  match mode with
  | .fillMissing => covered + processed ≤ u64Max ∧ covered + processed = requested
  | .recompute => covered = requested ∧ processed = requested

instance instDecidableCompleteCounts (mode : BackfillSubscriptionMode)
    (covered processed requested : Nat) : Decidable (CompleteCounts mode covered processed requested) :=
  match mode with
  | .fillMissing => inferInstanceAs (Decidable (_ ∧ _))
  | .recompute => inferInstanceAs (Decidable (_ ∧ _))

def disposition (mode : BackfillSubscriptionMode) (processed requested : Nat) :
    BackfillCompletionDisposition × Nat × Nat :=
  match mode with
  | .recompute => (.publishedAll, 0, processed)
  | .fillMissing =>
    if processed = 0 then (.alreadyCoveredNoop, 0, 0)
    else if processed < requested then (.publishedMissingOnly, processed, processed)
    else (.publishedAll, processed, processed)

def backfillCompletionMetadata (s : BackfillSubscription) :
    Except StoreError BackfillCompletionMetadata := do
  let column ← s.requestedColumn
  let worked ← i64U64 s.processedWorkBlocks.toInt "completion processed blocks"
  let requested ← i64U64 column "completion requested blocks"
  let changes ← i64U64 s.publishedDomainChanges.toInt "completion domain changes"
  let processed := min worked requested
  let ranges ← s.preexistingRanges.mapM RangeRow.decode
  let covered ← sumLens "preexisting coverage blocks" ranges
  ensure (CompleteCounts s.mode covered processed requested) (.invariant
    ("backfill cannot complete before its snapshotted coverage and processed work account for " ++
      "every requested block"))
  let (outcome, newly, republished) := disposition s.mode processed requested
  pure ⟨s.mode, outcome, requested, covered, ranges, newly, republished, changes⟩

/-- A backfill's delivery stream: its rows of `change_log`, the backfill, and the heights whose
block hash the processor's coverage holds. -/
structure BackfillStream where
  subscriptionId : List UInt8
  subscription : BackfillSubscription
  covered : List Nat
  records : List DomainChange

inductive AppendError where
  | store (error : StoreError)
  | panicked (message : String)

namespace BackfillStream

variable (s : BackfillStream)

def holds (kind : String) : Bool := s.records.any fun record => record.kind = kind

def completed : Bool := s.holds "system.backfill_complete"

def append (changes : List DomainChange) : BackfillStream :=
  { s with records := s.records ++ changes }

def appendZeroWorkProgress (through : Nat) : Except StoreError BackfillStream :=
  if s.holds "system.backfill_progress" then .ok s
  else do
    let column ← required (s.subscription.ranges.map fun row => row.fromBlock.toInt).min?
      (.sqlx "UnexpectedNullError")
    let first ← i64U64 column "zero-work progress start"
    pure (s.append [Store.backfillProgressChange first through 0])

def completionChange (payload : List UInt8) : DomainChange where
  kind := "system.backfill_complete"
  key := s.subscriptionId
  operation := .upsert
  payload := payload

def beforeCompletion (through : Nat) (m : BackfillCompletionMetadata) :
    Except StoreError BackfillStream :=
  if m.disposition = .alreadyCoveredNoop then s.appendZeroWorkProgress through else .ok s

def uncovered (through : Nat) : StoreError :=
  .invariant ("cannot complete backfill before block " ++ toString through ++ " is covered")

def prepareCompletion (through : Nat) :
    Except StoreError (BackfillCompletionMetadata × BackfillStream) := do
  let m ← backfillCompletionMetadata s.subscription
  ensure (through ∈ s.covered) (uncovered through)
  let t ← s.beforeCompletion through m
  pure (m, t)

/-- `append_backfill_completion_transaction`. A stream that has its completion keeps it. -/
def appendCompletionTransaction (through : Nat) : Except AppendError BackfillStream :=
  if s.completed then .ok s
  else match s.prepareCompletion through with
    | .error e => .error (.store e)
    | .ok (m, t) => match encodeBackfillCompletionMetadata m with
      | none => .error (.panicked "subscription range count is bounded at creation")
      | some payload => .ok (t.append [t.completionChange payload])

/-- The bytes `append_backfill_completion` admits: a zero-work progress record is assumed whenever no
block was processed. -/
def completionBytes : Except StoreError Nat := do
  let ranges := satMul s.subscription.preexistingRanges.length 16
  ensure (48 + ranges ≤ u64Max) (.numeric "backfill completion bytes")
  let zeroProgress := if s.subscription.processedWorkBlocks.toInt = 0 then 32 else 0
  ensure (s.subscriptionId.length + (48 + ranges) + zeroProgress ≤ u64Max)
    (.numeric "backfill completion bytes")
  pure (s.subscriptionId.length + (48 + ranges) + zeroProgress)

/-- Admit the completion of a stream that has none. `enforce` is `enforce_delivery_capacity`. -/
def admitCompletion (enforce : Nat → Except StoreError Unit) : Except StoreError Unit :=
  if s.completed then .ok () else s.completionBytes >>= enforce

/-- `append_backfill_completion`, under the writer lock, so that the transaction sees what was read
before it. -/
def appendCompletion (enforce : Nat → Except StoreError Unit) (through : Nat) :
    Except AppendError BackfillStream :=
  match s.admitCompletion enforce with
  | .error e => .error (.store e)
  | .ok () => s.appendCompletionTransaction through

end BackfillStream

def recordBytes (change : DomainChange) : Nat := change.key.length + change.payload.length

def recordedBytes (changes : List DomainChange) : Nat := (changes.map recordBytes).sum

structure FinalBatch where
  changes : List DomainChange
  first : Nat
  last : Nat
  processed : Nat

namespace BackfillStream

variable (s : BackfillStream) (batch : FinalBatch)

def batchBytes : Except StoreError Nat := do
  ensure (32 + recordedBytes batch.changes ≤ u64Max) (.numeric "historical microbatch change bytes")
  let completion := satAdd (satAdd s.subscriptionId.length 48)
    (satMul s.subscription.preexistingRanges.length 16)
  ensure (32 + recordedBytes batch.changes + completion ≤ u64Max)
    (.numeric "historical microbatch change bytes")
  pure (32 + recordedBytes batch.changes + completion)

/-- The batch's changes and progress, with `record_backfill_progress`. -/
def appendBatch : Except StoreError BackfillStream := do
  let worked := s.subscription.processedWorkBlocks.toInt + batch.processed
  let published := s.subscription.publishedDomainChanges.toInt + batch.changes.length
  ensure (worked ≤ i64Max ∧ published ≤ i64Max) (.sqlx "integer overflow")
  let progress := Store.backfillProgressChange batch.first batch.last batch.processed
  pure { s.append (batch.changes ++ [progress]) with
    subscription := { s.subscription with
      processedWorkBlocks := Int64.ofInt worked
      publishedDomainChanges := Int64.ofInt published } }

def completeByBatch (enforce : Nat → Except StoreError Unit) (through : Nat) :
    Except AppendError BackfillStream :=
  match s.batchBytes batch >>= enforce with
  | .error e => .error (.store e)
  | .ok () => match s.appendBatch batch with
    | .error e => .error (.store e)
    | .ok t => t.appendCompletionTransaction through

end BackfillStream

theorem i64U64_eq_ok {value : Int} {label : String} {n : Nat} :
    i64U64 value label = .ok n ↔ (n : Int) = value := by
  unfold i64U64
  split
  · rw [Except.ok.injEq]; omega
  · constructor
    · exact nofun
    · intro _; omega

theorem RangeRow.one_le_blocks (row : RangeRow) : 1 ≤ row.blocks := by
  have := row.ordered
  unfold blocks; omega

variable {s : BackfillSubscription}

theorem requestedColumn_bounds {column : Int} (h : s.requestedColumn = .ok column) :
    1 ≤ column ∧ column ≤ i64Max := by
  simp only [BackfillSubscription.requestedColumn, eq_ok] at h
  obtain ⟨_, hle, rfl⟩ := h
  refine ⟨?_, hle⟩
  cases hranges : s.ranges with
  | nil => exact s.whole.one_le_blocks
  | cons row rows =>
    have hrest : 0 ≤ (rows.map RangeRow.blocks).sum := by
      apply sum_nonneg
      intro _ hn
      obtain ⟨row', -, rfl⟩ := mem_map.1 hn; exact Int.le_of_lt row'.one_le_blocks
    have := row.one_le_blocks
    rw [isEmpty_cons, if_neg Bool.false_ne_true, map_cons, sum_cons]; omega

structure Counted (s : BackfillSubscription) (m : BackfillCompletionMetadata) : Prop where
  consistent : m.Consistent
  ranges_length : m.coveredBeforeRequestRanges.length = s.preexistingRanges.length
  noop : m.disposition = .alreadyCoveredNoop → s.processedWorkBlocks.toInt = 0

theorem disposition_le (mode : BackfillSubscriptionMode) (processed reqd : Nat) :
    (disposition mode processed reqd).2.1 ≤ processed ∧
      (disposition mode processed reqd).2.2 ≤ processed ∧
        ((disposition mode processed reqd).1 = .alreadyCoveredNoop → processed = 0) := by
  unfold disposition
  split
  · exact ⟨Nat.zero_le _, le_rfl, nofun⟩
  · split_ifs with hzero hlt
    · exact ⟨Nat.zero_le _, Nat.zero_le _, fun _ => hzero⟩
    · exact ⟨le_rfl, le_rfl, nofun⟩
    · exact ⟨le_rfl, le_rfl, nofun⟩

theorem CompleteCounts.covered_le {mode : BackfillSubscriptionMode}
    {covered processed reqd : Nat} (h : CompleteCounts mode covered processed reqd) :
    covered ≤ reqd := by
  cases mode with
  | fillMissing => exact h.2 ▸ Nat.le_add_right _ _
  | recompute => exact h.1.le

variable {m : BackfillCompletionMetadata}

theorem backfillCompletionMetadata_counted (h : backfillCompletionMetadata s = .ok m) :
    Counted s m := by
  simp only [backfillCompletionMetadata, eq_ok, i64U64_eq_ok, sumLens_eq_ok] at h
  obtain ⟨_, hcolumn, worked, _, requested, _, changes, _, _,
    hranges, covered, ⟨hcov, -⟩, _, hcounts, rfl⟩ := h
  have hbounds := requestedColumn_bounds hcolumn
  obtain ⟨hnewly, hrepublished, hnoop⟩ :=
    disposition_le s.mode (min worked requested) requested
  have hprocessed := Nat.min_le_right worked requested
  have hlt := s.publishedDomainChanges.toInt_lt
  refine ⟨⟨?_, ?_, Nat.le_trans hrepublished hprocessed, hcounts.covered_le,
    Nat.le_trans hnewly hprocessed, hcov⟩, ?_, ?_⟩
  · unfold i64Max at hbounds
    show requested < 2 ^ 64
    omega
  · show changes < 2 ^ 64
    omega
  · exact (mapM_eq_ok_iff_getElem?.1 hranges).1
  · intro hdisposition
    have hzero := hnoop hdisposition; omega

theorem recordedBytes_append (as bs : List DomainChange) :
    recordedBytes (as ++ bs) = recordedBytes as + recordedBytes bs := by
  rw [recordedBytes, map_append, sum_append]; rfl

theorem recordBytes_progress (first thru processed : Nat) :
    recordBytes (Store.backfillProgressChange first thru processed) = 32 := by
  simp [recordBytes, Store.backfillProgressChange, toBeBytes]

namespace BackfillStream

theorem recordedBytes_single (s : BackfillStream) (chg : DomainChange) :
    recordedBytes (s.append [chg]).records = recordedBytes s.records + recordBytes chg := by
  rw [append, recordedBytes_append, recordedBytes, recordedBytes, map_singleton, sum_singleton]

variable {through : Nat}

variable {s t : BackfillStream}

theorem appendZeroWorkProgress_spec (h : s.appendZeroWorkProgress through = .ok t) :
    t = s ∨ s.holds "system.backfill_progress" = false ∧ t.subscriptionId = s.subscriptionId ∧
      recordedBytes t.records = recordedBytes s.records + 32 := by
  unfold appendZeroWorkProgress at h
  split_ifs at h with hholds
  · cases h; exact .inl rfl
  · simp only [eq_ok] at h
    obtain ⟨_, -, _, -, rfl⟩ := h
    refine .inr ⟨Bool.eq_false_iff.2 hholds, rfl, ?_⟩
    rw [recordedBytes_single, recordBytes_progress]

/-- The bytes a completion may take on a stream: the record, and the progress record of a stream that
processed nothing and has none. -/
def Room (s : BackfillStream) (bytes : Nat) : Prop :=
  s.subscriptionId.length + (48 + s.subscription.preexistingRanges.length * 16) ≤ bytes ∧
    (s.subscription.processedWorkBlocks.toInt = 0 → s.holds "system.backfill_progress" = false →
      s.subscriptionId.length + (48 + s.subscription.preexistingRanges.length * 16) + 32 ≤ bytes)

theorem transaction_bytes {bytes : Nat} (h : s.appendCompletionTransaction through = .ok t)
    (hcomp : s.completed = false) (hroom : s.subscription.preexistingRanges.length < 2 ^ 32 →
    s.Room bytes) : recordedBytes t.records ≤ recordedBytes s.records + bytes := by
  rw [appendCompletionTransaction, hcomp, if_neg Bool.false_ne_true] at h
  split at h
  · cases h
  · rename_i m u hprepare
    split at h
    · cases h
    · rename_i pay hencode
      simp only [prepareCompletion, eq_ok] at hprepare
      obtain ⟨m, hm, _, -, u, hbef, heq⟩ := hprepare
      cases heq
      cases h
      have hcnt := backfillCompletionMetadata_counted hm
      rw [encodeBackfillCompletionMetadata] at hencode
      split_ifs at hencode with hcount
      cases hencode
      obtain ⟨_, hzero⟩ := hroom (hcnt.ranges_length ▸ hcount)
      have hpay : recordBytes (u.completionChange m.payload) =
          u.subscriptionId.length + (48 + s.subscription.preexistingRanges.length * 16) := by
        rw [recordBytes, completionChange, length_payload, hcnt.ranges_length]; rfl
      rw [recordedBytes_single, hpay]
      unfold beforeCompletion at hbef
      split_ifs at hbef with hnoop
      · obtain rfl | ⟨hholds, hid, _⟩ := appendZeroWorkProgress_spec hbef
        · omega
        · have := hzero (hcnt.noop hnoop) hholds; rw [hid]; omega
      · cases hbef; omega

variable {enforce : Nat → Except StoreError Unit}

theorem appendCompletion_bytes (h : s.appendCompletion enforce through = .ok t) :
    s.completed = true ∧ t = s ∨ ∃ admitted, s.completionBytes = .ok admitted ∧
      enforce admitted = .ok () ∧ recordedBytes t.records ≤ recordedBytes s.records + admitted := by
  unfold appendCompletion admitCompletion at h
  split at h
  · cases h
  · rename_i hadmit
    cases hcomp : s.completed with
    | true =>
      rw [appendCompletionTransaction, hcomp, if_pos rfl] at h; cases h; exact .inl ⟨rfl, rfl⟩
    | false =>
      rw [hcomp, if_neg Bool.false_ne_true, bind_eq_ok] at hadmit
      obtain ⟨admitted, hadm, henforce⟩ := hadmit
      refine .inr ⟨admitted, hadm, henforce, transaction_bytes h hcomp fun _ => ?_⟩
      simp only [completionBytes, eq_ok] at hadm
      obtain ⟨_, -, _, -, rfl⟩ := hadm
      have hrngs : satMul s.subscription.preexistingRanges.length 16 =
          s.subscription.preexistingRanges.length * 16 := by
        unfold satMul u64Max; omega
      rw [hrngs]
      refine ⟨Nat.le_add_right _ _, fun hzero _ => ?_⟩
      rw [if_pos hzero]

theorem appendBatch_spec {batch : FinalBatch} (h : s.appendBatch batch = .ok t) :
    t.subscriptionId = s.subscriptionId ∧ t.subscription.preexistingRanges =
    s.subscription.preexistingRanges ∧ t.holds "system.backfill_progress" = true ∧
    recordedBytes t.records = recordedBytes s.records + (32 + recordedBytes batch.changes) := by
  simp only [appendBatch, eq_ok] at h
  obtain ⟨_, -, rfl⟩ := h
  refine ⟨rfl, rfl, ?_, ?_⟩
  · rw [holds, any_eq_true]
    refine ⟨Store.backfillProgressChange batch.first batch.last batch.processed, ?_, rfl⟩
    exact mem_append_right _ (mem_append_right _ mem_cons_self)
  · have hprogress : recordedBytes
        [Store.backfillProgressChange batch.first batch.last batch.processed] = 32 := by
      rw [recordedBytes, map_singleton, sum_singleton, recordBytes_progress]
    rw [append, recordedBytes_append, recordedBytes_append, hprogress, Nat.add_comm 32]

theorem completeByBatch_bytes {batch : FinalBatch} (h : s.completeByBatch batch enforce through =
    .ok t) : ∃ admitted, s.batchBytes batch = .ok admitted ∧
    enforce admitted = .ok () ∧ recordedBytes t.records ≤ recordedBytes s.records + admitted := by
  unfold completeByBatch at h
  split at h
  · cases h
  · rename_i hadmit
    rw [bind_eq_ok] at hadmit
    obtain ⟨admitted, hadm, henforce⟩ := hadmit
    refine ⟨admitted, hadm, henforce, ?_⟩
    simp only [batchBytes, eq_ok] at hadm
    obtain ⟨_, -, _, _, rfl⟩ := hadm
    split at h
    · cases h
    · rename_i u hbatch
      obtain ⟨hid, hranges, hprogress, hbytes⟩ := appendBatch_spec hbatch
      cases hcomp : u.completed with
      | true =>
        rw [appendCompletionTransaction, hcomp, if_pos rfl] at h
        cases h; rw [hbytes]; omega
      | false =>
        have hroom : u.subscription.preexistingRanges.length < 2 ^ 32 →
            u.Room (satAdd (satAdd s.subscriptionId.length 48)
              (satMul s.subscription.preexistingRanges.length 16)) := by
          intro hcnt
          rw [Room, hid, hranges, hprogress]
          rw [hranges] at hcnt
          refine ⟨?_, by simp⟩
          unfold satAdd satMul u64Max at *; omega
        have hbound := transaction_bytes h hcomp hroom; omega

end BackfillStream

/-- A completion that can be counted reads back, its layout has no second spelling, and the bytes
appended were admitted, exactly when the number of ranges covered before the request fits the record.
-/
theorem completion_record_iff (s : BackfillStream)
    (h : backfillCompletionMetadata s.subscription = .ok m) :
    ((∃ payload, encodeBackfillCompletionMetadata m = some payload ∧
        decodeBackfillCompletionMetadata payload = .ok m) ∧
      (∀ payload m', number (field 0 2 payload) = 2 →
        decodeBackfillCompletionMetadata payload = .ok m' →
          encodeBackfillCompletionMetadata m' = some payload) ∧
      (∀ enforce through t, s.appendCompletion enforce through = .ok t →
        s.completed = true ∧ t = s ∨ ∃ admitted, s.completionBytes = .ok admitted ∧
          enforce admitted = .ok () ∧
            recordedBytes t.records ≤ recordedBytes s.records + admitted) ∧
      ∀ batch enforce through t, s.completeByBatch batch enforce through = .ok t →
        ∃ admitted, s.batchBytes batch = .ok admitted ∧ enforce admitted = .ok () ∧
          recordedBytes t.records ≤ recordedBytes s.records + admitted) ↔
      s.subscription.preexistingRanges.length < 2 ^ 32 := by
  have hcounted := backfillCompletionMetadata_counted h
  constructor
  · rintro ⟨⟨payload, hencode, -⟩, -⟩
    rw [encodeBackfillCompletionMetadata, hcounted.ranges_length] at hencode
    split_ifs at hencode with hcount
    exact hcount
  · intro hcount
    rw [← hcounted.ranges_length] at hcount
    refine ⟨⟨m.payload, if_pos hcount, decode_payload hcounted.consistent hcount⟩, ?_, ?_, ?_⟩
    · exact fun _ _ hversion hdecode => encode_of_decode hversion hdecode
    · exact fun _ _ _ happend => BackfillStream.appendCompletion_bytes happend
    · exact fun _ _ _ _ hcomplete => BackfillStream.completeByBatch_bytes hcomplete

def singleRow (block : Nat) : RangeRow := ⟨Int64.ofNat block, Int64.ofNat block, le_rfl⟩

theorem decode_singleRow {block : Nat} (h : block < 2 ^ 63) : (singleRow block).decode =
      .ok ⟨block, block, le_rfl, Nat.le_of_lt_succ (Nat.lt_trans h (by decide))⟩ := by
  have hblock := Int64.toInt_ofNat_of_lt h
  simp only [RangeRow.decode, bind_eq_ok, i64U64_eq_ok, newRange_eq_ok, singleRow, hblock]
  exact ⟨block, rfl, block, rfl, rfl, rfl⟩

/-- The blocks up to `2 ^ 33`, of which the first `n` even ones were covered before. -/
def crowded (n : Nat) : BackfillSubscription where
  mode := .fillMissing
  whole := ⟨0, 0x200000000, by decide⟩
  processedWorkBlocks := Int64.ofNat (0x200000001 - n)
  publishedDomainChanges := 0
  ranges := [⟨0, 0x200000000, by decide⟩]
  preexistingRanges := (List.range n).map fun k => singleRow (2 * k)

theorem exists_crowded_metadata {n : Nat} (hn : n ≤ 2 ^ 32) :
    ∃ m, backfillCompletionMetadata (crowded n) = .ok m := by
  have hrow (row : RangeRow) (hrow : row ∈ (crowded n).preexistingRanges) :
      ∃ range, row.decode = .ok range ∧ rangeLen range = 1 := by
    obtain ⟨_, hk, rfl⟩ := mem_map.1 hrow
    have hlt := mem_range.1 hk
    refine ⟨_, decode_singleRow (by omega), ?_⟩
    simp [rangeLen, satAdd, u64Max]
  obtain ⟨rngs, hranges⟩ :=
    exists_mapM_eq_ok fun row hmem => (hrow row hmem).imp fun _ h => h.1
  have hlength : rngs.length = n := by
    rw [(mapM_eq_ok_iff_getElem?.1 hranges).1]; simp [crowded]
  have hlens : rngs.map rangeLen = replicate n 1 := by
    rw [eq_replicate_iff, length_map]
    refine ⟨hlength, fun _ hlen => ?_⟩
    obtain ⟨range, hrange, rfl⟩ := mem_map.1 hlen
    obtain ⟨row, hmem, hdec⟩ := (mem_of_mapM_eq_ok hranges range).1 hrange
    obtain ⟨_, hdec', hone⟩ := hrow row hmem
    rw [hdec, Except.ok.injEq] at hdec'; exact hdec' ▸ hone
  have hsum : sumLens "preexisting coverage blocks" rngs = .ok n := by
    rw [sumLens_eq_ok, hlens, sum_replicate]
    unfold u64Max; exact ⟨by simp, by omega⟩
  have hcolumn : (crowded n).requestedColumn = .ok 0x200000001 := rfl
  have hworked : (crowded n).processedWorkBlocks.toInt = ((0x200000001 - n : Nat) : Int) :=
    Int64.toInt_ofNat_of_lt (by omega)
  have hcounts : CompleteCounts .fillMissing n (min (0x200000001 - n) 0x200000001) 0x200000001 := by
    unfold CompleteCounts u64Max; omega
  simp only [backfillCompletionMetadata, eq_ok, i64U64_eq_ok]
  exact ⟨_, _, hcolumn, _, hworked.symm, 0x200000001, rfl, 0, rfl, _, hranges, _, hsum, (), hcounts,
    rfl⟩

/-- With `2 ^ 32` ranges covered before, the completion has no encoding. -/
theorem crowded_not_encoded : ∃ m, backfillCompletionMetadata (crowded (2 ^ 32)) = .ok m ∧
    encodeBackfillCompletionMetadata m = none ∧
      ¬ ∃ payload, encodeBackfillCompletionMetadata m = some payload ∧
        decodeBackfillCompletionMetadata payload = .ok m := by
  obtain ⟨m, hm⟩ := exists_crowded_metadata (n := 2 ^ 32) le_rfl
  have hnone : encodeBackfillCompletionMetadata m = none := by
    apply if_neg
    rw [(backfillCompletionMetadata_counted hm).ranges_length, crowded, length_map, length_range]
    exact Nat.lt_irrefl _
  refine ⟨m, hm, hnone, ?_⟩
  rintro ⟨payload, hsome, -⟩; rw [hnone] at hsome; cases hsome

/-- With two ranges it reads back. -/
theorem completion_record_crowded : ∃ m, backfillCompletionMetadata (crowded 2) = .ok m ∧
    ∃ payload, encodeBackfillCompletionMetadata m = some payload ∧
      decodeBackfillCompletionMetadata payload = .ok m := by
  obtain ⟨m, hm⟩ := exists_crowded_metadata (n := 2) (by decide)
  have hcount : (crowded 2).preexistingRanges.length < 2 ^ 32 := by decide
  exact ⟨m, hm, ((completion_record_iff ⟨[], crowded 2, [], []⟩ hm).2 hcount).1⟩

end Leani.Backfills
