import Leani.Deltas.Material
import Leani.Library.BigEndian

/-!
# Blobs

The blob transactions of a block with the fees they burned. Filtered transactions have to be
declared as exactly those of type 3; frames of a block that are derive the same.
-/

namespace Leani.Deltas

open Library Filtering Wasm.Frame List

def blobGasPerBlob : Nat := 131072

def minBlobBaseFee : Nat := 1

def blobBaseCost : Nat := 2 ^ 13

/-- The loop of `fake_exponential`. It ends: the iteration overflows in the end. -/
def expand (numerator denominator output accumulator iteration : Nat) : Except ProcessorError Nat :=
  if accumulator = 0 then .ok output
  else if iteration + 1 < 2 ^ 256 ∧ output + accumulator < 2 ^ 256 ∧
      denominator * iteration < 2 ^ 256 ∧ accumulator * numerator < 2 ^ 256 then
    expand numerator denominator (output + accumulator)
      (accumulator * numerator / (denominator * iteration)) (iteration + 1)
  else .error (.invariant "blob fee overflow")
termination_by 2 ^ 256 - iteration

def fakeExponential (factor numerator denominator : Nat) : Except ProcessorError Nat := do
  ensure (denominator ≠ 0) (.invariant "blob fee denominator is zero")
  let accumulator ← checkedMul factor denominator "blob fee overflow"
  let output ← expand numerator denominator 0 accumulator 1
  pure (output / denominator)

def getBlobBaseFee (excessBlobGas updateFraction : Nat) : Except ProcessorError Nat :=
  fakeExponential minBlobBaseFee excessBlobGas updateFraction

def calculateEip7918Floor (executionBaseFee : Nat) : Except ProcessorError Nat := do
  let cost ← checkedMul executionBaseFee blobBaseCost "reserve fee overflow"
  pure (cost / blobGasPerBlob)

structure BlobFork where
  name : String
  activationBlock : Nat
  activationTimestamp : Nat
  forkId : String
  targetBlobsPerBlock : Nat
  maxBlobsPerBlock : Nat
  baseFeeUpdateFraction : Nat
  eip7918 : Bool

structure BlobSchedule where
  chainId : Nat
  network : String
  forks : List BlobFork

def BlobFork.Follows (fork : BlobFork) (previous : Option BlobFork) : Prop :=
  fork.name ≠ "" ∧ fork.activationBlock ≠ 0 ∧ fork.activationTimestamp ≠ 0 ∧
    fork.forkId.toList.length = 8 ∧
    (∀ digit ∈ fork.forkId.toList, digit.isDigit = true ∨ 'a' ≤ digit ∧ digit ≤ 'f') ∧
    fork.targetBlobsPerBlock ≠ 0 ∧ fork.targetBlobsPerBlock ≤ fork.maxBlobsPerBlock ∧
    fork.baseFeeUpdateFraction ≠ 0 ∧
    ∀ before ∈ previous, before.activationBlock < fork.activationBlock ∧
      before.activationTimestamp < fork.activationTimestamp

instance decidableFollows (fork : BlobFork) (previous : Option BlobFork) :
    Decidable (fork.Follows previous) :=
  inferInstanceAs (Decidable (_ ∧ _))

namespace BlobSchedule

variable (schedule : BlobSchedule)

def validate : Except String Unit := do
  ensure (schedule.chainId ≠ 0 ∧ schedule.network ≠ "" ∧ schedule.forks ≠ [])
    "schedule identity and forks are required"
  let _ ← foldExcept (fun previous fork => do
    ensure (fork.Follows previous) "blob forks must be valid and strictly ordered"
    pure (some fork)) none schedule.forks
  pure ()

def firstBlock : Nat := (schedule.forks.head?.map BlobFork.activationBlock).getD 0

/-- `parameters_at_timestamp`: the fork whose parameters apply. -/
def parametersAtTimestamp (timestamp : Nat) : Option BlobFork :=
  schedule.forks.reverse.find? fun fork => decide (fork.activationTimestamp ≤ timestamp)

end BlobSchedule

structure BlobsProcessor where
  schedule : BlobSchedule

/-- What the header and the fork say of the block, `BlobsBlockEntity` but its identity. -/
structure BlockFees where
  sizeBytes : Nat
  blobCount : Nat
  blobGasUsed : Nat
  excessBlobGas : Nat
  blobBaseFee : Nat
  executionBaseFee : Nat
  gasUsed : Nat
  gasLimit : Nat
  executionBurn : Nat
  blobBurn : Option Nat
  reserveFee : Option Nat
  transactionCount : Nat
  targetBlobsPerBlock : Nat
  maxBlobsPerBlock : Nat
  deriving DecidableEq

structure BlobsBlockEntity where
  network : String
  block : BlockRef
  finality : Finality
  fees : BlockFees
  deriving DecidableEq

structure BlobTransactionEntity where
  network : String
  blockNumber : Nat
  blockHash : BlockHash
  transactionHash : TransactionHash
  transactionIndex : Nat
  sender : Address
  recipient : Address
  blobVersionedHashes : List BlockHash
  blobCount : Nat
  totalBurn : Nat
  executionBurn : Nat
  blobBurn : Nat
  deriving DecidableEq

structure BlobsDelta where
  block : BlobsBlockEntity
  transactions : List BlobTransactionEntity
  deriving DecidableEq

def calculated (asked : Bool) (value : Except ProcessorError Nat) :
    Except ProcessorError (Option Nat) :=
  if asked then value.map some else pure none

def blockFees (parameters : BlobFork) (header : Header) : Except ProcessorError BlockFees := do
  let gasLimit ← requiredField header.gasLimit "header.gas_limit"
  let gasUsed ← requiredField header.gasUsed "header.gas_used"
  let baseFee ← requiredField header.baseFeePerGas "header.base_fee_per_gas"
  let blobGasUsed ← requiredField header.blobGasUsed "header.blob_gas_used"
  let excessBlobGas ← requiredField header.excessBlobGas "header.excess_blob_gas"
  let sizeBytes ← requiredField header.sizeBytes "header.size_bytes"
  let transactionCount ← requiredField header.transactionCount "header.transaction_count"
  ensure (blobGasUsed % blobGasPerBlob = 0) (.invariant "block blob gas is not a whole blob count")
  ensure (blobGasUsed / blobGasPerBlob < 2 ^ 32) (.invariant "blob count overflows u32")
  ensure (blobGasUsed / blobGasPerBlob ≤ parameters.maxBlobsPerBlock)
    (.invariant "block exceeds configured maximum blobs")
  let blobBaseFee ← getBlobBaseFee excessBlobGas parameters.baseFeeUpdateFraction
  let reserveFee ← calculated parameters.eip7918 (calculateEip7918Floor baseFee.toNat)
  let executionBurn ← checkedMul baseFee.toNat gasUsed "wei multiplication overflow"
  let blobBurn ← calculated (0 < blobGasUsed)
    (checkedMul blobBaseFee blobGasUsed "wei multiplication overflow")
  pure {
    sizeBytes
    blobCount := blobGasUsed / blobGasPerBlob
    blobGasUsed, excessBlobGas, blobBaseFee
    executionBaseFee := baseFee.toNat
    gasUsed, gasLimit, executionBurn, blobBurn, reserveFee, transactionCount
    targetBlobsPerBlock := parameters.targetBlobsPerBlock
    maxBlobsPerBlock := parameters.maxBlobsPerBlock }

def validateTransactionProjection {α : Type} (transactions : Filtering.Material α) :
    Except ProcessorError Unit :=
  match transactions with
  | .filtered _ scope _ => ensure (scope.transactionTypes = [3])
      (.input "filtered transactions must declare exactly type 3")
  | .complete _ | .missing => pure ()

def mapTransaction (network : String) (block : BlockRef) (fees : BlockFees)
    (transaction : Transaction) (receipt : ReceiptEnvelope) :
    Except ProcessorError BlobTransactionEntity := do
  ensure (transaction.hash = receipt.transactionHash ∧ transaction.index = receipt.transactionIndex ∧
      receipt.transactionType = 3) (.invariant "transaction/receipt identity mismatch")
  let sender ← requiredField transaction.sender "transaction.from"
  let recipient ← requiredField transaction.recipient "transaction.to"
  let blobCount := transaction.blobVersionedHashes.length
  ensure (blobCount < 2 ^ 32) (.invariant "transaction blob count overflows u32")
  ensure (blobCount ≠ 0) (.invariant "type-3 transaction has no blob hashes")
  let expectedBlobGas := min (blobCount * blobGasPerBlob) (2 ^ 64 - 1)
  ensure (∀ actual ∈ receipt.blobGasUsed, actual = expectedBlobGas)
    (.invariant "transaction blob gas disagrees with hash count")
  let gasUsed ← requiredField receipt.gasUsed "receipt.gas_used"
  let executionBurn ← checkedMul fees.executionBaseFee gasUsed "wei multiplication overflow"
  let blobBurn ← checkedMul fees.blobBaseFee expectedBlobGas "wei multiplication overflow"
  ensure (executionBurn + blobBurn < 2 ^ 256) (.invariant "transaction burn overflow")
  pure {
    network
    blockNumber := block.number
    blockHash := block.hash
    transactionHash := transaction.hash
    transactionIndex := transaction.index
    sender, recipient
    blobVersionedHashes := transaction.blobVersionedHashes
    blobCount
    totalBurn := executionBurn + blobBurn
    executionBurn, blobBurn }

def hashOrder (entity : BlobTransactionEntity) : Nat :=
  BigEndian.number entity.transactionHash.toList

namespace BlobsProcessor

def newAt (schedule : BlobSchedule) (start : Nat) : Except ProcessorError BlobsProcessor := do
  schedule.validate.mapError .input
  ensure (schedule.firstBlock ≤ start)
    (.input s!"blob processor start {start} predates activation {schedule.firstBlock}")
  pure ⟨schedule⟩

def capabilities : CapabilitySet :=
  CapabilitySet.of .header |>.including .body |>.including .senders |>.including .blobFields
    |>.including .blockSize |>.including .receiptOutcome

theorem capabilities_withDerivable : capabilities.withDerivable = capabilities := by
  decide

def requirement : DataRequirement where
  capabilities := capabilities
  logFields := .none
  allowFiltered := true
  filter := { FilterScope.wildcard with transactionTypes := [3] }
  minimumFinality := .unattested

variable (processor : BlobsProcessor)

def entityOf (block : BlockRef) (fees : BlockFees) (transaction : Transaction)
    (receipt : Option ReceiptEnvelope) : Except ProcessorError BlobTransactionEntity := do
  let receipt ← required receipt (.missingReceipt "missing projected receipt for" transaction.hash)
  mapTransaction processor.schedule.network block fees transaction receipt

def collect (block : BlockRef) (fees : BlockFees) (receipts : List ReceiptEnvelope)
    (collected : Nat × List BlobTransactionEntity) (transaction : Transaction) :
    Except ProcessorError (Nat × List BlobTransactionEntity) := do
  let entity ← processor.entityOf block fees transaction (receiptOf receipts transaction.hash)
  ensure (collected.1 + entity.blobCount < 2 ^ 32) (.invariant "blob count overflow")
  pure (collected.1 + entity.blobCount, collected.2 ++ [entity])

def derive (frame : SourceFrame) : Except ProcessorError BlobsDelta := do
  validateFrame requirement frame
  ensure (frame.chainId = processor.schedule.chainId)
    (.input s!"blob schedule is for chain {processor.schedule.chainId}, received {frame.chainId}")
  let parameters ← required (processor.schedule.parametersAtTimestamp frame.block.timestamp)
    (.input "block predates blob activation")
  let header ← acceptedMaterial frame.header "header"
  let transactions ← acceptedMaterial frame.transactions "transactions"
  let receipts ← acceptedMaterial frame.receipts "receipts"
  validateTransactionProjection frame.transactions
  let fees ← blockFees parameters header
  let receipts ← receiptMap receipts
  let (projectedBlobCount, entities) ← foldExcept (processor.collect frame.block fees receipts)
    (0, []) (transactions.filter fun transaction => transaction.transactionType = 3)
  ensure (projectedBlobCount = fees.blobCount)
    (.invariant (s!"projected transactions contain {projectedBlobCount} blobs, " ++
      s!"header declares {fees.blobCount}"))
  pure {
    block := ⟨processor.schedule.network, frame.block, frame.finality, fees⟩
    transactions := sortBy hashOrder entities }

def projection : Projection where
  capabilities := requirement.capabilities
  groups := requirement.capabilities
  logTransactionHash := false
  filter := requirement.filter

theorem projection_requirement : projection.requirement = requirement := rfl

theorem projection_checked : projection.Checked where
  blockRange := rfl
  transactionHashes := rfl
  transactions _ := any_eq_true.2 ⟨.body, mem_cons_self,
    (by decide : capabilities.contains .body = true)⟩
  senders h := absurd rfl h
  recipients h := absurd rfl h
  logTransactionHash h := by cases h
  groups := by
    refine ⟨capabilities, capabilities_withDerivable.symm, ?_⟩
    rw [if_neg (by decide)]; rfl

end BlobsProcessor

structure DescribesBlob (t : TrueTransaction) (row : BlobTransactionEntity) : Prop where
  identity : row.transactionHash = t.envelope.hash ∧ row.transactionIndex = t.envelope.index
  parties : t.envelope.sender = some row.sender ∧ t.envelope.recipient = some row.recipient
  blobs : row.blobVersionedHashes = t.envelope.blobVersionedHashes ∧
    row.blobCount = t.envelope.blobVersionedHashes.length

structure ListsBlobs (truth : TrueBlock) (delta : BlobsDelta) : Prop where
  all : ∀ t ∈ truth.transactions, t.envelope.transactionType = 3 →
    ∃ row ∈ delta.transactions, DescribesBlob t row
  only : ∀ row ∈ delta.transactions, ∃ t ∈ truth.transactions,
    t.envelope.transactionType = 3 ∧ DescribesBlob t row
  once : (delta.transactions.map BlobTransactionEntity.transactionHash).Nodup
  declared : truth.header.blobGasUsed =
    some ((delta.transactions.map BlobTransactionEntity.blobCount).sum * blobGasPerBlob)

def DeclaresBlobs {α : Type} (transactions : Filtering.Material α) : Prop :=
  ∀ value scope completeness, transactions = .filtered value scope completeness →
    scope.transactionTypes = [3]

theorem validateTransactionProjection_eq_ok {α : Type} {txs : Filtering.Material α} {u : Unit} :
    validateTransactionProjection txs = .ok u ↔ DeclaresBlobs txs := by
  unfold DeclaresBlobs
  cases txs with
  | missing => simp [validateTransactionProjection, pure, Except.pure]
  | complete value => simp [validateTransactionProjection, pure, Except.pure]
  | filtered value scope completeness => simp [validateTransactionProjection]

theorem blockFees_eq {given truth : Header} (parameters : BlobFork)
    (h : HeaderAgrees BlobsProcessor.capabilities given truth) :
    blockFees parameters given = blockFees parameters truth := by
  obtain ⟨hlimit, hused, hfee, hblobs, hexcess⟩ := h.header (by decide)
  obtain ⟨hsize, hcount⟩ := h.blockSize (by decide)
  unfold blockFees; rw [hlimit, hused, hfee, hblobs, hexcess, hsize, hcount]

variable {fees : BlockFees}

theorem blockFees_declared {parameters : BlobFork} {hdr : Header} (h : blockFees parameters hdr =
    .ok fees) : hdr.blobGasUsed = some (fees.blobCount * blobGasPerBlob) := by
  simp only [blockFees, requiredField, eq_ok] at h
  obtain ⟨_, -, _, -, _, -, blobGasUsed, hblobs, _, -, _, -, _, -, -, hwhole, -, -, -, -, _, -, _, -,
    _, -, _, -, rfl⟩ := h
  rw [hblobs, Nat.div_mul_cancel (Nat.dvd_of_mod_eq_zero hwhole)]

variable {network : String}

theorem mapTransaction_eq {block : BlockRef} {given true_ : Transaction}
    {rcpt rcpt' : ReceiptEnvelope}
    (hagree : TransactionAgrees BlobsProcessor.capabilities given true_)
    (hrcpt : ReceiptAgrees BlobsProcessor.capabilities rcpt rcpt') :
    mapTransaction network block fees given rcpt = mapTransaction network block fees true_ rcpt' := by
  have hgas := (hrcpt.receiptOutcome (by decide)).2.1
  unfold mapTransaction
  rw [hagree.identity.1, hagree.identity.2.1, hrcpt.identity.1, hrcpt.identity.2.1,
    hrcpt.identity.2.2, hagree.senders (by decide), (hagree.body (by decide)).1,
    (hagree.blobFields (by decide)).2, hrcpt.blobFields (by decide), hgas]

theorem mapTransaction_eq_ok {block : BlockRef} {t : TrueTransaction} {row : BlobTransactionEntity}
    (h : mapTransaction network block fees t.envelope t.receipt = .ok row) : DescribesBlob t row := by
  simp only [mapTransaction, requiredField, eq_ok] at h
  obtain ⟨-, -, _, hsender, _, hrecip, -, -, -, -, -, -, _, -, _, -, _, -, -, -,
    rfl⟩ := h
  exact ⟨⟨rfl, rfl⟩, ⟨hsender, hrecip⟩, rfl, rfl⟩

namespace BlobsProcessor

variable {processor : BlobsProcessor} {truth : TrueBlock} {block : BlockRef} {fees : BlockFees}
  {receipts : List ReceiptEnvelope}

def row (processor : BlobsProcessor) (block : BlockRef) (fees : BlockFees) (transaction : Transaction)
    (receipt : Option ReceiptEnvelope) : Except ProcessorError (Option BlobTransactionEntity) :=
  if transaction.transactionType = 3 then do
    let entity ← processor.entityOf block fees transaction receipt
    pure (some entity)
  else .ok none

def rowTrue (processor : BlobsProcessor) (block : BlockRef) (fees : BlockFees)
    (t : TrueTransaction) : Except ProcessorError (Option BlobTransactionEntity) :=
  processor.row block fees t.envelope (some t.receipt)

theorem collect_eq_ok {items : List Transaction} :
    ∀ {total : Nat} {entities : List BlobTransactionEntity}
      {collected : Nat × List BlobTransactionEntity}, total < 2 ^ 32 →
      (foldExcept (processor.collect block fees receipts) (total, entities)
          (items.filter fun tx => tx.transactionType = 3) = .ok collected ↔
        ∃ rows, items.mapM (fun item =>
            processor.row block fees item (receiptOf receipts item.hash)) = .ok rows ∧
          collected.1 = total + ((rows.filterMap id).map BlobTransactionEntity.blobCount).sum ∧
            collected.1 < 2 ^ 32 ∧ collected.2 = entities ++ rows.filterMap id) := by
  induction items with
  | nil =>
    intro total entities collected htotal
    constructor
    · intro h; cases h; exact ⟨[], rfl, rfl, htotal, (append_nil _).symm⟩
    · rintro ⟨rows, hrows, hcount, -, hents⟩
      cases hrows
      rw [show collected = (total, entities) from
        Prod.ext hcount (hents.trans (append_nil _))]
      rfl
  | cons item items ih =>
    intro total entities collected htotal
    by_cases htype : item.transactionType = 3
    · rw [filter_cons_of_pos (by simpa using htype), foldExcept_cons]
      simp only [mapM_cons_eq_ok, row, if_pos htype, collect, eq_ok]
      constructor
      · rintro ⟨-, ⟨entity, hent, -, hfits, rfl⟩, hrest⟩
        obtain ⟨rows, hrows, hcount, hlt, hents⟩ := (ih hfits).1 hrest
        refine ⟨some entity :: rows, ⟨_, rows, ⟨entity, hent, rfl⟩, hrows, rfl⟩, ?_, hlt, ?_⟩
        · rw [hcount]; simp [Nat.add_assoc]
        · rw [hents]; simp
      · rintro ⟨-, ⟨-, rows, ⟨entity, hent, rfl⟩, hrows, rfl⟩, hcount, hlt, hents⟩
        simp only [filterMap_cons, id_eq, map_cons, sum_cons] at hcount hents
        have hfits : total + entity.blobCount < 2 ^ 32 := by omega
        refine ⟨_, ⟨entity, hent, ⟨⟩, hfits, rfl⟩, (ih hfits).2 ⟨rows, hrows, ?_, hlt, ?_⟩⟩
        · rw [hcount, Nat.add_assoc]; rfl
        · rw [hents, append_assoc]; rfl
    · rw [filter_cons_of_neg (by simpa using htype), ih htotal]
      simp only [mapM_cons_eq_ok, row, if_neg htype]
      constructor
      · rintro ⟨rows, hrows, hcount, hlt, hents⟩
        exact ⟨none :: rows, ⟨none, rows, rfl, hrows, rfl⟩, hcount, hlt, hents⟩
      · rintro ⟨-, ⟨_, rows, hans, hrows, rfl⟩, hcount, hlt, hents⟩
        cases hans; exact ⟨rows, hrows, hcount, hlt, hents⟩

theorem matchesTransaction_of_blob {tx : Transaction} (htype : tx.transactionType = 3) :
    projection.matchesTransaction tx = true := by
  simp only [Projection.matchesTransaction, projection, requirement, FilterScope.wildcard,
    FilterScope.matchesTransaction, FilterScope.matchesSender, htype]
  rfl

variable {t : TrueTransaction}

theorem row_eq {given : Transaction} {rcpt : Option ReceiptEnvelope}
    (hagree : TransactionAgrees capabilities given t.envelope)
    (hrcpt : projection.matchesTransaction t.envelope = true →
      ∃ found, rcpt = some found ∧ ReceiptAgrees capabilities found t.receipt) :
    processor.row block fees given rcpt = processor.rowTrue block fees t := by
  unfold rowTrue row
  rw [hagree.identity.2.2]
  split
  · rename_i htype
    obtain ⟨found, rfl, hfound⟩ := hrcpt (matchesTransaction_of_blob htype)
    simp only [entityOf, required, ok_bind, mapTransaction_eq hagree hfound]
  · rfl

theorem rowTrue_of_not_matches (h : ¬ projection.matchesTransaction t.envelope = true) :
    processor.rowTrue block fees t = .ok none :=
  if_neg fun htype => h (matchesTransaction_of_blob htype)

theorem rowTrue_eq_some {ent : BlobTransactionEntity}
    (h : processor.rowTrue block fees t = .ok (some ent)) :
    t.envelope.transactionType = 3 ∧ DescribesBlob t ent := by
  unfold rowTrue row at h
  split at h
  · rename_i htype
    simp only [eq_ok] at h
    obtain ⟨_, hent, hsame⟩ := h; cases hsame; exact ⟨htype, mapTransaction_eq_ok hent⟩
  · cases h

def DerivesFrom (processor : BlobsProcessor) (truth : TrueBlock) (finality : Finality)
    (delta : BlobsDelta) : Prop :=
  truth.chainId = processor.schedule.chainId ∧ ∃ parameters,
    processor.schedule.parametersAtTimestamp truth.block.timestamp = some parameters ∧ ∃ fees,
      blockFees parameters truth.header = .ok fees ∧ ∃ rows,
        truth.transactions.mapM (processor.rowTrue truth.block fees) = .ok rows ∧
          ((rows.filterMap id).map BlobTransactionEntity.blobCount).sum < 2 ^ 32 ∧
            ((rows.filterMap id).map BlobTransactionEntity.blobCount).sum = fees.blobCount ∧
              delta = ⟨⟨processor.schedule.network, truth.block, finality, fees⟩,
                sortBy hashOrder (rows.filterMap id)⟩

theorem rowTrue_hash (t : TrueTransaction) (ent : BlobTransactionEntity)
    (h : processor.rowTrue block fees t = .ok (some ent)) : ent.transactionHash = t.envelope.hash :=
  (rowTrue_eq_some h).2.identity.1

theorem nodup_hashNumbers {α : Type} {items : List α} {hash : α → TransactionHash}
    (h : (items.map hash).Nodup) :
    (items.map fun item => BigEndian.number (hash item).toList).Nodup := by
  have hinjective : Function.Injective fun hash : TransactionHash =>
      BigEndian.number hash.toList := by
    intro hash _ hsame; exact Vector.toList_inj.1 (BigEndian.number_injective (by simp) hsame)
  have hmap := h.map hinjective; rwa [map_map] at hmap

variable {delta : BlobsDelta}

theorem derive_eq_ok (hpaired : Paired truth) {frame : SourceFrame}
    (hfrm : FrameOf projection truth frame) : processor.derive frame = .ok delta ↔
    DeclaresBlobs frame.transactions ∧ processor.DerivesFrom truth frame.finality delta := by
  have hchk := projection_checked
  obtain ⟨hdr, hhdr, hflds⟩ :=
    exists_header hchk hfrm (by decide : capabilities.contains .header = true)
  obtain ⟨items, scope, hitems, hsupp⟩ :=
    exists_transactions hchk hfrm (by decide : capabilities.contains .body = true)
  obtain ⟨rcpts, _, hrcpts, hsupp'⟩ :=
    exists_receipts hchk hfrm (by decide : capabilities.contains .receiptOutcome = true)
  -- The frame's loop and the block's, turn by turn.
  have hsame : ∀ fees, ∀ item ∈ items, ∀ t ∈ truth.transactions,
      TransactionAgrees capabilities item t.envelope →
        processor.row truth.block fees item (receiptOf rcpts item.hash) =
          processor.rowTrue truth.block fees t := by
    intro fees item _ t ht hagree
    refine row_eq hagree fun hmatch => ?_
    rw [hagree.identity.1]
    exact hsupp'.exists_receiptOf hpaired ht (selects_of_covers hchk hsupp'.covers hmatch)
  have hnone : ∀ fees, ∀ t ∈ truth.transactions, ¬ Selects scope truth.block.number t →
      processor.rowTrue truth.block fees t = .ok none :=
    fun fees t _ hnot => rowTrue_of_not_matches fun hmatch =>
      hnot (selects_of_covers hchk hsupp.covers hmatch)
  have hhashes : (items.map fun item => item.hash).Nodup := by
    refine List.Nodup.map_on ?_ hsupp.holds.once.of_map
    intro item hitem item' hitem' hhash
    obtain ⟨t, ht, hagree⟩ := hsupp.holds.genuine item hitem
    obtain ⟨t', ht', hagree'⟩ := hsupp.holds.genuine item' hitem'
    have hone : t = t' := by
      refine inj_on_of_nodup_map hpaired.hashes ht ht' ?_
      rw [← hagree.identity.1, ← hagree'.identity.1, hhash]
    subst hone
    refine inj_on_of_nodup_map hsupp.holds.once hitem hitem' ?_
    rw [hagree.identity.2.1, hagree'.identity.2.1]
  have hrows : ∀ {fees rows rowsTrue}, items.mapM (fun item =>
        processor.row truth.block fees item (receiptOf rcpts item.hash)) = .ok rows →
      truth.transactions.mapM (processor.rowTrue truth.block fees) = .ok rowsTrue →
        sortBy hashOrder (rows.filterMap id) = sortBy hashOrder (rowsTrue.filterMap id) := by
    intro fees rows rowsTrue hok hokTrue
    refine sortBy_rows_eq hsupp.holds (hsame fees) (hnone fees) (nodup_hashNumbers hhashes)
      (nodup_hashNumbers hpaired.hashes) ?_ ?_ hok hokTrue
    · intro item t hagree; rw [hagree.identity.1]
    · intro t ent hent; rw [hashOrder, rowTrue_hash t ent hent]
  have hcounts : ∀ {fees rows rowsTrue}, items.mapM (fun item =>
        processor.row truth.block fees item (receiptOf rcpts item.hash)) = .ok rows →
      truth.transactions.mapM (processor.rowTrue truth.block fees) = .ok rowsTrue →
        ((rows.filterMap id).map BlobTransactionEntity.blobCount).sum =
          ((rowsTrue.filterMap id).map BlobTransactionEntity.blobCount).sum := by
    intro fees rows rowsTrue hok hokTrue
    have hperm := (mergeSort_perm _ _).symm.trans
        ((List.Perm.of_eq (hrows hok hokTrue)).trans (mergeSort_perm _ _))
    exact (hperm.map _).sum_nat
  simp only [derive, ← projection_requirement, validateFrame_eq_ok hfrm.accepted, hhdr, hitems,
    hrcpts, hsupp'.receiptMap_eq hpaired, hfrm.chainId, hfrm.block, ok_bind, blockFees_eq _
    hflds, eq_ok, exists_const, validateTransactionProjection_eq_ok, collect_eq_ok (Nat.two_pow_pos
    32), DerivesFrom, Nat.zero_add, nil_append]
  constructor
  · rintro ⟨hchain, parameters, hparms, hdeclares, fees, hfees, ⟨_, _⟩,
      ⟨rows, hok, hsum, hfits, hents⟩, hcount, rfl⟩
    subst hsum hents
    obtain ⟨rowsTrue, hokTrue⟩ := truth_of_rows hsupp.holds (hsame fees) (hnone fees) hok
    rw [hcounts hok hokTrue] at hfits hcount
    exact ⟨hdeclares, hchain, parameters, hparms, fees, hfees, rowsTrue, hokTrue, hfits, hcount,
      by rw [hrows hok hokTrue]⟩
  · rintro ⟨hdeclares, hchain, parameters, hparms, fees, hfees, rowsTrue, hokTrue, hfits, hcount,
      rfl⟩
    obtain ⟨rows, hok⟩ := rows_of_truth hsupp.holds (hsame fees) hokTrue
    rw [← hcounts hok hokTrue] at hfits hcount
    exact ⟨hchain, parameters, hparms, hdeclares, fees, hfees, (_, _),
      ⟨rows, hok, rfl, hfits, rfl⟩, hcount, by rw [hrows hok hokTrue]⟩

theorem DerivesFrom.lists (hpaired : Paired truth) {fin : Finality}
    (h : processor.DerivesFrom truth fin delta) : ListsBlobs truth delta := by
  obtain ⟨-, _, -, fees, hfees, rows, hrows, -, hcount, rfl⟩ := h
  have hmem : ∀ ent, ent ∈ sortBy hashOrder (rows.filterMap id) ↔
      ∃ t ∈ truth.transactions, processor.rowTrue truth.block fees t = .ok (some ent) := by
    intro ent
    rw [mem_sortBy]; simp only [mem_filterMap, id, exists_eq_right, mem_of_mapM_eq_ok hrows]
  constructor
  · intro t ht htype
    obtain ⟨answer, -, hans⟩ := answer_of_mapM_eq_ok hrows t ht
    cases answer with
    | none =>
      rw [rowTrue, row, if_pos htype, bind_eq_ok] at hans
      obtain ⟨ent, -, hnot⟩ := hans; cases hnot
    | some ent =>
      exact ⟨ent, (hmem ent).2 ⟨t, ht, hans⟩, (rowTrue_eq_some hans).2⟩
  · intro ent hent
    obtain ⟨t, ht, hans⟩ := (hmem ent).1 hent; exact ⟨t, ht, rowTrue_eq_some hans⟩
  · have hnodup := nodup_rows (fun t _ ent hent => rowTrue_hash t ent hent) hrows hpaired.hashes
    exact ((mergeSort_perm _ _).map _).nodup_iff.2 hnodup
  · rw [blockFees_declared hfees, ← hcount]
    exact congrArg (fun count => some (count * blobGasPerBlob))
      ((mergeSort_perm _ _).map _).sum_nat.symm

end BlobsProcessor

end Leani.Deltas
