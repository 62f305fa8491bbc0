import Leani.Deltas.Material
import Leani.Library.BigEndian
import Leani.Library.Grouping

/-!
# Rollup transactions

The transactions of a block that rules recognize as a rollup's, with what they burned and tipped.
Any frames of a block that the requirement accepts derive the same.
-/

namespace Leani.Deltas

open Library Filtering Wasm.Frame

def londonBlock : Nat := 12965000

def mainnetChainId : Nat := 1

def mainnetGenesisTimestamp : Nat := 1438269973

def unixSecondsLimit : Nat := 10000000000

inductive Purpose where
  | data
  | state
  | proof
  deriving DecidableEq

/-- One way a rollup's L1 transaction is recognized. The window is `[sinceTime, untilTime)`. -/
structure Rule where
  rollup : String
  purpose : Purpose
  recipient : Address
  sender : Option Address
  selector : Option (Vector UInt8 4)
  chainIdArg : Option Nat
  sinceTime : Option Nat
  untilTime : Option Nat
  deriving DecidableEq

namespace Rule

variable (rule : Rule)

def validateTime (index : Nat) (field : String) : Option Nat → Except ProcessorError Unit
  | none => pure ()
  | some timestamp => do
    let told := s!"rule {index} for {rule.rollup}: since and until are UNIX timestamps in " ++
      s!"seconds; {field} {timestamp} "
    ensure (mainnetGenesisTimestamp ≤ timestamp)
      (.input (told ++ s!"is before mainnet genesis ({mainnetGenesisTimestamp})"))
    ensure (timestamp < unixSecondsLimit)
      (.input (told ++ s!"is not below {unixSecondsLimit} (the year 2286), so it is most " ++
        "likely in milliseconds"))

def validate (index : Nat) : Except ProcessorError Unit := do
  ensure (rule.rollup ≠ "") (.input s!"rule {index} has no rollup id")
  ensure (rule.chainIdArg.isSome = true → rule.selector.isSome = true)
    (.input s!"rule {index} for {rule.rollup}: chain_id_arg needs a selector")
  rule.validateTime index "since" rule.sinceTime
  rule.validateTime index "until" rule.untilTime
  ensure (∀ sinceTime ∈ rule.sinceTime, ∀ untilTime ∈ rule.untilTime, sinceTime < untilTime)
    (.input s!"rule {index} for {rule.rollup} has an empty time window")

def carries (input : List UInt8) (chainId : Nat) : Bool :=
  decide (36 ≤ input.length) && ((input.drop 4).take 24).all (· = 0) &&
    decide ((input.drop 28).take 8 = BigEndian.bytes 8 chainId)

def recognizes (sender : Address) (input : List UInt8) (timestamp : Nat) : Bool :=
  rule.sender.all (· = sender) &&
    (rule.sinceTime.all (· ≤ timestamp) && rule.untilTime.all (timestamp < ·)) &&
    rule.selector.all (fun selector => decide (4 ≤ input.length ∧ input.take 4 = selector.toList)) &&
    rule.chainIdArg.all (carries input)

end Rule

structure RollupTxsConfig where
  network : String
  startBlock : Nat
  rules : List Rule

structure RollupTxsProcessor where
  config : RollupTxsConfig
  byRecipient : Table Address (List Rule)

structure TrackedBlock where
  network : String
  block : BlockRef
  finality : Finality
  deriving DecidableEq

structure TrackedTransaction where
  transactionHash : TransactionHash
  transactionIndex : Nat
  rollup : String
  purpose : Purpose
  success : Bool
  sender : Address
  recipient : Address
  selector : Option (Vector UInt8 4)
  gasUsed : Nat
  executionBurn : Nat
  tip : Nat
  deriving DecidableEq

structure RollupTxsDelta where
  block : TrackedBlock
  transactions : List TrackedTransaction
  deriving DecidableEq

def trackedTransaction (rule : Rule) (baseFee : Nat) (sender recipient : Address)
    (transaction : Transaction) (receipt : ReceiptEnvelope) :
    Except ProcessorError TrackedTransaction := do
  ensure (receipt.transactionIndex = transaction.index ∧ receipt.transactionType =
      transaction.transactionType) (.invariant "transaction/receipt identity mismatch")
  let success ← requiredField receipt.success "receipt.success"
  let gasUsed ← requiredField receipt.gasUsed "receipt.gas_used"
  let effectivePrice ← requiredField receipt.effectiveGasPrice "receipt.effective_gas_price"
  let executionBurn ← checkedMul baseFee gasUsed "execution burn overflow"
  ensure (baseFee ≤ effectivePrice.toNat) (.invariant "effective gas price below base fee")
  let tip ← checkedMul (effectivePrice.toNat - baseFee) gasUsed "tip overflow"
  pure {
    transactionHash := transaction.hash
    transactionIndex := transaction.index
    rollup := rule.rollup
    purpose := rule.purpose
    success, sender, recipient
    selector := rule.selector
    gasUsed, executionBurn, tip }

namespace RollupTxsProcessor

def new (config : RollupTxsConfig) : Except ProcessorError RollupTxsProcessor := do
  ensure (config.rules ≠ []) (.input "rollup-txs needs at least one rule")
  ensure (londonBlock ≤ config.startBlock)
    (.input (s!"start_block {config.startBlock} is before London (block {londonBlock}), the " ++
      "first block with a base fee: the execution burn and tip need one on every block"))
  foldExcept (fun _ (rule, index) => rule.validate index) () config.rules.zipIdx
  pure ⟨config, groupBy Rule.recipient config.rules⟩

variable (processor : RollupTxsProcessor)

def capabilities : CapabilitySet :=
  CapabilitySet.of .header |>.including .body |>.including .senders |>.including .calldata
    |>.including .receiptOutcome

theorem capabilities_withDerivable : capabilities.withDerivable = capabilities := by
  decide

def requirement : DataRequirement where
  capabilities := capabilities
  logFields := .none
  allowFiltered := true
  filter := { FilterScope.wildcard with recipients := processor.byRecipient.toList.map Prod.fst }
  minimumFinality := .unattested

def track (baseFee timestamp : Nat) (transaction : Transaction)
    (receipt : Option ReceiptEnvelope) : Except ProcessorError (Option TrackedTransaction) :=
  -- Blob transactions are the blobs processor's; contract creations have no recipient.
  if transaction.transactionType = 3 then pure none
  else match transaction.recipient with
    | none => pure none
    | some recipient =>
      match processor.byRecipient[recipient]? with
      | none => pure none
      | some candidates => do
        let sender ← requiredField transaction.sender "transaction.from"
        let input ← requiredField transaction.input "transaction.input"
        match candidates.find? (·.recognizes sender input timestamp) with
        | none => pure none
        | some rule => do
          let receipt ← required receipt (.missingReceipt "missing receipt for" transaction.hash)
          let row ← trackedTransaction rule baseFee sender recipient transaction receipt
          pure (some row)

def derive (frame : SourceFrame) : Except ProcessorError RollupTxsDelta := do
  validateFrame processor.requirement frame
  ensure (frame.chainId = mainnetChainId)
    (.input s!"rollup-txs is for chain {mainnetChainId}, received {frame.chainId}")
  let header ← acceptedMaterial frame.header "header"
  let transactions ← acceptedMaterial frame.transactions "transactions"
  let receipts ← acceptedMaterial frame.receipts "receipts"
  let receipts ← receiptMap receipts
  let baseFee ← requiredField header.baseFeePerGas "header.base_fee_per_gas"
  let matched ← transactions.mapM fun transaction =>
    processor.track baseFee.toNat frame.block.timestamp transaction
      (receiptOf receipts transaction.hash)
  pure {
    block := ⟨processor.config.network, frame.block, frame.finality⟩
    transactions := sortBy TrackedTransaction.transactionIndex (matched.filterMap id) }

def projection : Projection where
  capabilities := processor.requirement.capabilities
  groups := processor.requirement.capabilities
  logTransactionHash := false
  filter := processor.requirement.filter

theorem projection_requirement : processor.projection.requirement = processor.requirement := rfl

theorem projection_checked : processor.projection.Checked where
  blockRange := rfl
  transactionHashes := rfl
  transactions _ := List.any_eq_true.2 ⟨.body, List.mem_cons_self,
    (by decide : capabilities.contains .body = true)⟩
  senders h := absurd rfl h
  recipients _ := (by decide : capabilities.contains .body = true)
  logTransactionHash h := by cases h
  groups := by
    refine ⟨capabilities, capabilities_withDerivable.symm, ?_⟩
    rw [if_neg (by decide)]; rfl

end RollupTxsProcessor

def firstRule (rules : List Rule) (timestamp : Nat) (transaction : Transaction) : Option Rule :=
  match transaction.sender, transaction.input with
  | some sender, some input => rules.find? fun rule =>
      decide (transaction.recipient = some rule.recipient) && rule.recognizes sender input timestamp
  | _, _ => none

theorem firstRule_eq {rules : List Rule} {ts : Nat} {tx : Transaction} {sender recip : Address}
    {input : List UInt8} (hsender : tx.sender = some sender) (hinput : tx.input = some input)
    (hrecip : tx.recipient = some recip) : firstRule rules ts tx =
    (rules.filter (·.recipient = recip)).find? (·.recognizes sender input ts) := by
  rw [firstRule, hsender, hinput, hrecip, List.find?_filter]
  dsimp only
  congr 1
  funext rule
  by_cases h : rule.recipient = recip
  · simp [h]
  · simp [h, Ne.symm h]

structure Describes (t : TrueTransaction) (rule : Rule) (row : TrackedTransaction) : Prop where
  identity : row.transactionHash = t.envelope.hash ∧ row.transactionIndex = t.envelope.index
  rule : row.rollup = rule.rollup ∧ row.purpose = rule.purpose ∧ row.selector = rule.selector
  parties : t.envelope.sender = some row.sender ∧ t.envelope.recipient = some row.recipient
  outcome : t.receipt.success = some row.success ∧ t.receipt.gasUsed = some row.gasUsed
  paid : ∃ effectivePrice : BitVec 256, t.receipt.effectiveGasPrice = some effectivePrice ∧
    row.executionBurn + row.tip = effectivePrice.toNat * row.gasUsed

/-- The delta lists the transactions that are no blob transactions and match some rule, each once
and under the first it matches. -/
structure ListsRecognized (rules : List Rule) (truth : TrueBlock) (delta : RollupTxsDelta) :
    Prop where
  all : ∀ t ∈ truth.transactions, t.envelope.transactionType ≠ 3 → ∀ rule,
    firstRule rules truth.block.timestamp t.envelope = some rule →
      ∃ row ∈ delta.transactions, Describes t rule row
  only : ∀ row ∈ delta.transactions, ∃ t ∈ truth.transactions, t.envelope.transactionType ≠ 3 ∧
    ∃ rule, firstRule rules truth.block.timestamp t.envelope = some rule ∧ Describes t rule row
  once : (delta.transactions.map TrackedTransaction.transactionIndex).Nodup

theorem trackedTransaction_eq {given true_ : Transaction} {rcpt rcpt' : ReceiptEnvelope}
    {groups : CapabilitySet} (hagree : TransactionAgrees groups given true_)
    (hrcpt : ReceiptAgrees groups rcpt rcpt')
    (houtc : groups.contains .receiptOutcome = true) (rule : Rule) (baseFee : Nat)
    (sender recip : Address) : trackedTransaction rule baseFee sender recip given rcpt =
      trackedTransaction rule baseFee sender recip true_ rcpt' := by
  obtain ⟨hsucc, hgas, hprice⟩ := hrcpt.receiptOutcome houtc
  unfold trackedTransaction
  rw [hagree.identity.1, hagree.identity.2.1, hagree.identity.2.2, hrcpt.identity.2.1,
    hrcpt.identity.2.2, hsucc, hgas, hprice]

theorem trackedTransaction_eq_ok {rule : Rule} {baseFee : Nat} {sender recip : Address}
    {t : TrueTransaction} {row : TrackedTransaction} (hsender : t.envelope.sender = some sender)
    (hrecip : t.envelope.recipient = some recip)
    (h : trackedTransaction rule baseFee sender recip t.envelope t.receipt = .ok row) :
    Describes t rule row ∧ row.transactionIndex = t.envelope.index := by
  simp only [trackedTransaction, requiredField, eq_ok, checkedMul_eq_ok] at h
  obtain ⟨-, -, _, hsucc, _, hgas, price, hprice, _, ⟨-, rfl⟩, -, hfee, _, ⟨-, rfl⟩, rfl⟩ := h
  refine ⟨⟨⟨rfl, rfl⟩, ⟨rfl, rfl, rfl⟩, ⟨hsender, hrecip⟩, ⟨hsucc, hgas⟩, price, hprice, ?_⟩,
    rfl⟩
  rw [← Nat.add_mul, Nat.add_sub_cancel' hfee]

namespace RollupTxsProcessor

variable {processor : RollupTxsProcessor} {truth : TrueBlock} {baseFee timestamp : Nat}

def trackTrue (processor : RollupTxsProcessor) (baseFee timestamp : Nat) (t : TrueTransaction) :
    Except ProcessorError (Option TrackedTransaction) :=
  processor.track baseFee timestamp t.envelope (some t.receipt)

theorem matchesTransaction_of_group {tx : Transaction} {recip : Address} {group : List Rule}
    (hrecip : tx.recipient = some recip) (hgrp : processor.byRecipient[recip]? = some group) :
    processor.projection.matchesTransaction tx = true := by
  have hmem : recip ∈ processor.byRecipient.toList.map Prod.fst :=
    List.mem_map.2 ⟨(recip, group), Table.mem_toList.2 hgrp, rfl⟩
  have hlist := listMatches_iff.2 (.inr ⟨recip, hmem, rfl⟩)
  simp only [Projection.matchesTransaction, projection, requirement, FilterScope.wildcard,
    FilterScope.matchesTransaction, FilterScope.matchesSender, hrecip, hlist]
  rfl

variable {t : TrueTransaction}

theorem track_eq {given : Transaction} {rcpt : Option ReceiptEnvelope}
    (hagree : TransactionAgrees capabilities given t.envelope)
    (hrcpt : processor.projection.matchesTransaction t.envelope = true →
      ∃ found, rcpt = some found ∧ ReceiptAgrees capabilities found t.receipt) :
    processor.track baseFee timestamp given rcpt = processor.trackTrue baseFee timestamp t := by
  unfold trackTrue track
  rw [hagree.identity.1, hagree.identity.2.2, (hagree.body (by decide)).1,
    hagree.senders (by decide), hagree.calldata (by decide)]
  cases hrecip : t.envelope.recipient with
  | none => rfl
  | some recipient =>
    dsimp only
    cases hgroup : processor.byRecipient[recipient]? with
    | none => rfl
    | some group =>
      obtain ⟨found, rfl, hfound⟩ := hrcpt (matchesTransaction_of_group hrecip hgroup)
      have hrow := trackedTransaction_eq hagree hfound (by decide)
      simp only [required, ok_bind, hrow]

theorem trackTrue_of_not_matches (h : ¬ processor.projection.matchesTransaction t.envelope = true) :
    processor.trackTrue baseFee timestamp t = .ok none := by
  unfold trackTrue track
  split
  · rfl
  · cases hrecip : t.envelope.recipient with
    | none => rfl
    | some recipient =>
      dsimp only
      cases hgroup : processor.byRecipient[recipient]? with
      | none => rfl
      | some group => exact (h (matchesTransaction_of_group hrecip hgroup)).elim

variable {config : RollupTxsConfig}

theorem trackTrue_eq_some (hrules : processor.byRecipient = groupBy Rule.recipient config.rules)
    {row : TrackedTransaction} (h : processor.trackTrue baseFee timestamp t = .ok (some row)) :
    t.envelope.transactionType ≠ 3 ∧ ∃ rule, firstRule config.rules timestamp t.envelope =
    some rule ∧ Describes t rule row ∧ row.transactionIndex = t.envelope.index := by
  unfold trackTrue track at h
  split at h
  · cases h
  · rename_i htype
    refine ⟨htype, ?_⟩
    cases hrecip : t.envelope.recipient with
    | none =>
      rw [hrecip] at h; cases h
    | some recipient =>
      rw [hrecip] at h
      dsimp only at h
      cases hgroup : processor.byRecipient[recipient]? with
      | none =>
        rw [hgroup] at h; cases h
      | some group =>
        rw [hgroup] at h
        simp only [requiredField, eq_ok] at h
        obtain ⟨sender, hsender, input, hinput, h⟩ := h
        rw [hrules] at hgroup
        have hcands := (group_eq hgroup).1
        have hfst : firstRule config.rules timestamp t.envelope =
            group.find? (·.recognizes sender input timestamp) := by
          rw [firstRule_eq hsender hinput hrecip, hcands]
        split at h
        · cases h
        · rename_i rule hrule
          simp only [eq_ok] at h
          obtain ⟨_, hrcpt, _, hrow, hsame⟩ := h
          cases hrcpt
          cases hsame
          exact ⟨rule, hfst.trans hrule, trackedTransaction_eq_ok hsender hrecip hrow⟩

theorem exists_row (hrules : processor.byRecipient = groupBy Rule.recipient config.rules)
    {answer : Option TrackedTransaction} {rule : Rule} (htype : t.envelope.transactionType ≠ 3)
    (hrule : firstRule config.rules timestamp t.envelope = some rule)
    (h : processor.trackTrue baseFee timestamp t = .ok answer) : ∃ row, answer = some row := by
  have hrule' := hrule
  unfold firstRule at hrule'
  split at hrule'
  · rename_i sender input hsender hinput
    have hfound := List.find?_some hrule'
    simp only [Bool.and_eq_true, decide_eq_true_iff] at hfound
    obtain ⟨group, hgroup⟩ :=
      @exists_group _ _ _ _ _ _ Rule.recipient _ _ (List.mem_of_find?_eq_some hrule')
    have hcands := (group_eq hgroup).1
    have hfind : group.find? (·.recognizes sender input timestamp) = some rule := by
      rw [← hrule, firstRule_eq hsender hinput hfound.1, hcands]
    simp only [trackTrue, track, if_neg htype, hfound.1, hrules, hgroup, hsender, hinput,
      requiredField, required, ok_bind, hfind, eq_ok] at h
    obtain ⟨row, -, rfl⟩ := h; exact ⟨row, rfl⟩
  · cases hrule'

theorem selects_of_matches {scope : FilterScope}
    (hcovers : scope.coversAt processor.projection.filter truth.block.number = true)
 (h : processor.projection.matchesTransaction t.envelope = true) :
    Selects scope truth.block.number t :=
  selects_of_covers processor.projection_checked hcovers h

def DerivesFrom (processor : RollupTxsProcessor) (truth : TrueBlock) (finality : Finality)
    (delta : RollupTxsDelta) : Prop :=
  truth.chainId = mainnetChainId ∧ ∃ baseFee : BitVec 256, truth.header.baseFeePerGas = some baseFee ∧
    ∃ rows, truth.transactions.mapM (processor.trackTrue baseFee.toNat truth.block.timestamp) =
    .ok rows ∧ delta = ⟨⟨processor.config.network, truth.block, finality⟩,
    sortBy TrackedTransaction.transactionIndex (rows.filterMap id)⟩

theorem trackTrue_index (hrules : processor.byRecipient = groupBy Rule.recipient config.rules)
    (t : TrueTransaction) (row : TrackedTransaction) (h : processor.trackTrue baseFee timestamp t =
    .ok (some row)) : row.transactionIndex = t.envelope.index := by
  obtain ⟨-, _, -, -, hindex⟩ := trackTrue_eq_some hrules h; exact hindex

variable {delta : RollupTxsDelta}

theorem derive_eq_ok (hrules : processor.byRecipient = groupBy Rule.recipient config.rules)
    (hpaired : Paired truth) {frame : SourceFrame} (hfrm : FrameOf processor.projection truth frame) :
    processor.derive frame = .ok delta ↔ processor.DerivesFrom truth frame.finality delta := by
  have hchk := processor.projection_checked
  have hbody : capabilities.contains .body = true := by decide
  obtain ⟨hdr, hhdr, hflds⟩ :=
    exists_header hchk hfrm (by decide : capabilities.contains .header = true)
  obtain ⟨items, scope, hitems, hsupp⟩ := exists_transactions hchk hfrm hbody
  obtain ⟨rcpts, _, hrcpts, hsupp'⟩ :=
    exists_receipts hchk hfrm (by decide : capabilities.contains .receiptOutcome = true)
  have hfee := (hflds.header (by decide : capabilities.contains .header = true)).2.2.1
  -- The frame's loop and the block's, turn by turn.
  have hsame : ∀ baseFee, ∀ item ∈ items, ∀ t ∈ truth.transactions,
      TransactionAgrees capabilities item t.envelope →
        processor.track baseFee truth.block.timestamp item (receiptOf rcpts item.hash) =
          processor.trackTrue baseFee truth.block.timestamp t := by
    intro baseFee item _ t ht hagree
    refine track_eq hagree fun hmatch => ?_
    rw [hagree.identity.1]
    exact hsupp'.exists_receiptOf hpaired ht (selects_of_matches hsupp'.covers hmatch)
  have hnone : ∀ baseFee, ∀ t ∈ truth.transactions, ¬ Selects scope truth.block.number t →
      processor.trackTrue baseFee truth.block.timestamp t = .ok none :=
    fun baseFee t _ hnot =>
      trackTrue_of_not_matches fun hmatch => hnot (selects_of_matches hsupp.covers hmatch)
  have hrows : ∀ {baseFee rows rowsTrue}, items.mapM (fun item => processor.track baseFee
        truth.block.timestamp item (receiptOf rcpts item.hash)) = .ok rows →
      truth.transactions.mapM (processor.trackTrue baseFee truth.block.timestamp) = .ok rowsTrue →
        sortBy TrackedTransaction.transactionIndex (rows.filterMap id) =
          sortBy TrackedTransaction.transactionIndex (rowsTrue.filterMap id) := by
    intro baseFee rows rowsTrue hok hokTrue
    exact sortBy_rows_eq hsupp.holds (hsame baseFee) (hnone baseFee) hsupp.holds.once
      hpaired.indexes (fun item t hagree => hagree.identity.2.1) (trackTrue_index hrules) hok hokTrue
  simp only [derive, ← projection_requirement, validateFrame_eq_ok hfrm.accepted, hhdr, hitems,
    hrcpts, hsupp'.receiptMap_eq hpaired, hfrm.chainId, hfrm.block, ok_bind, hfee,
    requiredField, eq_ok, exists_const, DerivesFrom]
  refine and_congr_right fun _ => exists_congr fun baseFee => and_congr_right fun _ => ?_
  constructor
  · rintro ⟨rows, hok, rfl⟩
    obtain ⟨rowsTrue, hokTrue⟩ :=
      truth_of_rows hsupp.holds (hsame baseFee.toNat) (hnone baseFee.toNat) hok
    exact ⟨rowsTrue, hokTrue, by rw [hrows hok hokTrue]⟩
  · rintro ⟨rowsTrue, hokTrue, rfl⟩
    obtain ⟨rows, hok⟩ := rows_of_truth hsupp.holds (hsame baseFee.toNat) hokTrue
    exact ⟨rows, hok, by rw [hrows hok hokTrue]⟩

theorem DerivesFrom.lists (hrules : processor.byRecipient = groupBy Rule.recipient config.rules)
    (hpaired : Paired truth) {fin : Finality}
    (h : processor.DerivesFrom truth fin delta) : ListsRecognized config.rules truth delta := by
  obtain ⟨-, baseFee, -, rows, hrows, rfl⟩ := h
  have hmem : ∀ row, row ∈ sortBy TrackedTransaction.transactionIndex (rows.filterMap id) ↔
      ∃ t ∈ truth.transactions,
        processor.trackTrue baseFee.toNat truth.block.timestamp t = .ok (some row) := by
    intro row
    rw [mem_sortBy]; simp only [List.mem_filterMap, id, exists_eq_right, mem_of_mapM_eq_ok hrows]
  constructor
  · intro t ht htype rule hrule
    obtain ⟨_, -, hans⟩ := answer_of_mapM_eq_ok hrows t ht
    obtain ⟨row, rfl⟩ := exists_row hrules htype hrule hans
    obtain ⟨-, _, hrule', hdescr, -⟩ := trackTrue_eq_some hrules hans
    rw [hrule] at hrule'; cases hrule'; exact ⟨row, (hmem row).2 ⟨t, ht, hans⟩, hdescr⟩
  · intro row hrow
    obtain ⟨t, ht, hans⟩ := (hmem row).1 hrow
    obtain ⟨htype, rule, hrule, hdescr, -⟩ := trackTrue_eq_some hrules hans
    exact ⟨t, ht, htype, rule, hrule, hdescr⟩
  · have hnodup := nodup_rows (fun t _ row hrow => trackTrue_index hrules t row hrow) hrows
      hpaired.indexes
    exact ((List.mergeSort_perm _ _).map _).nodup_iff.2 hnodup

theorem new_byRecipient (h : new config = .ok processor) :
    processor.byRecipient = groupBy Rule.recipient config.rules := by
  simp only [new, eq_ok] at h
  obtain ⟨-, -, -, -, -, -, rfl⟩ := h; rfl

end RollupTxsProcessor

end Leani.Deltas
