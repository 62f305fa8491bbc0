import Leani.Filtering.Acceptance

/-!
# Projected frames

A source frame projected to exactly what a manifest requires. Sources differ in what they supply
beyond a requirement: only the required materials and field groups reach the guest, reduced to the
manifest's filter the way sources apply it.
-/

namespace Leani.Wasm.Frame

open Library Filtering

structure Header extends Filtering.HeaderEnvelope where
  baseFeePerGas : Option (BitVec 256)
  blobGasUsed : Option Nat
  excessBlobGas : Option Nat

structure Transaction extends Filtering.TransactionEnvelope where
  recipient : Option Address

structure SourceFrame where
  chainId : Nat
  block : BlockRef
  finality : Finality
  header : Filtering.Material Header
  transactions : Filtering.Material (List Transaction)
  receipts : Filtering.Material (List ReceiptEnvelope)
  logs : Filtering.Material (List Log)
  withdrawals : Filtering.Material (List Withdrawal)
  blobSidecars : Filtering.Material (List BlobSidecar)
  traces : Filtering.Material (List Trace)
  stateDiffs : Filtering.Material (List StateDiff)
  verification : Filtering.VerificationReport

def mapMaterial {α β : Type} (f : α → β) : Filtering.Material α → Filtering.Material β
  | .complete value => .complete (f value)
  | .filtered value scope completeness => .filtered (f value) scope completeness
  | .missing => .missing

def SourceFrame.base (frame : SourceFrame) : Filtering.BlockFrame where
  block := frame.block
  finality := frame.finality
  header := mapMaterial Header.toHeaderEnvelope frame.header
  transactions := mapMaterial (List.map Transaction.toTransactionEnvelope) frame.transactions
  receipts := frame.receipts
  logs := frame.logs
  withdrawals := frame.withdrawals
  blobSidecars := frame.blobSidecars
  traces := frame.traces
  stateDiffs := frame.stateDiffs
  verification := frame.verification

namespace Guest

structure Header where
  gasLimit : Option Nat
  gasUsed : Option Nat
  baseFeePerGas : Option (BitVec 256)
  blobGasUsed : Option Nat
  excessBlobGas : Option Nat
  sizeBytes : Option Nat
  transactionCount : Option Nat
  deriving DecidableEq

structure Transaction where
  hash : TransactionHash
  index : Nat
  transactionType : UInt8
  sender : Option Address
  recipient : Option Address
  nonce : Option Nat
  gasLimit : Option Nat
  value : Option (BitVec 256)
  input : Option (List UInt8)
  maxFeePerBlobGas : Option (BitVec 256)
  blobVersionedHashes : List BlockHash
  deriving DecidableEq

structure Log where
  address : Address
  topics : List Topic
  data : List UInt8
  transactionHash : Option TransactionHash
  transactionIndex : Nat
  logIndex : Nat
  deriving DecidableEq

structure Receipt where
  transactionHash : TransactionHash
  transactionIndex : Nat
  transactionType : UInt8
  success : Option Bool
  gasUsed : Option Nat
  effectiveGasPrice : Option (BitVec 256)
  blobGasUsed : Option Nat
  logs : List Log
  deriving DecidableEq

structure Block where
  chainId : Nat
  number : Nat
  hash : BlockHash
  parentHash : BlockHash
  timestamp : Nat
  header : Option Header
  transactions : Option (List Transaction)
  receipts : Option (List Receipt)
  logs : Option (List Log)
  withdrawals : Option (List Withdrawal)
  deriving DecidableEq

/-- A material or field group a manifest names, `abi::Capability`. -/
inductive Capability where
  | header
  | body
  | transactions
  | calldata
  | senders
  | blobFields
  | blockSize
  | receipts
  | receiptOutcome
  | logs
  | withdrawals
  deriving DecidableEq

structure Filter where
  addresses : List Address
  topics : List TopicFilter
  transactionTypes : List UInt8
  senders : List Address
  recipients : List Address

structure Requirements where
  capabilities : List Capability
  logTransactionHash : Bool
  filter : Filter

end Guest

def capability : Guest.Capability → Capability
  | .header => .header
  | .body => .body
  | .transactions => .transactions
  | .calldata => .calldata
  | .senders => .senders
  | .blobFields => .blobFields
  | .blockSize => .blockSize
  | .receipts => .receipts
  | .receiptOutcome => .receiptOutcome
  | .logs => .logs
  | .withdrawals => .withdrawals

structure Projection where
  capabilities : CapabilitySet
  groups : CapabilitySet
  logTransactionHash : Bool
  filter : FilterScope

def transactionGroups : List Capability := [.body, .transactions, .calldata, .senders, .blobFields]

def sortBy {α : Type} (key : α → Nat) (items : List α) : List α :=
  items.mergeSort fun a b => decide (key a ≤ key b)

def requiredMaterial {α : Type} (material : Filtering.Material α) (name : String) : Except String α :=
  required material.asPresent s!"frame lacks required {name}"

def part {α : Type} (asked : Bool) (value : Except String α) : Except String (Option α) :=
  if asked then value.map some else pure none

namespace Projection

def new (requires : Guest.Requirements) : Except String Projection := do
  let declared := requires.capabilities.foldl
    (fun set required => set.including (capability required)) CapabilitySet.none
  let groups := declared.withDerivable
  -- The block's number, hash and timestamp still need a frame.
  let capabilities := if declared = .none then .of .header else declared
  let filter : FilterScope := { FilterScope.wildcard with
    addresses := requires.filter.addresses
    topics := requires.filter.topics
    transactionTypes := requires.filter.transactionTypes
    senders := requires.filter.senders
    recipients := requires.filter.recipients }
  ensure (filter.constrainsTransactions = true → transactionGroups.any groups.contains = true)
    ("transaction filters need transaction material: require body, calldata, senders, or " ++
      "transactions")
  ensure (filter.senders ≠ [] → groups.contains .senders = true)
    "a sender filter needs the senders capability"
  ensure (filter.recipients ≠ [] → groups.contains .body = true)
    "a recipient filter needs the body capability"
  ensure (filter.constrainsLogs = true → groups.contains .logs = true)
    "address and topic filters select logs: require logs or receipts"
  ensure (requires.logTransactionHash = true → groups.contains .logs = true)
    "log transaction hashes need logs or receipts"
  pure ⟨capabilities, groups, requires.logTransactionHash, filter⟩

variable (projection : Projection)

def requirement : DataRequirement where
  capabilities := projection.capabilities
  logFields :=
    if projection.logTransactionHash then ⟨LogField.transactionHash.bit⟩ else LogFieldSet.none
  allowFiltered := true
  filter := projection.filter
  minimumFinality := .unattested

def has (capability : Capability) : Bool := projection.groups.contains capability

def field {α : Type} (capability : Capability) (value : Option α) : Option α :=
  if projection.has capability then value else none

def projectHeader (header : Header) : Guest.Header where
  gasLimit := projection.field .header header.gasLimit
  gasUsed := projection.field .header header.gasUsed
  baseFeePerGas := projection.field .header header.baseFeePerGas
  blobGasUsed := projection.field .header header.blobGasUsed
  excessBlobGas := projection.field .header header.excessBlobGas
  sizeBytes := projection.field .blockSize header.sizeBytes
  transactionCount := projection.field .blockSize header.transactionCount

def matchesTransaction (transaction : Transaction) : Bool :=
  projection.filter.matchesTransaction transaction.transactionType transaction.recipient
      transaction.hash &&
    projection.filter.matchesSender transaction.sender

def projectTransaction (transaction : Transaction) : Guest.Transaction where
  hash := transaction.hash
  index := transaction.index
  transactionType := transaction.transactionType
  sender := projection.field .senders transaction.sender
  recipient := projection.field .body transaction.recipient
  nonce := projection.field .body transaction.nonce
  gasLimit := projection.field .body transaction.gasLimit
  value := projection.field .body transaction.value
  input := projection.field .calldata transaction.input
  maxFeePerBlobGas := projection.field .blobFields transaction.maxFeePerBlobGas
  blobVersionedHashes :=
    if projection.has .blobFields then transaction.blobVersionedHashes else []

def transactions (frame : SourceFrame) : Except String (List Guest.Transaction) := do
  let transactions ← requiredMaterial frame.transactions "transactions"
  pure ((transactions.filter projection.matchesTransaction).map projection.projectTransaction)

def matchesLog (log : Log) : Bool :=
  projection.filter.matchesLog log.address (log.topics.map Vector.toList)

def projectLog (log : Log) : Guest.Log where
  address := log.address
  topics := log.topics
  data := log.data
  transactionHash := if projection.logTransactionHash then log.transactionHash else none
  transactionIndex := log.transactionIndex
  logIndex := log.logIndex

def projectReceipt (receipt : ReceiptEnvelope) : Guest.Receipt where
  transactionHash := receipt.transactionHash
  transactionIndex := receipt.transactionIndex
  transactionType := receipt.transactionType
  success := projection.field .receiptOutcome receipt.success
  gasUsed := projection.field .receiptOutcome receipt.gasUsed
  effectiveGasPrice := projection.field .receiptOutcome receipt.effectiveGasPrice
  blobGasUsed := projection.field .blobFields receipt.blobGasUsed
  logs := if projection.has .receipts then
    (receipt.logs.filter projection.matchesLog).map projection.projectLog else []

def sourceLogs (frame : SourceFrame) : Except String (List Log) :=
  match frame.logs.asPresent with
  | some logs => pure logs
  | none => do
    let receipts ← requiredMaterial frame.receipts "logs"
    pure (receipts.flatMap ReceiptEnvelope.logs)

def keptIndex (transactions : Option (List Guest.Transaction)) (index : Nat) : Bool :=
  match transactions with
  | some transactions =>
    !projection.filter.constrainsTransactions ||
      transactions.any fun transaction => transaction.index = index
  | none => true

def receipts (frame : SourceFrame) (kept : Nat → Bool) : Except String (List Guest.Receipt) := do
  let receipts ← requiredMaterial frame.receipts "receipts"
  pure (sortBy Guest.Receipt.transactionIndex
    ((receipts.filter fun receipt => kept receipt.transactionIndex).map projection.projectReceipt))

def logs (frame : SourceFrame) (kept : Nat → Bool) : Except String (List Guest.Log) := do
  let logs ← sourceLogs frame
  pure (sortBy Guest.Log.logIndex
    (((logs.filter fun log => kept log.transactionIndex).filter projection.matchesLog).map
      projection.projectLog))

/-- `project`. Transactions stand in block order, whatever order a source delivered. -/
def project (frame : SourceFrame) : Except String Guest.Block := do
  let transactions ← part (transactionGroups.any projection.has)
    ((projection.transactions frame).map (sortBy Guest.Transaction.index))
  let kept := projection.keptIndex transactions
  let receipts ← part (projection.has .receipts || projection.has .receiptOutcome)
    (projection.receipts frame kept)
  let logs ← part (projection.has .logs) (projection.logs frame kept)
  let withdrawals ← part (projection.has .withdrawals)
    (requiredMaterial frame.withdrawals "withdrawals")
  pure {
    chainId := frame.chainId
    number := frame.block.number
    hash := frame.block.hash
    parentHash := frame.block.parentHash
    timestamp := frame.block.timestamp
    header := if projection.has .header || projection.has .blockSize then
      frame.header.asPresent.map projection.projectHeader else none
    transactions, receipts, logs, withdrawals }

end Projection

end Leani.Wasm.Frame
