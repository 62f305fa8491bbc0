import Leani.Filtering.Capabilities
import Leani.Filtering.Scope

/-!
# Block frames and data requirements

The material of one block with the completeness it claims, the fields that groups promise, and
whether a frame meets a processor's data requirement. Fields that no check reads are left out.
-/

namespace Leani.Filtering

open Library

inductive Completeness where
  | verifiedPredicate
  | datasetDeclared
  | bestEffort
  deriving DecidableEq

inductive Material (α : Type) where
  | complete (value : α)
  | filtered (value : α) (scope : FilterScope) (completeness : Completeness)
  | missing

namespace Material

variable {α : Type}

def isPresent : Material α → Bool
  | missing => false
  | complete _ | filtered .. => true

def isComplete : Material α → Bool
  | complete _ => true
  | filtered .. | missing => false

def asPresent : Material α → Option α
  | complete value | filtered value _ _ => some value
  | missing => none

/-- `filter_claim`: the predicate and completeness claim of filtered material. -/
def filterClaim : Material α → Option (FilterScope × Completeness)
  | filtered _ scope completeness => some (scope, completeness)
  | complete _ | missing => none

end Material

structure HeaderEnvelope where
  gasLimit : Option Nat
  gasUsed : Option Nat
  sizeBytes : Option Nat
  transactionCount : Option Nat
  deriving DecidableEq

structure TransactionEnvelope where
  hash : TransactionHash
  transactionType : UInt8
  index : Nat
  sender : Option Address
  nonce : Option Nat
  gasLimit : Option Nat
  value : Option (BitVec 256)
  input : Option (List UInt8)
  maxFeePerBlobGas : Option (BitVec 256)
  blobVersionedHashes : List BlockHash
  deriving DecidableEq

structure Log where
  address : Address
  topics : List Topic
  data : List UInt8
  transactionHash : Option TransactionHash
  transactionIndex : Nat
  logIndex : Nat
  deriving DecidableEq

structure ReceiptEnvelope where
  transactionHash : TransactionHash
  transactionType : UInt8
  transactionIndex : Nat
  success : Option Bool
  gasUsed : Option Nat
  effectiveGasPrice : Option (BitVec 256)
  blobGasUsed : Option Nat
  logs : List Log
  deriving DecidableEq

structure Withdrawal where
  index : Nat
  validatorIndex : Nat
  address : Address
  amountGwei : Nat
  deriving DecidableEq

structure BlobSidecar where
  transactionHash : TransactionHash
  index : Nat
  versionedHash : BlockHash
  blob : List UInt8
  deriving DecidableEq

structure Trace where
  transactionHash : TransactionHash
  schema : String
  encoded : List UInt8
  deriving DecidableEq

structure StateDiff where
  address : Address
  schema : String
  encoded : List UInt8
  deriving DecidableEq

inductive CheckStatus where
  | verified
  | failed
  | notChecked
  | unavailable
  deriving DecidableEq

structure VerificationReport where
  headerHash : CheckStatus
  parentContinuity : CheckStatus
  transactionsRoot : CheckStatus
  receiptsRoot : CheckStatus
  withdrawalsRoot : CheckStatus
  datasetChecksum : CheckStatus
  consensusAnchor : Option BlockHash
  deriving DecidableEq

def VerificationReport.hasFailures (report : VerificationReport) : Bool :=
  [report.headerHash, report.parentContinuity, report.transactionsRoot, report.receiptsRoot,
    report.withdrawalsRoot, report.datasetChecksum].any (· = .failed)

structure BlockFrame where
  block : BlockRef
  finality : Finality
  header : Material HeaderEnvelope
  transactions : Material (List TransactionEnvelope)
  receipts : Material (List ReceiptEnvelope)
  logs : Material (List Log)
  withdrawals : Material (List Withdrawal)
  blobSidecars : Material (List BlobSidecar)
  traces : Material (List Trace)
  stateDiffs : Material (List StateDiff)
  verification : VerificationReport

structure FrameCapabilityReport where
  present : CapabilitySet
  complete : CapabilitySet
  deriving DecidableEq

namespace FrameCapabilityReport

def addMaterial {α : Type} (report : FrameCapabilityReport) (material : Material α)
    (capability : Capability) : FrameCapabilityReport where
  present := if material.isPresent then report.present.including capability else report.present
  complete := if material.isComplete then report.complete.including capability else report.complete

def addAnchor (report : FrameCapabilityReport) (anchored : Bool) : FrameCapabilityReport :=
  if anchored then
    ⟨report.present.including .consensusFinality, report.complete.including .consensusFinality⟩
  else report

def components (report : FrameCapabilityReport) (allowFiltered : Bool) : CapabilitySet :=
  if allowFiltered then report.present else report.complete

/-- Material for every required capability is complete or, with `allowFiltered`, present. The block
size lives in the header. -/
def satisfies (report : FrameCapabilityReport) (required : CapabilitySet) (allowFiltered : Bool) :
    Bool :=
  let components := report.components allowFiltered
  let supplied := components.withDerivable
  let supplied := if components.contains .header then supplied.including .blockSize else supplied
  supplied.containsAll required

end FrameCapabilityReport

def receiptsMatch (transactions : List TransactionEnvelope) (receipts : List ReceiptEnvelope) :
    Bool :=
  transactions.length = receipts.length &&
    (transactions.zip receipts).all fun (transaction, receipt) =>
      receipt.transactionHash = transaction.hash && receipt.transactionIndex =
        transaction.index && receipt.transactionType = transaction.transactionType

namespace BlockFrame

variable (frame : BlockFrame)

def capabilities : FrameCapabilityReport :=
  (⟨.none, .none⟩ : FrameCapabilityReport)
    |>.addMaterial frame.header .header
    |>.addMaterial frame.transactions .transactions
    |>.addMaterial frame.receipts .receipts
    |>.addMaterial frame.logs .logs
    |>.addMaterial frame.withdrawals .withdrawals
    |>.addMaterial frame.blobSidecars .blobSidecars
    |>.addMaterial frame.traces .traces
    |>.addMaterial frame.stateDiffs .stateDiffs
    |>.addAnchor frame.verification.consensusAnchor.isSome

/-- The checks of `group_violation` in their order: whether the field is lacking, and the reason. -/
def groupChecks (groups : CapabilitySet) : List (Bool × String) :=
  let header := frame.header.asPresent
  let transactions := frame.transactions.asPresent.getD []
  let receipts := frame.receipts.asPresent
  [(groups.contains .header && header.any fun header =>
      header.gasLimit.isNone || header.gasUsed.isNone,
    "header lacks gas limit or gas used"),
  (groups.contains .body && transactions.any fun transaction =>
      transaction.nonce.isNone || transaction.gasLimit.isNone || transaction.value.isNone,
    "transactions lack body fields"),
  (groups.contains .body && header.any fun header => header.transactionCount.isNone,
    "header lacks the transaction count"),
  (groups.contains .calldata && transactions.any fun transaction => transaction.input.isNone,
    "transactions lack calldata"),
  (groups.contains .senders && transactions.any fun transaction => transaction.sender.isNone,
    "transactions lack senders"),
  (groups.contains .blobFields && transactions.any fun transaction =>
      transaction.transactionType = 3 &&
        (transaction.blobVersionedHashes.isEmpty || transaction.maxFeePerBlobGas.isNone),
    "blob transactions lack blob fields"),
  (groups.contains .blobFields && receipts.any fun receipts => receipts.any fun receipt =>
      receipt.transactionType = 3 && receipt.blobGasUsed.isNone,
    "blob receipts lack blob gas used"),
  (groups.contains .receiptOutcome && receipts.any fun receipts => receipts.any fun receipt =>
      receipt.success.isNone || receipt.gasUsed.isNone || receipt.effectiveGasPrice.isNone,
    "receipts lack outcome fields"),
  (groups.contains .receiptOutcome && receipts.any fun receipts =>
      frame.transactions.isPresent && !receiptsMatch transactions receipts,
    "receipts do not match the transactions one to one"),
  (groups.contains .blockSize && header.any fun header => header.sizeBytes.isNone,
    "header lacks the block size"),
  (groups.contains .blockSize && header.any fun header => header.transactionCount.isNone,
    "header lacks the transaction count")]

def groupViolation (groups : CapabilitySet) : Option String :=
  ((frame.groupChecks groups).find? (·.1)).map Prod.snd

def lacksTransactionHash : Bool :=
  (frame.logs.asPresent.any fun logs => logs.any (·.transactionHash.isNone)) ||
    frame.receipts.asPresent.any fun receipts => receipts.any fun receipt =>
      receipt.logs.any (·.transactionHash.isNone)

def filterClaims : List (Capability × Option (FilterScope × Completeness)) :=
  [(.header, frame.header.filterClaim), (.transactions, frame.transactions.filterClaim),
    (.receipts, frame.receipts.filterClaim), (.logs, frame.logs.filterClaim),
    (.withdrawals, frame.withdrawals.filterClaim), (.blobSidecars, frame.blobSidecars.filterClaim),
    (.traces, frame.traces.filterClaim), (.stateDiffs, frame.stateDiffs.filterClaim)]

end BlockFrame

structure DataRequirement where
  capabilities : CapabilitySet
  logFields : LogFieldSet
  allowFiltered : Bool
  filter : FilterScope
  minimumFinality : Finality

namespace DataRequirement

variable (requirement : DataRequirement) (frame : BlockFrame)

def validateClaim (block : Nat) :
    Capability × Option (FilterScope × Completeness) → Except String Unit
  | (_, none) => .ok ()
  | (capability, some (scope, completeness)) =>
    let supplies := (CapabilitySet.of capability).withDerivable
    if supplies.intersection requirement.capabilities = .none then .ok ()
    else do
      ensure (completeness ≠ .bestEffort) "filtered frame material is only a partial projection"
      ensure (scope.coversAt requirement.filter block = true)
        "filtered frame material does not cover the requirement filter"

def validateFilteredMaterial : Except String Unit :=
  foldExcept (fun _ claim => requirement.validateClaim frame.block.number claim) () frame.filterClaims

def validateClaims : Except String Unit :=
  if requirement.allowFiltered then requirement.validateFilteredMaterial frame else .ok ()

def validateGroups : Except String Unit :=
  match frame.groupViolation requirement.capabilities.withDerivable with
  | some reason => .error reason
  | none => .ok ()

def validateFrame : Except String Unit := do
  ensure (requirement.minimumFinality ≤ frame.finality) "frame does not meet minimum finality"
  ensure (frame.capabilities.satisfies requirement.capabilities requirement.allowFiltered = true)
    "frame does not meet capability completeness"
  requirement.validateClaims frame
  ensure (frame.verification.hasFailures = false) "frame contains failed verification"
  ensure (¬ (requirement.logFields.contains .transactionHash = true ∧
    frame.lacksTransactionHash = true)) "frame logs omit a required transaction hash"
  requirement.validateGroups frame

end DataRequirement

end Leani.Filtering
