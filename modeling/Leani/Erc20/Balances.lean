import Leani.Delivery.Model
import Leani.EvmEvents.Mapping
import Leani.Library.Codec
import Leani.Processor.Output

/-!
# Watchlist balances

Event-derived ERC-20 balances of declared addresses: the transfers a block's logs hold, and their
reduction to one ledger for each pair of a token and a watched address. Deltas and balances are
encoded by a library.
-/

namespace Leani.Erc20

open Library Std Filtering

open EvmEvents (EncodedDelta ProcessorDescriptor ChainFrame)

open Processor (StateKey)

open Delivery (DomainChange)

instance transOrdPair : TransOrd (Address × Address) := inferInstance

def balanceCollection : String := "erc20.balances"

def balanceChangeKind : String := "erc20.balance"

def zeroAddress : Address := .replicate 20 0

def ethTransferEmitter : Address := (Vector.replicate 19 0xff).push 0xfe

/-- Immutable watchlist and completeness declaration, `Erc20BalanceConfig`. -/
structure Config where
  startBlock : Nat
  addresses : List Address
  tokens : List Address
  completeFromStart : Bool

structure TokenBalance where
  token : Address
  address : Address
  balance : Nat
  asOfBlock : Nat
  blockHash : BlockHash
  finality : Finality
  coverageFrom : Nat
  complete : Bool
  incompleteFrom : Option Nat
  method : String

structure TransferEvent where
  token : Address
  sender : Address
  recipient : Address
  value : Nat
  logIndex : Nat

structure TransferDelta where
  events : List TransferEvent
  skippedLogs : Nat

inductive ProcessorError where
  | input (text : String)
  | state (text : String)
  | deltaContract
  | deltaChecksum
  | deltaPayload (text : String)
  | cursorMismatch

structure Tools where
  keccak256 : List UInt8 → Topic
  blake3 : List UInt8 → BlockHash
  encodeConfig : Config → List UInt8
  delta : Codec TransferDelta
  balance : Codec TokenBalance

structure BalanceProcessor where
  config : Config
  watched : ExtTreeSet Address
  tokens : ExtTreeSet Address
  descriptor : ProcessorDescriptor

structure ProcessorCursor where
  processorId : String
  processorVersion : String
  chainId : Nat
  blockNumber : Nat
  blockHash : BlockHash
  finality : Finality
  sequence : Nat

variable (tools : Tools)

def transferTopic : Topic := tools.keccak256 (EvmEvents.textBytes "Transfer(address,address,uint256)")

def new (config : Config) : Except ProcessorError BalanceProcessor := do
  let watched : ExtTreeSet Address := .ofList config.addresses
  let tokens : ExtTreeSet Address := .ofList config.tokens
  let config := { config with addresses := watched.toList, tokens := tokens.toList }
  ensure (config.addresses ≠ []) (.input "ERC-20 watchlist must contain at least one address")
  let requirement : DataRequirement := {
    capabilities := .of .logs
    logFields := .none
    allowFiltered := true
    filter := { FilterScope.wildcard with
      addresses := config.tokens, topics := [⟨0, [transferTopic tools]⟩] }
    minimumFinality := .unattested }
  pure {
    config, watched, tokens
    descriptor :=
      ⟨"erc20-balances", "1.1.0", tools.blake3 (tools.encodeConfig config), requirement, 2⟩ }

def acceptedLogs : Filtering.Material (List Log) → Except ProcessorError (List Log)
  | .complete logs => pure logs
  | .filtered logs _ completeness => do
    ensure (completeness ≠ .bestEffort) (.input "ERC-20 logs are only partially filtered")
    pure logs
  | .missing => throw (.input "ERC-20 logs are missing")

/-- `topic_address`: the address in a zero-padded topic. -/
def topicAddress (topic : Topic) : Option Address :=
  if (topic.toList.take 12).all (· = 0) then some (topic.drop 12 : Vector UInt8 20) else none

/-- `transfer_fields`: sender, recipient, and value of a canonical ERC-20 `Transfer`. -/
def transferFields (log : Log) : Option (Address × Address × Nat) :=
  match log.topics with
  | [_, sender, recipient] => do
    let sender ← topicAddress sender
    let recipient ← topicAddress recipient
    if log.data.length = 32 then some (sender, recipient, BigEndian.number log.data) else none
  | _ => none

inductive MappedLog where
  | ignored
  | skipped
  | event (event : TransferEvent)

namespace BalanceProcessor

variable (processor : BalanceProcessor)

def mapLog (log : Log) : MappedLog :=
  let allowlisted := processor.tokens.contains log.address
  if log.topics.head? ≠ some (transferTopic tools) ∨ (processor.tokens.isEmpty = false ∧
      allowlisted = false) ∨ (log.address = ethTransferEmitter ∧ allowlisted = false) then .ignored
  else
    match transferFields log with
    -- Any contract can emit this signature, so a log that does not decode is counted.
    | none => .skipped
    | some (sender, recipient, value) =>
      if processor.watched.contains sender || processor.watched.contains recipient then
        .event ⟨log.address, sender, recipient, value, log.logIndex⟩
      else .ignored

def transferOf (log : Log) : Option TransferEvent :=
  match processor.mapLog tools log with
  | .event event => some event
  | _ => none

def isSkipped (log : Log) : Bool :=
  match processor.mapLog tools log with
  | .skipped => true
  | _ => false

end BalanceProcessor

def sortEvents (events : List TransferEvent) : List TransferEvent :=
  events.mergeSort fun a b => decide (a.logIndex ≤ b.logIndex)

def newDelta (descriptor : ProcessorDescriptor) (chainId : Nat) (block : BlockRef)
    (payload : List UInt8) : EncodedDelta :=
  let delta : EncodedDelta := ⟨descriptor.id, descriptor.version, descriptor.configHash,
    descriptor.deltaVersion, chainId, block, payload, BlockHash.zero⟩
  { delta with checksum := tools.blake3 delta.checksumInput }

def BalanceProcessor.map (processor : BalanceProcessor) (block : ChainFrame) :
    Except ProcessorError EncodedDelta := do
  (processor.descriptor.requirement.validateFrame block.toBlockFrame).mapError .input
  let logs ← acceptedLogs block.logs
  let events := logs.filterMap (processor.transferOf tools)
  let skippedLogs := min (logs.countP (processor.isSkipped tools)) (2 ^ 32 - 1)
  let payload := tools.delta.encode ⟨sortEvents events, skippedLogs⟩
  pure (newDelta tools processor.descriptor block.chainId block.block payload)

structure Stores where
  state : Table StateKey (List UInt8)
  entities : Table StateKey (List UInt8)

structure PairLedger where
  balance : Nat
  incompleteFrom : Option Nat
  frozen : Bool

def PairLedger.new (stored : Option TokenBalance) : PairLedger :=
  let incompleteFrom := stored.bind TokenBalance.incompleteFrom
  ⟨(stored.map TokenBalance.balance).getD 0, incompleteFrom, incompleteFrom.isSome⟩

def balanceKey (token address : Address) : List UInt8 := token.toList ++ address.toList

def balanceRow (token address : Address) : StateKey := (balanceCollection, balanceKey token address)

def checkedSub (a b : Nat) : Option Nat := if b ≤ a then some (a - b) else none

def checkedAdd (a b : Nat) : Option Nat := if a + b < 2 ^ 256 then some (a + b) else none

abbrev Ledgers := Table (Address × Address) PairLedger

def validateCursor (descriptor : ProcessorDescriptor) (cursor : ProcessorCursor)
    (delta : EncodedDelta) : Except ProcessorError Unit := do
  ensure (delta.processorId = descriptor.id ∧ delta.processorVersion = descriptor.version ∧
    delta.configHash = descriptor.configHash ∧ delta.schemaVersion = descriptor.deltaVersion)
    .deltaContract
  ensure (delta.checksum = tools.blake3 delta.checksumInput) .deltaChecksum
  ensure (cursor.processorId = descriptor.id ∧ cursor.processorVersion = descriptor.version ∧
    cursor.chainId = delta.chainId ∧ cursor.blockNumber = delta.block.number ∧
      cursor.blockHash = delta.block.hash) .cursorMismatch

namespace BalanceProcessor

variable (processor : BalanceProcessor) (cursor : ProcessorCursor)

def derives (address : Address) : Bool :=
  decide (address ≠ zeroAddress) && processor.watched.contains address

/-- `update_balance`: record one side of a transfer on a watched pair's ledger. -/
def updateBalance (ledger : PairLedger) (token : Address) (block : Nat) (balance : Option Nat)
    (failure : String) : Except ProcessorError PairLedger :=
  if ledger.incompleteFrom.isSome then pure ledger
  else
    match balance with
    | some balance => pure { ledger with balance }
    | none =>
      if processor.config.completeFromStart && processor.tokens.contains token then
        throw (.state failure)
      else pure { ledger with incompleteFrom := some block }

def storedBalance (stores : Stores) (token address : Address) :
    Except ProcessorError (Option TokenBalance) :=
  match stores.state[balanceRow token address]? with
  | some bytes => ((tools.balance.decode bytes).mapError .state).map some
  | none => pure none

def loadPair (stores : Stores) (token address : Address) (ledgers : Ledgers) :
    Except ProcessorError Ledgers :=
  if processor.derives address = true ∧ (token, address) ∉ ledgers then do
    let stored ← storedBalance tools stores token address
    pure (ledgers.insert (token, address) (.new stored))
  else pure ledgers

def applySide (token address : Address) (balance : Nat → Option Nat) (unloaded failure : String)
    (ledgers : Ledgers) : Except ProcessorError Ledgers :=
  if processor.derives address then do
    let ledger ← required ledgers[(token, address)]? (.state unloaded)
    let ledger ← processor.updateBalance ledger token cursor.blockNumber (balance ledger.balance)
      failure
    pure (ledgers.insert (token, address) ledger)
  else pure ledgers

def reduceEvent (stores : Stores) (ledgers : Ledgers) (event : TransferEvent) :
    Except ProcessorError Ledgers := do
  let ledgers ← processor.loadPair tools stores event.token event.sender ledgers
  let ledgers ← processor.loadPair tools stores event.token event.recipient ledgers
  let ledgers ← processor.applySide cursor event.token event.sender (checkedSub · event.value)
    "sender balance was not loaded"
    "event-derived balance underflow; start block or token assumptions are incomplete" ledgers
  processor.applySide cursor event.token event.recipient (checkedAdd · event.value)
    "recipient balance was not loaded" "event-derived balance overflow" ledgers

def entityOf (token address : Address) (ledger : PairLedger) : TokenBalance where
  token
  address
  balance := ledger.balance
  asOfBlock := cursor.blockNumber
  blockHash := cursor.blockHash
  finality := cursor.finality
  coverageFrom := processor.config.startBlock
  complete := processor.config.completeFromStart && ledger.incompleteFrom.isNone
  incompleteFrom := ledger.incompleteFrom
  method := "erc20_transfer_ledger"

def writeLedger (out : Stores × List DomainChange) (row : (Address × Address) × PairLedger) :
    Stores × List DomainChange :=
  if row.2.frozen then out
  else
    let key := balanceRow row.1.1 row.1.2
    let payload := tools.balance.encode (processor.entityOf cursor row.1.1 row.1.2 row.2)
    (⟨out.1.state.insert key payload, out.1.entities.insert key payload⟩,
      out.2 ++ [⟨balanceChangeKind, key.2, .upsert, payload⟩])

def reduce (stores : Stores) (delta : EncodedDelta) :
    Except ProcessorError (Stores × List DomainChange) := do
  validateCursor tools processor.descriptor cursor delta
  let decoded ← (tools.delta.decode delta.payload).mapError .deltaPayload
  let ledgers ← foldExcept (processor.reduceEvent tools cursor stores) ∅ decoded.events
  pure (ledgers.toList.foldl (processor.writeLedger tools cursor) (stores, []))

end BalanceProcessor

end Leani.Erc20
