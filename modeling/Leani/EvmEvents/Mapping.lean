import Leani.EvmEvents.Exactness
import Leani.Filtering.Acceptance
import Mathlib.Data.List.Dedup
import Mathlib.Data.Prod.Lex
import Mathlib.Data.String.Basic

/-!
# Mapping logs to events

The event processor: its configuration, the logs it maps to a block's delta, and the checksums of the
delta at every finality level. Fragments are read, hashed and encoded by libraries.
-/

namespace Leani.EvmEvents

open Library Std Filtering

structure EventOutput where
  collection : String
  kind : String
  keyFields : List String
  bucketSeconds : Option Nat

structure EventDefinition where
  abi : String
  output : EventOutput

structure EvmEventsConfig where
  startBlock : Nat
  addresses : List Address
  events : List EventDefinition

structure ParsedEvent where
  name : String
  signature : String
  abi : Option EventAbi
  output : EventOutput

structure ProcessorDescriptor where
  id : String
  version : String
  configHash : BlockHash
  requirement : DataRequirement
  deltaVersion : Nat

structure EvmEventsProcessor where
  descriptor : ProcessorDescriptor
  addresses : ExtTreeSet Address
  events : Table Topic ParsedEvent
  log0 : Option ParsedEvent

inductive ProcessorError where
  | input (text : String)
  | deltaContract
  | deltaChecksum
  | deltaPayload (text : String)

structure DecodedEvent where
  schemaVersion : Nat
  contract : Address
  event : String
  signature : String
  blockNumber : Nat
  blockHash : BlockHash
  blockTimestamp : Nat
  bucketStartTimestamp : Option Nat
  transactionHash : TransactionHash
  transactionIndex : Nat
  logIndex : Nat
  finality : Finality
  values : Table String String

structure MappedEvent where
  collection : String
  kind : String
  key : List UInt8
  entity : DecodedEvent

structure EventDelta where
  events : List MappedEvent
  skippedLogs : Nat

structure EncodedDelta where
  processorId : String
  processorVersion : String
  configHash : BlockHash
  schemaVersion : Nat
  chainId : Nat
  block : BlockRef
  payload : List UInt8
  checksum : BlockHash

structure ChainFrame extends Filtering.BlockFrame where
  chainId : Nat

structure Tools where
  alloy : Alloy
  readEvent : String → Except String Event
  keccak256 : List UInt8 → Topic
  blake3 : List UInt8 → BlockHash
  encodeConfig : EvmEventsConfig → List UInt8
  encodeDelta : EventDelta → List UInt8
  decodeDelta : List UInt8 → Except String EventDelta

variable (tools : Tools)

def textBytes (text : String) : List UInt8 := Utf8.encode text.toList

def trim (text : String) : String :=
  String.ofList ((text.toList.dropWhile isWhitespace).reverse.dropWhile isWhitespace).reverse

def portable (value : String) : Bool :=
  value ≠ "" && (textBytes value).length ≤ 128 &&
    value.toList.all fun c => c.isAlphanum || c = '.' || c = '_' || c = '-'

def validateOutput (output : EventOutput) : Except ProcessorError Unit := do
  ensure (portable output.collection = true)
    (.input "output collection must be a portable 1-128 character name")
  ensure (portable output.kind = true) (.input "output kind must be a portable 1-128 character name")
  ensure (output.bucketSeconds ≠ some 0) (.input "output bucket must be greater than zero")
  ensure output.keyFields.Nodup (.input "output key fields must be unique")

def validateKeyField (output : EventOutput) (keys : ExtTreeSet String) (_ : Unit) (key : String) :
    Except ProcessorError Unit := do
  ensure (key = "_bucket_start" ∨ key ∈ keys)
    (.input (s!"output key field `{key}` is not declared by the event ABI; its value keys are " ++
      ", ".intercalate keys.toList))
  ensure (key = "_bucket_start" → output.bucketSeconds ≠ none)
    (.input "_bucket_start key requires output.bucket_seconds")

def parseFragment (definition : EventDefinition) :
    Except ProcessorError (ParsedEvent × ExtTreeSet String) :=
  if trim definition.abi = "log0" then
    pure (⟨"log0", "log0", none, definition.output⟩, .ofList ["data"])
  else do
    let abi ← (tools.readEvent definition.abi >>= parse tools.alloy).mapError .input
    pure (⟨abi.name, abi.signature, some abi, definition.output⟩, abi.valueKeys)

def parseEvent (definition : EventDefinition) : Except ProcessorError ParsedEvent := do
  validateOutput definition.output
  let (event, keys) ← parseFragment tools definition
  foldExcept (validateKeyField definition.output keys) () definition.output.keyFields
  pure event

def addDefinition : Table Topic ParsedEvent × Option ParsedEvent → EventDefinition →
    Except ProcessorError (Table Topic ParsedEvent × Option ParsedEvent)
  | (events, log0), definition => do
    let event ← parseEvent tools definition
    if event.abi.isNone then do
      ensure (log0.isNone = true) (.input "at most one `log0` entry is allowed")
      pure (events, some event)
    else do
      let topic := tools.keccak256 (textBytes event.signature)
      ensure (topic ∉ events) (.input "event signatures must be unique")
      pure (events.insert topic event, log0)

/-- `EvmEventsProcessor::new`. A topicless log cannot match a topic-zero filter, so a `log0` entry
reads every log of the configured contracts. -/
def new (config : EvmEventsConfig) : Except ProcessorError EvmEventsProcessor := do
  let addresses : ExtTreeSet Address := .ofList config.addresses
  let config := { config with addresses := addresses.toList }
  ensure (config.events ≠ []) (.input "at least one event definition is required")
  let (events, log0) ← foldExcept (addDefinition tools) (∅, none) config.events
  ensure (log0.isSome = true → config.addresses ≠ [])
    (.input ("a `log0` entry requires `addresses`: a topicless log has no signature to select it " ++
      "by"))
  let topics := if log0.isSome then [] else [⟨0, events.keys⟩]
  let requirement : DataRequirement := {
    capabilities := .of .logs
    logFields := ⟨LogField.transactionHash.bit⟩
    allowFiltered := true
    filter := { FilterScope.wildcard with addresses := config.addresses, topics }
    minimumFinality := .unattested }
  pure {
    descriptor := ⟨"evm-events", "1.1.0", tools.blake3 (tools.encodeConfig config), requirement, 2⟩
    addresses, events, log0 }

def acceptedLogs : Filtering.Material (List Log) → Except ProcessorError (List Log)
  | .complete logs => pure logs
  | .filtered logs _ completeness => do
    ensure (completeness ≠ .bestEffort) (.input "event log projection is partial")
    pure logs
  | .missing => throw (.input "event logs are missing")

def hashedText (text : String) : List UInt8 :=
  BigEndian.bytes 8 (min (textBytes text).length u64Max) ++ textBytes text

def keyFieldValue (entity : DecodedEvent) (field : String) : Except ProcessorError String :=
  if field = "_bucket_start" then
    required (entity.bucketStartTimestamp.map Nat.repr) (.input "bucket key is unavailable")
  else required entity.values[field]? (.input s!"key field `{field}` is unavailable")

/-- `output_key`: the hash of the key fields, or the transaction hash and log index, which no other
event shares. -/
def outputKey (event : ParsedEvent) (entity : DecodedEvent) : Except ProcessorError (List UInt8) :=
  if event.output.keyFields = [] then
    pure (entity.transactionHash.toList ++ BigEndian.bytes 4 entity.logIndex)
  else do
    let texts ← event.output.keyFields.mapM fun field => do
      pure (hashedText field ++ hashedText (← keyFieldValue entity field))
    pure (BigEndian.bytes 32 (tools.blake3 texts.flatten).toNat)

inductive MappedLog where
  | ignored
  | skipped
  | event (event : MappedEvent)

namespace EvmEventsProcessor

variable (processor : EvmEventsProcessor) (block : ChainFrame)

def eventOf (log : Log) : Option ParsedEvent :=
  if processor.addresses.isEmpty || processor.addresses.contains log.address then
    match log.topics.head? with
    | some topic0 => processor.events[topic0]?
    | none => processor.log0
  else none

def logValues (event : ParsedEvent) (log : Log) : Option (Table String String) :=
  match event.abi with
  | some abi => (abi.decode tools.alloy log.topics log.data).toOption
  | none => some ((∅ : Table String String).insert "data" (hexText log.data))

def entityOf (event : ParsedEvent) (log : Log) (transactionHash : TransactionHash)
    (values : Table String String) : DecodedEvent where
  schemaVersion := 1
  contract := log.address
  event := event.name
  signature := event.signature
  blockNumber := block.block.number
  blockHash := block.block.hash
  blockTimestamp := block.block.timestamp
  bucketStartTimestamp :=
    event.output.bucketSeconds.map fun seconds => block.block.timestamp / seconds * seconds
  transactionHash
  transactionIndex := log.transactionIndex
  logIndex := log.logIndex
  finality := block.finality
  values

/-- One log in the loop of `map`. Another contract can emit a signature with another layout, so a log
that does not decode is counted. -/
def mapLog (log : Log) : Except ProcessorError MappedLog :=
  match processor.eventOf log with
  | none => pure .ignored
  | some event => do
    let transactionHash ← required log.transactionHash
      (.input s!"{event.signature} log {log.logIndex} omits its required transaction hash")
    match logValues tools event log with
    | none => pure .skipped
    | some values => do
      let entity := entityOf block event log transactionHash values
      let key ← outputKey tools event entity
      pure (.event ⟨event.output.collection, event.output.kind, key, entity⟩)

def mapLogs : List Log → List MappedEvent → Nat → Except ProcessorError EventDelta
  | [], events, skippedLogs => pure ⟨events, skippedLogs⟩
  | log :: logs, events, skippedLogs => do
    match ← mapLog tools processor block log with
    | .ignored => mapLogs logs events skippedLogs
    | .skipped => mapLogs logs events (min (skippedLogs + 1) (2 ^ 32 - 1))
    | .event event => mapLogs logs (events ++ [event]) skippedLogs

end EvmEventsProcessor

def MappedEvent.sortKey (event : MappedEvent) : Nat ×ₗ Nat ×ₗ String :=
  toLex (event.entity.transactionIndex, toLex (event.entity.logIndex, event.kind))

def sortEvents (events : List MappedEvent) : List MappedEvent :=
  events.mergeSort fun a b => decide (a.sortKey ≤ b.sortKey)

def hashBytes (bytes : List UInt8) : List UInt8 :=
  BigEndian.bytes 8 (min bytes.length u64Max) ++ bytes

def EncodedDelta.checksumInput (delta : EncodedDelta) : List UInt8 :=
  hashBytes (textBytes delta.processorId) ++ hashBytes (textBytes delta.processorVersion) ++
    BigEndian.bytes 32 delta.configHash.toNat ++ BigEndian.bytes 2 delta.schemaVersion ++
      BigEndian.bytes 8 delta.chainId ++ BigEndian.bytes 8 delta.block.number ++
        BigEndian.bytes 32 delta.block.hash.toNat ++ BigEndian.bytes 32 delta.block.parentHash.toNat ++
          BigEndian.bytes 8 delta.block.timestamp ++ hashBytes delta.payload

def EncodedDelta.calculateChecksum (delta : EncodedDelta) : BlockHash :=
  tools.blake3 delta.checksumInput

def EncodedDelta.new (descriptor : ProcessorDescriptor) (chainId : Nat) (block : BlockRef)
    (payload : List UInt8) : EncodedDelta :=
  let delta : EncodedDelta := ⟨descriptor.id, descriptor.version, descriptor.configHash,
    descriptor.deltaVersion, chainId, block, payload, BlockHash.zero⟩
  { delta with checksum := delta.calculateChecksum tools }

def EncodedDelta.validate (delta : EncodedDelta) (descriptor : ProcessorDescriptor) :
    Except ProcessorError Unit := do
  ensure (delta.processorId = descriptor.id ∧ delta.processorVersion = descriptor.version ∧
    delta.configHash = descriptor.configHash ∧ delta.schemaVersion = descriptor.deltaVersion)
    .deltaContract
  ensure (delta.checksum = delta.calculateChecksum tools) .deltaChecksum

namespace EvmEventsProcessor

variable (processor : EvmEventsProcessor)

def map (block : ChainFrame) : Except ProcessorError EncodedDelta := do
  (processor.descriptor.requirement.validateFrame block.toBlockFrame).mapError .input
  let logs ← acceptedLogs block.logs
  let delta ← mapLogs tools processor block logs [] 0
  let payload := tools.encodeDelta { delta with events := sortEvents delta.events }
  pure (EncodedDelta.new tools processor.descriptor block.chainId block.block payload)

end EvmEventsProcessor

def EventDelta.withFinality (delta : EventDelta) (finality : Finality) : EventDelta where
  events := delta.events.map fun event => { event with entity := { event.entity with finality } }
  skippedLogs := delta.skippedLogs

def EvmEventsProcessor.finalityVariantChecksums (processor : EvmEventsProcessor)
    (delta : EncodedDelta) : Except ProcessorError (List BlockHash) := do
  delta.validate tools processor.descriptor
  let decoded ← (tools.decodeDelta delta.payload).mapError .deltaPayload
  let checksums := [Finality.unattested, .attested, .finalized].map fun finality =>
    (EncodedDelta.new tools processor.descriptor delta.chainId delta.block
      (tools.encodeDelta (decoded.withFinality finality))).checksum
  pure (checksums.mergeSort fun a b => decide (a.toNat ≤ b.toNat)).dedup

end Leani.EvmEvents
