import Leani.Filtering.Frames

/-!
# Blocks served over JSON-RPC

A served block is encoded again and checked against its header's hash and roots; the frame then takes
some fields from what was encoded and some from the JSON beside it. What other crates parse, encode and
hash is a parameter (`Formats`), and so is the type of hashes.
-/

namespace Leani.Rpc.Decoding

open Library Filtering

def u32Max : Nat := 2 ^ 32 - 1

abbrev Bytes := List UInt8

inductive Value where
  | null
  | bool (value : Bool)
  | string (text : String)
  | array (items : List (Option String))
  | other

/-- A JSON object by its field names. An absent field is `null`. -/
abbrev Object := String → Value

namespace Value

def isNull : Value → Bool
  | null => true
  | _ => false

def asStr : Value → Option String
  | string text => some text
  | _ => none

def asBool : Value → Option Bool
  | bool value => some value
  | _ => none

def asArray : Value → Option (List (Option String))
  | array items => some items
  | _ => none

end Value

structure Block where
  fields : Object
  transactions : Option (List (Option Object))

inductive Receipts where
  | null
  | list (items : List Object)
  | other

def objects : List (Option Object) → Option (List Object)
  | [] => some []
  | none :: _ => none
  | some tx :: rest => (objects rest).map (tx :: ·)

inductive Check where
  | verified
  | mismatch
  | unchecked (reason : String)
  deriving DecidableEq

section Types

variable (η : Type)

structure BlockCheck where
  number : Nat
  hash : η
  header : Check
  transactionsRoot : Check
  receiptsRoot : Check
  deriving DecidableEq

inductive RpcError where
  | malformed (detail : String)
  | unverified (check : BlockCheck η)
  deriving DecidableEq

/-- A header. Fields that the frame does not name are in `rest`. -/
structure Header where
  number : Nat
  parentHash : η
  timestamp : Nat
  transactionsRoot : η
  receiptsRoot : η
  withdrawalsRoot : Option η
  gasLimit : Nat
  gasUsed : Nat
  baseFeePerGas : Option Nat
  blobGasUsed : Option Nat
  excessBlobGas : Option Nat
  rest : Bytes
  deriving DecidableEq

structure LogData where
  address : Address
  topics : List Topic
  data : Bytes
  deriving DecidableEq

inductive Status where
  | success (value : Bool)
  | postState (root : η)
  deriving DecidableEq

structure Receipt where
  transactionType : UInt8
  status : Status η
  cumulativeGasUsed : Nat
  logs : List LogData
  logsBloom : Bytes
  deriving DecidableEq

inductive Item where
  | quantity (value : Nat)
  | bytes (value : Bytes)
  | hash (value : η)
  | address (value : Address)
  | recipient (value : Option Address)
  | flag (value : Bool)
  | status (value : Status η)
  | logs (value : List LogData)

end Types

def Status.coerce {η : Type} : Status η → Bool
  | .success value => value
  | .postState _ => true

/-- What other crates do: parse numbers, hashes and addresses, deserialize headers, transactions and
receipts, encode and hash. -/
structure Formats (η : Type) where
  u256 : String → Option Nat
  hash : String → Option η
  address : String → Option Address
  bytes : String → Option Bytes
  header : Object → Except String (Header η)
  headerRlp : Header η → Bytes
  hashSlow : Header η → η
  transaction : Object → Option Bytes
  receipt : Object → Except String (Receipt η)
  encoded2718 : Receipt η → Bytes
  bloomSlow : List LogData → Bytes
  typedRlp : UInt8 → List (Item η) → Bytes
  orderedTrieRoot : List Bytes → η

variable {η : Type} [DecidableEq η] (formats : Formats η)

def optionalQuantity (value : Object) (field : String) : Except (RpcError η) (Option Nat) :=
  match value field with
  | .null => .ok none
  | .string text => (required (formats.u256 text) (.malformed (field ++ " is not a quantity"))).map some
  | _ => .error (.malformed (field ++ " is not a quantity"))

def quantity (value : Object) (field : String) : Except (RpcError η) Nat := do
  required (← optionalQuantity formats value field) (.malformed (field ++ " is not a quantity"))

def parsed {α : Type} (parse : String → Option α) (value : Object) (field : String) :
    Except (RpcError η) α :=
  required ((value field).asStr.bind parse) (.malformed (field ++ " is malformed"))

def toU64 (value : Nat) : Option Nat := if value ≤ u64Max then some value else none

def rollupTransaction (ty : UInt8) (tx : Object) : Except (RpcError η) (Option Bytes) :=
  -- ArbitrumInternalTx
  if ty = 0x6a then do
    let chainId ← quantity formats tx "chainId"
    let input ← parsed formats.bytes tx "input"
    pure (some (formats.typedRlp ty [.quantity chainId, .bytes input]))
  -- ArbitrumDepositTx
  else if ty = 0x64 then do
    let chainId ← quantity formats tx "chainId"
    let requestId ← parsed formats.hash tx "requestId"
    let sender ← parsed formats.address tx "from"
    let recipient ← parsed formats.address tx "to"
    let value ← quantity formats tx "value"
    pure (some (formats.typedRlp ty [.quantity chainId, .hash requestId, .address sender,
      .address recipient, .quantity value]))
  -- op-stack deposit
  else if ty = 0x7e then do
    let sourceHash ← parsed formats.hash tx "sourceHash"
    let sender ← parsed formats.address tx "from"
    let recipient ← if (tx "to").isNull then pure none else some <$> parsed formats.address tx "to"
    let mint ← optionalQuantity formats tx "mint"
    let value ← quantity formats tx "value"
    let gas ← quantity formats tx "gas"
    let input ← parsed formats.bytes tx "input"
    pure (some (formats.typedRlp ty [.hash sourceHash, .address sender, .recipient recipient,
      .quantity (mint.getD 0), .quantity value, .quantity gas, .flag ((tx "isSystemTx").asBool.getD false),
      .bytes input]))
  else pure none

def transactionType (tx : Object) : Except (RpcError η) UInt8 := do
  let ty ← optionalQuantity formats tx "type"
  ensure (ty.getD 0 < 256) (.malformed "transaction type exceeds a byte")
  pure (UInt8.ofNat (ty.getD 0))

def encodeTransaction (tx : Object) : Except (RpcError η) (UInt8 × Option Bytes) := do
  let ty ← transactionType formats tx
  let rollup ← rollupTransaction formats ty tx
  pure (ty, rollup.or (formats.transaction tx))

def check (holds : Prop) [Decidable holds] : Check := if holds then .verified else .mismatch

def hexByte (ty : UInt8) : String :=
  "0x" ++ String.ofList [Nat.digitChar (ty.toNat / 16), Nat.digitChar (ty.toNat % 16)]

def checkTransactions (header : Header η) (encoded : List (UInt8 × Option Bytes)) : Check :=
  match encoded.find? fun tx => tx.2.isNone with
  | some tx => .unchecked ("transaction type " ++ hexByte tx.1)
  | none => check (formats.orderedTrieRoot (encoded.map fun tx => tx.2.getD []) = header.transactionsRoot)

/-- A receipt's EIP-2718 bytes. Those of an op-stack deposit also hold its nonce, unless `withNonce`
leaves it out, and its version. -/
def receiptBytes (receipt : Receipt η) (json : Object) (withNonce : Bool) : Except (RpcError η) Bytes :=
  if receipt.transactionType ≠ 0x7e then pure (formats.encoded2718 receipt)
  else do
    let nonce ← optionalQuantity formats json "depositNonce"
    let version ← optionalQuantity formats json "depositReceiptVersion"
    pure (formats.typedRlp 0x7e ([.status receipt.status, .quantity receipt.cumulativeGasUsed,
      .bytes receipt.logsBloom, .logs receipt.logs] ++
      (nonce.filter fun _ => withNonce).toList.map .quantity ++ version.toList.map .quantity))

def decodeReceipt (json : Object) : Except (RpcError η) (Receipt η × Object) :=
  match formats.receipt json with
  | .ok receipt => .ok (receipt, json)
  | .error e => .error (.malformed e)

def encodeReceipts (receipts : List (Receipt η × Object)) (withNonces : Bool) :
    Except (RpcError η) (List Bytes) :=
  receipts.mapM fun receipt => receiptBytes formats receipt.1 receipt.2 withNonces

/-- The bytes that the receipts root is compared with. Between Regolith and Canyon an op-stack receipts
root left deposit nonces out. -/
def receiptsEncoded (header : Header η) (receipts : List (Receipt η × Object)) :
    Except (RpcError η) (List Bytes) := do
  let encoded ← encodeReceipts formats receipts true
  if formats.orderedTrieRoot encoded ≠ header.receiptsRoot ∧ (receipts.any fun receipt =>
      decide (receipt.1.transactionType = 0x7e) && !(receipt.2 "depositNonce").isNull) = true then do
    let stripped ← encodeReceipts formats receipts false
    pure (if formats.orderedTrieRoot stripped = header.receiptsRoot then stripped else encoded)
  else pure encoded

structure DecodedBlock (η : Type) where
  header : Header η
  hash : η
  sizeBytes : Option Nat
  check : BlockCheck η
  transactions : Option (List (Object × Option Bytes))
  receipts : Option (List (Receipt η × Object × Bytes))

def decodeHeader (block : Block) : Except (RpcError η) (Header η) :=
  match formats.header block.fields with
  | .ok header => .ok header
  | .error e => .error (.malformed e)

def decodeTransactions (header : Header η) (served : List (Option Object)) :
    Except (RpcError η) (Option (List (Object × Option Bytes)) × Check) :=
  match objects served with
  | some txs => do
    let encoded ← txs.mapM (encodeTransaction formats)
    pure (some (txs.zip (encoded.map Prod.snd)), checkTransactions formats header encoded)
  | none => pure (none, .unchecked "transactions not fetched")

def decodeReceipts (header : Header η) (servedTransactions : Nat) :
    Receipts → Except (RpcError η) (Option (List (Receipt η × Object × Bytes)) × Check)
  | .null => pure (none, .unchecked "receipts not fetched")
  | .other => .error (.malformed "receipts are not a list")
  | .list items => do
    let receipts ← items.mapM (decodeReceipt formats)
    let encoded ← receiptsEncoded formats header receipts
    -- blooms are recomputed, never taken from the endpoint
    pure (some (receipts.zipWith (fun receipt bytes => (receipt.1, receipt.2, bytes)) encoded),
      check (receipts.length = servedTransactions ∧
        (∀ receipt ∈ receipts, receipt.1.logsBloom = formats.bloomSlow receipt.1.logs) ∧
        formats.orderedTrieRoot encoded = header.receiptsRoot))

def servedSize (block : Block) : Except (RpcError η) (Option Nat) := do
  pure ((← optionalQuantity formats block.fields "size").bind toU64)

def decodeBlock (block : Block) (receipts : Receipts) : Except (RpcError η) (DecodedBlock η) := do
  let header ← decodeHeader formats block
  let hash ← parsed formats.hash block.fields "hash"
  let served ← required block.transactions (.malformed "block has no transaction list")
  let (transactions, transactionsRoot) ← decodeTransactions formats header served
  let (receipts, receiptsRoot) ← decodeReceipts formats header served.length receipts
  let sizeBytes ← servedSize formats block
  pure ⟨header, hash, sizeBytes,
    ⟨header.number, hash, check (formats.hashSlow header = hash), transactionsRoot, receiptsRoot⟩,
    transactions, receipts⟩

structure ServedFields (η : Type) where
  hash : η
  transactionType : UInt8
  recipient : Option Address
  nonce : Option Nat
  gasLimit : Option Nat
  value : Option Nat
  input : Option Bytes
  maxFeePerGas : Option Nat
  maxPriorityFeePerGas : Option Nat
  maxFeePerBlobGas : Option Nat
  blobVersionedHashes : List η
  deriving DecidableEq

structure TransactionEnvelope (η : Type) where
  fields : ServedFields η
  index : Nat
  encoded : Option Bytes
  sender : Option Address
  sizeBytes : Option Nat
  deriving DecidableEq

structure Log (η : Type) where
  address : Address
  topics : List Topic
  data : Bytes
  transactionHash : Option η
  transactionIndex : Nat
  logIndex : Nat
  deriving DecidableEq

structure ReceiptEnvelope (η : Type) where
  transactionHash : η
  transactionType : UInt8
  transactionIndex : Nat
  encoded : Option Bytes
  success : Option Bool
  gasUsed : Option Nat
  effectiveGasPrice : Option Nat
  blobGasUsed : Option Nat
  blobGasPrice : Option Nat
  logs : List (Log η)
  deriving DecidableEq

structure HeaderEnvelope (η : Type) where
  rlp : Option Bytes
  transactionsRoot : Option η
  receiptsRoot : Option η
  withdrawalsRoot : Option η
  gasLimit : Option Nat
  gasUsed : Option Nat
  baseFeePerGas : Option Nat
  blobGasUsed : Option Nat
  excessBlobGas : Option Nat
  sizeBytes : Option Nat
  transactionCount : Option Nat
  deriving DecidableEq

structure BlockRef (η : Type) where
  number : Nat
  hash : η
  parentHash : η
  timestamp : Nat
  deriving DecidableEq

structure VerificationCheck where
  status : CheckStatus
  detail : Option String
  deriving DecidableEq

structure Frame (η : Type) where
  block : BlockRef η
  header : Filtering.Material (HeaderEnvelope η)
  transactions : Filtering.Material (List (TransactionEnvelope η))
  receipts : Filtering.Material (List (ReceiptEnvelope η))
  logs : Filtering.Material (List (Log η))
  withdrawals : Filtering.Material (List Withdrawal)
  transactionsRoot : VerificationCheck
  receiptsRoot : VerificationCheck

def requested (request : Option CapabilitySet) (capability : Capability) : Bool :=
  request.all fun required => required.withDerivable.contains capability

def material {α : Type} (value : α) (requested : Bool) : Filtering.Material α :=
  if requested then .complete value else .missing

def servedFields (tx : Object) : Except (RpcError η) (ServedFields η) := do
  let hash ← parsed formats.hash tx "hash"
  let maxFee ← optionalQuantity formats tx "maxFeePerGas"
  let maxFee ← if maxFee.isSome then pure maxFee else optionalQuantity formats tx "gasPrice"
  let ty ← transactionType formats tx
  let nonce ← optionalQuantity formats tx "nonce"
  let gas ← optionalQuantity formats tx "gas"
  let value ← optionalQuantity formats tx "value"
  let priorityFee ← optionalQuantity formats tx "maxPriorityFeePerGas"
  let blobFee ← optionalQuantity formats tx "maxFeePerBlobGas"
  pure ⟨hash, ty, (tx "to").asStr.bind formats.address, nonce.bind toU64, gas.bind toU64, value,
    (tx "input").asStr.bind formats.bytes, maxFee, priorityFee, blobFee,
    ((tx "blobVersionedHashes").asArray.getD []).filterMap fun item => item.bind formats.hash⟩

def frameTransaction (tx : Object) (encoded : Option Bytes) (index : Nat) :
    Except (RpcError η) (TransactionEnvelope η) := do
  ensure (index ≤ u32Max) (.malformed "transaction index overflows u32")
  let fields ← servedFields formats tx
  pure ⟨fields, index, encoded, (tx "from").asStr.bind formats.address,
    encoded.map fun bytes => min bytes.length u32Max⟩

def frameTransactions : List (Object × Option Bytes) → Nat →
    Except (RpcError η) (List (TransactionEnvelope η))
  | [], _ => pure []
  | (tx, encoded) :: rest, index => do
    let envelope ← frameTransaction formats tx encoded index
    let more ← frameTransactions rest (index + 1)
    pure (envelope :: more)

def frameLogs (hash : η) (index : Nat) : List LogData → Nat → List (Log η)
  | [], _ => []
  | source :: rest, logIndex =>
    ⟨source.address, source.topics, source.data, some hash, index, logIndex⟩ ::
      frameLogs hash index rest (logIndex + 1)

def blobGas (json : Object) : Except (RpcError η) (Option Nat) := do
  pure ((← optionalQuantity formats json "blobGasUsed").bind toU64)

def frameReceipt (receipt : Receipt η) (json : Object) (encoded : Bytes) (index previousGas logIndex : Nat) :
    Except (RpcError η) (ReceiptEnvelope η) := do
  ensure (index ≤ u32Max) (.malformed "receipt index overflows u32")
  let hash ← parsed formats.hash json "transactionHash"
  ensure (logIndex + receipt.logs.length ≤ u32Max) (.malformed "log index overflows u32")
  let price ← optionalQuantity formats json "effectiveGasPrice"
  let gas ← blobGas formats json
  let blobPrice ← optionalQuantity formats json "blobGasPrice"
  pure ⟨hash, receipt.transactionType, index, some encoded, some receipt.status.coerce,
    some (receipt.cumulativeGasUsed - previousGas), price, gas, blobPrice,
    frameLogs hash index receipt.logs logIndex⟩

def frameReceipts : List (Receipt η × Object × Bytes) → Nat → Nat → Nat →
    Except (RpcError η) (List (ReceiptEnvelope η))
  | [], _, _, _ => pure []
  | (receipt, json, encoded) :: rest, index, previousGas, logIndex => do
    let envelope ← frameReceipt formats receipt json encoded index previousGas logIndex
    let more ← frameReceipts rest (index + 1) receipt.cumulativeGasUsed (logIndex + receipt.logs.length)
    pure (envelope :: more)

def verification : Check → VerificationCheck
  | .unchecked reason => ⟨.notChecked, some reason⟩
  | .verified | .mismatch => ⟨.verified, none⟩

def headerEnvelope (header : Header η) (sizeBytes : Option Nat) (transactionCount : Nat) :
    HeaderEnvelope η :=
  ⟨some (formats.headerRlp header), some header.transactionsRoot, some header.receiptsRoot,
    header.withdrawalsRoot, some header.gasLimit, some header.gasUsed, header.baseFeePerGas,
    header.blobGasUsed, header.excessBlobGas, sizeBytes, some (min transactionCount u32Max)⟩

/-- The frame of a checked block. Transaction senders are the endpoint's; the transactions root covers
them only through each signature. -/
def frame (decoded : DecodedBlock η) (request : Option CapabilitySet) :
    Except (RpcError η) (Frame η) := do
  ensure (decoded.check.header = .verified ∧ decoded.check.receiptsRoot ≠ .mismatch ∧
    decoded.check.transactionsRoot ≠ .mismatch) (.unverified decoded.check)
  let transactions ← frameTransactions formats (decoded.transactions.getD []) 0
  let receipts ← frameReceipts formats (decoded.receipts.getD []) 0 0 0
  let header := decoded.header
  pure {
    block := ⟨header.number, decoded.hash, header.parentHash, header.timestamp⟩
    header := material (headerEnvelope formats header decoded.sizeBytes
      (decoded.transactions.elim transactions.length List.length)) (requested request .header)
    transactions := material transactions
      (requested request .transactions && decoded.transactions.isSome)
    receipts := material receipts (requested request .receipts && decoded.receipts.isSome)
    logs := material (receipts.flatMap ReceiptEnvelope.logs)
      (requested request .logs && decoded.receipts.isSome)
    withdrawals := material [] (requested request .withdrawals)
    transactionsRoot := verification decoded.check.transactionsRoot
    receiptsRoot := verification decoded.check.receiptsRoot }

def frameOf (block : Block) (receipts : Receipts) (request : Option CapabilitySet) :
    Except (RpcError η) (Frame η) := do
  frame formats (← decodeBlock formats block receipts) request

end Leani.Rpc.Decoding
