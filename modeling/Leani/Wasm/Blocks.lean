import Leani.Wasm.Values

/-!
# The block a host hands to a guest

The Rust structures with their postcard encoding, and the AssemblyScript classes with the readers
that repeat it by hand.
-/

namespace Leani.Wasm

open Library List Postcard

namespace Abi

structure Fixed (n : Nat) where
  bytes : List UInt8
  exact : bytes.length = n
  deriving DecidableEq

abbrev Address := Fixed 20

abbrev Hash := Fixed 32

abbrev Word := Fixed 32

def u64 (value : UInt64) : List UInt8 := Postcard.varint value.toNat

def u32 (value : UInt32) : List UInt8 := Postcard.varint value.toNat

def u8 (value : UInt8) : List UInt8 := [value]

structure Header where
  gasLimit : Option UInt64
  gasUsed : Option UInt64
  baseFeePerGas : Option Word
  blobGasUsed : Option UInt64
  excessBlobGas : Option UInt64
  sizeBytes : Option UInt64
  transactionCount : Option UInt32

structure Transaction where
  hash : Hash
  index : UInt32
  transactionType : UInt8
  from_ : Option Address
  to_ : Option Address
  nonce : Option UInt64
  gasLimit : Option UInt64
  value : Option Word
  input : Option (List UInt8)
  maxFeePerBlobGas : Option Word
  blobVersionedHashes : List Hash

structure Log where
  address : Address
  topics : List Hash
  data : List UInt8
  transactionHash : Option Hash
  transactionIndex : UInt32
  logIndex : UInt32

structure Receipt where
  transactionHash : Hash
  transactionIndex : UInt32
  transactionType : UInt8
  success : Option Bool
  gasUsed : Option UInt64
  effectiveGasPrice : Option Word
  blobGasUsed : Option UInt64
  logs : List Log

structure Withdrawal where
  index : UInt64
  validatorIndex : UInt64
  address : Address
  amountGwei : UInt64

structure Block where
  chainId : UInt64
  number : UInt64
  hash : Hash
  parentHash : Hash
  timestamp : UInt64
  header : Option Header
  transactions : Option (List Transaction)
  receipts : Option (List Receipt)
  logs : Option (List Log)
  withdrawals : Option (List Withdrawal)

def Header.encode (header : Header) : List UInt8 :=
  Postcard.option u64 header.gasLimit ++ (Postcard.option u64 header.gasUsed ++
    (Postcard.option Fixed.bytes header.baseFeePerGas ++
      (Postcard.option u64 header.blobGasUsed ++ (Postcard.option u64 header.excessBlobGas ++
        (Postcard.option u64 header.sizeBytes ++ Postcard.option u32 header.transactionCount)))))

def Transaction.encode (transaction : Transaction) : List UInt8 :=
  transaction.hash.bytes ++ (u32 transaction.index ++ (u8 transaction.transactionType ++
    (Postcard.option Fixed.bytes transaction.from_ ++
      (Postcard.option Fixed.bytes transaction.to_ ++
        (Postcard.option u64 transaction.nonce ++ (Postcard.option u64 transaction.gasLimit ++
          (Postcard.option Fixed.bytes transaction.value ++
            (Postcard.option Postcard.bytes transaction.input ++
              (Postcard.option Fixed.bytes transaction.maxFeePerBlobGas ++
                Postcard.seq Fixed.bytes transaction.blobVersionedHashes)))))))))

def Log.encode (log : Log) : List UInt8 :=
  log.address.bytes ++ (Postcard.seq Fixed.bytes log.topics ++ (Postcard.bytes log.data ++
    (Postcard.option Fixed.bytes log.transactionHash ++
      (u32 log.transactionIndex ++ u32 log.logIndex))))

def Receipt.encode (receipt : Receipt) : List UInt8 :=
  receipt.transactionHash.bytes ++ (u32 receipt.transactionIndex ++
    (u8 receipt.transactionType ++ (Postcard.option Postcard.flag receipt.success ++
      (Postcard.option u64 receipt.gasUsed ++
        (Postcard.option Fixed.bytes receipt.effectiveGasPrice ++
          (Postcard.option u64 receipt.blobGasUsed ++ Postcard.seq Log.encode receipt.logs))))))

def Withdrawal.encode (withdrawal : Withdrawal) : List UInt8 :=
  u64 withdrawal.index ++ (u64 withdrawal.validatorIndex ++
    (withdrawal.address.bytes ++ u64 withdrawal.amountGwei))

def Block.encode (block : Block) : List UInt8 :=
  u64 block.chainId ++ (u64 block.number ++ (block.hash.bytes ++ (block.parentHash.bytes ++
    (u64 block.timestamp ++ (Postcard.option Header.encode block.header ++
      (Postcard.option (Postcard.seq Transaction.encode) block.transactions ++
        (Postcard.option (Postcard.seq Receipt.encode) block.receipts ++
          (Postcard.option (Postcard.seq Log.encode) block.logs ++
            Postcard.option (Postcard.seq Withdrawal.encode) block.withdrawals))))))))

end Abi

namespace AssemblyScript

structure Header where
  gasLimit : Option UInt64
  gasUsed : Option UInt64
  baseFeePerGas : Option U256
  blobGasUsed : Option UInt64
  excessBlobGas : Option UInt64
  sizeBytes : Option UInt64
  transactionCount : Option UInt32

structure Transaction where
  hash : List UInt8
  index : UInt32
  transactionType : UInt8
  from_ : Option (List UInt8)
  to_ : Option (List UInt8)
  nonce : Option UInt64
  gasLimit : Option UInt64
  value : Option U256
  input : Option (List UInt8)
  maxFeePerBlobGas : Option U256
  blobVersionedHashes : List (List UInt8)

structure Log where
  address : List UInt8
  topics : List (List UInt8)
  data : List UInt8
  transactionHash : Option (List UInt8)
  transactionIndex : UInt32
  logIndex : UInt32

structure Receipt where
  transactionHash : List UInt8
  transactionIndex : UInt32
  transactionType : UInt8
  success : Option Bool
  gasUsed : Option UInt64
  effectiveGasPrice : Option U256
  blobGasUsed : Option UInt64
  logs : List Log

structure Withdrawal where
  index : UInt64
  validatorIndex : UInt64
  address : List UInt8
  amountGwei : UInt64

/-- Material the manifest does not require is empty, or `none` for the header. -/
structure Block where
  chainId : UInt64
  number : UInt64
  hash : List UInt8
  parentHash : List UInt8
  timestamp : UInt64
  header : Option Header
  transactions : List Transaction
  receipts : List Receipt
  logs : List Log
  withdrawals : List Withdrawal

namespace Reading

def optional {α : Type} (read : Reading α) : Reading (Option α) := do
  if ← flag then return some (← read)
  return none

def optionalU64 : Reading (Option UInt64) := optional uint

def optionalU256 : Reading (Option U256) := optional u256

def optionalRaw (length : Int) : Reading (Option (List UInt8)) := optional (raw length)

def u32 : Reading UInt32 := do return (← uint).toUInt32

def times {α : Type} (read : Reading α) : Nat → Reading (List α)
  | 0 => return []
  | count + 1 => do
    let item ← read
    return item :: (← times read count)

def list {α : Type} (read : Reading α) : Reading (List α) := do
  let length := i32 (← uint).toNat
  if length < 0 ∨ (referencesMax : Int) < length then throw "Invalid length"
  times read length.toNat

def hashes : Reading (List (List UInt8)) := list (raw 32)

def material {α : Type} (read : Reading α) : Reading (List α) := do
  if ← flag then list read else return []

end Reading

open Reading

def Header.read : Reading Header := do
  let gasLimit ← optionalU64
  let gasUsed ← optionalU64
  let baseFeePerGas ← optionalU256
  let blobGasUsed ← optionalU64
  let excessBlobGas ← optionalU64
  let sizeBytes ← optionalU64
  let transactionCount ← optional u32
  return ⟨gasLimit, gasUsed, baseFeePerGas, blobGasUsed, excessBlobGas, sizeBytes, transactionCount⟩

def Transaction.read : Reading Transaction := do
  let hash ← raw 32
  let index ← u32
  let transactionType ← byte
  let from_ ← optionalRaw 20
  let to_ ← optionalRaw 20
  let nonce ← optionalU64
  let gasLimit ← optionalU64
  let value ← optionalU256
  let input ← optional bytes
  let maxFeePerBlobGas ← optionalU256
  let blobVersionedHashes ← hashes
  return ⟨hash, index, transactionType, from_, to_, nonce, gasLimit, value, input,
    maxFeePerBlobGas, blobVersionedHashes⟩

def Log.read : Reading Log := do
  let address ← raw 20
  let topics ← hashes
  let data ← bytes
  let transactionHash ← optionalRaw 32
  let transactionIndex ← u32
  let logIndex ← u32
  return { address, topics, data, transactionHash, transactionIndex, logIndex }

def Receipt.read : Reading Receipt := do
  let transactionHash ← raw 32
  let transactionIndex ← u32
  let transactionType ← byte
  let success ← optional flag
  let gasUsed ← optionalU64
  let effectiveGasPrice ← optionalU256
  let blobGasUsed ← optionalU64
  let logs ← list Log.read
  return ⟨transactionHash, transactionIndex, transactionType, success, gasUsed, effectiveGasPrice,
    blobGasUsed, logs⟩

def Withdrawal.read : Reading Withdrawal := do
  let index ← uint
  let validatorIndex ← uint
  let address ← raw 20
  let amountGwei ← uint
  return { index, validatorIndex, address, amountGwei }

def Block.read : Reading Block := do
  let chainId ← uint
  let number ← uint
  let hash ← raw 32
  let parentHash ← raw 32
  let timestamp ← uint
  let header ← optional Header.read
  let transactions ← material Transaction.read
  let receipts ← material Receipt.read
  let logs ← material Log.read
  let withdrawals ← material Withdrawal.read
  return ⟨chainId, number, hash, parentHash, timestamp, header, transactions, receipts, logs,
    withdrawals⟩

def U256.of (word : Abi.Word) : U256 := ⟨word.bytes, word.exact⟩

def Header.of (header : Abi.Header) : Header where
  gasLimit := header.gasLimit
  gasUsed := header.gasUsed
  baseFeePerGas := header.baseFeePerGas.map U256.of
  blobGasUsed := header.blobGasUsed
  excessBlobGas := header.excessBlobGas
  sizeBytes := header.sizeBytes
  transactionCount := header.transactionCount

def Transaction.of (transaction : Abi.Transaction) : Transaction where
  hash := transaction.hash.bytes
  index := transaction.index
  transactionType := transaction.transactionType
  from_ := transaction.from_.map Abi.Fixed.bytes
  to_ := transaction.to_.map Abi.Fixed.bytes
  nonce := transaction.nonce
  gasLimit := transaction.gasLimit
  value := transaction.value.map U256.of
  input := transaction.input
  maxFeePerBlobGas := transaction.maxFeePerBlobGas.map U256.of
  blobVersionedHashes := transaction.blobVersionedHashes.map Abi.Fixed.bytes

def Log.of (log : Abi.Log) : Log where
  address := log.address.bytes
  topics := log.topics.map Abi.Fixed.bytes
  data := log.data
  transactionHash := log.transactionHash.map Abi.Fixed.bytes
  transactionIndex := log.transactionIndex
  logIndex := log.logIndex

def Receipt.of (receipt : Abi.Receipt) : Receipt where
  transactionHash := receipt.transactionHash.bytes
  transactionIndex := receipt.transactionIndex
  transactionType := receipt.transactionType
  success := receipt.success
  gasUsed := receipt.gasUsed
  effectiveGasPrice := receipt.effectiveGasPrice.map U256.of
  blobGasUsed := receipt.blobGasUsed
  logs := receipt.logs.map Log.of

def Withdrawal.of (withdrawal : Abi.Withdrawal) : Withdrawal where
  index := withdrawal.index
  validatorIndex := withdrawal.validatorIndex
  address := withdrawal.address.bytes
  amountGwei := withdrawal.amountGwei

def Block.of (block : Abi.Block) : Block where
  chainId := block.chainId
  number := block.number
  hash := block.hash.bytes
  parentHash := block.parentHash.bytes
  timestamp := block.timestamp
  header := block.header.map Header.of
  transactions := (block.transactions.getD []).map Transaction.of
  receipts := (block.receipts.getD []).map Receipt.of
  logs := (block.logs.getD []).map Log.of
  withdrawals := (block.withdrawals.getD []).map Withdrawal.of

variable {α β : Type} {encoded : List UInt8} {read : Reading α}

theorem Reads.map_of {value : α} {k : α → Reading β} {value' : β} (h : Reads read encoded value)
    (hk : k value = pure value') : Reads (read >>= k) encoded value' := by
  have hlast : Reads (k value) [] value' := by
    rw [hk]; exact reads_pure value'
  have hbind := h.bind hlast; rwa [append_nil] at hbind

theorem reads_u64 (value : UInt64) : Reads uint (Abi.u64 value) value := by
  have h := reads_uint value.toNat_lt; rw [UInt64.ofNat_toNat] at h; exact h

theorem reads_u32 (value : UInt32) : Reads u32 (Abi.u32 value) value := by
  have hlt : value.toNat < 2 ^ 64 := Nat.lt_trans value.toNat_lt (by decide)
  refine (reads_uint hlt).map_of ?_
  congr 1
  rw [← UInt32.toNat_inj, UInt64.toNat_toUInt32, UInt64.toNat_ofNat', Nat.mod_eq_of_lt hlt,
    Nat.mod_eq_of_lt value.toNat_lt]

theorem reads_fixed {n : Nat} (value : Abi.Fixed n) : Reads (raw n) value.bytes value.bytes := by
  have h := reads_raw value.bytes; rw [value.exact] at h; exact h

theorem reads_word (value : Abi.Word) : Reads u256 value.bytes (U256.of value) :=
  reads_u256 (U256.of value)

variable {encode : α → List UInt8} {f : α → β}

theorem reads_optional {read : Reading β} (h : ∀ value, Reads read (encode value) (f value))
    (value : Option α) : Reads (optional read) (option encode value) (value.map f) := by
  cases value with
  | none => exact (reads_flag false).map_of rfl
  | some value =>
    exact (reads_flag true).bind (k := fun present =>
      if present then do return some (← read) else return none) ((h value).map some)

theorem reads_optional_self (h : ∀ value, Reads read (encode value) value) (value : Option α) :
    Reads (optional read) (option encode value) value := by
  have hmap := reads_optional h value; rwa [Option.map_id'] at hmap

theorem reads_times {read : Reading β} (h : ∀ value, Reads read (encode value) (f value))
    (vals : List α) : Reads (times read vals.length) (vals.flatMap encode) (vals.map f) := by
  induction vals with
  | nil => exact reads_pure []
  | cons value rest ih =>
    rw [flatMap_cons]
    exact (h value).bind (k := fun item => do return item :: (← times read rest.length))
      (ih.map (f value :: ·))

theorem length_flatMap_ge (hsize : ∀ value, 20 ≤ (encode value).length) (vals : List α) :
    20 * vals.length ≤ (vals.flatMap encode).length := by
  induction vals with
  | nil => exact Nat.zero_le _
  | cons value rest ih =>
    have := hsize value; rw [flatMap_cons, length_append, length_cons]; omega

theorem reads_list {read : Reading β} (h : ∀ value, Reads read (encode value) (f value))
    (hsize : ∀ value, 20 ≤ (encode value).length) (vals : List α) :
    Reads (list read) (seq encode vals) (vals.map f) := by
  intro _ _ _ hat
  have hmax := hat.length_le
  have hcount := length_flatMap_ge hsize vals
  simp only [seq, length_append, blockMaxSize] at hmax
  have hsmall : vals.length < 2 ^ 64 := by omega
  have hlen : i32 (UInt64.ofNat vals.length).toNat = vals.length := by
    rw [UInt64.toNat_ofNat', Nat.mod_eq_of_lt hsmall]; exact i32_of_lt (by omega) (by omega)
  rw [seq, append_assoc] at hat
  have htimes := reads_times h vals hat.after
  simp only [list, Bind.bind, StateT.bind, reads_uint hsmall hat, Except.bind]
  rw [hlen, if_neg (by simp only [referencesMax]; omega), Int.toNat_natCast]
  rw [htimes, Reader.after_after, seq, length_append]

theorem reads_hashes (hashes : List Abi.Hash) :
    Reads Reading.hashes (seq Abi.Fixed.bytes hashes) (hashes.map Abi.Fixed.bytes) :=
  reads_list reads_fixed (fun hash => by rw [hash.exact]; decide) hashes

theorem reads_material {read : Reading β} (h : ∀ value, Reads read (encode value) (f value))
    (hsize : ∀ value, 20 ≤ (encode value).length) (vals : Option (List α)) :
    Reads (material read) (option (seq encode) vals) ((vals.getD []).map f) := by
  cases vals with
  | none => exact (reads_flag false).map_of rfl
  | some vals =>
    exact (reads_flag true).bind (k := fun present => if present then list read else return [])
      (reads_list h hsize vals)

theorem Header.reads (hdr : Abi.Header) : Reads Header.read hdr.encode (Header.of hdr) := by
  refine (reads_optional_self reads_u64 _).bind ?_
  refine (reads_optional_self reads_u64 _).bind ?_
  refine (reads_optional reads_word _).bind ?_
  refine (reads_optional_self reads_u64 _).bind ?_
  refine (reads_optional_self reads_u64 _).bind ?_
  refine (reads_optional_self reads_u64 _).bind ?_
  exact (reads_optional_self reads_u32 _).map_of rfl

theorem Transaction.reads (tx : Abi.Transaction) :
    Reads Transaction.read tx.encode (Transaction.of tx) := by
  refine (reads_fixed _).bind ?_
  refine (reads_u32 _).bind ?_
  refine (reads_byte _).bind ?_
  refine (reads_optional reads_fixed _).bind ?_
  refine (reads_optional reads_fixed _).bind ?_
  refine (reads_optional_self reads_u64 _).bind ?_
  refine (reads_optional_self reads_u64 _).bind ?_
  refine (reads_optional reads_word _).bind ?_
  refine (reads_optional_self reads_bytes _).bind ?_
  refine (reads_optional reads_word _).bind ?_
  exact (reads_hashes _).map_of rfl

theorem Log.reads (log : Abi.Log) : Reads Log.read log.encode (Log.of log) := by
  refine (reads_fixed _).bind ?_
  refine (reads_hashes _).bind ?_
  refine (reads_bytes _).bind ?_
  refine (reads_optional reads_fixed _).bind ?_
  refine (reads_u32 _).bind ?_
  exact (reads_u32 _).map_of rfl

theorem Log.twenty_le (log : Abi.Log) : 20 ≤ log.encode.length := by
  rw [Abi.Log.encode, length_append, log.address.exact]; exact Nat.le_add_right _ _

theorem Receipt.reads (rcpt : Abi.Receipt) : Reads Receipt.read rcpt.encode (Receipt.of rcpt) := by
  refine (reads_fixed _).bind ?_
  refine (reads_u32 _).bind ?_
  refine (reads_byte _).bind ?_
  refine (reads_optional_self reads_flag _).bind ?_
  refine (reads_optional_self reads_u64 _).bind ?_
  refine (reads_optional reads_word _).bind ?_
  refine (reads_optional_self reads_u64 _).bind ?_
  exact (reads_list Log.reads Log.twenty_le _).map_of rfl

theorem Withdrawal.reads (wdr : Abi.Withdrawal) :
    Reads Withdrawal.read wdr.encode (Withdrawal.of wdr) := by
  refine (reads_u64 _).bind ?_
  refine (reads_u64 _).bind ?_
  refine (reads_fixed _).bind ?_
  exact (reads_u64 _).map_of rfl

theorem Transaction.twenty_le (tx : Abi.Transaction) : 20 ≤ tx.encode.length := by
  rw [Abi.Transaction.encode, length_append, tx.hash.exact]; omega

theorem Receipt.twenty_le (rcpt : Abi.Receipt) : 20 ≤ rcpt.encode.length := by
  rw [Abi.Receipt.encode, length_append, rcpt.transactionHash.exact]; omega

theorem Withdrawal.twenty_le (wdr : Abi.Withdrawal) : 20 ≤ wdr.encode.length := by
  simp only [Abi.Withdrawal.encode, length_append, wdr.address.exact]; omega

theorem Block.reads (block : Abi.Block) : Reads Block.read block.encode (Block.of block) := by
  refine (reads_u64 _).bind ?_
  refine (reads_u64 _).bind ?_
  refine (reads_fixed _).bind ?_
  refine (reads_fixed _).bind ?_
  refine (reads_u64 _).bind ?_
  refine (reads_optional Header.reads _).bind ?_
  refine (reads_material Transaction.reads Transaction.twenty_le _).bind ?_
  refine (reads_material Receipt.reads Receipt.twenty_le _).bind ?_
  refine (reads_material Log.reads Log.twenty_le _).bind ?_
  exact (reads_material Withdrawal.reads Withdrawal.twenty_le _).map_of rfl

structure Guarantees : Prop where
  written : ∀ values, (∀ value ∈ values, value.Paired) →
    (values.flatMap Value.encode).length ≤ 2 ^ 29 → ∃ writer, writeAll values .new = .ok writer
  roundTrip : ∀ values writer, (∀ value ∈ values, value.Paired) →
    writeAll values .new = .ok writer → ∃ reader : Reader, reader.done ∧
      readAll (values.map Value.kind) ⟨writer.finish, 0⟩ = .ok (values, reader)
  block : ∀ (block : Abi.Block) (input : Uint8Array), input.bytes = block.encode →
    ∃ reader : Reader, reader.done ∧ Block.read ⟨input, 0⟩ = .ok (Block.of block, reader)
  exact : ∀ (reader : Reader) before rest, reader.At before rest → ∀ (kind : Kind)
    value after, kind.Fits before.length rest → kind.read reader = .ok (value, after) →
    ∃ consumed rest', rest = consumed ++ rest' ∧ after = reader.after consumed.length ∧
    value.kind = kind ∧ value.Denotes consumed ∧ (kind.Canonical consumed → value.encode = consumed)

theorem written_of_writeAll {vals : List Value} {writer : Writer}
    (h : writeAll vals .new = .ok writer) : writer.written = vals.flatMap Value.encode := by
  obtain ⟨hfits, hlarge⟩ := appends_writeAll vals .new
  by_cases hlen : Writer.new.written.length + (vals.flatMap Value.encode).length ≤ 2 ^ 29
  · obtain ⟨_, hafter, hwr⟩ := hfits hlen
    rw [h] at hafter; cases hafter; exact hwr
  · obtain ⟨_, hmessage⟩ := hlarge (Nat.lt_of_not_le hlen); rw [h] at hmessage; cases hmessage

variable {input : Uint8Array}

theorem Reader.at_start (h : input.bytes = encoded) :
    (⟨input, 0⟩ : Reader).At [] (encoded ++ []) where
  input := by rw [append_nil]; exact h
  offset := rfl

theorem done_of_after (h : input.bytes = encoded) :
    ((⟨input, 0⟩ : Reader).after encoded.length).done := by
  simp [Reader.done, Reader.after, h]

theorem guarantees : Guarantees where
  written values _ hfits := by
    have hlength : Writer.new.written.length + (values.flatMap Value.encode).length ≤ 2 ^ 29 := by
      simpa [Writer.new] using hfits
    obtain ⟨writer, hwriter, -⟩ := (appends_writeAll values .new).1 hlength; exact ⟨writer, hwriter⟩
  roundTrip values writer hpaired hwriter := by
    have hwritten := written_of_writeAll hwriter
    exact ⟨_, done_of_after hwritten, reads_readAll hpaired (Reader.at_start hwritten)⟩
  block block input h := by
    exact ⟨_, done_of_after h, Block.reads block (Reader.at_start h)⟩
  exact reader before rest hat kind value after hfits hread := read_denotes hat hfits hread

/-- A varint may have redundant bytes, and a lone surrogate is read as replacement characters. -/
theorem not_exact :
    (∃ input : Uint8Array, input.bytes = [0x80, 0x00] ∧
      Kind.uint.read ⟨input, 0⟩ = .ok (.uint 0, ⟨input, 2⟩) ∧
        (Value.uint 0).encode = [0x00]) ∧
    ∃ writer reader, writeAll [.text [0xd800]] .new = .ok writer ∧
      readAll [.text] ⟨writer.finish, 0⟩ = .ok ([.text [0xfffd, 0xfffd, 0xfffd]], reader) := by
  constructor
  · refine ⟨⟨[0x80, 0x00], by decide⟩, rfl, ?_, ?_⟩
    · rfl
    · exact varint_of_lt (by decide)
  · obtain ⟨writer, hwriter, hwritten⟩ :=
      (appends_writeAll [.text [0xd800]] .new).1 (by decide +kernel)
    have htext : Wasm.text (utf8 [0xd800]) = [0xfffd, 0xfffd, 0xfffd] := by
      have hbytes : utf8 [0xd800] = [0xed, 0xa0, 0x80] := by decide
      have hsequence : sequence (0xed : UInt8).toNat = some (3, 0x80, 0x9f) := rfl
      rw [hbytes, text_sequence (by decide) hsequence]; simp [continuation, text, sequence]
    have hreads := (((reads_bytes (utf8 [0xd800])).map Wasm.text).map Value.text).map (· :: [])
    rw [htext] at hreads
    exact ⟨writer, _, hwriter, hreads (Reader.at_start (hwritten.trans (append_nil _)))⟩

end AssemblyScript

end Leani.Wasm
