import Leani.Filtering.Requests
import Leani.Library.BigEndian
import Leani.Library.Bloom
import Leani.Library.Texts
import Leani.P2p.Headers

/-!
# Logs from headers and receipts

A request for filtered logs alone is served without bodies: a header's bloom rules blocks out, and the
receipts of the others give their logs. `normalizeBlock` is the full path, from header, body and
receipts. Roots and encodings are checked before, so the material here is the block's own.
-/

namespace Leani.P2p.SparseLogs

open Library Filtering FilterScope

/-! ## Material -/

structure SourceLog where
  address : Address
  topics : List Topic
  data : List UInt8

structure Receipt where
  transactionType : UInt8
  success : Bool
  cumulativeGasUsed : Nat
  logs : List SourceLog

structure WireTx where
  hash : TransactionHash
  transactionType : UInt8
  recipient : Option Address
  signer : Except String Address
  nonce : Nat
  gasLimit : Nat
  value : BitVec 256
  input : List UInt8
  maxFeePerBlobGas : Option Nat
  blobVersionedHashes : Option (List BlockHash)
  effectiveGasPrice : Option Nat → Nat
  blobGasUsed : Option Nat

structure BlockBody where
  transactions : List WireTx
  withdrawals : Option (List Withdrawal)

def bloomBits : Nat := 2048

structure Header where
  number : Nat
  hash : BlockHash
  parentHash : BlockHash
  timestamp : Nat
  logsBloom : BitVec bloomBits
  gasLimit : Nat
  gasUsed : Nat
  baseFeePerGas : Option Nat
  number_le : number ≤ u64Max

structure Tools where
  keccak256 : List UInt8 → Vector UInt8 32
  blockLength : Header → BlockBody → Nat
  heapBytes : Filtering.BlockFrame → Nat

variable (tools : Tools)

/-! ## Blooms -/

def inputBits (input : List UInt8) : BitVec bloomBits :=
  let hash := tools.keccak256 input
  let bit := fun i : Nat =>
    BitVec.twoPow bloomBits (BigEndian.number ((hash.toList.drop i).take 2) % bloomBits)
  bit 0 ||| bit 2 ||| bit 4

def containsInput (bloom : BitVec bloomBits) (input : List UInt8) : Bool :=
  Bloom.contains (inputBits tools) bloom input

def SourceLog.inputs (log : SourceLog) : List (List UInt8) :=
  log.address.toList :: log.topics.map Vector.toList

def logsBloom (receipts : List Receipt) : BitVec bloomBits :=
  Bloom.ofInputs (inputBits tools) ((receipts.flatMap Receipt.logs).flatMap SourceLog.inputs)

def headerBloomMatches (scope : FilterScope) (header : Header) : Bool :=
  (scope.addresses.isEmpty || scope.addresses.any fun candidate =>
      containsInput tools header.logsBloom candidate.toList) &&
    scope.topics.all fun filter => !filter.alternatives.isEmpty &&
      filter.alternatives.any fun candidate => containsInput tools header.logsBloom candidate.toList

def sourceLogMatches (scope : FilterScope) (log : SourceLog) : Bool :=
  scope.matchesLog log.address (log.topics.map Vector.toList)

/-! ## Requests -/

/-- `DataRequest::filter_scope`: the scope filtered material has to cover. -/
def filterScope (request : DataRequest) : Option FilterScope :=
  if request.allowFiltered ∧ request.filters.effectiveScope ≠ .wildcard then
    some request.filters.effectiveScope
  else none

def otherGroups : List Capability :=
  [.body, .transactions, .calldata, .receipts, .withdrawals, .blobSidecars, .traces, .stateDiffs,
    .mempool, .senders, .blobFields, .receiptOutcome, .blockSize]

/-- `sparse_log_scope`. Blooms can rule out only a log's own fields. A predicate without transaction
fields also leaves the separate sender and recipient lists empty, so the request's scope is its whole
predicate. -/
def sparseLogScope (request : DataRequest) : Option FilterScope :=
  if request.required.contains .logs && !(otherGroups.any fun group => request.required.contains group) &&
      (filterScope request).any fun scope => scope.constrainsLogs && !scope.constrainsTransactions then
    some request.filters.scope
  else none

def transactionGroups : CapabilitySet :=
  (((CapabilitySet.of .body).including .calldata).including .senders).including .blobFields

def requestedMaterial (request : Option DataRequest) (capability : Capability) : Bool :=
  request.all fun request =>
    let required := request.required.withDerivable
    match capability with
    | .transactions => required.intersection transactionGroups ≠ .none
    | .receipts => required.contains .receiptOutcome
    | _ => request.required.contains capability

def normalizedMaterial {α : Type} (value : α) (requested filtered : Bool)
    (scope : Option FilterScope) : Filtering.Material α :=
  if !requested then .missing
  else if filtered then .filtered value (scope.getD .wildcard) .verifiedPredicate
  else .complete value

/-! ## The full path -/

def transactionIndexOf (index : Nat) : Except Headers.P2pError Nat := do
  ensure (index < 2 ^ 32) (.invalidResponse "transaction index overflows u32")
  pure index

def nextLogIndex (index : Nat) : Except Headers.P2pError Nat := do
  ensure (index + 1 < 2 ^ 32) (.invalidResponse "log index overflows u32")
  pure (index + 1)

def logOf (log : SourceLog) (transactionHash : Option TransactionHash)
    (transactionIndex logIndex : Nat) : Log :=
  ⟨log.address, log.topics, log.data, transactionHash, transactionIndex, logIndex⟩

def pushLogs (forReceipt : Bool) (forLogs : SourceLog → Bool) (envelope : SourceLog → Nat → Log) :
    List SourceLog → Nat → List Log → List Log → Except Headers.P2pError (Nat × List Log × List Log)
  | [], index, receiptLogs, logs => pure (index, receiptLogs, logs)
  | log :: rest, index, receiptLogs, logs => do
    let receiptLogs := if forReceipt then receiptLogs ++ [envelope log index] else receiptLogs
    let logs := if forLogs log then logs ++ [envelope log index] else logs
    let index ← nextLogIndex index
    pushLogs forReceipt forLogs envelope rest index receiptLogs logs

structure Normalized where
  transactions : List Filtering.TransactionEnvelope
  receipts : List ReceiptEnvelope
  logs : List Log
  previousGas : Nat
  logIndex : Nat

def hashWanted (request : Option DataRequest) : Bool :=
  request.all fun request => request.logFields.contains .transactionHash

def sendersRequested (request : Option DataRequest) : Bool :=
  request.all fun request => request.required.withDerivable.contains .senders

def hashText (hash : TransactionHash) : String := String.ofList ('0' :: 'x' :: Hex.encode hash.toList)

def senderOf (request : Option DataRequest) (scope : Option FilterScope) (preliminary : Bool)
    (transaction : WireTx) : Except Headers.P2pError (Option Address) :=
  if preliminary && (sendersRequested request || scope.any fun scope => !scope.senders.isEmpty) then
    match transaction.signer with
    | .ok sender => .ok (some sender)
    | .error error => .error
        (.invalidResponse ("cannot recover sender for " ++ hashText transaction.hash ++ ": " ++ error))
  else .ok none

def preliminaryMatch (number : Nat) (scope : Option FilterScope) (transaction : WireTx) : Bool :=
  scope.all fun scope => scope.matchesBlock number &&
    scope.matchesTransaction transaction.transactionType transaction.recipient transaction.hash

def transactionEnvelope (transaction : WireTx) (index : Nat) (sender : Option Address) :
    Filtering.TransactionEnvelope where
  hash := transaction.hash
  transactionType := transaction.transactionType
  index
  sender
  nonce := some transaction.nonce
  gasLimit := some transaction.gasLimit
  value := some transaction.value
  input := some transaction.input
  maxFeePerBlobGas := transaction.maxFeePerBlobGas.map (BitVec.ofNat 256)
  blobVersionedHashes := transaction.blobVersionedHashes.getD []

def receiptEnvelope (header : Header) (transaction : WireTx) (receipt : Receipt) (index gasUsed : Nat)
    (logs : List Log) : ReceiptEnvelope where
  transactionHash := transaction.hash
  transactionType := receipt.transactionType
  transactionIndex := index
  success := some receipt.success
  gasUsed := some gasUsed
  effectiveGasPrice :=
    some (BitVec.ofNat 256 (transaction.effectiveGasPrice header.baseFeePerGas))
  blobGasUsed := transaction.blobGasUsed
  logs

def normalizeTransaction (header : Header) (request : Option DataRequest) (out : Normalized)
    (index : Nat) (transaction : WireTx) (receipt : Option Receipt) :
    Except Headers.P2pError Normalized := do
  let transactionIndex ← transactionIndexOf index
  let gasUsed := (receipt.map Receipt.cumulativeGasUsed).elim 0 (· - out.previousGas)
  let previousGas := (receipt.map Receipt.cumulativeGasUsed).getD out.previousGas
  let scope := request.bind filterScope
  let preliminary := preliminaryMatch header.number scope transaction
  let sender ← senderOf request scope preliminary transaction
  let transactionMatches := preliminary && scope.all fun scope => scope.matchesSender sender
  let forReceipt := requestedMaterial request .receipts && transactionMatches
  let forLogs := fun log => requestedMaterial request .logs && transactionMatches &&
    scope.all fun scope => sourceLogMatches scope log
  let envelope := fun log logIndex =>
    logOf log (if hashWanted request then some transaction.hash else none) transactionIndex logIndex
  let (logIndex, receiptLogs, logs) ← pushLogs forReceipt forLogs envelope
    ((receipt.map Receipt.logs).getD []) out.logIndex [] out.logs
  pure {
    transactions :=
      if requestedMaterial request .transactions && transactionMatches then
        out.transactions ++ [transactionEnvelope transaction transactionIndex sender]
      else out.transactions
    receipts :=
      match receipt with
      | some receipt =>
        if forReceipt then out.receipts ++
          [receiptEnvelope header transaction receipt transactionIndex gasUsed receiptLogs]
        else out.receipts
      | none => out.receipts
    logs, previousGas, logIndex }

def normalizeTransactions (header : Header) (request : Option DataRequest) :
    List (WireTx × Option Receipt) → Nat → Normalized → Except Headers.P2pError Normalized
  | [], _, out => pure out
  | (transaction, receipt) :: rest, index, out => do
    let out ← normalizeTransaction header request out index transaction receipt
    normalizeTransactions header request rest (index + 1) out

def paired (body : BlockBody) : Option (List Receipt) → List (WireTx × Option Receipt)
  | some receipts => (body.transactions.zip receipts).map fun pair => (pair.1, some pair.2)
  | none => body.transactions.map fun transaction => (transaction, none)

def Header.blockRef (header : Header) : BlockRef :=
  ⟨header.number, header.hash, header.parentHash, header.timestamp⟩

/-- `normalize_block`. Without receipts, a body-only read, the request must name no receipt group. -/
def normalizeBlock (header : Header) (body : BlockBody) (receipts : Option (List Receipt))
    (request : Option DataRequest) : Except Headers.P2pError Filtering.BlockFrame := do
  let scope := request.bind filterScope
  let transactionFiltered :=
    scope.any fun scope => !scope.matchesBlock header.number || scope.constrainsTransactions
  let logsFiltered := transactionFiltered || scope.any FilterScope.constrainsLogs
  let out ← normalizeTransactions header request (paired body receipts) 0 ⟨[], [], [], 0, 0⟩
  pure {
    block := header.blockRef
    finality := .attested
    header :=
      if requestedMaterial request .header then
        .complete ⟨some header.gasLimit, some header.gasUsed,
          some (min (tools.blockLength header body) u64Max),
          some (min body.transactions.length (2 ^ 32 - 1))⟩
      else .missing
    transactions := normalizedMaterial out.transactions (requestedMaterial request .transactions)
      transactionFiltered scope
    receipts := normalizedMaterial out.receipts (requestedMaterial request .receipts)
      transactionFiltered scope
    logs := normalizedMaterial out.logs (requestedMaterial request .logs) logsFiltered scope
    withdrawals :=
      normalizedMaterial (body.withdrawals.getD []) (requestedMaterial request .withdrawals) false none
    blobSidecars := .missing
    traces := .missing
    stateDiffs := .missing
    verification := ⟨.verified, .verified, .verified,
      if receipts.isSome then .verified else .notChecked, .verified, .notChecked, none⟩ }

/-! ## The sparse path -/

def notEligible : Headers.P2pError :=
  .invalidConfig "request is not eligible for sparse log acquisition"

def normalizeSparseLogBlock (header : Header) (request : DataRequest) (receiptsVerified : Bool)
    (logs : List Log) : Except Headers.P2pError Filtering.BlockFrame := do
  let scope ← required (sparseLogScope request) notEligible
  pure {
    block := header.blockRef
    finality := .attested
    header :=
      if requestedMaterial (some request) .header then
        .complete ⟨some header.gasLimit, some header.gasUsed, none, none⟩
      else .missing
    transactions := .missing
    receipts := .missing
    logs := .filtered logs scope .verifiedPredicate
    withdrawals := .missing
    blobSidecars := .missing
    traces := .missing
    stateDiffs := .missing
    verification := ⟨.verified, .verified, .notChecked,
      if receiptsVerified then .verified else .notChecked, .notChecked, .notChecked, none⟩ }

def normalizeSparseEmptyLogBlock (header : Header) (request : DataRequest)
    (receiptsVerified : Bool) : Except Headers.P2pError Filtering.BlockFrame :=
  normalizeSparseLogBlock header request receiptsVerified []

/-- The loop of `normalize_sparse_receipt_log_block` over the receipts. -/
def receiptLogs (selects : SourceLog → Bool) : List Receipt → Nat → Nat → List Log →
    Except Headers.P2pError (List Log)
  | [], _, _, logs => pure logs
  | receipt :: rest, index, logIndex, logs => do
    let transactionIndex ← transactionIndexOf index
    let (logIndex, _, logs) ← pushLogs false selects
      (fun log logIndex => logOf log none transactionIndex logIndex) receipt.logs logIndex [] logs
    receiptLogs selects rest (index + 1) logIndex logs

def normalizeSparseReceiptLogBlock (header : Header) (receipts : List Receipt)
    (request : DataRequest) : Except Headers.P2pError Filtering.BlockFrame := do
  let scope ← required (sparseLogScope request) notEligible
  ensure (request.logFields.contains .transactionHash = false)
    (.invalidConfig "receipt-only log normalization cannot supply transaction hashes")
  let logs ← receiptLogs (fun log => scope.matchesBlock header.number && sourceLogMatches scope log)
    receipts 0 0 []
  normalizeSparseLogBlock header request true logs

/-! ## Windows -/

structure SourceBudget where
  maxFrameBytes : Nat
  maxInputBytes : Nat
  maxResidentBytes : Nat

def budgetHint (resource : String) : String :=
  if resource = "resident_bytes" then
    "; raise the resident budget: a Leani node sets it from budgets.memory_bytes, " ++
      "and leani source probe from --max-input-bytes"
  else ""

def budgetExceeded (resource : String) (limit observed : Nat) : Headers.P2pError :=
  .source ("source resource budget exceeded: " ++ resource ++ ", limit " ++ toString limit ++
    ", observed " ++ toString observed ++ budgetHint resource)

def pushNormalizedFrame (budget : SourceBudget) (out : List Filtering.BlockFrame × Nat)
    (frame : Filtering.BlockFrame) : Except Headers.P2pError (List Filtering.BlockFrame × Nat) := do
  let frameBytes := tools.heapBytes frame
  ensure (frameBytes ≤ budget.maxFrameBytes)
    (budgetExceeded "frame_bytes" budget.maxFrameBytes frameBytes)
  let totalBytes := satAdd out.2 frameBytes
  ensure (totalBytes ≤ budget.maxInputBytes)
    (budgetExceeded "input_bytes" budget.maxInputBytes totalBytes)
  ensure (totalBytes ≤ budget.maxResidentBytes)
    (budgetExceeded "resident_bytes" budget.maxResidentBytes totalBytes)
  pure (out.1 ++ [frame], totalBytes)

def placesOf {α : Type} (test : α → Bool) (items : List α) : List Nat :=
  (items.zipIdx.filter fun item => test item.1).map Prod.snd

def pick {α : Type} (items : List α) (places : List Nat) : List α :=
  places.filterMap fun place => items[place]?

def standings (length : Nat) (places : List Nat) : List (Option Nat) :=
  places.zipIdx.foldl (fun standings place => standings.set place.1 (some place.2))
    (List.replicate length none)

/-- The frame of one header in the loop of `normalize_sparse_log_frames`: `exact` is where the
header's receipts stand and where its body does, if a log of them matches. -/
def sparseFrame (request : DataRequest) (positiveReceipts : List (List Receipt))
    (matchingBodies : List BlockBody) (header : Header) (positive : Option Nat)
    (exact : Option (Nat × Nat)) : Except Headers.P2pError Filtering.BlockFrame :=
  match exact with
  | some (positivePosition, bodyPosition) => do
    let receipts ← required positiveReceipts[positivePosition]?
      (.invalidResponse "receipts are missing")
    if request.logFields.contains .transactionHash then do
      let body ← required matchingBodies[bodyPosition]? (.invalidResponse "a body is missing")
      normalizeBlock tools header body (some receipts) (some request)
    else normalizeSparseReceiptLogBlock header receipts request
  | none => normalizeSparseEmptyLogBlock header request positive.isSome

def normalizeSparseLogFrames (headers : List Header) (request : DataRequest) (budget : SourceBudget)
    (bloomPositiveIndices : List Nat) (positiveReceipts : List (List Receipt))
    (exactMatchPositions : List Nat) (matchingBodies : List BlockBody) :
    Except Headers.P2pError (List Filtering.BlockFrame) := do
  let positivePositionByIndex := standings headers.length bloomPositiveIndices
  let bodyPositionByPositive := standings positiveReceipts.length exactMatchPositions
  let (frames, _) ← foldExcept (fun out item => do
      let positive := positivePositionByIndex[item.2]?.join
      let exact := positive.bind fun positivePosition =>
        bodyPositionByPositive[positivePosition]?.join.map fun bodyPosition =>
          (positivePosition, bodyPosition)
      let frame ← sparseFrame tools request positiveReceipts matchingBodies item.1 positive exact
      pushNormalizedFrame tools budget out frame)
    ([], 0) headers.zipIdx
  pure frames

def matchesExactly (scope : FilterScope) (receipts : List Receipt) : Bool :=
  (receipts.flatMap Receipt.logs).any (sourceLogMatches scope)

def fetchPositiveReceipts
    (fetchReceipts : List Header → Except Headers.P2pError (List (List Receipt)))
    (positiveHeaders : List Header) : Except Headers.P2pError (List (List Receipt)) :=
  if positiveHeaders.isEmpty then .ok [] else fetchReceipts positiveHeaders

/-- The window of `fetch_sparse_log_frames_once` and `fetch_sparse_live_frames`: the receipts of the
blocks whose bloom matches, and the bodies that `fetchBodies` gets of those with a matching log. -/
def sparseWindow (ineligible : String) (fetchReceipts : List Header →
    Except Headers.P2pError (List (List Receipt))) (fetchBodies : List Header →
    Except Headers.P2pError (List BlockBody)) (request : DataRequest) (budget : SourceBudget)
    (headers : List Header) : Except Headers.P2pError (List Filtering.BlockFrame) := do
  let scope ← required (sparseLogScope request) (.invalidConfig ineligible)
  let bloomPositiveIndices := placesOf (headerBloomMatches tools scope) headers
  let positiveHeaders := pick headers bloomPositiveIndices
  let positiveReceipts ← fetchPositiveReceipts fetchReceipts positiveHeaders
  let exactMatchPositions := placesOf (matchesExactly scope) positiveReceipts
  let matchingBodies ← fetchBodies (pick positiveHeaders exactMatchPositions)
  normalizeSparseLogFrames tools headers request budget bloomPositiveIndices positiveReceipts
    exactMatchPositions matchingBodies

/-- `fetch_sparse_log_bodies`: bodies are fetched for transaction hashes alone. -/
def fetchSparseLogBodies (fetchBodies : List Header → Except Headers.P2pError (List BlockBody))
    (request : DataRequest) (matchingHeaders : List Header) :
    Except Headers.P2pError (List BlockBody) :=
  if matchingHeaders.isEmpty || !request.logFields.contains .transactionHash then .ok []
  else fetchBodies matchingHeaders

def fetchSparseLogFramesOnce (fetchReceipts : List Header →
    Except Headers.P2pError (List (List Receipt))) (fetchBodies : List Header →
    Except Headers.P2pError (List BlockBody)) (request : DataRequest) (budget : SourceBudget)
    (headers : List Header) : Except Headers.P2pError (List Filtering.BlockFrame) :=
  sparseWindow tools "request is not eligible for sparse log acquisition" fetchReceipts
    (fetchSparseLogBodies fetchBodies request) request budget headers

/-- `fetch_sparse_live_frames`, of the live lane: without bodies. -/
def fetchSparseLiveFrames (fetchReceipts : List Header →
    Except Headers.P2pError (List (List Receipt))) (request : DataRequest) (budget : SourceBudget)
    (headers : List Header) : Except Headers.P2pError (List Filtering.BlockFrame) :=
  sparseWindow tools "live request is not eligible for sparse logs" fetchReceipts (fun _ => .ok [])
    request budget headers

/-- `normalize_polled_sparse_live_frame`, of the live lane's next head. -/
def normalizePolledSparseLiveFrame (fetchReceipts : List Header →
    Except Headers.P2pError (List (List Receipt))) (request : DataRequest) (budget : SourceBudget)
    (header : Header) : Except Headers.P2pError (Option Filtering.BlockFrame) := do
  let request := { request with
    range := ⟨header.number, header.number, Nat.le_refl _, header.number_le⟩ }
  let frames ← fetchSparseLiveFrames tools fetchReceipts request budget [header]
  pure frames.getLast?

/-! ## Places -/

section Places

variable {α : Type} {items : List α} {places : List Nat} {test : α → Bool}

variable {place : Nat}

theorem mem_placesOf : place ∈ placesOf test items ↔ ∃ a, items[place]? = some a ∧ test a = true := by
  simp [placesOf, List.mem_zipIdx_iff_getElem?]

theorem nodup_placesOf : (placesOf test items).Nodup := by
  have hsub : (placesOf test items).Sublist (items.zipIdx.map Prod.snd) :=
    List.Sublist.map _ List.filter_sublist
  rw [List.zipIdx_map_snd] at hsub; exact hsub.nodup List.nodup_range'

theorem lt_of_mem_placesOf (h : place ∈ placesOf test items) : place < items.length := by
  obtain ⟨_, ha, -⟩ := mem_placesOf.1 h; exact (List.getElem?_eq_some_iff.1 ha).1

theorem get?_pick (h : ∀ place ∈ places, place < items.length) (standing : Nat) :
    (pick items places)[standing]? = places[standing]?.bind fun place => items[place]? := by
  induction places generalizing standing with
  | nil => rfl
  | cons place places ih =>
    have hplace := h place List.mem_cons_self
    have hhead := List.getElem?_eq_getElem hplace
    rw [pick, List.filterMap_cons_some hhead]
    cases standing with
    | zero => simp [hhead]
    | succ standing =>
      exact ih (fun place hmem => h place (List.mem_cons_of_mem _ hmem)) standing

theorem length_pick (h : ∀ place ∈ places, place < items.length) :
    (pick items places).length = places.length := by
  induction places with
  | nil => rfl
  | cons place places ih =>
    have hplace := h place List.mem_cons_self
    have hhead := List.getElem?_eq_getElem hplace
    rw [pick, List.filterMap_cons_some hhead, List.length_cons, List.length_cons]
    exact congrArg Nat.succ (ih fun place hmem => h place (List.mem_cons_of_mem _ hmem))

theorem getElem?_idxOf (h : place ∈ places) : places[places.idxOf place]? = some place := by
  rw [List.getElem?_eq_getElem (List.idxOf_lt_length_of_mem h), List.getElem_idxOf]

theorem pick_pick {chosen : List Nat} (h : ∀ place ∈ places, place < items.length) :
    pick (pick items places) chosen = pick items (pick places chosen) := by
  simp only [pick, List.filterMap_filterMap]
  apply List.filterMap_congr
  intro standing _; exact get?_pick h standing

theorem foldl_set (standings : List (Option Nat)) (start : Nat) (hnodup : places.Nodup)
    (h : ∀ place ∈ places, place < standings.length) (i : Nat) :
    ((places.zipIdx start).foldl (fun standings place => standings.set place.1 (some place.2))
      standings)[i]?.join =
        if i ∈ places then some (start + places.idxOf i) else standings[i]?.join := by
  induction places generalizing standings start with
  | nil => rfl
  | cons place places ih =>
    rw [List.nodup_cons] at hnodup
    rw [List.zipIdx_cons, List.foldl_cons, ih _ _ hnodup.2]
    · by_cases hi : i = place
      · subst hi
        have hlt := h i List.mem_cons_self; simp [hnodup.1, hlt]
      · have hne := Ne.symm hi
        simp only [List.mem_cons, hi, false_or, List.getElem?_set_ne hne, List.idxOf_cons_ne _ hne]
        split <;> [congr 1; rfl]
        omega
    · intro place' hplace'; rw [List.length_set]; exact h place' (List.mem_cons_of_mem _ hplace')

theorem standings_join {length : Nat} (hnodup : places.Nodup)
    (h : ∀ place ∈ places, place < length) (i : Nat) :
    (standings length places)[i]?.join = if i ∈ places then some (places.idxOf i) else none := by
  have hnone : (List.replicate length (none : Option Nat))[i]?.join = none := by
    rw [List.getElem?_replicate]
    split <;> rfl
  rw [standings, foldl_set _ _ hnodup fun place hplace => by simpa using h place hplace, hnone,
    Nat.zero_add]

end Places

/-! ## Blooms rule out only what is not there -/

structure Block where
  header : Header
  body : BlockBody
  receipts : List Receipt

structure Block.Valid (block : Block) : Prop where
  lengths : block.body.transactions.length = block.receipts.length
  bloom : block.header.logsBloom = logsBloom tools block.receipts

variable {tools} {block : Block} {scope : FilterScope} {request : DataRequest}

theorem Block.Valid.containsInput (h : block.Valid tools) {rcpt : Receipt}
    {log : SourceLog} {input : List UInt8} (hrcpt : rcpt ∈ block.receipts) (hlog : log ∈ rcpt.logs)
    (hinput : input ∈ log.inputs) : containsInput tools block.header.logsBloom input = true := by
  rw [h.bloom]
  apply Bloom.contains_of_mem
  rw [List.mem_flatMap]; exact ⟨log, List.mem_flatMap.2 ⟨rcpt, hrcpt, hlog⟩, hinput⟩

theorem headerBloomMatches_of_log (h : block.Valid tools) {rcpt : Receipt} {log : SourceLog}
    (hrcpt : rcpt ∈ block.receipts) (hlog : log ∈ rcpt.logs) (hmatch : sourceLogMatches scope log =
    true) : headerBloomMatches tools scope block.header = true := by
  rw [sourceLogMatches, matchesLog, Bool.and_eq_true, List.all_eq_true] at hmatch
  obtain ⟨haddr, htopics⟩ := hmatch
  rw [headerBloomMatches, Bool.and_eq_true, List.all_eq_true]
  constructor
  · rw [matchesLogAddress, listMatches_iff] at haddr
    rw [Bool.or_eq_true, List.isEmpty_iff]
    rcases haddr with hempty | ⟨cand, hcand, heq⟩
    · exact .inl hempty
    · cases heq
      exact .inr (List.any_eq_true.2 ⟨log.address, hcand,
        h.containsInput hrcpt hlog List.mem_cons_self⟩)
  · intro filter hfilter
    have htopic := htopics filter hfilter
    rw [Option.any_eq_true] at htopic
    obtain ⟨_, hplace, hany⟩ := htopic
    obtain ⟨cand, hcand, heq⟩ := List.any_eq_true.1 hany
    have heq := of_decide_eq_true heq
    have hinput : cand.toList ∈ log.inputs :=
      List.mem_cons_of_mem _ (heq ▸ List.mem_of_getElem? hplace)
    rw [Bool.and_eq_true, Bool.not_eq_true', List.any_eq_true]
    refine ⟨?_, cand, hcand, h.containsInput hrcpt hlog hinput⟩
    cases hnil : filter.alternatives with
    | nil =>
      rw [hnil] at hcand; cases hcand
    | cons first rest => rfl

/-! ## Eligible requests -/

structure Eligible (request : DataRequest) (scope : FilterScope) : Prop where
  filterScope : filterScope request = some scope
  constrainsLogs : scope.constrainsLogs = true
  constrainsTransactions : scope.constrainsTransactions = false
  logs : requestedMaterial (some request) .logs = true
  receipts : requestedMaterial (some request) .receipts = false
  senders : sendersRequested (some request) = false

theorem effectiveScope_eq {filters : FilterSet} (h : filters.effectiveScope.constrainsTransactions =
    false) : filters.effectiveScope = filters.scope := by
  obtain ⟨⟨_, _, _, _, _, senders, recipients⟩, _, _⟩ := filters
  simp only [FilterSet.effectiveScope, constrainsTransactions, Bool.or_eq_false_iff,
    Bool.not_eq_false', List.isEmpty_iff] at h ⊢
  obtain ⟨⟨-, hsenders⟩, hrecips⟩ := h
  rw [hsenders, hrecips]
  cases senders with
  | nil =>
    cases recipients with
    | nil => rfl
    | cons => simp at hrecips
  | cons => simp at hsenders

theorem eligible_of_sparseLogScope (h : sparseLogScope request = some scope) :
    Eligible request scope := by
  unfold sparseLogScope at h
  split at h
  · rename_i hcondition
    cases h
    simp only [Bool.and_eq_true, Bool.not_eq_true', Option.any_eq_true] at hcondition
    obtain ⟨⟨hlogs, hothers⟩, whole, hwhole, hconstr, htxs⟩ := hcondition
    have hnone : ∀ group ∈ otherGroups, request.required.contains group = false := by
      intro group hgrp
      have := List.any_eq_false.1 hothers group hgrp; simpa using this
    have hderd : ∀ cap, (∀ src : Capability, src = cap ∨ src.derives cap =
        true → src ∈ otherGroups) → request.required.withDerivable.contains cap = false := by
      intro cap hsrc
      rw [← Bool.not_eq_true, CapabilitySet.contains_withDerivable]
      rintro ⟨src, hcontains, hder⟩
      rw [hnone src (hsrc src hder)] at hcontains; cases hcontains
    have hscope : whole = request.filters.effectiveScope := by
      unfold SparseLogs.filterScope at hwhole
      split at hwhole
      · exact (Option.some.inj hwhole).symm
      · cases hwhole
    rw [hscope] at htxs
    have heffective := hscope.trans (effectiveScope_eq htxs)
    rw [← hscope, heffective] at htxs
    subst heffective
    refine ⟨hwhole, hconstr, htxs, hlogs, ?_, ?_⟩
    · refine hderd .receiptOutcome fun src => ?_
      cases src <;> decide
    · refine hderd .senders fun src => ?_
      cases src <;> decide
  · cases h

/-! ## The logs of the full path -/

def selects (scope : FilterScope) (header : Header) (log : SourceLog) : Bool :=
  scope.matchesBlock header.number && sourceLogMatches scope log

theorem Eligible.wildcards (h : Eligible request scope) : scope.transactionTypes = [] ∧
    scope.transactionHashes = [] ∧ scope.senders = [] ∧ scope.recipients = [] := by
  have htxs := h.constrainsTransactions
  simp only [FilterScope.constrainsTransactions, Bool.or_eq_false_iff, Bool.not_eq_false',
    List.isEmpty_iff] at htxs
  obtain ⟨⟨⟨htypes, hhashes⟩, hsenders⟩, hrecips⟩ := htxs
  exact ⟨htypes, hhashes, hsenders, hrecips⟩

theorem Eligible.preliminaryMatch (h : Eligible request scope) (num : Nat) (tx : WireTx) :
    preliminaryMatch num (some scope) tx = scope.matchesBlock num := by
  obtain ⟨htypes, hhashes, -, hrecips⟩ := h.wildcards
  simp [SparseLogs.preliminaryMatch, matchesTransaction, listMatches, htypes, hhashes, hrecips]

theorem Eligible.senderOf (h : Eligible request scope) (preliminary : Bool) (tx : WireTx) :
    senderOf (some request) (some scope) preliminary tx = .ok none := by
  obtain ⟨-, -, hsenders, -⟩ := h.wildcards; simp [SparseLogs.senderOf, h.senders, hsenders]

variable {header : Header} {transaction : WireTx} {receipt : Receipt} {receipts : List Receipt}
  {index : Nat} {out out' : Normalized}

theorem Eligible.normalizeTransaction (h : Eligible request scope)
    (hok : normalizeTransaction header (some request) out index transaction (some receipt) =
      .ok out') : ∃ txIndex receiptLogs, transactionIndexOf index = .ok txIndex ∧
        pushLogs false (selects scope header) (fun log logIdx => logOf log
          (if hashWanted (some request) then some transaction.hash else none) txIndex
            logIdx) receipt.logs out.logIndex [] out.logs =
              .ok (out'.logIndex, receiptLogs, out'.logs) := by
  obtain ⟨-, -, hsenders, -⟩ := h.wildcards
  have hselects : (fun log => requestedMaterial (some request) .logs && (scope.matchesBlock
      header.number && (some scope).all fun scope => scope.matchesSender none) &&
        (some scope).all fun scope => sourceLogMatches scope log) = selects scope header := by
    funext log
    simp [selects, h.logs, matchesSender, listMatches, hsenders]
  simp only [SparseLogs.normalizeTransaction, eq_ok, Option.bind_some, h.filterScope,
    h.preliminaryMatch, h.senderOf, Except.ok.injEq, exists_eq_left', h.receipts, Bool.false_and,
    hselects, Option.map_some, Option.getD_some, Prod.exists] at hok
  obtain ⟨txIndex, hindex, logIdx, receiptLogs, logs, hpush, rfl⟩ := hok
  exact ⟨txIndex, receiptLogs, hindex, hpush⟩

theorem Eligible.receiptLogs (h : Eligible request scope)
    (hhash : hashWanted (some request) = false) {txs : List WireTx}
    (hlen : txs.length = receipts.length) (hok : normalizeTransactions header (some request)
      ((txs.zip receipts).map fun pair => (pair.1, some pair.2)) index out = .ok out') :
    receiptLogs (selects scope header) receipts index out.logIndex out.logs = .ok out'.logs := by
  induction receipts generalizing txs index out with
  | nil =>
    rw [List.zip_nil_right, List.map_nil, normalizeTransactions, pure_eq_ok] at hok; rw [hok]; rfl
  | cons receipt receipts ih =>
    cases txs with
    | nil => cases hlen
    | cons transaction txs =>
      simp only [List.zip_cons_cons, List.map_cons, normalizeTransactions, bind_eq_ok] at hok
      obtain ⟨_, hnext, hok⟩ := hok
      obtain ⟨txIndex, _, hindex, hpush⟩ := h.normalizeTransaction hnext
      rw [hhash, if_neg Bool.false_ne_true] at hpush
      simp only [SparseLogs.receiptLogs, bind_eq_ok, Prod.exists]
      exact ⟨txIndex, hindex, _, _, _, hpush, ih (Nat.succ.inj hlen) hok⟩

theorem pushLogs_none {forReceipt : Bool} {forLogs : SourceLog → Bool}
    {envelope : SourceLog → Nat → Log} {sourceLogs : List SourceLog} {logIdx logIdx' : Nat}
    {own own' logs logs' : List Log} (hnone : ∀ log ∈ sourceLogs, forLogs log = false)
    (hok : pushLogs forReceipt forLogs envelope sourceLogs logIdx own logs =
      .ok (logIdx', own', logs')) : logs' = logs := by
  induction sourceLogs generalizing logIdx own with
  | nil =>
    rw [pushLogs, pure_eq_ok, Prod.mk.injEq, Prod.mk.injEq] at hok; exact hok.2.2.symm
  | cons log sourceLogs ih =>
    simp only [pushLogs, bind_eq_ok, hnone log List.mem_cons_self, Bool.false_eq_true, if_false] at hok
    obtain ⟨_, -, hok⟩ := hok
    exact ih (fun log hlog => hnone log (List.mem_cons_of_mem _ hlog)) hok

theorem Eligible.noLogs (h : Eligible request scope)
    (hnone : ∀ rcpt ∈ receipts, ∀ log ∈ rcpt.logs, selects scope header log = false)
    {txs : List WireTx} (hok : normalizeTransactions header (some request)
      ((txs.zip receipts).map fun pair => (pair.1, some pair.2)) index out = .ok out') :
    out'.logs = out.logs := by
  induction receipts generalizing txs index out with
  | nil =>
    rw [List.zip_nil_right, List.map_nil, normalizeTransactions, pure_eq_ok] at hok; rw [hok]
  | cons rcpt receipts ih =>
    cases txs with
    | nil =>
      rw [List.zip_nil_left, List.map_nil, normalizeTransactions, pure_eq_ok] at hok; rw [hok]
    | cons transaction txs =>
      simp only [List.zip_cons_cons, List.map_cons, normalizeTransactions, bind_eq_ok] at hok
      obtain ⟨_, hnext, hok⟩ := hok
      obtain ⟨_, _, -, hpush⟩ := h.normalizeTransaction hnext
      rw [ih (fun rcpt hrcpt => hnone rcpt (List.mem_cons_of_mem _ hrcpt)) hok,
        pushLogs_none (hnone rcpt List.mem_cons_self) hpush]

variable {frame : Filtering.BlockFrame}

theorem Eligible.normalizeBlock (h : Eligible request scope) {body : BlockBody}
    (hok : normalizeBlock tools header body (some receipts) (some request) = .ok frame) : ∃ out,
    normalizeTransactions header (some request) ((body.transactions.zip receipts).map fun pair =>
    (pair.1, some pair.2)) 0 ⟨[], [], [], 0, 0⟩ = .ok out ∧
    frame.logs = .filtered out.logs scope .verifiedPredicate ∧ frame.block = header.blockRef := by
  simp only [SparseLogs.normalizeBlock, eq_ok, Option.bind_some, h.filterScope, paired] at hok
  obtain ⟨out, hout, rfl⟩ := hok
  refine ⟨out, hout, ?_, rfl⟩
  simp [normalizedMaterial, h.logs, h.constrainsLogs]

/-! ## Sparse frames -/

def SameLogs (tools : Tools) (request : DataRequest) (block : Block)
    (frame : Filtering.BlockFrame) : Prop :=
  ∀ full, normalizeBlock tools block.header block.body (some block.receipts) (some request) =
    .ok full → frame.logs = full.logs ∧ frame.block = full.block

variable {verified : Bool}

theorem normalizeSparseLogBlock_eq_ok (hscope : sparseLogScope request = some scope)
 {logs : List Log} (hok : normalizeSparseLogBlock header request verified logs = .ok frame) :
    frame.logs = .filtered logs scope .verifiedPredicate ∧ frame.block = header.blockRef := by
  simp only [normalizeSparseLogBlock, hscope, required, bind_eq_ok, pure_eq_ok,
    Except.ok.injEq, exists_eq_left'] at hok
  rw [← hok]; exact ⟨rfl, rfl⟩

theorem sameLogs_empty (hscope : sparseLogScope request = some scope)
    (hnone : ∀ rcpt ∈ block.receipts, ∀ log ∈ rcpt.logs, sourceLogMatches scope log = false)
    (hok : normalizeSparseEmptyLogBlock block.header request verified = .ok frame) :
    SameLogs tools request block frame := by
  intro _ hfull
  have heligible := eligible_of_sparseLogScope hscope
  obtain ⟨hlogs, hblock⟩ := normalizeSparseLogBlock_eq_ok hscope hok
  obtain ⟨_, hout, hfullLogs, hfullBlock⟩ := heligible.normalizeBlock hfull
  have hnoLogs := heligible.noLogs (fun rcpt hrcpt log hlog => by
    rw [selects, hnone rcpt hrcpt log hlog, Bool.and_false]) hout
  rw [hlogs, hblock, hfullLogs, hfullBlock, hnoLogs]; exact ⟨rfl, rfl⟩

theorem sameLogs_receipts (hscope : sparseLogScope request = some scope) (hvalid : block.Valid tools)
    (hok : normalizeSparseReceiptLogBlock block.header block.receipts request = .ok frame) :
    SameLogs tools request block frame := by
  intro _ hfull
  have heligible := eligible_of_sparseLogScope hscope
  simp only [normalizeSparseReceiptLogBlock, hscope, required, eq_ok, Except.ok.injEq,
    exists_eq_left'] at hok
  obtain ⟨-, hhash, _, hrcpts, hok⟩ := hok
  obtain ⟨hlogs, hblock⟩ := normalizeSparseLogBlock_eq_ok hscope hok
  obtain ⟨_, hout, hfullLogs, hfullBlock⟩ := heligible.normalizeBlock hfull
  have hsame := heligible.receiptLogs hhash hvalid.lengths hout
  have heq := Except.ok.inj (hrcpts.symm.trans hsame)
  rw [hlogs, hblock, hfullLogs, hfullBlock, heq]; exact ⟨rfl, rfl⟩

variable {budget : SourceBudget}

theorem foldExcept_push {β : Type}
    {build : β → Except Headers.P2pError Filtering.BlockFrame} {items : List β}
    {out out' : List Filtering.BlockFrame × Nat} (hok : foldExcept (fun out item => do
      let frame ← build item
      pushNormalizedFrame tools budget out frame) out items = .ok out') :
    ∃ frms, out'.1 = out.1 ++ frms ∧
      List.Forall₂ (fun item frame => build item = .ok frame) items frms := by
  induction items generalizing out with
  | nil =>
    rw [foldExcept_nil, Except.ok.injEq] at hok; exact ⟨[], by rw [hok, List.append_nil], .nil⟩
  | cons item items ih =>
    simp only [foldExcept_cons, bind_eq_ok] at hok
    obtain ⟨_, ⟨frame, hframe, hpush⟩, hok⟩ := hok
    simp only [pushNormalizedFrame, eq_ok] at hpush
    obtain ⟨-, -, -, -, -, -, rfl⟩ := hpush
    obtain ⟨frms, hfrs, hall⟩ := ih hok
    refine ⟨frame :: frms, ?_, .cons hframe hall⟩
    rw [hfrs, List.append_assoc, List.singleton_append]

def ServesReceipts (blocks : List Block)
    (fetchReceipts : List Header → Except Headers.P2pError (List (List Receipt))) : Prop :=
  ∀ places receipts, fetchReceipts (pick (blocks.map Block.header) places) = .ok receipts →
    receipts = pick (blocks.map Block.receipts) places

def ServesBodies (blocks : List Block)
    (fetchBodies : List Header → Except Headers.P2pError (List BlockBody)) : Prop :=
  ∀ places bodies, fetchBodies (pick (blocks.map Block.header) places) = .ok bodies →
    bodies = pick (blocks.map Block.body) places

theorem getElem?_pick_idxOf {α : Type} {items : List α} {places : List Nat} {place : Nat}
    (hplaces : ∀ place ∈ places, place < items.length) (h : place ∈ places) :
    (pick items places)[places.idxOf place]? = items[place]? := by
  rw [get?_pick hplaces, getElem?_idxOf h, Option.bind_some]

variable {blocks : List Block}

theorem sparseWindow_sameLogs (hvalid : ∀ block ∈ blocks, block.Valid tools) {ineligible : String}
    {fetchReceipts : List Header → Except Headers.P2pError (List (List Receipt))}
    {fetchBodies : List Header → Except Headers.P2pError (List BlockBody)}
    {frms : List Filtering.BlockFrame} (hrcpts : ServesReceipts blocks fetchReceipts)
    (hbodies : request.logFields.contains .transactionHash = true → ∀ places bodies,
      pick (blocks.map Block.header) places ≠ [] →
        fetchBodies (pick (blocks.map Block.header) places) = .ok bodies →
          bodies = pick (blocks.map Block.body) places)
    (hok : sparseWindow tools ineligible fetchReceipts fetchBodies request budget
      (blocks.map Block.header) = .ok frms) :
    List.Forall₂ (SameLogs tools request) blocks frms := by
  simp only [sparseWindow, eq_ok] at hok
  obtain ⟨scope, hscope, positiveReceipts, hpositive, bodies, hmatching, hok⟩ := hok
  have hplaces : ∀ place ∈ placesOf (headerBloomMatches tools scope) (blocks.map Block.header),
      place < blocks.length := by
    intro place hplace; simpa using lt_of_mem_placesOf hplace
  -- What was fetched stands where the header's place does.
  have hfetched : positiveReceipts = pick (blocks.map Block.receipts)
      (placesOf (headerBloomMatches tools scope) (blocks.map Block.header)) := by
    unfold fetchPositiveReceipts at hpositive
    split at hpositive
    · rename_i hempty
      cases hpositive
      rw [List.isEmpty_iff, pick, List.filterMap_eq_nil_iff] at hempty
      rw [eq_comm, pick, List.filterMap_eq_nil_iff]
      intro place hplace
      have hnone := hempty place hplace
      rw [List.getElem?_eq_none_iff, List.length_map] at hnone
      rw [List.getElem?_eq_none_iff, List.length_map]; exact hnone
    · exact hrcpts _ _ hpositive
  generalize hpositives : placesOf (headerBloomMatches tools scope) (blocks.map Block.header) =
    positives at *
  generalize hexacts : placesOf (matchesExactly scope) positiveReceipts = exacts at *
  have hexact : ∀ standing ∈ exacts, standing < positiveReceipts.length := by
    intro standing hstanding; rw [← hexacts] at hstanding; exact lt_of_mem_placesOf hstanding
  simp only [normalizeSparseLogFrames, eq_ok, Prod.exists] at hok
  obtain ⟨built, _, hfold, rfl⟩ := hok
  obtain ⟨frms, hfrs, hall⟩ := foldExcept_push hfold
  subst hfrs
  rw [List.forall₂_iff_get] at hall ⊢
  obtain ⟨hlen, hall⟩ := hall
  rw [List.length_zipIdx, List.length_map] at hlen
  refine ⟨hlen, fun place hplace hfrm => ?_⟩
  have hbuilt := hall place (by simpa using hplace) hfrm
  have hitem : ((blocks.map Block.header).zipIdx).get ⟨place, by simpa using hplace⟩ =
      ((blocks.get ⟨place, hplace⟩).header, place) := by simp
  rw [hitem] at hbuilt
  have hblk : blocks[place]? = some (blocks.get ⟨place, hplace⟩) :=
    List.getElem?_eq_getElem hplace
  generalize blocks.get ⟨place, hplace⟩ = block at hbuilt hblk
  have hmem := List.mem_of_getElem? hblk
  have hnodup := hpositives ▸ nodup_placesOf
  have hnodup' := hexacts ▸ nodup_placesOf
  rw [List.length_map, standings_join hnodup hplaces] at hbuilt
  by_cases hpositiveBlock : place ∈ positives
  · rw [if_pos hpositiveBlock, Option.bind_some, standings_join hnodup' hexact] at hbuilt
    have hfetchedBlock : positiveReceipts[positives.idxOf place]? = some block.receipts := by
      rw [hfetched, getElem?_pick_idxOf (by simpa using hplaces) hpositiveBlock, List.getElem?_map,
        hblk]
      rfl
    by_cases hexactBlock : positives.idxOf place ∈ exacts
    · rw [if_pos hexactBlock, Option.map_some] at hbuilt
      simp only [sparseFrame, eq_ok] at hbuilt
      obtain ⟨rcpts, hstore, hbuilt⟩ := hbuilt
      rw [hfetchedBlock, Option.some.injEq] at hstore
      subst hstore
      split at hbuilt
      · rename_i hhash
        -- The body stands where the block does among those with a matching log.
        have hhdrs : ∀ place ∈ positives, place < (blocks.map Block.header).length := by
          simpa using hplaces
        have hstandings : ∀ standing ∈ exacts, standing < positives.length := by
          intro standing hstanding
          have := hexact standing hstanding
          rwa [hfetched, length_pick (by simpa using hplaces)] at this
        have hchosen : (pick positives exacts)[exacts.idxOf (positives.idxOf place)]? = some place := by
          rw [getElem?_pick_idxOf hstandings hexactBlock, getElem?_idxOf hpositiveBlock]
        have hbound : ∀ place ∈ pick positives exacts, place < (blocks.map Block.body).length := by
          intro place hmem
          obtain ⟨standing, -, hstanding⟩ := List.mem_filterMap.1 hmem
          simpa using hplaces place (List.mem_of_getElem? hstanding)
        rw [pick_pick hhdrs] at hmatching
        have hasked : pick (blocks.map Block.header) (pick positives exacts) ≠ [] := by
          have hbound' : ∀ place ∈ pick positives exacts,
              place < (blocks.map Block.header).length := by simpa using hbound
          have hhead := get?_pick hbound' (exacts.idxOf (positives.idxOf place))
          rw [hchosen, Option.bind_some, List.getElem?_map, hblk] at hhead
          intro hnil; rw [hnil] at hhead; cases hhead
        have hserv := hbodies hhash _ _ hasked hmatching
        simp only [eq_ok] at hbuilt
        obtain ⟨body, hbody, hbuilt⟩ := hbuilt
        rw [hserv, get?_pick hbound, hchosen, Option.bind_some, List.getElem?_map, hblk,
          Option.map_some, Option.some.injEq] at hbody
        subst hbody
        intro _ hfull
        rw [hbuilt, Except.ok.injEq] at hfull; rw [hfull]; exact ⟨rfl, rfl⟩
      · exact sameLogs_receipts hscope (hvalid block hmem) hbuilt
    · rw [if_neg hexactBlock, Option.map_none] at hbuilt
      refine sameLogs_empty hscope (fun rcpt hrcpt log hlog => ?_) hbuilt
      rw [← hexacts, mem_placesOf] at hexactBlock
      rw [← Bool.not_eq_true]
      intro hmatch
      refine hexactBlock ⟨block.receipts, hfetchedBlock, List.any_eq_true.2 ⟨log, ?_, hmatch⟩⟩
      exact List.mem_flatMap.2 ⟨rcpt, hrcpt, hlog⟩
  · rw [if_neg hpositiveBlock, Option.bind_none] at hbuilt
    refine sameLogs_empty hscope (fun rcpt hrcpt log hlog => ?_) hbuilt
    rw [← hpositives, mem_placesOf] at hpositiveBlock
    rw [← Bool.not_eq_true]
    intro hmatch
    refine hpositiveBlock ⟨block.header, by rw [List.getElem?_map, hblk]; rfl, ?_⟩
    exact headerBloomMatches_of_log (hvalid block hmem) hrcpt hlog hmatch

theorem normalizeBlock_range (range : BlockRange) (body : BlockBody) (rcpts : Option (List Receipt)) :
    normalizeBlock tools header body rcpts (some { request with range }) =
      normalizeBlock tools header body rcpts (some request) := by
  have hloop : ∀ (pairs : List (WireTx × Option Receipt)) (index : Nat) (out : Normalized),
      normalizeTransactions header (some { request with range }) pairs index out =
        normalizeTransactions header (some request) pairs index out := by
    intro pairs
    induction pairs with
    | nil => exact fun _ _ => rfl
    | cons pair pairs ih =>
      intro index out
      rw [normalizeTransactions, normalizeTransactions]
      have hfst : normalizeTransaction header (some { request with range }) out index pair.1
          pair.2 = normalizeTransaction header (some request) out index pair.1 pair.2 := rfl
      rw [hfst]; exact bind_congr fun next => ih (index + 1) next
  rw [normalizeBlock, normalizeBlock, hloop]; rfl

structure AgreesWithFull (tools : Tools) (request : DataRequest) (scope : FilterScope)
    (blocks : List Block) : Prop where
  history : ∀ {fetchReceipts : List Header → Except Headers.P2pError (List (List Receipt))}
    {fetchBodies : List Header → Except Headers.P2pError (List BlockBody)} {budget : SourceBudget}
    {frames : List Filtering.BlockFrame}, ServesReceipts blocks fetchReceipts →
      ServesBodies blocks fetchBodies →
        fetchSparseLogFramesOnce tools fetchReceipts fetchBodies request budget
          (blocks.map Block.header) = .ok frames →
            List.Forall₂ (SameLogs tools request) blocks frames
  live : request.logFields.contains .transactionHash = false → ∀ {fetchReceipts : List Header →
    Except Headers.P2pError (List (List Receipt))} {budget : SourceBudget}
    {frames : List Filtering.BlockFrame}, ServesReceipts blocks fetchReceipts →
    fetchSparseLiveFrames tools fetchReceipts request budget (blocks.map Block.header) =
    .ok frames → List.Forall₂ (SameLogs tools request) blocks frames
  polled : request.logFields.contains .transactionHash = false →
    ∀ block ∈ blocks, ∀ {fetchReceipts : List Header → Except Headers.P2pError (List (List Receipt))}
    {budget : SourceBudget} {polled : Option Filtering.BlockFrame}, ServesReceipts [block]
    fetchReceipts → normalizePolledSparseLiveFrame tools fetchReceipts request budget block.header =
    .ok polled → ∃ frame, polled = some frame ∧ SameLogs tools request block frame
  ruledOut : ∀ block ∈ blocks, headerBloomMatches tools scope block.header = false →
    ∀ receipt ∈ block.receipts, ∀ log ∈ receipt.logs, sourceLogMatches scope log = false

theorem sparse_logs_agree (hvalid : ∀ block ∈ blocks, block.Valid tools)
    (hscope : sparseLogScope request = some scope) : AgreesWithFull tools request scope blocks := by
  refine ⟨?_, ?_, ?_, ?_⟩
  · intro fetchReceipts _ budget frames hreceipts hbodies hok
    refine sparseWindow_sameLogs hvalid hreceipts (fun hhash _ _ hasked hfetch => ?_) hok
    unfold fetchSparseLogBodies at hfetch
    rw [hhash, List.isEmpty_eq_false_iff.2 hasked] at hfetch; exact hbodies _ _ hfetch
  · intro hhash fetchReceipts budget frames hreceipts hok
    refine sparseWindow_sameLogs hvalid hreceipts (fun hwanted => ?_) hok
    rw [hhash] at hwanted; cases hwanted
  · intro hhash block hblock fetchReceipts budget _ hreceipts hok
    simp only [normalizePolledSparseLiveFrame, eq_ok] at hok
    obtain ⟨frames, hframes, rfl⟩ := hok
    have hone : ∀ b ∈ [block], b.Valid tools := by simpa using hvalid block hblock
    have hall := sparseWindow_sameLogs hone hreceipts
      (fun hwanted => by rw [hhash] at hwanted; cases hwanted) hframes
    obtain ⟨frame, _, hsame, hrest, rfl⟩ := List.forall₂_cons_left_iff.1 hall
    rw [List.forall₂_nil_left_iff.1 hrest]
    refine ⟨frame, rfl, fun full hfull => hsame full ?_⟩
    rw [normalizeBlock_range]; exact hfull
  · intro block hblock hruledOut _ hreceipt _ hlog
    rw [← Bool.not_eq_true]
    intro hmatches
    rw [headerBloomMatches_of_log (hvalid block hblock) hreceipt hlog hmatches] at hruledOut
    cases hruledOut

/-! ## Two blocks -/

def pairTools : Tools where
  keccak256 input := Vector.replicate 32 (input.headD 0)
  blockLength _ body := 500 + 100 * body.transactions.length
  heapBytes _ := 1000

def contractRequest : DataRequest where
  chainId := 1
  range := ⟨1, 2, by decide, by decide +kernel⟩
  required := .of .logs
  logFields := .none
  allowFiltered := true
  filters := { FilterSet.wildcard with
    scope := { FilterScope.wildcard with addresses := [Vector.replicate 20 2] } }
  minimumFinality := .attested

def blockOf (number : Nat) (hnumber : number ≤ u64Max) (transactions : List WireTx)
    (receipts : List Receipt) : Block where
  header := ⟨number, BitVec.ofNat 256 number, BitVec.ofNat 256 (number - 1), 12 * number,
    logsBloom pairTools receipts, 30000000, 21000, some 7, hnumber⟩
  body := ⟨transactions, none⟩
  receipts

def pairBlocks : List Block := [
  blockOf 1 (by decide +kernel)
    [⟨Vector.replicate 32 9, 2, some (Vector.replicate 20 2), .ok (Vector.replicate 20 3), 0, 21000,
      0, [], none, none, fun _ => 7, none⟩]
    [⟨2, true, 21000, [⟨Vector.replicate 20 2, [], [5]⟩]⟩],
  blockOf 2 (by decide +kernel) [] []]

theorem sparse_logs_agree_pair : ∃ scope, sparseLogScope contractRequest = some scope ∧
    AgreesWithFull pairTools contractRequest scope pairBlocks := by
  have hvalid : ∀ block ∈ pairBlocks, block.Valid pairTools := by
    intro block hblock
    simp only [pairBlocks, List.mem_cons, List.not_mem_nil, or_false] at hblock
    rcases hblock with rfl | rfl
    · exact ⟨rfl, rfl⟩
    · exact ⟨rfl, rfl⟩
  have hscope : sparseLogScope contractRequest = some contractRequest.filters.scope := by
    decide +kernel
  exact ⟨_, hscope, sparse_logs_agree hvalid hscope⟩

end Leani.P2p.SparseLogs
