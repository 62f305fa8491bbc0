import Leani.Filtering.Acceptance
import Leani.Library.BigEndian
import Mathlib.Data.List.Chain
import Mathlib.Data.List.Forall2
import Mathlib.Data.Nat.Log

/-!
# Log queries

`eth_getLogs` reads a history prefix, the recent window and a history suffix, block by block while
the window moves on. The pieces are joined by their parent hashes, and every block has to answer all
that the filter matches.
-/

namespace Leani.Rpc

open Library Filtering List Option FilterScope

/-! ## Requests -/

inductive BlockSelector where
  | latest
  | finalized
  | number (number : Nat)
  | hash (hash : BlockHash)
  deriving DecidableEq

structure ParsedLogFilter where
  fromBlock : Option BlockSelector
  toBlock : Option BlockSelector
  blockHash : Option BlockHash
  addresses : List Address
  topics : List (Option (List Topic))
  topics_le : topics.length ≤ 4

def ParsedLogFilter.selects (filter : ParsedLogFilter) (log : Log) : Bool :=
  (filter.addresses.isEmpty || decide (log.address ∈ filter.addresses)) &&
    filter.topics.zipIdx.all fun (expected, position) =>
      expected.all fun alternatives => (log.topics[position]?).any fun actual =>
        decide (actual ∈ alternatives)

def historicalLogFilters (range : BlockRange) (filter : ParsedLogFilter) : FilterScope :=
  { FilterScope.wildcard with
    blockRange := some range
    addresses := filter.addresses
    topics := filter.topics.zipIdx.filterMap fun (expected, position) =>
      expected.map fun alternatives => ⟨UInt8.ofNat (min position 255), alternatives⟩ }

inductive HistoricalRpcError where
  | unavailable
  | source
  | invalid
  | budget
  | rangeLimit
  | timeout
  deriving DecidableEq

inductive RpcError where
  | store
  | history (error : HistoricalRpcError)
  | invalidParams (message : String)
  | dataUnavailable (reason : String)
  | tooManyLogs (limit first reached : Nat)
  | overResponseBudget (limit : Nat)
  deriving DecidableEq

structure HistoryConfig where
  maxRange : Nat
  trustedDataset : Bool

structure LogsConfig where
  chainId : Nat
  maxLogRange : Nat
  maxLogResults : Nat
  maxResponseBytes : Nat
  history : Option HistoryConfig

/-! ## Frames -/

structure LogFrame extends Filtering.BlockFrame where
  chainId : Nat
  withdrawalsRoot : Option BlockHash

namespace LogFrame

variable (frame : LogFrame)

/-- `logs_cover`: all logs matching the filter, trusted dataset projections included. -/
def logsCover (filter : FilterScope) (allowDataset : Bool) : Option (List Log) :=
  match frame.logs with
  | .complete logs => some logs
  | .filtered value scope completeness =>
    if scope.coversAt filter frame.block.number = true ∧ (completeness = .verifiedPredicate ∨
        allowDataset = true ∧ completeness = .datasetDeclared) then some value
    else none
  | .missing => none

def validShape : Bool :=
  frame.chainId ≠ 0 && (match frame.transactions, frame.receipts with
      | .complete transactions, .complete receipts => transactions.length = receipts.length
      | _, _ => true) &&
    !frame.verification.hasFailures &&
    frame.verification.consensusAnchor.all (· = frame.block.hash)

def Child (prior next : LogFrame) : Prop := next.block.parentHash = prior.block.hash

instance decidableChild (prior next : LogFrame) : Decidable (Child prior next) :=
  inferInstanceAs (Decidable (_ = _))

end LogFrame

structure LogsRequest where
  chainId : Nat
  range : BlockRange
  scope : FilterScope
  allowFiltered : Bool

def rangeLen (range : BlockRange) : Nat := range.last - range.start + 1

/-- The check of one frame in `validate_historical_frames`. -/
def validHistoricalFrame (request : LogsRequest) (frame : LogFrame) (offset : Nat) : Bool :=
  frame.chainId = request.chainId && frame.block.number = request.range.start + offset &&
    decide (Finality.finalized ≤ frame.finality) &&
    frame.capabilities.satisfies (.of .logs) request.allowFiltered &&
    (frame.logsCover request.scope request.allowFiltered).isSome &&
    (!(frame.header.isComplete && frame.withdrawalsRoot.isSome) || frame.withdrawals.isComplete) &&
    frame.validShape

def validateHistoricalFrames (request : LogsRequest) (frames : List LogFrame) :
    Except HistoricalRpcError Unit := do
  ensure (frames.length = rangeLen request.range) .invalid
  ensure (∀ entry ∈ frames.zipIdx, validHistoricalFrame request entry.1 entry.2 = true) .invalid
  ensure (frames.IsChain LogFrame.Child) .invalid

/-! ## Reads -/

/-- What the reads of one query find, each at its own moment: the window moves on between any two.
Each block of the window is read once and each history range asked for once. -/
structure Reads where
  recentCanonicalBounds : Except RpcError (Option BlockRange)
  canonicalBlockByHash : BlockHash → Except RpcError (Option BlockRef)
  boundsHead : Except RpcError (Option Nat)
  rangeHead : Except RpcError (Option Nat)
  finalizedFrom : Except RpcError Nat
  finalizedTo : Except RpcError Nat
  recentFrame : Nat → Except RpcError (Option LogFrame)
  interrupted : BlockRange → Option HistoricalRpcError
  answers : BlockRange → List (Except HistoricalRpcError (List LogFrame))

/-- `fetch_inner`: the first answer that is valid, or the last error. -/
def firstValid (request : LogsRequest) (lastError : HistoricalRpcError) :
    List (Except HistoricalRpcError (List LogFrame)) → Except HistoricalRpcError (List LogFrame)
  | [] => .error lastError
  | .error error :: answers => firstValid request error answers
  | .ok frames :: answers =>
    match validateHistoricalFrames request frames with
    | .ok () => .ok frames
    | .error error => firstValid request error answers

variable (config : LogsConfig) (reads : Reads) (filter : ParsedLogFilter)

def fetch (history : HistoryConfig) (range : BlockRange) : Except HistoricalRpcError (List LogFrame) :=
  if history.maxRange < rangeLen range then .error .rangeLimit
  else match reads.interrupted range with
    | some error => .error error
    | none =>
      let request := ⟨config.chainId, range, historicalLogFilters range filter,
        history.trustedDataset⟩
      firstValid request .unavailable (reads.answers range)

def fetchLogs (history : HistoryConfig) (range : BlockRange) : Except RpcError (List LogFrame) :=
  (fetch config reads filter history range).mapError .history

def readRecentFrame (frames : List LogFrame) (number : Nat) : Except RpcError (List LogFrame) := do
  let read ← reads.recentFrame number
  let frame ← required read (.dataUnavailable "recent_frame_missing")
  -- A reorg committed between two reads would mix both branches.
  ensure (∀ prior ∈ frames.getLast?, LogFrame.Child prior frame)
    (.dataUnavailable "recent_reorg_during_read")
  pure (frames ++ [frame])

/-- `read_recent_frames`, of the blocks from the first to the last. -/
def readRecentFrames (first last : Nat) : Except RpcError (List LogFrame) :=
  foldExcept (readRecentFrame reads) [] (List.range' first (last + 1 - first))

def handOff (frames piece : List LogFrame) : Except RpcError (List LogFrame) := do
  ensure (∀ prior ∈ frames.getLast?, ∀ next ∈ piece.head?, LogFrame.Child prior next)
    (.dataUnavailable "historical_recent_handoff_mismatch")
  pure (frames ++ piece)

def historyRange (first last : Nat) : Except RpcError BlockRange :=
  required (BlockRange.new? first last) (.dataUnavailable "historical_log_range_invalid")

def historyPrefix (history : HistoryConfig) (range : BlockRange) (recent : Option BlockRange) :
    Except RpcError (List LogFrame) :=
  let historyEnd := match recent with
    | some window => min range.last (window.start - 1)
    | none => range.last
  if range.start ≤ historyEnd ∧ ∀ window ∈ recent, range.start < window.start then do
    let before ← historyRange range.start historyEnd
    fetchLogs config reads filter history before
  else pure []

def recentPiece (range : BlockRange) (recent : Option BlockRange) (frames : List LogFrame) :
    Except RpcError (List LogFrame) :=
  match recent with
  | some window =>
    let first := max range.start window.start
    let last := min range.last window.last
    if first ≤ last then do
      let piece ← readRecentFrames reads first last
      handOff frames piece
    else pure frames
  | none => pure frames

def historySuffix (history : HistoryConfig) (range : BlockRange) (recent : Option BlockRange)
    (frames : List LogFrame) : Except RpcError (List LogFrame) :=
  match recent with
  | some window =>
    if window.last < range.last then do
      let behind ← historyRange (max range.start (window.last + 1)) range.last
      let piece ← fetchLogs config reads filter history behind
      handOff frames piece
    else pure frames
  | none => pure frames

def Within (range : BlockRange) (recent : Option BlockRange) : Prop :=
  ∃ window ∈ recent, window.start ≤ range.start ∧ range.last ≤ window.last

instance decidableWithin (range : BlockRange) (recent : Option BlockRange) :
    Decidable (Within range recent) :=
  inferInstanceAs (Decidable (∃ window ∈ recent, _))

/-- `resolve_log_frames`. The window's bounds were read before. -/
def resolveLogFrames (range : BlockRange) (recent : Option BlockRange) :
    Except RpcError (List LogFrame) :=
  if Within range recent then readRecentFrames reads range.start range.last
  else do
    let head ← reads.rangeHead
    ensure (∀ known ∈ head, range.last ≤ known)
      (.dataUnavailable "requested_log_range_exceeds_known_head")
    let history ← required config.history (.dataUnavailable "requested_range_outside_recent_window")
    let frames ← historyPrefix config reads filter history range recent
    let frames ← recentPiece reads range recent frames
    let frames ← historySuffix config reads filter history range recent frames
    ensure (frames.length = rangeLen range) (.dataUnavailable "historical_log_range_incomplete")
    pure frames

def logRangeBound (finalizedHead : Except RpcError Nat) (latest : Option Nat) :
    Option BlockSelector → Except RpcError Nat
  | none | some .latest =>
    required latest (.dataUnavailable "latest_block_unavailable_for_open_log_range")
  | some .finalized => finalizedHead
  | some (.number number) => pure number
  | some (.hash _) =>
    .error (.invalidParams "fromBlock and toBlock must be block numbers or tags")

def logBounds : Except RpcError (Nat × Nat) :=
  match filter.blockHash with
  | some hash => do
    let read ← reads.canonicalBlockByHash hash
    let block ← required read (.dataUnavailable "block_hash_not_retained")
    pure (block.number, block.number)
  | none => do
    let latest ← reads.boundsHead
    let first ← logRangeBound reads.finalizedFrom latest filter.fromBlock
    let last ← logRangeBound reads.finalizedTo latest filter.toBlock
    pure (first, last)

/-! ## Answers -/

/-- A log of an answer, `rpc_log_value`; no log is removed. -/
structure RpcLog where
  address : Address
  topics : List Topic
  data : List UInt8
  blockNumber : Nat
  transactionHash : TransactionHash
  transactionIndex : Nat
  blockHash : BlockHash
  logIndex : Nat
  deriving DecidableEq

def rpcLogValue (frame : LogFrame) (log : Log) : Except RpcError RpcLog := do
  let transactionHash ← required log.transactionHash
    (.dataUnavailable "log_transaction_hash_not_retained")
  pure {
    address := log.address
    topics := log.topics
    data := log.data
    blockNumber := frame.block.number
    transactionHash
    transactionIndex := log.transactionIndex
    blockHash := frame.block.hash
    logIndex := log.logIndex }

def quantityDigits (value : Nat) : Nat := Nat.log 16 value + 1

/-- `rpc_log_json_len`: the fields with their names, the braces and a comma between fields, all of
ASCII characters. -/
def rpcLogJsonLen (blockNumber : Nat) (log : Log) : Nat :=
  let hexString := fun digits => digits + 4
  let quantity := fun value => hexString (quantityDigits value)
  let fields := [
    "\"address\":".length + hexString 40,
    "\"topics\":[]".length + log.topics.length * hexString 64 + (log.topics.length - 1),
    "\"data\":".length + hexString (log.data.length * 2),
    "\"blockNumber\":".length + quantity blockNumber,
    "\"transactionHash\":".length + hexString 64,
    "\"transactionIndex\":".length + quantity log.transactionIndex,
    "\"blockHash\":".length + hexString 64,
    "\"logIndex\":".length + quantity log.logIndex,
    "\"removed\":".length + "false".length]
  fields.sum + 2 + fields.length - 1

namespace RpcLog

variable (row : RpcLog)

def jsonLen : Nat :=
  rpcLogJsonLen row.blockNumber ⟨row.address, row.topics, row.data, some row.transactionHash,
    row.transactionIndex, row.logIndex⟩

/-! The text of an answer has ASCII characters only, a byte each. -/

def hexDigit (digit : Nat) : Char := "0123456789abcdef".toList.getD digit '0'

def hexBytes (bytes : List UInt8) : List Char :=
  bytes.flatMap fun byte => [hexDigit (byte.toNat / 16), hexDigit (byte.toNat % 16)]

def hexQuantity (value : Nat) : List Char :=
  if value < 16 then [hexDigit value] else hexQuantity (value / 16) ++ [hexDigit (value % 16)]

def quoted (digits : List Char) : List Char := "\"0x".toList ++ digits ++ "\"".toList

def commas (texts : List (List Char)) : List Char := [','].intercalate texts

def fields : List (List Char) := [
  "\"address\":".toList ++ quoted (hexBytes row.address.toList),
  "\"topics\":[".toList ++
    commas (row.topics.map fun topic => quoted (hexBytes topic.toList)) ++ "]".toList,
  "\"data\":".toList ++ quoted (hexBytes row.data),
  "\"blockNumber\":".toList ++ quoted (hexQuantity row.blockNumber),
  "\"transactionHash\":".toList ++ quoted (hexBytes row.transactionHash.toList),
  "\"transactionIndex\":".toList ++ quoted (hexQuantity row.transactionIndex),
  "\"blockHash\":".toList ++ quoted (hexBytes (BigEndian.bytes 32 row.blockHash.toNat)),
  "\"logIndex\":".toList ++ quoted (hexQuantity row.logIndex),
  "\"removed\":".toList ++ "false".toList]

def text : List Char := "\x7b".toList ++ commas row.fields ++ "\x7d".toList

end RpcLog

def answerText (rows : List RpcLog) : List Char :=
  "[".toList ++ RpcLog.commas (rows.map RpcLog.text) ++ "]".toList

def collectLog (budget first : Nat) (frame : LogFrame) (output : List RpcLog × Nat) (log : Log) :
    Except RpcError (List RpcLog × Nat) :=
  if filter.selects log then do
    ensure (output.1.length ≠ config.maxLogResults)
      (.tooManyLogs config.maxLogResults first frame.block.number)
    let bytes := output.2 + (if output.1.isEmpty then 0 else 1) + rpcLogJsonLen frame.block.number log
    ensure (bytes ≤ budget) (.overResponseBudget config.maxResponseBytes)
    let value ← rpcLogValue frame log
    pure (output.1 ++ [value], bytes)
  else pure output

def collectFrame (budget first : Nat) (output : List RpcLog × Nat) (frame : LogFrame) :
    Except RpcError (List RpcLog × Nat) := do
  let single ← historyRange frame.block.number frame.block.number
  let allowDataset := config.history.any HistoryConfig.trustedDataset
  let logs ← required (frame.logsCover (historicalLogFilters single filter) allowDataset)
    (.dataUnavailable "complete_logs_not_retained")
  foldExcept (collectLog config filter budget first frame) output logs

def ethGetLogs (budget : Nat) : Except RpcError (List RpcLog) := do
  let recent ← reads.recentCanonicalBounds
  let (first, last) ← logBounds reads filter
  let range ← required (BlockRange.new? first last)
    (.invalidParams "fromBlock must not exceed toBlock")
  ensure (rangeLen range ≤ config.maxLogRange) (.dataUnavailable "requested_range_exceeds_rpc_limit")
  let frames ← resolveLogFrames config reads filter range recent
  -- A reorg in between, or history holding another block there.
  ensure (∀ hash ∈ filter.blockHash, ∀ frame ∈ frames, frame.block.hash = hash)
    (.dataUnavailable "block_hash_not_retained")
  -- The encoded array's brackets come first.
  let output ← foldExcept (collectFrame config filter budget first) ([], 2) frames
  pure output.1

/-! ## Blocks -/

structure LogBlock where
  block : BlockRef
  logs : List Log

def ListsLogs (truth : List Log) (scope : FilterScope) (logs : List Log) : Prop :=
  ∃ kept : Log → Bool, (∀ log ∈ truth, scope.matchesLog log.address (log.topics.map Vector.toList) =
    true → kept log = true) ∧ List.Forall₂ Log.Shows logs (truth.filter kept)

/-- The frame is of the block its hash names, and its logs are truthful for the scope it declares.
Complete logs are those of a scope without predicates. -/
structure LogFrame.Truthful (blocks : BlockHash → LogBlock) (frame : LogFrame) : Prop where
  block : (blocks frame.block.hash).block = frame.block
  logs : match frame.logs with
    | .missing => True
    | .complete logs => ListsLogs (blocks frame.block.hash).logs .wildcard logs
    | .filtered logs scope completeness => completeness ≠ .bestEffort →
      ListsLogs (blocks frame.block.hash).logs scope logs

structure Reads.Truthful (blocks : BlockHash → LogBlock) (reads : Reads) : Prop where
  recent : ∀ number frame, reads.recentFrame number = .ok (some frame) →
    frame.block.number = number ∧ frame.Truthful blocks
  history : ∀ range frames, Except.ok frames ∈ reads.answers range →
    ∀ frame ∈ frames, frame.Truthful blocks

structure RpcLog.Describes (row : RpcLog) (block : LogBlock) (log : Log) : Prop where
  place : row.blockNumber = block.block.number ∧ row.blockHash = block.block.hash
  contents : row.address = log.address ∧ row.topics = log.topics ∧ row.data = log.data
  indexes : row.transactionIndex = log.transactionIndex ∧ row.logIndex = log.logIndex
  transactionHash : log.transactionHash = some row.transactionHash

def BoundNames (latest : Except RpcError (Option Nat)) (finalizedHead : Except RpcError Nat)
    (bound : Option BlockSelector) (number : Nat) : Prop :=
  match bound with
  | none | some .latest => latest = .ok (some number)
  | some .finalized => finalizedHead = .ok number
  | some (.number asked) => number = asked
  | some (.hash _) => False

/-- The blocks of a query: one linked chain, from the first number to the last, and the block that
the query names when it names one. -/
structure Answers (reads : Reads) (filter : ParsedLogFilter) (first : Nat) (chain : List LogBlock) :
    Prop where
  nonempty : chain ≠ []
  numbers : ∀ (index : Nat) block, chain[index]? = some block → block.block.number = first + index
  linked : chain.IsChain fun prior next => next.block.parentHash = prior.block.hash
  named : ∀ hash ∈ filter.blockHash, chain.length = 1 ∧ ∀ block ∈ chain, block.block.hash = hash
  bounded : filter.blockHash = none →
    BoundNames reads.boundsHead reads.finalizedFrom filter.fromBlock first ∧
      BoundNames reads.boundsHead reads.finalizedTo filter.toBlock (first + chain.length - 1)

/-! ## Filters -/

variable {log : Log}

theorem matchesLog_of_selects {filter : ParsedLogFilter} {range : BlockRange}
    (h : filter.selects log = true) :
    (historicalLogFilters range filter).matchesLog log.address (log.topics.map Vector.toList) =
      true := by
  simp only [ParsedLogFilter.selects, Bool.and_eq_true, Bool.or_eq_true, List.isEmpty_iff,
    decide_eq_true_iff, List.all_eq_true] at h
  obtain ⟨haddr, htopics⟩ := h
  rw [matchesLog, Bool.and_eq_true]
  constructor
  · exact listMatches_iff.2 (haddr.imp_right fun hmem => ⟨_, hmem, rfl⟩)
  · rw [List.all_eq_true]
    intro _ hmem
    obtain ⟨⟨_, position⟩, hentry, hfilter⟩ := mem_filterMap.1 hmem
    obtain ⟨_, hexp, rfl⟩ := map_eq_some_iff.1 hfilter
    have hmatch := htopics _ hentry
    rw [hexp, Option.all_some, Option.any_eq_true] at hmatch
    obtain ⟨actual, hactual, halternative⟩ := hmatch
    -- No filter has more than four positions.
    have hpos : position < 4 := by
      have hlt := (mem_zipIdx hentry).2.1
      have hle := filter.topics_le; omega
    have hidx : (UInt8.ofNat (min position 255)).toNat = position := by
      rw [UInt8.toNat_ofNat_of_lt' (by change min position 255 < 256; omega)]; omega
    rw [hidx, List.getElem?_map, hactual, Option.map_some, Option.any_some, List.any_eq_true]
    exact ⟨actual, of_decide_eq_true halternative, by simp⟩

variable {given : Log}

theorem selects_of_shows {filter : ParsedLogFilter} (h : given.Shows log) :
    filter.selects given = filter.selects log := by
  obtain ⟨⟨haddr, htopics, -⟩, -⟩ := h
  unfold ParsedLogFilter.selects; rw [haddr, htopics]

/-! ## Pieces -/

structure Piece (blocks : BlockHash → LogBlock) (start : Nat) (frames : List LogFrame) : Prop where
  numbers : ∀ (index : Nat) frame, frames[index]? = some frame → frame.block.number = start + index
  linked : frames.IsChain LogFrame.Child
  truthful : ∀ frame ∈ frames, frame.Truthful blocks

variable {blocks : BlockHash → LogBlock} {start : Nat} {frames piece : List LogFrame}

theorem Piece.nil : Piece blocks start [] where
  numbers index frame h := by simp at h
  linked := .nil
  truthful frame h := by simp at h

theorem Piece.append (h : Piece blocks start frames)
    (hpiece : Piece blocks (start + frames.length) piece) (hjoint : ∀ prior ∈ frames.getLast?,
    ∀ next ∈ piece.head?, LogFrame.Child prior next) : Piece blocks start (frames ++ piece) where
  numbers index frame hframe := by
    by_cases hlt : index < frames.length
    · rw [getElem?_append_left hlt] at hframe; exact h.numbers index frame hframe
    · have hle : frames.length ≤ index := by omega
      rw [getElem?_append_right hle] at hframe; rw [hpiece.numbers _ frame hframe]; omega
  linked := isChain_append.2 ⟨h.linked, hpiece.linked, hjoint⟩
  truthful frame hframe := by
    rcases mem_append.1 hframe with hmem | hmem
    · exact h.truthful frame hmem
    · exact hpiece.truthful frame hmem

theorem handOff_eq_ok {joined : List LogFrame} (h : handOff frames piece = .ok joined) :
    (∀ prior ∈ frames.getLast?, ∀ next ∈ piece.head?, LogFrame.Child prior next) ∧
      joined = frames ++ piece := by
  simp only [handOff, eq_ok] at h
  obtain ⟨-, hjoint, rfl⟩ := h; exact ⟨hjoint, rfl⟩

theorem historyRange_eq_ok {first last : Nat} {range : BlockRange}
    (h : historyRange first last = .ok range) : range.start = first ∧ range.last = last := by
  rw [historyRange, required_eq_ok, BlockRange.new?] at h
  split at h
  · cases h; exact ⟨rfl, rfl⟩
  · cases h

/-! ## History -/

theorem firstValid_spec {req : LogsRequest} :
    ∀ {ans : List (Except HistoricalRpcError (List LogFrame))} {error : HistoricalRpcError},
      firstValid req error ans = .ok frames →
        .ok frames ∈ ans ∧ validateHistoricalFrames req frames = .ok () := by
  intro ans
  induction ans with
  | nil =>
    intro error h; cases h
  | cons answer ans ih =>
    intro error h
    cases answer with
    | error failure =>
      obtain ⟨hmem, hvalid⟩ := ih h; exact ⟨mem_cons_of_mem _ hmem, hvalid⟩
    | ok delivered =>
      rw [firstValid] at h
      split at h
      · rename_i hvalid; cases h; exact ⟨mem_cons_self, hvalid⟩
      · obtain ⟨hmem, hvalid⟩ := ih h; exact ⟨mem_cons_of_mem _ hmem, hvalid⟩

variable {config : LogsConfig} {reads : Reads} {filter : ParsedLogFilter} {history : HistoryConfig}
  {range : BlockRange} {recent : Option BlockRange}

section

variable (htruthful : reads.Truthful blocks)

include htruthful

theorem fetchLogs_spec (h : fetchLogs config reads filter history range = .ok frames) :
    Piece blocks range.start frames ∧ frames.length = rangeLen range := by
  have hfetch : fetch config reads filter history range = .ok frames := by
    unfold fetchLogs at h
    cases hans : fetch config reads filter history range with
    | error error =>
      rw [hans] at h; cases h
    | ok delivered =>
      rw [hans] at h; cases h; rfl
  unfold fetch at hfetch
  split at hfetch
  · cases hfetch
  · split at hfetch
    · cases hfetch
    · obtain ⟨hmem, hvalid⟩ := firstValid_spec hfetch
      simp only [validateHistoricalFrames, eq_ok, exists_const] at hvalid
      obtain ⟨hlen, hfrs, hlink⟩ := hvalid
      refine ⟨⟨?_, hlink, htruthful.history range frames hmem⟩, hlen⟩
      intro index frame hfrm
      have hvalid := hfrs (frame, index) (mem_zipIdx_iff_getElem?.2 hfrm)
      simp only [validHistoricalFrame, Bool.and_eq_true, decide_eq_true_iff] at hvalid
      exact hvalid.1.1.1.1.1.2

/-! ## The window -/

theorem readRecentFrames_loop : ∀ {count start' : Nat} {frms frms' : List LogFrame},
    Piece blocks start frms → start' = start + frms.length →
      foldExcept (readRecentFrame reads) frms (range' start' count) = .ok frms' →
        Piece blocks start frms' ∧ frms'.length = frms.length + count := by
  intro count
  induction count with
  | zero =>
    intro start' frms frms' hpiece _ h; cases h; exact ⟨hpiece, rfl⟩
  | succ count ih =>
    intro start' frms frms' hpiece hstart h
    rw [range'_succ, foldExcept_cons, bind_eq_ok] at h
    obtain ⟨next, hnext, hrest⟩ := h
    simp only [readRecentFrame, eq_ok] at hnext
    obtain ⟨_, hread, frame, rfl, -, hjoint, rfl⟩ := hnext
    obtain ⟨hnum, htrue⟩ := htruthful.recent _ _ hread
    have hsingle : Piece blocks (start + frms.length) [frame] := by
      refine ⟨?_, isChain_singleton _, ?_⟩
      · intro index frame' hframe'
        cases index with
        | zero =>
          cases hframe'; rw [hnum, hstart, Nat.add_zero]
        | succ index => simp at hframe'
      · intro frame' hframe'; cases mem_singleton.1 hframe'; exact htrue
    have happended := hpiece.append hsingle (by
      intro prior hprior next hnext; cases hnext; exact hjoint prior hprior)
    obtain ⟨hfinal, hlen⟩ := ih happended (by rw [length_append, hstart]; rfl) hrest
    refine ⟨hfinal, ?_⟩
    rw [hlen, length_append, length_singleton]; omega

theorem readRecentFrames_spec {first last : Nat} (h : readRecentFrames reads first last = .ok frames) :
    Piece blocks first frames ∧ frames.length = last + 1 - first := by
  obtain ⟨hpiece, hlen⟩ := readRecentFrames_loop htruthful Piece.nil (Nat.add_zero _).symm h
  exact ⟨hpiece, by rw [hlen, length_nil, Nat.zero_add]⟩

theorem historyPrefix_none (h : historyPrefix config reads filter history range none = .ok frames) :
    Piece blocks range.start frames := by
  have hrange := range.start_le_last
  unfold historyPrefix at h
  rw [if_pos ⟨hrange, nofun⟩, bind_eq_ok] at h
  obtain ⟨_, hbef, hfetch⟩ := h
  obtain ⟨hstart, -⟩ := historyRange_eq_ok hbef
  rw [← hstart]; exact (fetchLogs_spec htruthful hfetch).1

variable {window : BlockRange}

theorem historyPrefix_spec (h : historyPrefix config reads filter history range (some window) =
    .ok frames) : Piece blocks range.start frames ∧
    frames.length = min (range.last + 1) window.start - range.start := by
  have hrange := range.start_le_last
  unfold historyPrefix at h
  dsimp only at h
  by_cases hlt : range.start < window.start
  · rw [if_pos ⟨by omega, fun _ hwin => by cases hwin; exact hlt⟩, bind_eq_ok] at h
    obtain ⟨_, hbef, hfetch⟩ := h
    obtain ⟨hstart, hlast⟩ := historyRange_eq_ok hbef
    obtain ⟨hpiece, hlen⟩ := fetchLogs_spec htruthful hfetch
    rw [hstart] at hpiece
    refine ⟨hpiece, ?_⟩
    rw [hlen, rangeLen, hstart, hlast]; omega
  · rw [if_neg fun hboth => hlt (hboth.2 window rfl)] at h
    cases h
    refine ⟨Piece.nil, ?_⟩
    rw [length_nil]; omega

theorem recentPiece_spec {bef : List LogFrame} (hbef : Piece blocks range.start bef)
    (hlen : bef.length = min (range.last + 1) window.start - range.start)
    (h : recentPiece reads range (some window) bef = .ok frames) :
    Piece blocks range.start frames ∧ frames.length = min range.last window.last + 1 - range.start := by
  have hrange := range.start_le_last
  have hwin := window.start_le_last
  unfold recentPiece at h
  dsimp only at h
  by_cases hfst : max range.start window.start ≤ min range.last window.last
  · rw [if_pos hfst, bind_eq_ok] at h
    obtain ⟨_, hread, hjoin⟩ := h
    obtain ⟨hpiece, hcount⟩ := readRecentFrames_spec htruthful hread
    obtain ⟨hjoint, rfl⟩ := handOff_eq_ok hjoin
    have hstart : max range.start window.start = range.start + bef.length := by omega
    rw [hstart] at hpiece hcount
    refine ⟨hbef.append hpiece hjoint, ?_⟩
    rw [length_append, hcount]; omega
  · rw [if_neg hfst] at h
    cases h
    refine ⟨hbef, ?_⟩
    omega

theorem historySuffix_spec {middle : List LogFrame} (hmid : Piece blocks range.start middle)
    (hlen : middle.length = min range.last window.last + 1 - range.start)
    (h : historySuffix config reads filter history range (some window) middle = .ok frames) :
    Piece blocks range.start frames := by
  have hrange := range.start_le_last
  unfold historySuffix at h
  dsimp only at h
  by_cases hlt : window.last < range.last
  · rw [if_pos hlt, bind_eq_ok] at h
    obtain ⟨_, hbehind, h⟩ := h
    rw [bind_eq_ok] at h
    obtain ⟨_, hfetch, hjoin⟩ := h
    obtain ⟨hstart, -⟩ := historyRange_eq_ok hbehind
    obtain ⟨hpiece, -⟩ := fetchLogs_spec htruthful hfetch
    obtain ⟨hjoint, rfl⟩ := handOff_eq_ok hjoin
    rw [hstart, show max range.start (window.last + 1) = range.start + middle.length by omega] at hpiece
    exact hmid.append hpiece hjoint
  · rw [if_neg hlt] at h; cases h; exact hmid

theorem resolveLogFrames_spec (h : resolveLogFrames config reads filter range recent = .ok frames) :
    Piece blocks range.start frames ∧ frames.length = rangeLen range := by
  have hrange := range.start_le_last
  unfold resolveLogFrames at h
  split at h
  · obtain ⟨hpiece, hlen⟩ := readRecentFrames_spec htruthful h
    refine ⟨hpiece, ?_⟩
    rw [hlen, rangeLen]; omega
  · simp only [eq_ok] at h
    obtain ⟨_, -, -, -, _, -, _, hbef, _, hmid, _, hall, -, hlen,
      rfl⟩ := h
    refine ⟨?_, hlen⟩
    cases recent with
    | none =>
      cases hmid; cases hall; exact historyPrefix_none htruthful hbef
    | some window =>
      obtain ⟨hpiece, hcount⟩ := historyPrefix_spec htruthful hbef
      obtain ⟨hpiece, hcount⟩ := recentPiece_spec htruthful hpiece hcount hmid
      exact historySuffix_spec htruthful hpiece hcount hall

end

/-! ## Logs -/

namespace RpcLog

@[simp] theorem length_hexBytes (bytes : List UInt8) : (hexBytes bytes).length = bytes.length * 2 := by
  induction bytes with
  | nil => rfl
  | cons byte bytes ih =>
    simp only [hexBytes, flatMap_cons, length_append, length_cons] at ih ⊢
    rw [ih]; simp; omega

@[simp] theorem length_hexQuantity (value : Nat) :
    (hexQuantity value).length = quantityDigits value := by
  unfold quantityDigits
  fun_induction hexQuantity value with
  | case1 value hlt => rw [Nat.log_of_lt hlt, length_singleton]
  | case2 value hle ih =>
    have hlog : Nat.log 16 value = Nat.log 16 (value / 16) + 1 :=
      Nat.log_of_one_lt_of_le (by decide) (by omega)
    rw [length_append, ih, hlog, length_singleton]

@[simp] theorem length_quoted (digs : List Char) : (quoted digs).length = digs.length + 4 := by
  simp [quoted]

theorem length_commas (texts : List (List Char)) :
    (commas texts).length = (texts.map length).sum + (texts.length - 1) := by
  induction texts with
  | nil => rfl
  | cons text texts ih =>
    cases texts with
    | nil => simp [commas]
    | cons text' texts =>
      have hcons : commas (text :: text' :: texts) = text ++ ',' :: commas (text' :: texts) := by
        simp [commas, intercalate]
      rw [hcons, length_append, length_cons, ih]; simp; omega

theorem length_text (row : RpcLog) : row.text.length = row.jsonLen := by
  have htopics : (row.topics.map (length ∘ fun topic => quoted (hexBytes topic.toList))).sum =
        row.topics.length * 68 := by
    induction row.topics with
    | nil => rfl
    | cons topic topics ih =>
      simp only [map_cons, sum_cons, ih, Function.comp_apply, length_quoted,
        length_hexBytes, Vector.length_toList, length_cons]
      omega
  have hnames : "\"address\":".length = 10 ∧ "\"topics\":[]".length =
      11 ∧ "\"data\":".length = 7 ∧ "\"blockNumber\":".length = 14 ∧ "\"transactionHash\":".length =
      18 ∧ "\"transactionIndex\":".length = 19 ∧ "\"blockHash\":".length =
      12 ∧ "\"logIndex\":".length = 11 ∧ "\"removed\":".length = 10 ∧ "false".length = 5 := by decide
  simp [text, fields, length_commas, jsonLen, rpcLogJsonLen, htopics, hnames]; omega

end RpcLog

def arrayLen (rows : List RpcLog) : Nat :=
  2 + (rows.map RpcLog.jsonLen).sum + (rows.length - 1)

theorem length_answerText (rows : List RpcLog) : (answerText rows).length = arrayLen rows := by
  have hlengths : (rows.map RpcLog.text).map List.length = rows.map RpcLog.jsonLen := by
    rw [List.map_map]; exact List.map_congr_left fun row _ => row.length_text
  simp [answerText, RpcLog.length_commas, hlengths, arrayLen]; omega

structure Fits (config : LogsConfig) (budget : Nat) (output : List RpcLog × Nat) : Prop where
  results : output.1.length ≤ config.maxLogResults
  counted : output.2 = arrayLen output.1
  bytes : output.1 ≠ [] → output.2 ≤ budget

theorem arrayLen_concat (rows : List RpcLog) (row : RpcLog) : arrayLen (rows ++ [row]) =
      arrayLen rows + (if rows.isEmpty then 0 else 1) + row.jsonLen := by
  cases rows with
  | nil => simp [arrayLen]
  | cons first rest =>
    simp [arrayLen]; omega

theorem rpcLogValue_eq_ok {frame : LogFrame} {row : RpcLog} (h : rpcLogValue frame log = .ok row) :
    row.jsonLen = rpcLogJsonLen frame.block.number log ∧ log.transactionHash = some row.transactionHash ∧
      row = ⟨log.address, log.topics, log.data, frame.block.number, row.transactionHash,
        log.transactionIndex, frame.block.hash, log.logIndex⟩ := by
  simp only [rpcLogValue, eq_ok] at h
  obtain ⟨hash, hhash, rfl⟩ := h; exact ⟨rfl, hhash, rfl⟩

variable {block : LogBlock}

theorem describes_of_shows {frame : LogFrame} {row : RpcLog} (hblk : block.block = frame.block)
    (h : rpcLogValue frame given = .ok row) (hshows : given.Shows log) : row.Describes block log := by
  obtain ⟨-, hhash, hrow⟩ := rpcLogValue_eq_ok h
  obtain ⟨⟨haddr, htopics, hdata, hindex, hlogIndex⟩, htrue⟩ := hshows
  rw [hrow]
  refine ⟨by rw [hblk]; exact ⟨rfl, rfl⟩, ⟨haddr, htopics, hdata⟩, ⟨hindex, hlogIndex⟩, ?_⟩
  exact htrue _ hhash

variable {budget first : Nat} {frame : LogFrame}

theorem collectLogs_spec : ∀ {logs : List Log} {out out' : List RpcLog × Nat},
    Fits config budget out →
      foldExcept (collectLog config filter budget first frame) out logs = .ok out' →
        Fits config budget out' ∧ ∃ rows, out'.1 = out.1 ++ rows ∧
          List.Forall₂ (fun row log => rpcLogValue frame log = .ok row) rows
            (logs.filter filter.selects) := by
  intro logs
  induction logs with
  | nil =>
    intro out out' hfits h; cases h; exact ⟨hfits, [], (append_nil _).symm, .nil⟩
  | cons log logs ih =>
    intro out out' hfits h
    rw [foldExcept_cons, bind_eq_ok] at h
    obtain ⟨_, hnext, hrest⟩ := h
    by_cases hselects : filter.selects log = true
    · rw [collectLog, if_pos hselects] at hnext
      simp only [eq_ok] at hnext
      obtain ⟨-, _, -, hbudget, row, hrow, rfl⟩ := hnext
      have hlen := (rpcLogValue_eq_ok hrow).1
      have hnextFits : Fits config budget (out.1 ++ [row],
          out.2 + (if out.1.isEmpty then 0 else 1) + rpcLogJsonLen frame.block.number log) := by
        refine ⟨?_, ?_, fun _ => hbudget⟩
        · have hle := hfits.results; rw [length_append, length_singleton]; omega
        · rw [arrayLen_concat, hfits.counted, hlen]
      obtain ⟨hfinal, rows, hrows, hall⟩ := ih hnextFits hrest
      refine ⟨hfinal, row :: rows, ?_, ?_⟩
      · rw [hrows, append_assoc]; rfl
      · rw [filter_cons_of_pos hselects]; exact .cons hrow hall
    · rw [collectLog, if_neg hselects] at hnext
      cases hnext; rw [filter_cons_of_neg hselects]; exact ih hfits hrest

theorem describes_filter {scope : FilterScope} {given : List Log}
    {rows : List RpcLog} (hblk : block.block = frame.block)
    (hlists : ListsLogs block.logs scope given) (hmatch : ∀ log, filter.selects log = true →
      scope.matchesLog log.address (log.topics.map Vector.toList) = true)
    (hrows : List.Forall₂ (fun row log => rpcLogValue frame log = .ok row) rows
      (given.filter filter.selects)) :
    List.Forall₂ (fun row log => row.Describes block log) rows (block.logs.filter filter.selects) := by
  obtain ⟨kept, hkept, hshows⟩ := hlists
  have hsame : (block.logs.filter kept).filter filter.selects = block.logs.filter filter.selects := by
    rw [List.filter_filter]
    refine List.filter_congr fun log hlog => ?_
    by_cases hselects : filter.selects log = true
    · rw [hselects, hkept log hlog (hmatch log hselects)]; rfl
    · simp [hselects]
  have hsel : List.Forall₂ Log.Shows (given.filter filter.selects)
      (block.logs.filter filter.selects) := by
    rw [← hsame]
    refine rel_filter (fun given log h => ?_) hshows
    change filter.selects given = true ↔ filter.selects log = true; rw [selects_of_shows h]
  clear hshows hsame hkept hmatch
  revert hrows
  generalize block.logs.filter filter.selects = logs at hsel ⊢
  generalize given.filter filter.selects = shown at hsel ⊢
  intro hrows
  induction hrows generalizing logs with
  | nil =>
    cases hsel; exact .nil
  | cons hrow _ ih =>
    cases hsel with
    | cons hshow hrest => exact .cons (describes_of_shows hblk hrow hshow) (ih _ hrest)

theorem collectFrame_spec {out out' : List RpcLog × Nat} (htruthful : frame.Truthful blocks)
    (hfits : Fits config budget out) (h : collectFrame config filter budget first out frame =
    .ok out') : Fits config budget out' ∧ ∃ rows, out'.1 =
    out.1 ++ rows ∧ List.Forall₂ (fun row log => row.Describes (blocks frame.block.hash) log)
    rows ((blocks frame.block.hash).logs.filter filter.selects) := by
  simp only [collectFrame, eq_ok] at h
  obtain ⟨single, hsingle, logs, hlogs, h⟩ := h
  obtain ⟨_, _⟩ := historyRange_eq_ok hsingle
  obtain ⟨hfits', rows, hrows, hall⟩ := collectLogs_spec hfits h
  refine ⟨hfits', rows, hrows, ?_⟩
  have hmatch : ∀ log, filter.selects log = true →
      (historicalLogFilters single filter).matchesLog log.address (log.topics.map Vector.toList) =
        true := fun log hselects => matchesLog_of_selects hselects
  have htruth := htruthful.logs
  unfold LogFrame.logsCover at hlogs
  cases hmat : frame.logs with
  | missing =>
    rw [hmat] at hlogs; cases hlogs
  | complete value =>
    rw [hmat] at hlogs htruth
    cases hlogs; exact describes_filter htruthful.block htruth (fun log _ => rfl) hall
  | filtered value scope completeness =>
    rw [hmat] at hlogs htruth
    dsimp only at hlogs htruth
    split at hlogs
    · rename_i hcovers
      cases hlogs
      have hcompl : completeness ≠ .bestEffort := by
        rcases hcovers.2 with rfl | ⟨-, rfl⟩ <;> decide
      have hvals : scope.coversValues (historicalLogFilters single filter) = true := by
        refine (coversAt_iff.1 hcovers.1 ?_).2
        rw [matchesBlock_iff]
        intro _ hrng; cases hrng; omega
      exact describes_filter htruthful.block (htruth hcompl)
        (fun log hselects => matchesLog_of_coversValues hvals (hmatch log hselects)) hall
    · cases hlogs

theorem collectFrames_spec : ∀ {frms : List LogFrame} {out out' : List RpcLog × Nat},
    (∀ frame ∈ frms, frame.Truthful blocks) → Fits config budget out →
      foldExcept (collectFrame config filter budget first) out frms = .ok out' →
        Fits config budget out' ∧ ∃ rows, out'.1 = out.1 ++ rows ∧
          List.Forall₂ (fun row (entry : LogBlock × Log) => row.Describes entry.1 entry.2) rows
            ((frms.map fun frame => blocks frame.block.hash).flatMap fun block =>
              (block.logs.filter filter.selects).map (block, ·)) := by
  intro frms
  induction frms with
  | nil =>
    intro out out' _ hfits h; cases h; exact ⟨hfits, [], (append_nil _).symm, .nil⟩
  | cons frame frms ih =>
    intro out out' htruth hfits h
    rw [foldExcept_cons, bind_eq_ok] at h
    obtain ⟨_, hnext, hrest⟩ := h
    obtain ⟨hnextFits, rows, hrows, hall⟩ :=
      collectFrame_spec (htruth frame mem_cons_self) hfits hnext
    obtain ⟨hfinal, rows', hrows', hall'⟩ :=
      ih (forall_mem_cons.1 htruth).2 hnextFits hrest
    refine ⟨hfinal, rows ++ rows', by rw [hrows', hrows, append_assoc], ?_⟩
    have hhere : List.Forall₂ (fun row (entry : LogBlock × Log) => row.Describes entry.1 entry.2) rows
        (((blocks frame.block.hash).logs.filter filter.selects).map
          (blocks frame.block.hash, ·)) := forall₂_map_right_iff.2 hall
    rw [map_cons, flatMap_cons]; exact rel_append hhere hall'

/-! ## Queries -/

theorem logRangeBound_names {finalizedHead : Except RpcError Nat} {latest : Option Nat}
    {heads : Except RpcError (Option Nat)} {bound : Option BlockSelector} {number : Nat}
    (hheads : heads = .ok latest) (h : logRangeBound finalizedHead latest bound = .ok number) :
    BoundNames heads finalizedHead bound number := by
  cases bound with
  | none =>
    rw [logRangeBound, required_eq_ok] at h; rw [BoundNames, hheads, h]
  | some selector =>
    cases selector with
    | latest =>
      rw [logRangeBound, required_eq_ok] at h; rw [BoundNames, hheads, h]
    | finalized => exact h
    | number asked =>
      cases h; rfl
    | hash hash => cases h

theorem answers_of_piece {reads : Reads} {frms : List LogFrame} {last : Nat}
    (hpiece : Piece blocks first frms) (hlen : frms.length = last - first + 1)
    (hle : first ≤ last) (hbounds : logBounds reads filter = .ok (first, last))
    (hnamed : ∀ hash ∈ filter.blockHash, ∀ frame ∈ frms, frame.block.hash = hash) :
    Answers reads filter first (frms.map fun frame => blocks frame.block.hash) where
  nonempty hnil := by
    rw [map_eq_nil_iff] at hnil; rw [hnil] at hlen; cases hlen
  numbers index block hblk := by
    rw [getElem?_map, map_eq_some_iff] at hblk
    obtain ⟨frame, hframe, rfl⟩ := hblk
    rw [(hpiece.truthful frame (mem_of_getElem? hframe)).block]
    exact hpiece.numbers index frame hframe
  linked := by
    rw [isChain_map]
    refine (hpiece.linked.imp_of_mem_imp fun prior next hprior hnext hchild => ?_)
    rw [(hpiece.truthful prior hprior).block, (hpiece.truthful next hnext).block]; exact hchild
  named hash hhash := by
    rw [logBounds, hhash] at hbounds
    simp only [eq_ok, Prod.mk.injEq] at hbounds
    obtain ⟨-, -, named, -, rfl, hsame⟩ := hbounds
    refine ⟨by rw [length_map, hlen, ← hsame, Nat.sub_self], ?_⟩
    intro block hblk
    obtain ⟨frame, hframe, rfl⟩ := mem_map.1 hblk
    rw [(hpiece.truthful frame hframe).block]; exact hnamed hash hhash frame hframe
  bounded hnone := by
    rw [logBounds, hnone] at hbounds
    simp only [eq_ok, Prod.mk.injEq] at hbounds
    obtain ⟨_, hlatest, first', hfirst, last', hlast, rfl, rfl⟩ := hbounds
    refine ⟨logRangeBound_names hlatest hfirst, ?_⟩
    rw [length_map, hlen, show first' + (last' - first' + 1) - 1 = last' by omega]
    exact logRangeBound_names hlatest hlast

def handoffLog (index : Nat) : Log :=
  ⟨.replicate 20 1, [], [], some (.replicate 32 9), 0, index⟩

def handoffBlock (hash : BlockHash) : LogBlock :=
  if hash = 4 then ⟨⟨4, 4, 3, 48⟩, [handoffLog 0]⟩ else ⟨⟨5, 5, 4, 60⟩, [handoffLog 0]⟩

def handoffFrame (block : LogBlock) (logs : Filtering.Material (List Log)) : LogFrame where
  block := block.block
  finality := .finalized
  header := .missing
  transactions := .missing
  receipts := .missing
  logs := logs
  withdrawals := .missing
  blobSidecars := .missing
  traces := .missing
  stateDiffs := .missing
  verification := ⟨.verified, .verified, .verified, .verified, .verified, .verified, none⟩
  chainId := 1
  withdrawalsRoot := none

theorem handoff_ordered : 5 ≤ 5 := by
  decide

theorem handoff_le : 5 ≤ u64Max := by
  decide

def handoffReads : Reads where
  recentCanonicalBounds := .ok (some ⟨5, 5, handoff_ordered, handoff_le⟩)
  canonicalBlockByHash _ := .ok none
  boundsHead := .ok (some 5)
  rangeHead := .ok (some 5)
  finalizedFrom := .ok 4
  finalizedTo := .ok 4
  recentFrame number := .ok (if number = 5 then
    some (handoffFrame (handoffBlock 5) (.complete [handoffLog 0])) else none)
  interrupted _ := none
  answers _ := [.ok [handoffFrame (handoffBlock 4)
    (.filtered [handoffLog 0] .wildcard .datasetDeclared)]]

def handoffConfig : LogsConfig := ⟨1, 100, 10, 1000000, some ⟨100, true⟩⟩

def handoffFilter : ParsedLogFilter := ⟨some (.number 4), none, none, [], [], by decide⟩

theorem handoffReads_truthful : handoffReads.Truthful handoffBlock := by
  have hlists : ListsLogs [handoffLog 0] .wildcard [handoffLog 0] :=
    ⟨fun _ => true, fun _ _ _ => rfl, .cons ⟨⟨rfl, rfl, rfl, rfl, rfl⟩, fun _ hhash => hhash⟩ .nil⟩
  constructor
  · intro num frame hfrm
    by_cases hnum : num = 5
    · subst hnum; cases hfrm; exact ⟨rfl, rfl, hlists⟩
    · simp [handoffReads, hnum] at hfrm
  · intro _ _ hfrs frame hfrm
    cases mem_singleton.1 hfrs; cases mem_singleton.1 hfrm; exact ⟨rfl, fun _ => hlists⟩

theorem exists_answer {ε : Type} {answer : Except ε (List RpcLog × Nat)} {count : Nat}
    (h : answer.toOption.map (·.1.length) = some count) :
    ∃ output, answer = .ok output ∧ output.1.length = count := by
  cases answer with
  | error error => cases h
  | ok output => exact ⟨output, rfl, some.inj h⟩

def handoffFrames : List LogFrame :=
  [handoffFrame (handoffBlock 4) (.filtered [handoffLog 0] .wildcard .datasetDeclared),
    handoffFrame (handoffBlock 5) (.complete [handoffLog 0])]

theorem handoffFrames_resolved (range : BlockRange) (hrng : BlockRange.new? 4 5 = some range) :
    resolveLogFrames handoffConfig handoffReads handoffFilter range
      (some ⟨5, 5, Nat.le_refl 5, handoff_le⟩) = .ok handoffFrames := by
  cases hrng; rfl

theorem handoff_answers : ∃ answer,
    ethGetLogs handoffConfig handoffReads handoffFilter 1000000 = .ok answer ∧ answer.length = 2 := by
  have hans : ∃ out, foldExcept (collectFrame handoffConfig handoffFilter 1000000 4)
      ([], 2) handoffFrames = .ok out ∧ out.1.length = 2 := exists_answer (by decide +kernel)
  obtain ⟨out, hout, hlen⟩ := hans
  refine ⟨out.1, ?_, hlen⟩
  simp only [ethGetLogs, eq_ok]
  exact ⟨_, rfl, (4, 5), rfl, ⟨4, 5, by decide, by decide⟩, rfl, ⟨⟩, by decide, handoffFrames,
    handoffFrames_resolved _ rfl, ⟨⟩, (by intro _ h; cases h), out, hout, rfl⟩

end Leani.Rpc
