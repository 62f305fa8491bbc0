import Leani.P2p.HeaderProof

/-!
# What a failed header reply says of its peer

The header requests of the live, history and ancestor-hash paths, the answers a peer with a valid
chain of its own gives, and the class each path puts a failed reply in. A peer is reported for an
invalid reply and for no other.
-/

namespace Leani.P2p.PeerReplies

open Library Headers HeaderProof List Option

/-! ## Requests -/

inductive BlockHashOrNumber where
  | hash (hash : BlockHash)
  | number (number : Nat)
  deriving DecidableEq

inductive HeadersDirection where
  | rising
  | falling
  deriving DecidableEq

structure HeadersRequest where
  start : BlockHashOrNumber
  limit : Nat
  direction : HeadersDirection
  deriving DecidableEq

def verifiedTip (expectedTip : Option ExpectedTip) : Option BlockHash :=
  (expectedTip.filter fun tip => tip.trust = .verified).map (·.hash)

def liveHeaderRequest (range : BlockRange) (expectedTip : Option ExpectedTip) : HeadersRequest :=
  match verifiedTip expectedTip with
  | some hash => ⟨.hash hash, rangeLen range, .falling⟩
  | none => ⟨.number range.start, rangeLen range, .rising⟩

/-! ## Validation -/

section Validation

variable (hashing : Hashing)

/-- The windows of two that `validate_descending_headers` looks at. -/
def validateDescendingFrom : List Header → Except Headers.P2pError Unit
  | newer :: older :: headers => do
    ensure (newer.number = satAdd older.number 1 ∧ newer.parentHash = hashing.hashSlow older)
      (.invalidResponse s!"descending header continuity failed below block {newer.number}")
    validateDescendingFrom (older :: headers)
  | _ => .ok ()

def validateDescendingHeaders (headNumber : Nat) (headHash : BlockHash) (headers : List Header) :
    Except Headers.P2pError Unit := do
  let first ← required headers.head? (.incompleteResponse "reorg headers" 0 1)
  ensure (hashing.hashSlow first = headHash)
    (.invalidResponse "descending header response does not start at the requested head")
  ensure (first.number = headNumber)
    (.expectationMismatch s!"requested head is block {first.number}, expected {headNumber}")
  validateDescendingFrom hashing headers

def validateLiveHeaders (range : BlockRange) (expectedTip : Option ExpectedTip)
    (headers : List Header) : Except Headers.P2pError (List Header) :=
  match verifiedTip expectedTip with
  | none => do
    validateHeaders hashing range headers (expectedTip.map (·.hash))
    return headers
  | some tip => do
    ensure (headers.length ≤ rangeLen range)
      (.invalidResponse s!"{headers.length} headers for {rangeLen range} requested")
    ensure (headers ≠ []) (.incompleteResponse "headers" 0 (rangeLen range))
    validateDescendingHeaders hashing range.last tip headers
    ensure (rangeLen range ≤ headers.length)
      (.incompleteResponse "headers" headers.length (rangeLen range))
    return headers.reverse

def validateTargetHeader (target : BlockRef) (headers : List Header) :
    Except Headers.P2pError Header := do
  let header ← required headers.getLast? (.incompleteResponse "headers" 0 1)
  ensure (headers.dropLast = [] ∧ header.number = target.number ∧ hashing.hashSlow header =
      target.hash) (.invalidResponse "peer returned a mismatched verified anchor header")
  return header

def headerByHash (hash : BlockHash) (headers : List Header) : Except Headers.P2pError Header := do
  let header ← required headers.getLast? (.incompleteResponse "parent header" 0 1)
  ensure (hashing.hashSlow header = hash)
    (.invalidResponse "the parent header does not match its hash")
  return header

def advertisedHeader (hash : BlockHash) (headers : List Header) : Except Headers.P2pError Unit :=
  match headers.head? with
  | none => .ok ()
  | some header =>
    ensure (hashing.hashSlow header = hash)
      (.invalidResponse "peer did not serve its advertised execution head")

def provenSegment (range : BlockRange) (expected : BlockHash) (headers : List Header) :
    Except Headers.P2pError Unit :=
  ensure ((headers.map hashing.hashSlow).getLast? = some expected)
    (.expectationMismatch ("anchored header proof segment ending at block " ++
      s!"{range.last} is not the parent of the proven chain above it"))

end Validation

/-! ## Bodies and receipts -/

structure HeaderFields where
  transactionsRoot : BlockHash
  ommersHash : BlockHash
  withdrawalsRoot : Option BlockHash
  receiptsRoot : BlockHash
  logsBloom : BitVec 2048
  gasUsed : Nat
  blockAccessListHash : Option BlockHash

structure Commitments (β ρ : Type) where
  fields : Header → HeaderFields
  transactionsRoot : β → BlockHash
  ommersRoot : β → BlockHash
  withdrawalsRoot : β → Option BlockHash
  emptyWithdrawals : β → Bool
  leadsWithDeposit : β → Bool
  transactionTypes : β → List Nat
  receiptType : ρ → Nat
  receiptsRoot : List ρ → BlockHash
  regolithReceiptsRoot : List ρ → Option BlockHash
  logsBloom : List ρ → BitVec 2048
  cumulativeGasUsed : ρ → Nat

section Material

variable {β ρ : Type} (commitments : Commitments β ρ)

def opStackWithdrawals (header : Header) (body : β) : Bool :=
  (commitments.fields header).withdrawalsRoot.isSome && commitments.emptyWithdrawals body &&
    commitments.leadsWithDeposit body

def validateBody (header : Header) (body : β) : Except Headers.P2pError Unit := do
  ensure (commitments.transactionsRoot body = (commitments.fields header).transactionsRoot)
    (.invalidResponse s!"transaction root mismatch at block {header.number}")
  ensure (commitments.ommersRoot body = (commitments.fields header).ommersHash)
    (.invalidResponse s!"ommers root mismatch at block {header.number}")
  ensure (commitments.withdrawalsRoot body = (commitments.fields header).withdrawalsRoot ∨
      opStackWithdrawals commitments header body)
    (.invalidResponse s!"withdrawals root mismatch at block {header.number}")

def lastGas (header : Header) : Nat → List ρ → Except Headers.P2pError Nat
  | previous, [] => .ok previous
  | previous, receipt :: receipts => do
    ensure (previous ≤ commitments.cumulativeGasUsed receipt)
      (.invalidResponse s!"receipt cumulative gas regressed at block {header.number}")
    lastGas header (commitments.cumulativeGasUsed receipt) receipts

def validateBlockReceipts (header : Header) (receipts : List ρ) : Except Headers.P2pError Unit := do
  ensure (commitments.receiptsRoot receipts = (commitments.fields header).receiptsRoot ∨
      commitments.regolithReceiptsRoot receipts = some (commitments.fields header).receiptsRoot)
    (.invalidResponse s!"receipt root mismatch at block {header.number}")
  ensure (commitments.logsBloom receipts = (commitments.fields header).logsBloom)
    (.invalidResponse s!"logs bloom mismatch at block {header.number}")
  let gas ← lastGas commitments header 0 receipts
  ensure ((commitments.fields header).blockAccessListHash.isSome ∨
      gas = (commitments.fields header).gasUsed)
    (.invalidResponse (s!"final cumulative gas {gas} differs from header gas " ++
      s!"{(commitments.fields header).gasUsed} at block {header.number}"))

def validateBodyReceipts (header : Header) (body : β) (receipts : List ρ) :
    Except Headers.P2pError Unit := do
  ensure (receipts.length = (commitments.transactionTypes body).length)
    (.invalidResponse (s!"receipt count {receipts.length} differs from transaction count " ++
      s!"{(commitments.transactionTypes body).length} at block {header.number}"))
  ensure (commitments.transactionTypes body = receipts.map commitments.receiptType)
    (.invalidResponse s!"transaction/receipt type mismatch at block {header.number}")

def validateEach {α : Type} (component : String) (check : Header → α → Except Headers.P2pError Unit)
    (headers : List Header) (items : List α) : Except Headers.P2pError Unit := do
  ensure (items.length = headers.length) (.incompleteResponse component items.length headers.length)
  (headers.zip items).forM fun row => check row.1 row.2

def validateBodies (headers : List Header) (bodies : List β) : Except Headers.P2pError Unit :=
  validateEach "bodies" (validateBody commitments) headers bodies

def validateReceiptsAgainstHeaders (headers : List Header) (receipts : List (List ρ)) :
    Except Headers.P2pError Unit :=
  validateEach "receipts" (validateBlockReceipts commitments) headers receipts

def validateReceipts (headers : List Header) (bodies : List β) (receipts : List (List ρ)) :
    Except Headers.P2pError Unit := do
  validateReceiptsAgainstHeaders commitments headers receipts
  ensure (bodies.length = headers.length) (.incompleteResponse "bodies" bodies.length headers.length)
  ((headers.zip bodies).zip receipts).forM fun row =>
    validateBodyReceipts commitments row.1.1 row.1.2 row.2

def Judges {α : Type} (check : α → Except Headers.P2pError Unit) : Prop :=
  ∀ item error, check item = .error error → ∃ detail, error = .invalidResponse detail

end Material

/-! ## Classes of replies -/

inductive PeerRequest where
  | live (range : BlockRange) (expectedTip : Option ExpectedTip)
  | numbered (range : BlockRange) (expectedTip : Option ExpectedTip)
  /-- One range of `fetch_anchored_headers`, and the hash proven for its last block. -/
  | proof (range : BlockRange) (expected : BlockHash)
  | descending (number : Nat) (hash : BlockHash) (expectation : ExpectationTrust) (limit : Nat)
  | target (target : BlockRef)
  | header (hash : BlockHash)
  | advertised (hash : BlockHash)

def expectation (expectedTip : Option ExpectedTip) : ExpectationTrust :=
  expectedTip.elim .unverified (·.trust)

def faultOf {α : Type} (result : Except Headers.P2pError α) (trust : ExpectationTrust) :
    Option ResponseFault :=
  match result with
  | .ok _ => none
  | .error error => some (classifyResponseFailure error trust)

namespace PeerRequest

def sent : PeerRequest → HeadersRequest
  | .live range expectedTip => liveHeaderRequest range expectedTip
  | .numbered range _ => ⟨.number range.start, rangeLen range, .rising⟩
  | .proof range _ => ⟨.number range.start, rangeLen range, .rising⟩
  | .descending _ hash _ limit => ⟨.hash hash, limit, .falling⟩
  | .target goal => ⟨.hash goal.hash, 1, .rising⟩
  | .header hash => ⟨.hash hash, 1, .falling⟩
  | .advertised hash => ⟨.hash hash, 1, .rising⟩

def fault (hashing : Hashing) : PeerRequest → List Header → Option ResponseFault
  | .live range expectedTip, headers =>
    faultOf (validateLiveHeaders hashing range expectedTip headers) (expectation expectedTip)
  | .numbered range expectedTip, headers =>
    faultOf (validateHeaders hashing range headers (expectedTip.map (·.hash)))
      (expectation expectedTip)
  -- The range is fetched without a tip; the proof then says what it must end at.
  | .proof range expected, headers =>
    (faultOf (validateHeaders hashing range headers none) .unverified).or
      (faultOf (provenSegment hashing range expected headers) .verified)
  | .descending number hash trust _, headers =>
    faultOf (validateDescendingHeaders hashing number hash headers) trust
  | .target goal, headers => faultOf (validateTargetHeader hashing goal headers) .verified
  | .header hash, headers => faultOf (headerByHash hashing hash headers) .verified
  | .advertised hash, headers => faultOf (advertisedHeader hashing hash headers) .verified

end PeerRequest

/-! ## Honest peers -/

structure PeerChain (hashing : Hashing) where
  blocks : List Header
  number_eq : ∀ (i : Nat) (block : Header), blocks[i]? = some block → block.number = i
  linked : blocks.IsChain fun a b => b.parentHash = hashing.hashSlow a
  length_lt : blocks.length < u64Max

namespace PeerChain

variable {hashing : Hashing} (chain : PeerChain hashing)

def first : BlockHashOrNumber → Option Nat
  | .number number => if number < chain.blocks.length then some number else none
  | .hash hash => chain.blocks.findIdx? fun block => hashing.hashSlow block = hash

def answer (request : HeadersRequest) : List Header :=
  match chain.first request.start with
  | none => []
  | some i =>
    match request.direction with
    | .rising => (chain.blocks.drop i).take request.limit
    | .falling => (chain.blocks.take (i + 1)).reverse.take request.limit

def Serves (request : HeadersRequest) (reply : List Header) : Prop :=
  reply <+: chain.answer request

end PeerChain

namespace PeerRequest

variable {hashing : Hashing}

/-- What a request is checked against is so: a verified hash has the number that is given with it,
and the verified tip of a range fetched by number is final. -/
def Sound (chain : PeerChain hashing) : PeerRequest → Prop
  | .live range expectedTip => ∀ tip ∈ verifiedTip expectedTip, ∀ block ∈ chain.blocks,
    hashing.hashSlow block = tip → block.number = range.last
  | .numbered range expectedTip => ∀ tip ∈ verifiedTip expectedTip,
    ∀ block ∈ chain.blocks[range.last]?, hashing.hashSlow block = tip
  | .descending number hash .verified _ =>
    ∀ block ∈ chain.blocks, hashing.hashSlow block = hash → block.number = number
  | .target goal =>
    ∀ block ∈ chain.blocks, hashing.hashSlow block = goal.hash → block.number = goal.number
  | .descending _ _ .unverified _ | .proof .. | .header _ | .advertised _ => True

def OffProof (chain : PeerChain hashing) (reply : List Header) : PeerRequest → Prop
  | .proof range expected => reply.length = rangeLen range ∧
    ∃ block ∈ chain.blocks[range.last]?, hashing.hashSlow block ≠ expected
  | _ => False

end PeerRequest

/-! ## Broken replies -/

def Links (hashing : Hashing) : HeadersDirection → Header → Header → Prop
  | .rising, a, b => b.parentHash = hashing.hashSlow a
  | .falling, a, b => a.parentHash = hashing.hashSlow b

def Breaks (hashing : Hashing) (request : HeadersRequest) (reply : List Header) : Prop :=
  ¬ reply.IsChain (Links hashing request.direction) ∨
    ∃ hash, request.start = .hash hash ∧ ∃ first ∈ reply.head?, hashing.hashSlow first ≠ hash

def PeerRequest.Checks (hashing : Hashing) (reply : List Header) : PeerRequest → Prop
  | .live range expectedTip => verifiedTip expectedTip = none → reply.length = rangeLen range
  | .numbered range _ => reply.length = rangeLen range
  | .proof range _ => reply.length = rangeLen range
  | .descending number hash .unverified _ =>
    ∀ first ∈ reply.head?, hashing.hashSlow first = hash → first.number = number
  | .descending _ _ .verified _ | .target _ => True
  | .header hash => ∀ last ∈ reply.getLast?, hashing.hashSlow last ≠ hash
  | .advertised hash => ∀ first ∈ reply.head?, hashing.hashSlow first ≠ hash

/-! ## What an honest reply looks like -/

section Honest

variable {hashing : Hashing} {chain : PeerChain hashing} {reply : List Header}

theorem PeerChain.Serves.rising {num limit : Nat}
    (h : chain.Serves ⟨.number num, limit, .rising⟩ reply) : reply <+: chain.blocks.drop num := by
  simp only [PeerChain.Serves, PeerChain.answer, PeerChain.first] at h
  split at h
  · rw [prefix_nil.1 h]; exact nil_prefix
  · rename_i i hfst
    split at hfst
    · cases hfst; exact h.trans (List.take_prefix _ _)
    · cases hfst

theorem getElem?_of_isPrefix {num i : Nat} {block : Header}
    (h : reply <+: chain.blocks.drop num) (hi : reply[i]? = some block) :
    chain.blocks[num + i]? = some block := by
  obtain ⟨_, hrest⟩ := h
  obtain ⟨hlt, -⟩ := List.getElem?_eq_some_iff.1 hi
  rw [← List.getElem?_drop, ← hrest, List.getElem?_append_left hlt, hi]

theorem PeerChain.descends (chain : PeerChain hashing) : chain.blocks.IsChain fun a b =>
      b.number = satAdd a.number 1 ∧ b.parentHash = hashing.hashSlow a := by
  have hlink := isChain_iff_getElem.1 chain.linked
  refine isChain_iff_getElem.2 fun i hi => ⟨?_, hlink i hi⟩
  have hlt := chain.length_lt
  rw [chain.number_eq i _ (getElem?_eq_getElem (by omega)),
    chain.number_eq (i + 1) _ (getElem?_eq_getElem hi), satAdd_eq (by omega)]

variable {hash : BlockHash}

theorem PeerChain.Serves.falling {limit : Nat} (h : chain.Serves ⟨.hash hash, limit, .falling⟩ reply) :
    reply.length ≤ limit ∧ (∀ first ∈ reply.head?, first ∈ chain.blocks ∧
        hashing.hashSlow first = hash) ∧ reply.IsChain fun newer older =>
        newer.number = satAdd older.number 1 ∧ newer.parentHash = hashing.hashSlow older := by
  simp only [PeerChain.Serves, PeerChain.answer, PeerChain.first] at h
  split at h
  · rw [prefix_nil.1 h]; exact ⟨Nat.zero_le _, by simp, isChain_nil⟩
  · rename_i i hfst
    rw [findIdx?_eq_some_iff_getElem] at hfst
    obtain ⟨hi, hhash, -⟩ := hfst
    refine ⟨?_, fun first hhead => ?_, ?_⟩
    · exact h.length_le.trans (length_take_le _ _)
    · -- The first block of the answer is the one with the hash.
      obtain ⟨rest, hrest⟩ := h.trans (List.take_prefix _ _)
      rw [take_succ_eq_append_getElem hi, reverse_append, reverse_singleton, singleton_append] at hrest
      cases reply with
      | nil => cases hhead
      | cons block blocks =>
        cases hhead; rw [(cons.inj hrest).1]; exact ⟨getElem_mem hi, of_decide_eq_true hhash⟩
    · have hdown := isChain_reverse.2 (chain.descends.take (i + 1))
      obtain ⟨rest, hrest⟩ := h
      have htake := hdown.take limit; rw [← hrest] at htake; exact htake.left_of_append

theorem PeerChain.Serves.single {dir : HeadersDirection}
    (h : chain.Serves ⟨.hash hash, 1, dir⟩ reply) :
    reply = [] ∨ ∃ block ∈ chain.blocks, reply = [block] ∧ hashing.hashSlow block = hash := by
  simp only [PeerChain.Serves, PeerChain.answer, PeerChain.first] at h
  split at h
  · exact .inl (prefix_nil.1 h)
  · rename_i i hfst
    rw [findIdx?_eq_some_iff_getElem] at hfst
    obtain ⟨hi, hhash, -⟩ := hfst
    have hone : reply <+: [chain.blocks[i]] := by
      cases dir with
      | rising =>
        rw [drop_eq_getElem_cons hi] at h; exact h
      | falling =>
        rw [take_succ_eq_append_getElem hi, reverse_append, reverse_singleton, singleton_append] at h
        exact h
    cases reply with
    | nil => exact .inl rfl
    | cons block blocks =>
      rw [cons_prefix_cons, prefix_nil] at hone
      obtain ⟨rfl, rfl⟩ := hone; exact .inr ⟨_, getElem_mem hi, rfl, of_decide_eq_true hhash⟩

end Honest

/-! ## What validation says -/

section Faults

variable {hashing : Hashing} {α : Type}

variable {trust : ExpectationTrust}

theorem faultOf_eq_invalid {res : Except Headers.P2pError α} :
    faultOf res trust = some .invalid ↔ ∃ error, res = .error error ∧
      classifyResponseFailure error trust = .invalid := by
  cases res <;> simp [faultOf]

theorem validateHeaders_invalid {range : BlockRange} {hdrs : List Header}
    {expectedTip : Option BlockHash} : faultOf (validateHeaders hashing range hdrs expectedTip)
    trust = some .invalid ↔ hdrs.length = rangeLen range ∧
    (validateHeadersFrom hashing range.start 0 none hdrs ≠ .ok () ∨ trust = .verified ∧
    ∃ expected ∈ expectedTip, ∃ tip ∈ hdrs.getLast?, hashing.hashSlow tip ≠ expected) := by
  rw [faultOf_eq_invalid]
  unfold validateHeaders
  by_cases hlen : hdrs.length = rangeLen range
  · rw [ensure_of _ hlen, ok_bind]
    cases hfrom : validateHeadersFrom hashing range.start 0 none hdrs with
    | error error =>
      obtain ⟨_, rfl⟩ := validateHeadersFrom_eq_error hfrom
      rw [error_bind]; simp [hlen, classifyResponseFailure]
    | ok u =>
      rw [ok_bind]
      cases expectedTip with
      | none => simp [pure, Except.pure]
      | some expected =>
        cases hdrs.getLast? with
        | none => simp [pure, Except.pure]
        | some tip =>
          by_cases htip : hashing.hashSlow tip = expected
          · simp [ensure, htip]
          · cases trust <;> simp [ensure, htip, classifyResponseFailure, hlen]
  · simp [hlen, ensure, error_bind, classifyResponseFailure]

end Faults

/-! ## Honest replies -/

section Verdicts

variable {hashing : Hashing} {chain : PeerChain hashing} {reply : List Header}

theorem validateHeadersFrom_of_honest {start : Nat} (h : reply <+: chain.blocks.drop start) :
    validateHeadersFrom hashing start 0 none reply = .ok () := by
  rw [validateHeadersFrom_eq_ok]
  refine ⟨fun _ _ hi => ?_, ?_⟩
  · have hblock := getElem?_of_isPrefix h hi
    obtain ⟨_, -⟩ := List.getElem?_eq_some_iff.1 hblock
    have hsmall := chain.length_lt
    rw [chain.number_eq _ _ hblock, Nat.zero_add, satAdd_eq (by omega)]
  · obtain ⟨_, hrest⟩ := h
    have hlink := chain.linked.drop start; rw [← hrest] at hlink; exact hlink.left_of_append

variable {range : BlockRange}

theorem getLast?_of_full (h : reply <+: chain.blocks.drop range.start)
    (hlen : reply.length = rangeLen range) :
    ∃ block, chain.blocks[range.last]? = some block ∧ reply.getLast? = some block := by
  have hsmall := chain.length_lt
  have hle := h.length_le
  have hstart := range.start_le_last
  rw [length_drop] at hle
  rw [rangeLen, satAdd] at hlen
  have hlast : reply.length - 1 < reply.length := by omega
  refine ⟨reply[reply.length - 1], ?_, ?_⟩
  · have hblock := getElem?_of_isPrefix h (getElem?_eq_getElem hlast)
    rwa [show range.start + (reply.length - 1) = range.last by omega] at hblock
  · rw [getLast?_eq_getElem?, getElem?_eq_getElem hlast]

theorem validateDescendingFrom_eq_ok {hdrs : List Header} :
    validateDescendingFrom hashing hdrs = .ok () ↔ hdrs.IsChain fun newer older =>
      newer.number = satAdd older.number 1 ∧ newer.parentHash = hashing.hashSlow older := by
  induction hdrs with
  | nil => simp [validateDescendingFrom]
  | cons newer hdrs ih =>
    cases hdrs with
    | nil => simp [validateDescendingFrom]
    | cons older hdrs =>
      simp [validateDescendingFrom, bind_eq_ok, isChain_cons_cons, ih]

theorem validateDescendingFrom_eq_error {hdrs : List Header} {error : Headers.P2pError}
    (h : validateDescendingFrom hashing hdrs = .error error) :
    ∃ detail, error = .invalidResponse detail := by
  induction hdrs with
  | nil => cases h
  | cons newer hdrs ih =>
    cases hdrs with
    | nil => cases h
    | cons older hdrs =>
      simp only [validateDescendingFrom, bind_eq_error, ensure_eq_error] at h
      obtain ⟨-, rfl⟩ | ⟨_, -, h⟩ := h
      · exact ⟨_, rfl⟩
      · exact ih h

variable {hash : BlockHash} {trust : ExpectationTrust}

theorem validateDescendingHeaders_invalid {num : Nat} :
    faultOf (validateDescendingHeaders hashing num hash reply) trust =
    some .invalid ↔ ∃ first ∈ reply.head?, hashing.hashSlow first ≠ hash ∨ (first.number ≠ num ∧
    trust = .verified) ∨ (first.number = num ∧ ¬ reply.IsChain fun newer older =>
          newer.number = satAdd older.number 1 ∧ newer.parentHash = hashing.hashSlow older) := by
  rw [faultOf_eq_invalid, validateDescendingHeaders]
  cases reply with
  | nil => simp [required, error_bind, classifyResponseFailure]
  | cons first headers =>
    by_cases hhash : hashing.hashSlow first = hash
    · by_cases hnum : first.number = num
      · rw [← validateDescendingFrom_eq_ok]
        cases hfrom : validateDescendingFrom hashing (first :: headers) with
        | error error =>
          obtain ⟨_, rfl⟩ := validateDescendingFrom_eq_error hfrom
          simp [required, ensure, hhash, hnum, ok_bind, classifyResponseFailure]
        | ok u => simp [required, ensure, hhash, hnum, ok_bind]
      · cases trust <;>
          simp [required, ensure, hhash, hnum, ok_bind, error_bind, classifyResponseFailure]
    · simp [required, ensure, hhash, ok_bind, error_bind, classifyResponseFailure]

theorem descending_honest {num limit : Nat} (h : chain.Serves ⟨.hash hash, limit, .falling⟩ reply)
    (hsound : trust = .verified → ∀ block ∈ chain.blocks, hashing.hashSlow block = hash →
      block.number = num) :
    faultOf (validateDescendingHeaders hashing num hash reply) trust ≠ some .invalid := by
  obtain ⟨-, hhead, hchain⟩ := h.falling
  rw [ne_eq, validateDescendingHeaders_invalid]
  rintro ⟨first, hfirst, hbad⟩
  obtain ⟨hmem, hhash⟩ := hhead first hfirst
  obtain hother | ⟨hnum, htrust⟩ | ⟨-, hbroken⟩ := hbad
  · exact hother hhash
  · exact hnum (hsound htrust first hmem hhash)
  · exact hbroken hchain

variable {expectedTip : Option ExpectedTip}

theorem expectation_of_verifiedTip_none
    (h : verifiedTip expectedTip = none) : expectation expectedTip = .unverified := by
  cases expectedTip with
  | none => rfl
  | some tip =>
    cases htrust : tip.trust with
    | verified => simp [verifiedTip, htrust] at h
    | unverified => exact htrust

theorem expectation_of_verifiedTip_some (h : verifiedTip expectedTip = some hash) :
    expectation expectedTip = .verified ∧ expectedTip.map (·.hash) = some hash := by
  cases expectedTip with
  | none => cases h
  | some tip =>
    cases htrust : tip.trust with
    | verified => simpa [verifiedTip, expectation, htrust] using h
    | unverified => simp [verifiedTip, htrust] at h

theorem faultOf_bind_pure {α β : Type} {res : Except Headers.P2pError α} {f : α → β}
 : faultOf (res >>= fun a => pure (f a)) trust = faultOf res trust := by
  cases res <;> rfl

theorem live_verified_invalid {tip : BlockHash} (htip : verifiedTip expectedTip = some tip) :
    faultOf (validateLiveHeaders hashing range expectedTip reply) .verified = some .invalid ↔
      rangeLen range < reply.length ∨ reply.length ≤ rangeLen range ∧
        faultOf (validateDescendingHeaders hashing range.last tip reply) .verified = some .invalid := by
  rw [faultOf_eq_invalid, validateLiveHeaders, htip]
  by_cases hlen : reply.length ≤ rangeLen range
  · rw [or_iff_right (Nat.not_lt.2 hlen), and_iff_right hlen, faultOf_eq_invalid]
    dsimp only
    rw [ensure_of _ hlen, ok_bind]
    cases reply with
    | nil => simp [ensure, error_bind, classifyResponseFailure, validateDescendingHeaders, required]
    | cons first headers =>
      rw [ensure_of _ (cons_ne_nil _ _), ok_bind]
      cases validateDescendingHeaders hashing range.last tip (first :: headers) with
      | error error => simp [error_bind]
      | ok u =>
        rw [ok_bind]
        by_cases hfull : rangeLen range ≤ (first :: headers).length
        · rw [ensure_of _ hfull]; simp [ok_bind, pure, Except.pure]
        · rw [ensure, if_neg hfull, error_bind]; simp [classifyResponseFailure]
  · simp [ensure, hlen, error_bind, classifyResponseFailure, Nat.lt_of_not_le hlen]

theorem honest_invalid {req : PeerRequest} (hsound : req.Sound chain)
    (h : chain.Serves req.sent reply) :
    req.fault hashing reply = some .invalid ↔ req.OffProof chain reply := by
  cases req with
  | live range expectedTip =>
    refine iff_of_false ?_ id
    simp only [PeerRequest.sent, liveHeaderRequest] at h
    rw [PeerRequest.fault]
    cases htip : verifiedTip expectedTip with
    | none =>
      rw [htip] at h
      rw [expectation_of_verifiedTip_none htip, validateLiveHeaders, htip]
      rw [faultOf_bind_pure, validateHeaders_invalid, validateHeadersFrom_of_honest h.rising]; simp
    | some tip =>
      rw [htip] at h
      rw [(expectation_of_verifiedTip_some htip).1, live_verified_invalid htip]
      rintro (_ | ⟨-, hinvalid⟩)
      · have := h.falling.1; omega
      · exact descending_honest h (fun _ => hsound tip htip) hinvalid
  | numbered range expectedTip =>
    refine iff_of_false ?_ id
    rw [PeerRequest.fault, validateHeaders_invalid, validateHeadersFrom_of_honest h.rising]
    rintro ⟨hlen, hfrom | ⟨htrust, expected, hexp, tip, htip, hne⟩⟩
    · exact hfrom rfl
    · obtain ⟨block, hblock, hlast⟩ := getLast?_of_full h.rising hlen
      rw [hlast] at htip
      obtain rfl := some.inj htip
      refine hne (hsound expected ?_ block hblock)
      cases htip : verifiedTip expectedTip with
      | none => rw [expectation_of_verifiedTip_none htip] at htrust; cases htrust
      | some hash => rw [← (expectation_of_verifiedTip_some htip).2]; exact hexp
  | proof range expected =>
    rw [PeerRequest.fault, PeerRequest.OffProof]
    have hfrom := validateHeadersFrom_of_honest h.rising
    by_cases hlen : reply.length = rangeLen range
    · obtain ⟨block, hblock, hlast⟩ := getLast?_of_full h.rising hlen
      have hok : validateHeaders hashing range reply none = .ok () := by
        unfold validateHeaders; rw [ensure_of _ hlen, ok_bind, hfrom]; rfl
      rw [hok, hblock]
      by_cases hexp : hashing.hashSlow block = expected <;>
        simp [faultOf, provenSegment, getLast?_map, hlast, ensure, hexp, hlen,
          classifyResponseFailure]
    · simp [validateHeaders, ensure, hlen, error_bind, faultOf, classifyResponseFailure]
  | descending number hash trust limit =>
    refine iff_of_false ?_ id
    refine descending_honest h fun htrust => ?_
    subst htrust; exact hsound
  | target target =>
    refine iff_of_false ?_ id
    obtain rfl | ⟨block, hmem, rfl, hhash⟩ := h.single
    · simp [PeerRequest.fault, validateTargetHeader, required, error_bind, faultOf,
        classifyResponseFailure]
    · simp [PeerRequest.fault, validateTargetHeader, required, ensure, ok_bind, faultOf, hhash,
        hsound block hmem hhash, pure, Except.pure]
  | header hash =>
    refine iff_of_false ?_ id
    obtain rfl | ⟨block, hmem, rfl, hhash⟩ := h.single
    · simp [PeerRequest.fault, headerByHash, required, error_bind, faultOf, classifyResponseFailure]
    · simp [PeerRequest.fault, headerByHash, required, ensure, ok_bind, faultOf, hhash, pure,
        Except.pure]
  | advertised hash =>
    refine iff_of_false ?_ id
    obtain rfl | ⟨block, hmem, rfl, hhash⟩ := h.single
    · simp [PeerRequest.fault, advertisedHeader, faultOf]
    · simp [PeerRequest.fault, advertisedHeader, ensure, faultOf, hhash]

end Verdicts

/-! ## Broken replies are invalid where they are looked at -/

section Broken

variable {hashing : Hashing} {reply : List Header}

theorem Breaks.ne_nil {req : HeadersRequest} (h : Breaks hashing req reply) : reply ≠ [] := by
  rintro rfl; simp [Breaks] at h

variable {number limit : Nat}

theorem Breaks.numbered {start : Nat} (h : Breaks hashing ⟨.number number, limit, .rising⟩ reply) :
    validateHeadersFrom hashing start 0 none reply ≠ .ok () := by
  rw [ne_eq, validateHeadersFrom_eq_ok]
  rintro ⟨-, hchain⟩
  obtain hbroken | ⟨_, hstart, -⟩ := h
  · exact hbroken hchain
  · cases hstart

variable {trust : ExpectationTrust}

theorem Breaks.numbered_invalid {range : BlockRange} {expectedTip : Option BlockHash}
    (h : Breaks hashing ⟨.number number, limit, .rising⟩ reply) :
    faultOf (validateHeaders hashing range reply expectedTip) trust = some .invalid ↔
      reply.length = rangeLen range := by
  rw [validateHeaders_invalid]; exact ⟨And.left, fun hlen => ⟨hlen, .inl h.numbered⟩⟩

theorem Breaks.falling_invalid {hash : BlockHash}
    (h : Breaks hashing ⟨.hash hash, limit, .falling⟩ reply) :
    faultOf (validateDescendingHeaders hashing number hash reply) trust = some .invalid ↔ trust =
    .verified ∨ ∀ first ∈ reply.head?, hashing.hashSlow first = hash → first.number = number := by
  have hbroken : ∀ first ∈ reply.head?, hashing.hashSlow first = hash →
      ¬ reply.IsChain fun newer older =>
        newer.number = satAdd older.number 1 ∧ newer.parentHash = hashing.hashSlow older := by
    intro first hfst hhash hchain
    obtain hlinks | ⟨_, hstart, _, hfst', hne⟩ := h
    · exact hlinks (hchain.imp fun _ _ hab => hab.2)
    · obtain rfl := BlockHashOrNumber.hash.inj hstart
      rw [hfst] at hfst'; exact hne (some.inj hfst' ▸ hhash)
  rw [validateDescendingHeaders_invalid]
  cases reply with
  | nil => exact absurd rfl h.ne_nil
  | cons first headers =>
    have hbroken := hbroken first rfl
    simp only [head?_cons, mem_some_iff, exists_eq_left', forall_eq']
    by_cases hhash : hashing.hashSlow first = hash
    · have := hbroken hhash
      by_cases hnum : first.number = number <;> simp [hhash, hnum, this]
    · simp [hhash]

theorem broken_invalid {req : PeerRequest} (h : Breaks hashing req.sent reply) :
    req.fault hashing reply = some .invalid ↔ req.Checks hashing reply := by
  cases req with
  | live range expectedTip =>
    simp only [PeerRequest.sent, liveHeaderRequest] at h
    rw [PeerRequest.fault, PeerRequest.Checks]
    cases htip : verifiedTip expectedTip with
    | none =>
      rw [htip] at h
      rw [validateLiveHeaders, htip]; rw [faultOf_bind_pure, h.numbered_invalid]; simp
    | some tip =>
      rw [htip] at h
      rw [(expectation_of_verifiedTip_some htip).1, live_verified_invalid htip, h.falling_invalid]
      simp only [true_or, and_true, reduceCtorEq, false_imp_iff, iff_true]; exact Nat.lt_or_ge _ _
  | numbered range expectedTip => exact h.numbered_invalid
  | proof range expected =>
    have hfetched : faultOf (validateHeaders hashing range reply none) .unverified =
        some .invalid ↔ reply.length = rangeLen range := Breaks.numbered_invalid h
    rw [PeerRequest.fault, PeerRequest.Checks]
    by_cases hlen : reply.length = rangeLen range
    · rw [hfetched.2 hlen]; simp [hlen]
    · simp [validateHeaders, ensure, hlen, error_bind, faultOf, classifyResponseFailure]
  | descending number hash trust limit =>
    rw [PeerRequest.fault, Breaks.falling_invalid h]
    cases trust <;> simp [PeerRequest.Checks]
  | target target =>
    refine iff_of_true ?_ trivial
    rw [PeerRequest.fault, faultOf_eq_invalid, validateTargetHeader]
    cases hlast : reply.getLast? with
    | none => exact absurd (getLast?_eq_none_iff.1 hlast) h.ne_nil
    | some header =>
      rw [required, ok_bind]
      have hbad : ¬ (reply.dropLast = [] ∧ header.number = target.number ∧
          hashing.hashSlow header = target.hash) := by
        rintro ⟨hone, -, hhash⟩
        obtain ⟨_, rfl⟩ := getLast?_eq_some_iff.1 hlast
        rw [dropLast_concat] at hone
        subst hone
        obtain hlinks | ⟨hash, hstart, _, hfirst, hne⟩ := h
        · exact hlinks (isChain_singleton _)
        · obtain rfl := BlockHashOrNumber.hash.inj hstart; exact hne (some.inj hfirst ▸ hhash)
      rw [ensure, if_neg hbad]; exact ⟨_, rfl, rfl⟩
  | header hash =>
    rw [PeerRequest.fault, PeerRequest.Checks, faultOf_eq_invalid, headerByHash]
    cases hlast : reply.getLast? with
    | none => exact absurd (getLast?_eq_none_iff.1 hlast) h.ne_nil
    | some header =>
      by_cases hhash : hashing.hashSlow header = hash <;>
        simp [required, ensure, ok_bind, error_bind, hhash, classifyResponseFailure, pure, Except.pure]
  | advertised hash =>
    rw [PeerRequest.fault, PeerRequest.Checks, faultOf_eq_invalid, advertisedHeader]
    cases reply with
    | nil => exact absurd rfl h.ne_nil
    | cons header headers =>
      by_cases hhash : hashing.hashSlow header = hash <;>
        simp [ensure, hhash, classifyResponseFailure]

end Broken

/-! ## Bodies and receipts by hash -/

section MaterialFaults

variable {α β ρ : Type} {commitments : Commitments β ρ} {headers : List Header}

def Committed (check : Header → α → Except Headers.P2pError Unit) (headers : List Header)
    (items : List α) : Prop :=
  ∀ row ∈ headers.zip items, check row.1 row.2 = .ok ()

variable {check : Header → α → Except Headers.P2pError Unit} {items : List α}

theorem Committed.of_isPrefix {full : List α}
    (h : Committed check headers full) (hitems : items <+: full) : Committed check headers items := by
  obtain ⟨_, rfl⟩ := hitems
  intro _ hrow
  obtain ⟨i, hi⟩ := mem_iff_getElem?.1 hrow
  obtain ⟨hhdr, hitem⟩ := getElem?_zip_eq_some.1 hi
  refine h _ (List.mem_iff_getElem?.2 ⟨i, List.getElem?_zip_eq_some.2 ⟨hhdr, ?_⟩⟩)
  obtain ⟨hlt, -⟩ := List.getElem?_eq_some_iff.1 hitem; rw [List.getElem?_append_left hlt, hitem]

variable {trust : ExpectationTrust}

theorem forM_invalid {check : α → Except Headers.P2pError Unit} (hcheck : Judges check) :
    faultOf (items.forM check) trust = some .invalid ↔ ∃ item ∈ items, check item ≠ .ok () := by
  induction items with
  | nil => simp [faultOf, pure, Except.pure]
  | cons item items ih =>
    change faultOf (check item >>= fun _ => items.forM check) trust = some .invalid ↔ _
    cases hitem : check item with
    | error error =>
      obtain ⟨_, rfl⟩ := hcheck item error hitem
      rw [error_bind]; simp [faultOf, classifyResponseFailure, hitem]
    | ok u =>
      rw [ok_bind, ih]; simp [hitem]

theorem forM_eq_ok {check : α → Except Headers.P2pError Unit} :
    items.forM check = .ok () ↔ ∀ item ∈ items, check item = .ok () := by
  induction items with
  | nil => simp [pure, Except.pure]
  | cons item items ih =>
    change (check item >>= fun _ => items.forM check) = .ok () ↔ _
    rw [bind_eq_ok, forall_mem_cons, ← ih]
    exact ⟨fun ⟨_, hitem, hitems⟩ => ⟨hitem, hitems⟩, fun ⟨hitem, hitems⟩ => ⟨(), hitem, hitems⟩⟩

theorem faultOf_bind {res : Except Headers.P2pError Unit} {f : Unit → Except Headers.P2pError α} :
    faultOf (res >>= f) trust = some .invalid ↔ faultOf res trust = some .invalid ∨
      res = .ok () ∧ faultOf (f ()) trust = some .invalid := by
  cases res with
  | error error => simp [error_bind, faultOf]
  | ok u => simp [ok_bind, faultOf]

variable {component : String}

theorem validateEach_eq_ok : validateEach component check headers items = .ok () ↔
      items.length = headers.length ∧ Committed check headers items := by
  rw [validateEach, bind_eq_ok, Committed, ← forM_eq_ok]; simp

theorem validateEach_invalid (hcheck : Judges fun row : Header × α => check row.1 row.2) :
    faultOf (validateEach component check headers items) trust = some .invalid ↔
      items.length = headers.length ∧ ¬ Committed check headers items := by
  rw [validateEach]
  by_cases hlen : items.length = headers.length
  · rw [ensure_of _ hlen, ok_bind, forM_invalid hcheck]; simp [hlen, Committed]
  · rw [ensure, if_neg hlen, error_bind]; simp [faultOf, classifyResponseFailure, hlen]

theorem judges_validateBody : Judges fun row : Header × β => validateBody commitments row.1 row.2 := by
  intro row _ h
  simp only [validateBody, bind_eq_error, ensure_eq_error] at h
  obtain ⟨-, rfl⟩ | ⟨_, -, ⟨-, rfl⟩ | ⟨_, -, -, rfl⟩⟩ := h <;> exact ⟨_, rfl⟩

theorem lastGas_eq_error {hdr : Header} {rcpts : List ρ} {error : Headers.P2pError} :
    ∀ {prev : Nat}, lastGas commitments hdr prev rcpts = .error error →
      ∃ detail, error = .invalidResponse detail := by
  induction rcpts with
  | nil => exact nofun
  | cons receipt rcpts ih =>
    intro prev h
    rw [lastGas, bind_eq_error] at h
    obtain h | ⟨_, -, h⟩ := h
    · exact ⟨_, (ensure_eq_error.1 h).2.symm⟩
    · exact ih h

theorem judges_validateBlockReceipts :
    Judges fun row : Header × List ρ => validateBlockReceipts commitments row.1 row.2 := by
  intro row _ h
  simp only [validateBlockReceipts, bind_eq_error, ensure_eq_error] at h
  obtain ⟨-, rfl⟩ | ⟨_, -, ⟨-, rfl⟩ | ⟨_, -, h | ⟨_, -, -, rfl⟩⟩⟩ := h
  · exact ⟨_, rfl⟩
  · exact ⟨_, rfl⟩
  · exact lastGas_eq_error h
  · exact ⟨_, rfl⟩

theorem judges_validateBodyReceipts : Judges fun row : (Header × β) × List ρ =>
    validateBodyReceipts commitments row.1.1 row.1.2 row.2 := by
  intro row _ h
  simp only [validateBodyReceipts, bind_eq_error, ensure_eq_error] at h
  obtain ⟨-, rfl⟩ | ⟨_, -, -, rfl⟩ := h <;> exact ⟨_, rfl⟩

def CommittedReceipts (commitments : Commitments β ρ) (headers : List Header) (bodies : List β)
    (receipts : List (List ρ)) : Prop :=
  Committed (validateBlockReceipts commitments) headers receipts ∧
    ∀ row ∈ (headers.zip bodies).zip receipts,
      validateBodyReceipts commitments row.1.1 row.1.2 row.2 = .ok ()

theorem validateReceipts_invalid {bodies : List β} {rcpts : List (List ρ)} (hbodies : bodies.length =
 headers.length) : faultOf (validateReceipts commitments headers bodies rcpts) trust = some .invalid ↔
 rcpts.length = headers.length ∧ ¬ CommittedReceipts commitments headers bodies rcpts := by
  have hexists : (∃ row ∈ (headers.zip bodies).zip rcpts,
      validateBodyReceipts commitments row.1.1 row.1.2 row.2 ≠ .ok ()) ↔
        ¬ ∀ row ∈ (headers.zip bodies).zip rcpts,
          validateBodyReceipts commitments row.1.1 row.1.2 row.2 = .ok () := by
    simp
  rw [validateReceipts, faultOf_bind, validateReceiptsAgainstHeaders,
    validateEach_invalid judges_validateBlockReceipts, validateEach_eq_ok, ensure_of _ hbodies,
    ok_bind, forM_invalid judges_validateBodyReceipts, hexists, CommittedReceipts]
  tauto

end MaterialFaults

/-! ## The verdicts -/

def twoBlocks : PeerChain sampleHashing where
  blocks := [⟨0, 0, []⟩, ⟨1, 1, []⟩]
  number_eq := by
    rintro (_ | _ | i) block hblock
    · rw [← Option.some.inj hblock]
    · rw [← Option.some.inj hblock]
    · cases hblock
  linked := by simp [sampleHashing]
  length_lt := by decide

def noMaterial : Commitments Unit Unit where
  fields := fun _ => ⟨0, 0, none, 0, 0, 0, none⟩
  transactionsRoot := fun _ => 0
  ommersRoot := fun _ => 0
  withdrawalsRoot := fun _ => none
  emptyWithdrawals := fun _ => false
  leadsWithDeposit := fun _ => false
  transactionTypes := fun _ => []
  receiptType := fun _ => 0
  receiptsRoot := fun _ => 0
  regolithReceiptsRoot := fun _ => none
  logsBloom := fun _ => 0
  cumulativeGasUsed := fun _ => 0

end Leani.P2p.PeerReplies
