import Leani.Primitives

/-!
# Headers peers serve

What a peer answers to a header request is checked against its own numbers and parent links and
against the block the request expected; a failed check is classified by whether it proves the peer
invalid.
-/

namespace Leani.P2p.Headers

open Library

inductive P2pError where
  | invalidConfig (detail : String)
  | rangeTooLarge (requested maximum : Nat)
  | reorgTooDeep (maximum : Nat)
  | network (detail : String)
  | cancelled
  | peerTimeout (minimum connected : Nat)
  | timeout (component : String)
  | request (component detail : String)
  | invalidResponse (detail : String)
  | expectationMismatch (detail : String)
  | incompleteResponse (component : String) (returned expected : Nat)
  | source (detail : String)
  deriving DecidableEq

def P2pError.toString : P2pError → String
  | invalidConfig detail => s!"invalid P2P configuration: {detail}"
  | rangeTooLarge requested maximum =>
    s!"fixed P2P range contains {requested} blocks; maximum is {maximum}"
  | reorgTooDeep maximum => s!"P2P reorg exceeds the retained depth of {maximum} blocks"
  | network detail => s!"failed to start Reth networking: {detail}"
  | cancelled => "P2P source was cancelled"
  | peerTimeout minimum connected =>
    s!"only {connected} peers connected before timeout; required {minimum}"
  | timeout component => s!"timed out requesting {component}"
  | request component detail => s!"P2P {component} request failed: {detail}"
  | invalidResponse detail => s!"invalid peer response: {detail}"
  | expectationMismatch detail => s!"peer response contradicts the expected chain: {detail}"
  | incompleteResponse component returned expected =>
    s!"incomplete peer {component} response: returned {returned}, expected {expected}"
  | source detail => detail

structure PeerId where
  bytes : Vector UInt8 64
  deriving DecidableEq

structure Header where
  number : Nat
  parentHash : BlockHash
  rest : List UInt8
  deriving DecidableEq

/-- What the Ethereum library computes: `hash_slow` of a header, and the text of a hash. -/
structure Hashing where
  hashSlow : Header → BlockHash
  display : BlockHash → String

def rangeLen (range : BlockRange) : Nat := satAdd (range.last - range.start) 1

inductive ExpectationTrust where
  | verified
  | unverified
  deriving DecidableEq

structure ExpectedTip where
  hash : BlockHash
  trust : ExpectationTrust
  deriving DecidableEq

inductive ResponseFault where
  | invalid
  | disagreement
  deriving DecidableEq

def classifyResponseFailure (error : P2pError) (expectation : ExpectationTrust) : ResponseFault :=
  match error with
  | .invalidResponse _ => .invalid
  | .expectationMismatch _ =>
    match expectation with
    | .verified => .invalid
    | .unverified => .disagreement
  | _ => .disagreement

/-- The loop of `validate_headers`, from the header at `offset` on. -/
def validateHeadersFrom (hashing : Hashing) (start : Nat) :
    Nat → Option Header → List Header → Except P2pError Unit
  | _, _, [] => .ok ()
  | offset, previous, header :: headers => do
    let number := satAdd start offset
    ensure (header.number = number)
      (.invalidResponse s!"header at offset {offset} has block {header.number}, expected {number}")
    ensure (previous.all fun previous => header.parentHash = hashing.hashSlow previous)
      (.invalidResponse s!"header parent continuity failed at block {number}")
    validateHeadersFrom hashing start (offset + 1) (some header) headers

def validateHeaders (hashing : Hashing) (range : BlockRange) (headers : List Header)
    (expectedTip : Option BlockHash) : Except P2pError Unit := do
  ensure (headers.length = rangeLen range)
    (.incompleteResponse "headers" headers.length (rangeLen range))
  validateHeadersFrom hashing range.start 0 none headers
  match expectedTip, headers.getLast? with
  | some expected, some tip =>
    ensure (hashing.hashSlow tip = expected)
      (.expectationMismatch
        ("tip hash " ++ hashing.display (hashing.hashSlow tip) ++ ", expected " ++
          hashing.display expected))
  | _, _ => pure ()

variable {hashing : Hashing}

theorem rangeLen_le (range : BlockRange) : rangeLen range ≤ range.last - range.start + 1 :=
  satAdd_le ..

variable {previous : Option Header} {headers : List Header}

theorem validateHeadersFrom_eq_ok {start off : Nat} :
    validateHeadersFrom hashing start off previous headers = .ok () ↔
      (∀ i header, headers[i]? = some header → header.number = satAdd start (off + i)) ∧
        (previous.toList ++ headers).IsChain fun a b => b.parentHash = hashing.hashSlow a := by
  induction headers generalizing off previous with
  | nil => cases previous <;> simp [validateHeadersFrom]
  | cons header headers ih =>
    simp only [validateHeadersFrom, eq_ok, exists_const, ih]
    have hnums : (∀ i a, (header :: headers)[i]? = some a →
        a.number = satAdd start (off + i)) ↔ header.number = satAdd start off ∧
        ∀ i a, headers[i]? = some a → a.number = satAdd start (off + 1 + i) := by
      constructor
      · intro h
        refine ⟨h 0 header rfl, fun i a ha => ?_⟩
        rw [h (i + 1) a ha]
        congr 1
        omega
      · rintro ⟨hfst, hrest⟩ i a ha
        cases i with
        | zero =>
          cases ha; exact hfst
        | succ i =>
          rw [hrest i a ha]
          congr 1
          omega
    rw [hnums]
    cases previous with
    | none => simp [and_assoc]
    | some previous =>
      simp only [Option.all_some, decide_eq_true_eq, Option.toList_some, List.singleton_append,
        List.isChain_cons_cons]
      tauto

theorem validateHeadersFrom_eq_error {start off : Nat} {error : P2pError}
    (h : validateHeadersFrom hashing start off previous headers = .error error) :
    ∃ detail, error = .invalidResponse detail := by
  induction headers generalizing off previous with
  | nil => cases h
  | cons header headers ih =>
    simp only [validateHeadersFrom, bind_eq_error, ensure_eq_error, ensure_eq_ok] at h
    rcases h with ⟨-, rfl⟩ | ⟨_, -, ⟨-, rfl⟩ | ⟨_, -, h⟩⟩
    · exact ⟨_, rfl⟩
    · exact ⟨_, rfl⟩
    · exact ih h

end Leani.P2p.Headers
