import Leani.Library.Fallible
import Leani.Library.Table
import Mathlib.Algebra.Ring.Nat
import Mathlib.Order.Lattice
import Mathlib.Order.Basic

/-!
# Chain primitives

Block identities, finality levels and the numeric range of the store. A `u64` is a natural number
here; the places where the code saturates at `u64::MAX` or refuses a number beyond SQLite's signed
range are written out.
-/

namespace Leani

open Library

abbrev BlockHash := BitVec 256

instance heightKeyTransOrd : Std.TransOrd (Nat × Nat) := pairTransOrd

instance blockKeyTransOrd : Std.TransOrd (Nat × BlockHash) := pairTransOrd

def BlockHash.zero : BlockHash := 0

structure BlockRef where
  number : Nat
  hash : BlockHash
  parentHash : BlockHash
  timestamp : Nat
  deriving DecidableEq

inductive Finality where
  | unattested
  | attested
  | finalized
  deriving DecidableEq

namespace Finality

def toNat : Finality → Nat
  | unattested => 0
  | attested => 1
  | finalized => 2

theorem toNat_injective : Function.Injective toNat := by
  intro a b h
  cases a <;> cases b <;> first | rfl | cases h

instance : LinearOrder Finality := LinearOrder.lift' toNat toNat_injective

theorem le_finalized (a : Finality) : a ≤ finalized := by
  cases a <;> decide

theorem lt_finalized_iff {a : Finality} : a < finalized ↔ a ≠ finalized := by
  cases a <;> decide

end Finality

def u64Max : Nat := 2 ^ 64 - 1

def i64Max : Nat := 2 ^ 63 - 1

def satAdd (a b : Nat) : Nat := min (a + b) u64Max

theorem satAdd_le (a b : Nat) : satAdd a b ≤ a + b := Nat.min_le_left ..

theorem satAdd_eq {a b : Nat} (h : a + b ≤ u64Max) : satAdd a b = a + b := Nat.min_eq_left h

theorem satAdd_of_lt {a b : Nat} (h : satAdd a b < u64Max) : satAdd a b = a + b := by
  unfold satAdd at *; omega

def satMul (a b : Nat) : Nat := min (a * b) u64Max

def toBeBytes (n : Nat) : List UInt8 := (List.range 8).map fun i => UInt8.ofNat (n / 256 ^ (7 - i))

def fromBeBytes (bytes : List UInt8) : Nat := bytes.foldl (fun n b => 256 * n + b.toNat) 0

def isWhitespace (ch : Char) : Bool :=
  (9 ≤ ch.toNat && ch.toNat ≤ 13) || (0x2000 ≤ ch.toNat && ch.toNat ≤ 0x200A) ||
    [0x20, 0x85, 0xA0, 0x1680, 0x2028, 0x2029, 0x202F, 0x205F, 0x3000].contains ch.toNat

def isBlank (text : String) : Bool := text.toList.all isWhitespace

structure BlockRange where
  start : Nat
  last : Nat
  start_le_last : start ≤ last
  last_le : last ≤ u64Max

theorem BlockRange.ext_iff {a b : BlockRange} : a = b ↔ a.start = b.start ∧ a.last = b.last := by
  cases a; cases b; simp

instance : DecidableEq BlockRange := fun _ _ => decidable_of_iff' _ BlockRange.ext_iff

def BlockRange.new? (start last : Nat) : Option BlockRange :=
  if h : start ≤ last ∧ last ≤ u64Max then some ⟨start, last, h.1, h.2⟩ else none

def BlockRange.contains (range : BlockRange) (block : Nat) : Bool :=
  range.start ≤ block && block ≤ range.last

theorem BlockRange.contains_iff {range : BlockRange} {block : Nat} :
    range.contains block = true ↔ range.start ≤ block ∧ block ≤ range.last := by
  simp [contains]

/-- Material state of one kind of block data. `μ` is the data no operation here looks into. -/
inductive Material (α μ : Type) where
  | complete (value : α)
  | filtered (value : α) (scope : μ)
  | missing (reason : μ)
  deriving DecidableEq

namespace Material

variable {α μ : Type}

def asComplete : Material α μ → Option α
  | complete value => some value
  | filtered .. | missing _ => none

end Material

structure TransactionEnvelope (μ : Type) where
  hash : BlockHash
  index : Nat
  body : μ
  deriving DecidableEq

structure VerificationReport (μ : Type) where
  hasFailures : Bool
  consensusAnchor : Option BlockHash
  checks : μ
  deriving DecidableEq

structure BlockFrame (μ : Type) where
  chainId : Nat
  block : BlockRef
  finality : Finality
  transactions : Material (List (TransactionEnvelope μ)) μ
  receipts : Material (List μ) μ
  otherMaterial : μ
  provenance : μ
  verification : VerificationReport μ
  deriving DecidableEq

namespace BlockFrame

variable {μ : Type}

def validateShape (frame : BlockFrame μ) : Except String Unit := do
  ensure (frame.chainId ≠ 0) "chain ID must be greater than zero"
  match frame.transactions.asComplete, frame.receipts.asComplete with
  | some transactions, some receipts =>
    ensure (transactions.length = receipts.length) "complete transaction and receipt counts differ"
  | _, _ => pure ()
  ensure (frame.verification.hasFailures = false) "verification report contains a failed check"
  match frame.verification.consensusAnchor with
  | some anchor =>
    ensure (anchor = frame.block.hash) "consensus anchor refers to another execution block"
  | none => pure ()

end BlockFrame

inductive ConsumerState where
  | active
  | resetRequired
  | revoked
  deriving DecidableEq

inductive StoreError where
  | numeric (field : String)
  | invariant (message : String)
  | invalidConfig (message : String)
  | canonicalConflict (block : Nat) (stored incoming : BlockHash)
  | recentStorageLimit (limitBytes projectedBytes : Nat)
  | unlinkedFinalizedAncestry (block finalized : Nat) (finalizedRow : Bool)
  | changeCursorExpired (earliest latest : Nat)
  | queryTooExpensive (rows bytes maxRows maxBytes : Nat)
  | querySnapshotCapacity (maxSnapshots maxBytes : Nat)
  | consumerNotFound (consumerId : String)
  | consumerInactive (consumerId : String) (state : ConsumerState)
  | consumerExists (consumerId : String)
  | consumerSessionActive (consumerId : String) (expiresAt : Nat)
  | consumerSessionLost (consumerId : String) (generation : Nat)
  | consumerResetRequired (earliestAvailable latestAvailable : Option Nat)
  | acknowledgementBackwards (sequence acknowledged : Nat)
  | acknowledgementBeyondDelivered (sequence delivered : Nat)
  | acknowledgementNotBoundary (sequence : Nat)
  | acknowledgementMidBlock (sequence block : Nat)
  | acknowledgementBeyondHead (sequence head : Nat)
  | processor (reason : String)
  | conflictingApply (block : Nat)
  | undoNotFound (block : Nat)
  | finalizedUndo (block : Nat)
  | finalizedCoverageConflict (block : Nat) (finalized covered : BlockHash)
  | attestedCoverageConflict (block : Nat) (attested covered : BlockHash)
  | historicalBatchRequiresFallback
  | conflictingPendingDelta (block : Nat)
  | processorFailed (inst : String)
  | processorPaused (inst : String) (currentBytes resumeBelowBytes : Nat)
  | deliveryItemTooLarge (inst : String) (observedBytes maximumBytes observedWorkBlocks : Nat)
      (maximumWorkBlocks : Option Nat)
  | liveLaneRequiresRebuild (inst : String)
  | historicalWorkNotDeletable (jobId state : String)
  | recoveryCheckpointNotFound (inst : String) (checkpointId : Nat)
  | savepointContract
  | checkpointRestoreBoundary (checkpoint : Nat) (current : Option Nat)
  | handoffMismatch (id detail : String)
  | limit (scope : String)
  | sqlx (reason : String)
  deriving DecidableEq

def u64I64 (value : Nat) (field : String) : Except StoreError Nat :=
  if value ≤ i64Max then .ok value else .error (.numeric field)

variable {field : String}

@[simp] theorem u64I64_eq_ok {value n : Nat} :
    u64I64 value field = .ok n ↔ value ≤ i64Max ∧ n = value := by
  unfold u64I64
  split <;> simp_all [eq_comm]

theorem u64I64_eq_error {value : Nat} {e : StoreError} :
    u64I64 value field = .error e ↔ i64Max < value ∧ .numeric field = e := by
  unfold u64I64
  split
  · exact iff_of_false nofun fun h => absurd h.1 (Nat.not_lt.2 ‹_›)
  · rw [Except.error.injEq]; exact ⟨fun h => ⟨Nat.lt_of_not_le ‹_›, h⟩, fun h => h.2⟩

def commit {σ α : Type} (s : σ) (r : Except StoreError (σ × α)) : σ :=
  match r with
  | .ok (s', _) => s'
  | .error _ => s

def settle {σ α : Type} (s : σ) (r : Except StoreError (σ × α)) : σ × Except StoreError α :=
  match r with
  | .ok (s', a) => (s', .ok a)
  | .error e => (s, .error e)

@[simp] theorem settle_fst {σ α : Type} (s : σ) (r : Except StoreError (σ × α)) :
    (settle s r).1 = commit s r := by
  cases r <;> rfl

@[simp] theorem commit_ok {σ α : Type} (s s' : σ) (a : α) : commit s (.ok (s', a)) = s' := rfl

@[simp] theorem commit_error {σ α : Type} (s : σ) (e : StoreError) :
    commit s (.error e : Except StoreError (σ × α)) = s := rfl

theorem commit_keeps {σ α : Type} {P : σ → Prop} {s : σ} {r : Except StoreError (σ × α)} (hs : P s)
    (h : ∀ s' a, r = .ok (s', a) → P s') : P (commit s r) := by
  cases r with
  | error e => exact hs
  | ok out => exact h out.1 out.2 rfl

end Leani
