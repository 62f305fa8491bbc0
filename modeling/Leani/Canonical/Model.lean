import Leani.Library.Chain
import Leani.Primitives

/-!
# Canonical blocks and retained recent frames

The three tables the live lane keeps per chain: `canonical_blocks` (one row per height),
`recent_blocks` (the encoded frames, fork candidates included) and `recent_transaction_locator`,
with the operations that write them. Each operation is one transaction: it returns the new tables,
or an error and then `commit` leaves the old ones.

The encoded form of a frame is compared byte for byte and measured. The encoding is injective, so
the table keeps the frame itself and the comparison is equality of frames; the length is the
parameter `encodedLen`.
-/

namespace Leani.Canonical

open Library Table

def sameRecentMaterial {μ : Type} [DecidableEq μ] (stored incoming : BlockFrame μ) : Bool :=
  stored.chainId = incoming.chainId ∧ stored.block = incoming.block ∧
    stored.transactions = incoming.transactions ∧ stored.receipts = incoming.receipts ∧
    stored.otherMaterial = incoming.otherMaterial

structure CanonicalRow where
  hash : BlockHash
  parentHash : BlockHash
  timestamp : Nat
  finality : Finality
  deriving DecidableEq

structure RecentRow (μ : Type) where
  frame : BlockFrame μ
  bytes : Nat
  deriving DecidableEq

structure TransactionLocator where
  blockNumber : Nat
  blockHash : BlockHash
  transactionIndex : Nat
  deriving DecidableEq

instance recentKeyTransOrd : Std.TransOrd (Nat × Nat × BlockHash) := pairTransOrd

/-- The tables, each under its primary key: `(chain_id, block_number)`,
`(chain_id, (block_number, block_hash))` and `(chain_id, transaction_hash)`. -/
structure RecentStore (μ : Type) where
  canonical : Table (Nat × Nat) CanonicalRow
  recent : Table (Nat × Nat × BlockHash) (RecentRow μ)
  locators : Table (Nat × BlockHash) TransactionLocator

def RecentStore.empty {μ : Type} : RecentStore μ := ⟨∅, ∅, ∅⟩

variable {μ : Type}

def RecentStore.row (s : RecentStore μ) (chainId number : Nat) : Option CanonicalRow :=
  s.canonical[(chainId, number)]?

/-- Parent hashes lead from the canonical row at `m` through consecutive heights to the row at
`n`. -/
abbrev RecentStore.PathDown (s : RecentStore μ) (chainId m n : Nat) : Prop :=
  Chain.PathDown (s.row chainId) CanonicalRow.hash CanonicalRow.parentHash m n

/-- The canonical row at `n + 1` names the one at `n` as its parent. -/
abbrev RecentStore.Link (s : RecentStore μ) (chainId n : Nat) : Prop :=
  Chain.Link (s.row chainId) CanonicalRow.hash CanonicalRow.parentHash n

section Rows

@[simp] theorem row_mk (canonical : Table (Nat × Nat) CanonicalRow)
    (recent : Table (Nat × Nat × BlockHash) (RecentRow μ))
    (locators : Table (Nat × BlockHash) TransactionLocator) (cid num : Nat) :
    (RecentStore.mk canonical recent locators).row cid num = canonical[(cid, num)]? := rfl

theorem sorted_heights {t : Table (Nat × Nat) CanonicalRow} {p : Nat × Nat → CanonicalRow → Bool}
    {chain : Nat} (hp : ∀ key row, p key row = true → key.1 = chain) :
    (t.rowsWhere p).Pairwise fun a b => a.1.2 < b.1.2 := by
  refine (sorted_rowsWhere t p).imp_of_mem fun {a b} ha hb hlt => ?_
  have e := (hp _ _ (mem_rowsWhere.1 ha).2).trans (hp _ _ (mem_rowsWhere.1 hb).2).symm
  rw [compare_pair, e, Std.ReflOrd.compare_self] at hlt; exact Nat.compare_eq_lt.1 hlt

end Rows

def deleteRecentTransactionLocators (s : RecentStore μ) (chainId : Nat) (block : BlockRef) :
    Except StoreError (RecentStore μ) := do
  let chain ← u64I64 chainId "chain_id"
  let number ← u64I64 block.number "block_number"
  return { s with
    locators := s.locators.deleteWhere fun key locator =>
      key.1 = chain ∧ locator.blockNumber = number ∧ locator.blockHash = block.hash }

def upsertLocator (frame : BlockFrame μ) (s : RecentStore μ)
    (entry : TransactionEnvelope μ × Nat) : Except StoreError (RecentStore μ) := do
  let (envelope, position) := entry
  ensure (position < 2 ^ 32) (.invariant "transaction count exceeds u32")
  let index := envelope.index
  ensure (index = position)
    (.invariant s!"transaction {envelope.hash} has index {index}, expected {position}")
  let chain ← u64I64 frame.chainId "chain_id"
  let number ← u64I64 frame.block.number "block_number"
  return { s with
    locators := s.locators.insert (chain, envelope.hash) ⟨number, frame.block.hash, position⟩ }

def upsertRecentTransactionLocators (s : RecentStore μ) (frame : BlockFrame μ) :
    Except StoreError (RecentStore μ) :=
  match frame.transactions.asComplete with
  | none => .ok s
  | some transactions => do
    let s ← deleteRecentTransactionLocators s frame.chainId frame.block
    foldExcept (upsertLocator frame) s transactions.zipIdx

variable {s s' : RecentStore μ}

theorem deleteRecentTransactionLocators_ok {cid : Nat} {block : BlockRef}
    (h : deleteRecentTransactionLocators s cid block = .ok s') :
    s'.canonical = s.canonical ∧ s'.recent = s.recent := by
  simp only [deleteRecentTransactionLocators, bind_eq_ok, u64I64_eq_ok] at h
  obtain ⟨_, -, _, -, h⟩ := h
  rw [pure_eq_ok] at h
  subst h; exact ⟨rfl, rfl⟩

variable {frame : BlockFrame μ}

theorem upsertLocator_ok {entry : TransactionEnvelope μ × Nat} (h : upsertLocator frame s entry =
    .ok s') : s'.canonical = s.canonical ∧ s'.recent = s.recent := by
  simp only [upsertLocator, bind_eq_ok, u64I64_eq_ok, ensure_eq_ok] at h
  obtain ⟨_, -, _, -, _, -, _, -, h⟩ := h
  rw [pure_eq_ok] at h
  subst h; exact ⟨rfl, rfl⟩

theorem upsertRecentTransactionLocators_ok (h : upsertRecentTransactionLocators s frame = .ok s') :
    s'.canonical = s.canonical ∧ s'.recent = s.recent := by
  unfold upsertRecentTransactionLocators at h
  split at h
  · rw [Except.ok.injEq] at h
    subst h; exact ⟨rfl, rfl⟩
  · rw [bind_eq_ok] at h
    obtain ⟨_, ht, h⟩ := h
    obtain ⟨hc, hr⟩ := deleteRecentTransactionLocators_ok ht
    refine foldExcept_invariant (fun u => u.canonical = s.canonical ∧ u.recent = s.recent)
      (fun {u _ _} _ hu hstep => ?_) ⟨hc, hr⟩ h
    obtain ⟨hc', hr'⟩ := upsertLocator_ok hstep; exact ⟨hc'.trans hu.1, hr'.trans hu.2⟩

section Store

variable [DecidableEq μ] (encodedLen : BlockFrame μ → Nat)

def retainFrame (s : RecentStore μ) (chainId : Nat)
    (frame : BlockFrame μ) (conflict : Nat → String) : Except StoreError (RecentStore μ) := do
  let chain ← u64I64 chainId "chain_id"
  let number ← u64I64 frame.block.number "block_number"
  let bytes ← u64I64 (encodedLen frame) "recent frame bytes"
  let key := (chain, number, frame.block.hash)
  match s.recent[key]? with
  | none => return { s with recent := s.recent.insert key ⟨frame, bytes⟩ }
  | some stored => do
    ensure (stored.frame = frame ∨ sameRecentMaterial stored.frame frame) (.invariant (conflict number))
    return s

/-- Refuse a new frame that would take the chain's retained frames above `hardBytes`. -/
def admitRecentFrame (s : RecentStore μ) (frame : BlockFrame μ) (encodedBytes hardBytes : Nat) :
    Except StoreError Unit := do
  let chain ← u64I64 frame.chainId "chain_id"
  let number ← u64I64 frame.block.number "block_number"
  match s.recent[(chain, number, frame.block.hash)]? with
  | some _ => pure ()
  | none => do
    let retained := ((s.recent.rowsWhere fun key _ => key.1 = chain).map fun r => r.2.bytes).sum
    let projectedBytes := satAdd retained encodedBytes
    ensure (projectedBytes ≤ hardBytes) (.recentStorageLimit hardBytes projectedBytes)

/-- Insert or merge the canonical row of a frame. A row seeded from a finality anchor has a zero
parent hash; the retained frame supplies the parent and the timestamp. -/
def mergeCanonicalRow (existing : Option CanonicalRow) (incoming : CanonicalRow) : CanonicalRow :=
  match existing with
  | none => incoming
  | some row =>
    { row with
      finality := max row.finality incoming.finality
      parentHash := if row.parentHash = BlockHash.zero then incoming.parentHash else row.parentHash
      timestamp := if row.parentHash = BlockHash.zero then incoming.timestamp else row.timestamp }

def checkCanonicalHash (existing : Option CanonicalRow) (block : BlockRef) : Except StoreError Unit :=
  match existing with
  | some row => ensure (row.hash = block.hash) (.canonicalConflict block.number row.hash block.hash)
  | none => .ok ()

/-- The limit of `storeRecentFrameWithin`, where `u64::MAX` is none. -/
def checkHardBytes (s : RecentStore μ) (frame : BlockFrame μ) (hardBytes : Nat) :
    Except StoreError Unit :=
  if hardBytes = u64Max then .ok ()
  else admitRecentFrame s frame (encodedLen frame) hardBytes

def storeRecentFrameWithin (s : RecentStore μ) (frame : BlockFrame μ) (hardBytes : Nat) :
    Except StoreError (RecentStore μ × Unit) := do
  frame.validateShape.mapError .invariant
  let chain ← u64I64 frame.chainId "chain_id"
  let number ← u64I64 frame.block.number "block_number"
  let existing := s.canonical[(chain, number)]?
  checkCanonicalHash existing frame.block
  checkHardBytes encodedLen s frame hardBytes
  let timestamp ← u64I64 frame.block.timestamp "block timestamp"
  let s := { s with
    canonical := s.canonical.insert (chain, number) (mergeCanonicalRow existing
      ⟨frame.block.hash, frame.block.parentHash, timestamp, frame.finality⟩) }
  let s ← retainFrame encodedLen s frame.chainId frame fun n =>
    s!"recent frame {n} conflicts with retained material for the same block hash"
  let s ← upsertRecentTransactionLocators s frame
  return (s, ())

def storeRecentFrame (s : RecentStore μ) (frame : BlockFrame μ) :
    Except StoreError (RecentStore μ × Unit) :=
  storeRecentFrameWithin encodedLen s frame u64Max

end Store

def storeCanonicalAnchor (s : RecentStore μ) (chainId : Nat) (block : BlockRef)
    (finality : Finality) : Except StoreError (RecentStore μ × Unit) := do
  let chain ← u64I64 chainId "chain_id"
  let number ← u64I64 block.number "block_number"
  let timestamp ← u64I64 block.timestamp "block timestamp"
  let stored := match s.canonical[(chain, number)]? with
    | none => ⟨block.hash, block.parentHash, timestamp, finality⟩
    | some row => { row with finality := max row.finality finality }
  ensure (stored.hash = block.hash) (.canonicalConflict block.number stored.hash block.hash)
  return ({ s with canonical := s.canonical.insert (chain, number) stored }, ())

def canonicalBlock (s : RecentStore μ) (chainId number : Nat) :
    Except StoreError (Option CanonicalRow) := do
  let chain ← u64I64 chainId "chain_id"
  let number ← u64I64 number "block_number"
  return s.canonical[(chain, number)]?

/-- Mark the canonical blocks of a chain through `through` attested; returns the rows promoted. -/
def markRecentAttested (s : RecentStore μ) (chainId through : Nat) (expectedHash : BlockHash) :
    Except StoreError (RecentStore μ × Nat) := do
  let chain ← u64I64 chainId "chain_id"
  let height ← u64I64 through "block_number"
  match s.canonical[(chain, height)]? with
  | none => return (s, 0)
  | some stored => do
    ensure (stored.hash = expectedHash) (.canonicalConflict through stored.hash expectedHash)
    let promoted (key : Nat × Nat) (row : CanonicalRow) : Bool :=
      key.1 = chain ∧ key.2 ≤ height ∧ row.finality = .unattested
    return ({ s with
      canonical := s.canonical.updateWhere promoted fun row => { row with finality := .attested } },
      (s.canonical.rowsWhere promoted).length)

def walkParents (through : Nat) :
    Option (Nat × BlockHash) → Nat → List ((Nat × Nat) × CanonicalRow) → Except StoreError Nat
  | _, lowestProven, [] => .ok lowestProven
  | expected, lowestProven, ((_, number), row) :: rows =>
    match expected.filter fun e => e.1 = number with
    -- A hole: nothing below it is proven.
    | none => .ok lowestProven
    | some (height, ancestor) =>
      if row.hash ≠ ancestor then
        -- A zero parent is a seeded anchor's unknown parent.
        if ancestor = BlockHash.zero then .ok lowestProven
        else .error (.unlinkedFinalizedAncestry number through (row.finality = .finalized))
      else
        let below := if height = 0 then none else some (height - 1, row.parentHash)
        walkParents through below height rows

/-- The lowest height that parent hashes reach from `height`, no lower than the lowest unfinalized
row. -/
def lowestProven (s : RecentStore μ) (chain height : Nat) (expectedHash : BlockHash) :
    Except StoreError Nat :=
  let unfinalized := s.canonical.rowsWhere fun key row =>
    key.1 = chain ∧ key.2 ≤ height ∧ row.finality < .finalized
  match unfinalized with
  | [] => .ok height
  | ((_, lowest), _) :: _ =>
    let rows := s.canonical.rowsWhere fun key _ =>
      key.1 = chain ∧ lowest ≤ key.2 ∧ key.2 ≤ height
    walkParents height (some (height, expectedHash)) height rows.reverse

/-- Mark a hash-bound canonical prefix finalized: the blocks that parent hashes reach from
`through`. Returns the rows promoted. -/
def markRecentFinalized (s : RecentStore μ) (chainId through : Nat) (expectedHash : BlockHash) :
    Except StoreError (RecentStore μ × Nat) := do
  let chain ← u64I64 chainId "chain_id"
  let height ← u64I64 through "finalized block_number"
  ensure ((s.canonical[(chain, height)]?).map CanonicalRow.hash = some expectedHash)
    (.invariant s!"finalized block {height} is absent or contradicts retained canonical material")
  let lowest ← lowestProven s chain height expectedHash
  let promoted (key : Nat × Nat) (row : CanonicalRow) : Bool :=
    key.1 = chain ∧ lowest ≤ key.2 ∧ key.2 ≤ height ∧ row.finality < .finalized
  return ({ s with
    canonical := s.canonical.updateWhere promoted fun row => { row with finality := .finalized } },
    (s.canonical.rowsWhere promoted).length)

end Leani.Canonical
