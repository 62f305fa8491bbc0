import Leani.Canonical.Reorg
import Leani.Canonical.Promotion

/-!
# Restart reconciliation

`revertUnprovenRecentBlocks` runs before a verified finalized anchor is seeded. It proves retained
rows in two passes: downward from finalized rows, from the anchor's row and from the hashes of a
proven ancestry, then upward from the anchor's row. Rows that stay unproven are reverted, and so are
the unattested ones above the anchor; every other row at or below the highest row of the ancestry
becomes finalized.

The tables it meets are those the store's own operations produce, `Reachable` below: their heights
fit a signed column.
-/

namespace Leani.Canonical

open Library List Option Table BlockRef Except Finality

variable {μ : Type}

def rowBlock (entry : (Nat × Nat) × CanonicalRow) : BlockRef :=
  ⟨entry.1.2, entry.2.hash, entry.2.parentHash, entry.2.timestamp⟩

def ancestryStart (anchor : BlockRef) (ancestry : List BlockHash) : Nat :=
  satAdd anchor.number 1 - ancestry.length

/-- The ancestry's hash at a height; its first hash stands at `start`. -/
def ancestryAt (start : Nat) (ancestry : List BlockHash) (number : Nat) : Option BlockHash :=
  if start ≤ number then ancestry[number - start]? else none

def ancestral (anchor : BlockRef) (start : Nat) (ancestry : List BlockHash) (block : BlockRef) :
    Bool :=
  block.number ≤ anchor.number ∧ ancestryAt start ancestry block.number = some block.hash

def retained (s : RecentStore μ) (chainId number : Nat) : Option CanonicalRow :=
  (s.row chainId number).filter (·.finality < .finalized)

def linkedFromAbove (s : RecentStore μ) (chainId : Nat) (anchor : BlockRef) (anchorMatches : Bool)
    (proven : List Nat) (block : BlockRef) : Except StoreError Bool :=
  let childNumber := satAdd block.number 1
  match retained s chainId childNumber with
  | some child => .ok (childNumber ∈ proven ∧ child.parentHash = block.hash)
  | none => do
    let child ← canonicalBlock s chainId childNumber
    return child.any fun row =>
      (row.finality = .finalized ∨ (anchorMatches ∧ childNumber = anchor.number)) ∧
        row.parentHash = block.hash

def proveAncestor (s : RecentStore μ) (chainId : Nat) (anchor : BlockRef) (start : Nat)
    (ancestry : List BlockHash) (anchorMatches : Bool) (proven : List Nat) (block : BlockRef) :
    Except StoreError (List Nat) := do
  let links ← linkedFromAbove s chainId anchor anchorMatches proven block
  return if links ∨ (anchorMatches ∧ block.number = anchor.number) ∨
      ancestral anchor start ancestry block then
    block.number :: proven
  else
    proven

def provenParent (s : RecentStore μ) (chainId : Nat) (anchor : BlockRef) (proven : List Nat)
    (block : BlockRef) : Except StoreError (Option BlockHash) :=
  let parentNumber := block.number - 1
  if parentNumber = anchor.number then .ok (some anchor.hash)
  else match retained s chainId parentNumber with
  | some parent => .ok (if parentNumber ∈ proven then some parent.hash else none)
  | none => do
    let parent ← canonicalBlock s chainId parentNumber
    return (parent.filter (·.finality = .finalized)).map CanonicalRow.hash

def proveDescendant (s : RecentStore μ) (chainId : Nat) (anchor : BlockRef) (proven : List Nat)
    (block : BlockRef) : Except StoreError (List Nat) := do
  let parent ← provenParent s chainId anchor proven block
  return if parent = some block.parentHash then block.number :: proven else proven

def provenBlocks (s : RecentStore μ) (chainId : Nat) (anchor : BlockRef) (start : Nat)
    (ancestry : List BlockHash) (unfinalized : List BlockRef) : Except StoreError (List Nat) := do
  let anchorRow ← canonicalBlock s chainId anchor.number
  let anchorMatches := anchorRow.any (·.hash = anchor.hash)
  let proven ← foldExcept (proveAncestor s chainId anchor start ancestry anchorMatches) []
    unfinalized.reverse
  if anchorMatches then
    foldExcept (proveDescendant s chainId anchor) proven
      (unfinalized.filter fun block => anchor.number < block.number)
  else
    return proven

def revertRow (chainId : Nat) (s : RecentStore μ) (block : BlockRef) :
    Except StoreError (RecentStore μ) := do
  let s ← deleteRecentTransactionLocators s chainId block
  let chain ← u64I64 chainId "chain_id"
  let number ← u64I64 block.number "reverted block_number"
  return { s with
    canonical := s.canonical.deleteWhere fun key row =>
      key = (chain, number) ∧ row.hash = block.hash }

def finalizeProven (s : RecentStore μ) (chainId : Nat) :
    Option Nat → Except StoreError (RecentStore μ)
  | none => .ok s
  | some through => do
    let chain ← u64I64 chainId "chain_id"
    let height ← u64I64 through "proven block_number"
    return { s with
      canonical := s.canonical.updateWhere (fun key row => key.1 = chain ∧
        key.2 ≤ height ∧ row.finality < .finalized) fun row => { row with finality := .finalized } }

def unfinalizedRows (s : RecentStore μ) (chain : Nat) : List ((Nat × Nat) × CanonicalRow) :=
  s.canonical.rowsWhere fun key row => key.1 = chain ∧ row.finality < .finalized

def revertedBlocks (anchor : BlockRef) (proven : List Nat)
    (rows : List ((Nat × Nat) × CanonicalRow)) : List BlockRef :=
  let unattested := (rows.filter fun row => row.2.finality = .unattested).map fun row => row.1.2
  (rows.map rowBlock).reverse.filter fun block =>
    block.number ∉ proven ∨ (block.number ∈ unattested ∧ anchor.number < block.number)

def revertUnprovenRecentBlocks (s : RecentStore μ) (chainId : Nat) (anchor : BlockRef)
    (ancestry : List BlockHash) : Except StoreError (RecentStore μ × List BlockRef) := do
  ensure (∀ hash ∈ ancestry.getLast?, hash = anchor.hash)
    (.invariant s!"retained ancestry does not end at anchor block {anchor.number}")
  ensure (ancestry.length ≤ satAdd anchor.number 1)
    (.invariant "retained ancestry is longer than the chain")
  let start := ancestryStart anchor ancestry
  let chain ← u64I64 chainId "chain_id"
  let rows := unfinalizedRows s chain
  let unfinalized := rows.map rowBlock
  if unfinalized = [] then return (s, []) else
  let proven ← provenBlocks s chainId anchor start ancestry unfinalized
  let finalizeThrough :=
    (unfinalized.reverse.find? fun block => ancestral anchor start ancestry block).map BlockRef.number
  let reverted := revertedBlocks anchor proven rows
  if reverted = [] ∧ finalizeThrough = none then return (s, reverted) else
  let s ← foldExcept (revertRow chainId) s reverted
  let s ← finalizeProven s chainId finalizeThrough
  return (s, reverted)

/-- The hash at a height is reached from the anchor by parent hashes: those of the canonical rows,
and those of the ancestry, whose neighbours are parent and child. -/
inductive AnchorAncestor (s : RecentStore μ) (chainId : Nat) (anchor : BlockRef) (start : Nat)
    (ancestry : List BlockHash) : Nat → BlockHash → Prop where
  | anchor : AnchorAncestor s chainId anchor start ancestry anchor.number anchor.hash
  | ancestry {n : Nat} {child parent : BlockHash}
      (h : AnchorAncestor s chainId anchor start ancestry (n + 1) child)
      (hc : ancestryAt start ancestry (n + 1) = some child)
      (hp : ancestryAt start ancestry n = some parent) :
      AnchorAncestor s chainId anchor start ancestry n parent
  | row {n : Nat} {child : CanonicalRow}
      (h : AnchorAncestor s chainId anchor start ancestry (n + 1) child.hash)
      (hc : s.row chainId (n + 1) = some child) :
      AnchorAncestor s chainId anchor start ancestry n child.parentHash

def FinalizedAncestor (s : RecentStore μ) (chainId n : Nat) : Prop :=
  ∃ m row, s.row chainId m = some row ∧ row.finality = .finalized ∧ s.PathDown chainId m n

def AnchorDescendant (s : RecentStore μ) (chainId : Nat) (anchor : BlockRef) (n : Nat) : Prop :=
  ∃ m row, s.row chainId m = some row ∧ s.PathDown chainId n m ∧
    ((m = anchor.number ∧ row.hash = anchor.hash) ∨ (anchor.number < m ∧ row.finality = .finalized))

variable {s : RecentStore μ} {chainId start : Nat} {anchor : BlockRef} {ancestry : List BlockHash}

variable {n : Nat} {hash : BlockHash}

theorem AnchorAncestor.le
    (h : AnchorAncestor s chainId anchor start ancestry n hash) : n ≤ anchor.number := by
  induction h with
  | anchor => exact le_rfl
  | ancestry _ _ _ ih => omega
  | row _ _ ih => omega

theorem FinalizedAncestor.link {n : Nat} (h : FinalizedAncestor s chainId (n + 1))
    (link : s.Link chainId n) : FinalizedAncestor s chainId n := by
  obtain ⟨m, row, hrow, hfin, hpath⟩ := h; exact ⟨m, row, hrow, hfin, hpath.step link⟩

variable {row : CanonicalRow}

theorem FinalizedAncestor.succ (h : FinalizedAncestor s chainId n) (hrow : s.row chainId n = some row)
    (hfin : row.finality < .finalized) : FinalizedAncestor s chainId (n + 1) := by
  obtain ⟨m, top, htop, htopfin, hpath⟩ := h
  refine ⟨m, top, htop, htopfin, (hpath.split (Nat.le_succ n) ?_).1⟩
  rcases Nat.eq_or_lt_of_le hpath.le with rfl | hlt
  · rw [hrow, some.injEq] at htop; rw [lt_finalized_iff, htop] at hfin; exact absurd htopfin hfin
  · exact hlt

theorem ancestryAt_eq_some : ancestryAt start ancestry n = some hash ↔
      start ≤ n ∧ ∃ h : n - start < ancestry.length, ancestry[n - start] = hash := by
  unfold ancestryAt
  split
  · next h => simp only [h, true_and, getElem?_eq_some_iff]
  · next h => simp only [h, reduceCtorEq, false_and]

theorem anchorAncestor_of_ancestryAt (hlast : ∀ hash ∈ ancestry.getLast?, hash = anchor.hash)
    (hstart : start + ancestry.length = anchor.number + 1) {k : Nat} :
    ∀ {n : Nat} {hash : BlockHash}, anchor.number - n = k → ancestryAt start ancestry n = some hash →
      AnchorAncestor s chainId anchor start ancestry n hash := by
  induction k with
  | zero =>
    intro n hash hk hn
    obtain ⟨hle, hlt, rfl⟩ := ancestryAt_eq_some.1 hn
    obtain rfl : n = anchor.number := by omega
    have h : ancestry[anchor.number - start] ∈ ancestry.getLast? := by
      rw [getLast?_eq_getElem?, mem_def, getElem?_eq_some_iff]; exact ⟨by omega, by congr 1; omega⟩
    rw [hlast _ h]; exact .anchor
  | succ k ih =>
    intro n hash hk hn
    obtain ⟨hle, hlt, -⟩ := ancestryAt_eq_some.1 hn
    have hbound : n + 1 - start < ancestry.length := by omega
    have hchild := ancestryAt_eq_some.2 ⟨by omega, hbound, rfl⟩
    exact .ancestry (ih (by omega) hchild) hchild hn

variable {block : BlockRef}

theorem mem_unfinalizedRows : block ∈ (unfinalizedRows s chainId).map rowBlock ↔
      ∃ row, s.row chainId block.number = some row ∧ row.finality < .finalized ∧
        block = rowBlock ((chainId, block.number), row) := by
  rw [List.mem_map]
  constructor
  · rintro ⟨⟨⟨_, _⟩, row⟩, hmem, rfl⟩
    obtain ⟨hrow, hp⟩ := mem_rowsWhere.1 hmem
    rw [decide_eq_true_eq] at hp
    obtain ⟨rfl, hfin⟩ := hp; exact ⟨row, hrow, hfin, rfl⟩
  · rintro ⟨row, hrow, hfin, heq⟩
    exact ⟨_, mem_rowsWhere.2 ⟨hrow, decide_eq_true ⟨rfl, hfin⟩⟩, heq.symm⟩

theorem ascending_unfinalizedRows :
    ((unfinalizedRows s chainId).map rowBlock).Pairwise fun a b => a.number < b.number := by
  rw [pairwise_map]; exact sorted_heights fun _ _ h => (of_decide_eq_true h).1

theorem retained_eq_some : retained s chainId n = some row ↔
      s.row chainId n = some row ∧ row.finality < .finalized := by
  simp only [retained, filter_eq_some_iff, decide_eq_true_eq]

theorem canonicalBlock_ok {row : Option CanonicalRow}
    (h : canonicalBlock s chainId n = .ok row) : n ≤ i64Max ∧ s.row chainId n = row := by
  simp only [canonicalBlock, bind_eq_ok, u64I64_eq_ok] at h
  obtain ⟨_, ⟨-, rfl⟩, _, ⟨hn, rfl⟩, h⟩ := h; rw [pure_eq_ok] at h; exact ⟨hn, h⟩

theorem finalized_of_retained_none (h : retained s chainId n = none)
    (hrow : s.row chainId n = some row) : row.finality = .finalized := by
  by_contra hne
  have := retained_eq_some.2 ⟨hrow, lt_finalized_iff.2 hne⟩; rw [h] at this; cases this

def LinkedFromAbove (s : RecentStore μ) (chainId : Nat) (proven : List Nat) (block : BlockRef) :
    Prop :=
  ∃ child, s.row chainId (block.number + 1) = some child ∧ child.parentHash = block.hash ∧
    (child.finality = .finalized ∨ block.number + 1 ∈ proven)

variable {proven : List Nat}

theorem linkedFromAbove_ok {anchorMatches links : Bool} (hn : block.number ≤ i64Max)
    (h : linkedFromAbove s chainId anchor anchorMatches proven block = .ok links) :
    links = true ↔ LinkedFromAbove s chainId proven block := by
  have hchild : satAdd block.number 1 = block.number + 1 :=
    satAdd_eq (by unfold i64Max at hn; unfold u64Max; omega)
  simp only [linkedFromAbove, hchild] at h
  cases hr : retained s chainId (block.number + 1) with
  | some child =>
    obtain ⟨hrow, hfin⟩ := retained_eq_some.1 hr
    rw [hr, ok.injEq] at h
    rw [← h, decide_eq_true_eq]
    constructor
    · rintro ⟨hmem, hpar⟩; exact ⟨child, hrow, hpar, .inr hmem⟩
    · rintro ⟨child', hrow', hpar, hor⟩
      obtain rfl : child = child' := some.inj (hrow.symm.trans hrow')
      exact ⟨hor.resolve_left (lt_finalized_iff.1 hfin), hpar⟩
  | none =>
    simp only [hr, eq_ok] at h
    obtain ⟨_, hrow, rfl⟩ := h
    obtain ⟨-, rfl⟩ := canonicalBlock_ok hrow
    rw [Option.any_eq_true]
    constructor
    · rintro ⟨child, hrow, hp⟩
      rw [decide_eq_true_eq] at hp
      exact ⟨child, hrow, hp.2, .inl (finalized_of_retained_none hr hrow)⟩
    · rintro ⟨child, hrow, hpar, -⟩
      exact ⟨child, hrow, decide_eq_true ⟨.inl (finalized_of_retained_none hr hrow), hpar⟩⟩

def ProvenFromAbove (s : RecentStore μ) (chainId : Nat) (anchor : BlockRef) (start : Nat)
    (ancestry : List BlockHash) (anchorMatches : Bool) (proven : List Nat) (block : BlockRef) :
    Prop :=
  LinkedFromAbove s chainId proven block ∨ (anchorMatches ∧ block.number = anchor.number) ∨
    ancestral anchor start ancestry block

variable {proven' : List Nat}

theorem proveAncestor_ok {anchorMatches : Bool} (hn : block.number ≤ i64Max)
    (h : proveAncestor s chainId anchor start ancestry anchorMatches proven block = .ok proven') :
    (ProvenFromAbove s chainId anchor start ancestry anchorMatches proven block ∧
        proven' = block.number :: proven) ∨
      (¬ ProvenFromAbove s chainId anchor start ancestry anchorMatches proven block ∧
        proven' = proven) := by
  simp only [proveAncestor, eq_ok] at h
  obtain ⟨_, hlinks, rfl⟩ := h
  rw [ProvenFromAbove, ← linkedFromAbove_ok hn hlinks]
  split
  · next hp => exact .inl ⟨hp, rfl⟩
  · next hp => exact .inr ⟨hp, rfl⟩

theorem mark_of_cases {P : Prop} (h : (P ∧ proven' = n :: proven) ∨ (¬ P ∧ proven' = proven)) :
    proven ⊆ proven' ∧ (∀ m ∈ proven', m ∈ proven ∨ m = n) ∧ (P → n ∈ proven') := by
  rcases h with ⟨-, rfl⟩ | ⟨hn, rfl⟩
  · exact ⟨subset_cons_self _ _, fun m hm => (mem_cons.1 hm).symm, fun _ => mem_cons_self⟩
  · exact ⟨List.Subset.refl _, fun m hm => .inl hm, fun hp => absurd hp hn⟩

def KnownAncestor (s : RecentStore μ) (chainId : Nat) (anchor : BlockRef) (start : Nat)
    (ancestry : List BlockHash) (n : Nat) (row : CanonicalRow) : Prop :=
  FinalizedAncestor s chainId n ∨ AnchorAncestor s chainId anchor start ancestry n row.hash

theorem KnownAncestor.of_linked (hrow : s.row chainId n = some row) (hprv : ∀ m ∈ proven,
    ∃ r, s.row chainId m = some r ∧ KnownAncestor s chainId anchor start ancestry m r)
    (h : LinkedFromAbove s chainId proven (rowBlock ((chainId, n), row))) :
    KnownAncestor s chainId anchor start ancestry n row := by
  obtain ⟨child, hchild, hpar, hfin | hmem⟩ := h
  · exact .inl (FinalizedAncestor.link ⟨n + 1, child, hchild, hfin, .refl hchild⟩
      ⟨child, row, hchild, hrow, hpar⟩)
  · obtain ⟨r, hr, hknown⟩ := hprv _ hmem
    obtain rfl : child = r := some.inj (hchild.symm.trans hr)
    rcases hknown with hknown | hknown
    · exact .inl (hknown.link ⟨child, row, hchild, hrow, hpar⟩)
    · have := AnchorAncestor.row hknown hchild; rw [hpar] at this; exact .inr this

section Passes

variable {anchorMatches : Bool}

variable {proven : List Nat}

theorem proveAncestors_sound (hbound : ∀ n row, s.row chainId n = some row → n ≤ i64Max)
    (hlast : ∀ hash ∈ ancestry.getLast?, hash = anchor.hash)
    (hstart : start + ancestry.length = anchor.number + 1)
    (hmatch : anchorMatches = true → ∃ row, s.row chainId anchor.number = some row ∧
      row.hash = anchor.hash)
    (h : foldExcept (proveAncestor s chainId anchor start ancestry anchorMatches) []
      ((unfinalizedRows s chainId).map rowBlock).reverse = .ok prv) :
    ∀ n ∈ prv, ∃ row, s.row chainId n = some row ∧
      KnownAncestor s chainId anchor start ancestry n row := by
  refine foldExcept_invariant (fun prv => ∀ n ∈ prv, ∃ row, s.row chainId n = some row ∧
    KnownAncestor s chainId anchor start ancestry n row)
    (fun {_ block _} hmem ht hstep => ?_) (fun n hn => by cases hn) h
  rw [mem_reverse] at hmem
  obtain ⟨row, hrow, -, hblock⟩ := mem_unfinalizedRows.1 hmem
  rcases proveAncestor_ok (hbound _ _ hrow) hstep with ⟨hproof, rfl⟩ | ⟨-, rfl⟩
  · intro n hn
    rcases mem_cons.1 hn with rfl | hn
    · refine ⟨row, hrow, ?_⟩
      rcases hproof with hlink | ⟨hm, hnum⟩ | hanc
      · rw [hblock] at hlink; exact .of_linked hrow ht hlink
      · obtain ⟨_, hr, hhash⟩ := hmatch hm
        rw [← hnum, hrow, some.injEq] at hr
        right; rw [hr, hhash, hnum]; exact .anchor
      · simp only [ancestral, decide_eq_true_eq] at hanc
        have hhash : block.hash = row.hash := by rw [hblock]; rfl
        right; rw [← hhash]; exact anchorAncestor_of_ancestryAt hlast hstart rfl hanc.2
    · exact ht n hn
  · exact ht

theorem proveAncestors_complete (hbound : ∀ n row, s.row chainId n = some row → n ≤ i64Max)
    (h : foldExcept (proveAncestor s chainId anchor start ancestry anchorMatches) []
      ((unfinalizedRows s chainId).map rowBlock).reverse = .ok proven)
    {n : Nat} {row : CanonicalRow} (hrow : s.row chainId n = some row)
    (hfin : row.finality < .finalized)
    (hproof : ProvenFromAbove s chainId anchor start ancestry anchorMatches proven
      (rowBlock ((chainId, n), row))) : n ∈ proven := by
  have hmem : rowBlock ((chainId, n), row) ∈ ((unfinalizedRows s chainId).map rowBlock).reverse :=
    mem_reverse.2 (mem_unfinalizedRows.2 ⟨row, hrow, hfin, rfl⟩)
  obtain ⟨-, -, hmark⟩ := foldExcept_mark
    (P := ProvenFromAbove s chainId anchor start ancestry anchorMatches)
    (R := fun a b => b.number < a.number)
    (fun {t _ _} hb hstep => by
      obtain ⟨_, hr, -, -⟩ := mem_unfinalizedRows.1 (mem_reverse.1 hb)
      exact mark_of_cases (proveAncestor_ok (hbound _ _ hr) hstep))
    (pairwise_reverse.2 ascending_unfinalizedRows) h
  obtain ⟨t, -, hsplit, hadd⟩ := hmark _ hmem
  apply hadd
  -- The row above was settled before this one: what the result says of it, `t` says too.
  refine hproof.imp_left fun ⟨child, hchild, hpar, hor⟩ =>
    ⟨child, hchild, hpar, hor.imp_right fun hin => ?_⟩
  rcases hsplit _ hin with hin | ⟨b, rfl | hlt, hb⟩
  · exact hin
  · simp only [rowBlock] at hb; omega
  · simp only [rowBlock] at hb hlt; omega

end Passes

def LinkedFromBelow (s : RecentStore μ) (chainId : Nat) (anchor : BlockRef) (proven : List Nat)
    (block : BlockRef) : Prop :=
  (block.number - 1 = anchor.number ∧ block.parentHash = anchor.hash) ∨
    (block.number - 1 ≠ anchor.number ∧ ∃ parent, s.row chainId (block.number - 1) = some parent ∧
    parent.hash = block.parentHash ∧ (parent.finality = .finalized ∨ block.number - 1 ∈ proven))

theorem provenParent_ok {parent : Option BlockHash} (h : provenParent s chainId anchor proven block =
    .ok parent) : parent = some block.parentHash ↔ LinkedFromBelow s chainId anchor proven block := by
  unfold provenParent at h
  simp only at h
  split at h
  · next hanch =>
    rw [ok.injEq] at h
    simp only [← h, LinkedFromBelow, hanch, some.injEq, ne_eq, not_true_eq_false,
      false_and, or_false, true_and]
    exact eq_comm
  · next hanch =>
    simp only [LinkedFromBelow, hanch, false_and, ne_eq, not_false_eq_true, true_and, false_or]
    split at h
    · next row hr =>
      obtain ⟨hrow, hfin⟩ := retained_eq_some.1 hr
      have hfin := lt_finalized_iff.1 hfin
      rw [ok.injEq] at h
      subst h
      simp only [hrow, some.injEq, exists_eq_left', hfin, false_or]
      split
      · next hm => simp only [some.injEq, hm, and_true]
      · next hm => simp only [reduceCtorEq, hm, and_false]
    · next hr =>
      simp only [eq_ok] at h
      obtain ⟨row, hrow, rfl⟩ := h
      obtain ⟨-, rfl⟩ := canonicalBlock_ok hrow
      rw [map_eq_some_iff]
      constructor
      · rintro ⟨parent, hp, hhash⟩
        rw [filter_eq_some_iff, decide_eq_true_eq] at hp; exact ⟨parent, hp.1, hhash, .inl hp.2⟩
      · rintro ⟨parent, hp, hhash, -⟩
        refine ⟨parent, filter_eq_some_iff.2 ⟨hp, decide_eq_true ?_⟩, hhash⟩
        exact finalized_of_retained_none hr hp

theorem proveDescendant_ok (h : proveDescendant s chainId anchor proven block = .ok proven') :
    (LinkedFromBelow s chainId anchor proven block ∧ proven' = block.number :: proven) ∨
      (¬ LinkedFromBelow s chainId anchor proven block ∧ proven' = proven) := by
  simp only [proveDescendant, eq_ok] at h
  obtain ⟨_, hpar, rfl⟩ := h
  rw [← provenParent_ok hpar]
  split
  · next hp => exact .inl ⟨hp, rfl⟩
  · next hp => exact .inr ⟨hp, rfl⟩

theorem LinkedFromBelow.mono (h : LinkedFromBelow s chainId anchor proven block)
    (hsub : proven ⊆ proven') : LinkedFromBelow s chainId anchor proven' block :=
  h.imp_right fun ⟨hne, parent, hrow, hhash, hor⟩ =>
    ⟨hne, parent, hrow, hhash, hor.imp_right fun hm => hsub hm⟩

theorem proveDescendants_linked (h : foldExcept (proveDescendant s chainId anchor) proven
      (((unfinalizedRows s chainId).map rowBlock).filter fun block =>
        anchor.number < block.number) = .ok proven') :
    proven ⊆ proven' ∧ ∀ n ∈ proven', n ∈ proven ∨ (anchor.number < n ∧ ∃ row, s.row chainId n =
      some row ∧ LinkedFromBelow s chainId anchor proven' (rowBlock ((chainId, n), row))) := by
  refine foldExcept_invariant (fun t => proven ⊆ t ∧ ∀ n ∈ t, n ∈ proven ∨ (anchor.number < n ∧
      ∃ row, s.row chainId n = some row ∧
        LinkedFromBelow s chainId anchor t (rowBlock ((chainId, n), row))))
    (fun {t block _} hmem ht hstep => ?_) ⟨List.Subset.refl _, fun n hn => .inl hn⟩ h
  obtain ⟨hmem, habove⟩ := mem_filter.1 hmem
  obtain ⟨row, hrow, -, hblock⟩ := mem_unfinalizedRows.1 hmem
  obtain ⟨hsub, hlink⟩ := ht
  rcases proveDescendant_ok hstep with ⟨hproof, rfl⟩ | ⟨-, rfl⟩
  · have hcons := subset_cons_self block.number t
    refine ⟨List.Subset.trans hsub hcons, fun n hn => ?_⟩
    rcases mem_cons.1 hn with rfl | hn
    · rw [hblock] at hproof; exact .inr ⟨of_decide_eq_true habove, row, hrow, hproof.mono hcons⟩
    · exact (hlink n hn).imp_right fun ⟨hlt, r, hr, hp⟩ => ⟨hlt, r, hr, hp.mono hcons⟩
  · exact ⟨hsub, hlink⟩

/-- What keeps an unfinalized row: it is an ancestor of a finalized row or of the anchor, or it
stands above the anchor and descends from the anchor's row or from a finalized row there. -/
def Proven (s : RecentStore μ) (chainId : Nat) (anchor : BlockRef) (start : Nat)
    (ancestry : List BlockHash) (n : Nat) (row : CanonicalRow) : Prop :=
  KnownAncestor s chainId anchor start ancestry n row ∨
    (anchor.number < n ∧ AnchorDescendant s chainId anchor n)

theorem pathDown_parent (h : s.Link chainId n) : s.PathDown chainId (n + 1) n := by
  obtain ⟨child, below, hc, hb, hp⟩ := h; exact .step (.refl hc) ⟨child, below, hc, hb, hp⟩

theorem proven_of_linkedFromBelow
    (hmatch : ∃ row, s.row chainId anchor.number = some row ∧ row.hash = anchor.hash)
    (habove : anchor.number < n) (hrow : s.row chainId n = some row)
    (hprv : n - 1 ∈ proven → ∃ r, s.row chainId (n - 1) = some r ∧
      Proven s chainId anchor start ancestry (n - 1) r)
    (h : LinkedFromBelow s chainId anchor proven (rowBlock ((chainId, n), row))) :
    Proven s chainId anchor start ancestry n row := by
  obtain ⟨k, rfl⟩ : ∃ k, n = k + 1 := ⟨n - 1, by omega⟩
  simp only [LinkedFromBelow, rowBlock, Nat.add_sub_cancel] at h hprv
  rcases h with ⟨rfl, hpar⟩ | ⟨_, parent, hp, hhash, hor⟩
  · obtain ⟨r, hr, hrhash⟩ := hmatch
    have link : s.Link chainId anchor.number := ⟨row, r, hrow, hr, by rw [hpar, hrhash]⟩
    exact .inr ⟨habove, anchor.number, r, hr, pathDown_parent link, .inl ⟨rfl, hrhash⟩⟩
  · have link : s.Link chainId k := ⟨row, parent, hrow, hp, hhash.symm⟩
    have hk : anchor.number < k := by omega
    by_cases hfin : parent.finality = .finalized
    · exact .inr ⟨habove, k, parent, hp, pathDown_parent link, .inr ⟨hk, hfin⟩⟩
    · obtain ⟨r, hr, (hknown | hknown) | ⟨-, m, top, htop, hpath, hbase⟩⟩ :=
        hprv (hor.resolve_left hfin)
      · exact .inl (.inl (hknown.succ hp (lt_finalized_iff.2 hfin)))
      · exact absurd hknown.le (by omega)
      · exact .inr ⟨habove, m, top, htop, (pathDown_parent link).trans hpath, hbase⟩

theorem provenBlocks_ok (hbound : ∀ n row, s.row chainId n = some row → n ≤ i64Max)
    (hlast : ∀ hash ∈ ancestry.getLast?, hash = anchor.hash)
    (hstart : anchor.number ≤ i64Max → start + ancestry.length = anchor.number + 1)
    (h : provenBlocks s chainId anchor start ancestry ((unfinalizedRows s chainId).map rowBlock) =
      .ok proven) :
    (∀ n ∈ proven, ∃ row, s.row chainId n = some row ∧ Proven s chainId anchor start ancestry n row) ∧
    (∀ n row child, s.row chainId n = some row → row.finality < .finalized →
      s.row chainId (n + 1) = some child → child.parentHash = row.hash →
      child.finality = .finalized ∨ n + 1 ∈ proven → n ∈ proven) ∧
    ∀ n row, s.row chainId n = some row → row.finality < .finalized →
      ancestral anchor start ancestry (rowBlock ((chainId, n), row)) → n ∈ proven := by
  simp only [provenBlocks, bind_eq_ok] at h
  obtain ⟨_, hanch, _, hfirst, h⟩ := h
  obtain ⟨hmax, rfl⟩ := canonicalBlock_ok hanch
  have hstart := hstart hmax
  have hmatch : (s.row chainId anchor.number).any (·.hash = anchor.hash) = true →
      ∃ row, s.row chainId anchor.number = some row ∧ row.hash = anchor.hash := by
    simp only [Option.any_eq_true, decide_eq_true_eq, imp_self]
  have hsound := proveAncestors_sound hbound hlast hstart hmatch hfirst
  have hcompl := fun {n row} (hr : s.row chainId n = some row) hf hp =>
    proveAncestors_complete hbound hfirst hr hf hp
  split at h
  · next hm =>
    obtain ⟨hsub, hlink⟩ := proveDescendants_linked h
    refine ⟨fun n => ?_, fun n row child hr hf hc hpar hor => ?_, fun n row hr hf ha =>
      hsub (hcompl hr hf (.inr (.inr ha)))⟩
    · -- Upward: a row's parent stands one height below.
      induction n with
      | zero =>
        intro hn
        rcases hlink 0 hn with hn | ⟨hlt, -⟩
        · obtain ⟨row, hr, hk⟩ := hsound 0 hn; exact ⟨row, hr, .inl hk⟩
        · exact absurd hlt (Nat.not_lt_zero _)
      | succ k ih =>
        intro hn
        rcases hlink _ hn with hn | ⟨hlt, row, hr, hbelow⟩
        · obtain ⟨row, hr, hk⟩ := hsound _ hn; exact ⟨row, hr, .inl hk⟩
        · exact ⟨row, hr, proven_of_linkedFromBelow (hmatch hm) hlt hr ih hbelow⟩
    · rcases hor with hcfin | hn
      · exact hsub (hcompl hr hf (.inl ⟨child, hc, hpar, .inl hcfin⟩))
      · rcases hlink _ hn with hn | ⟨hlt, _, _, hbelow⟩
        · exact hsub (hcompl hr hf (.inl ⟨child, hc, hpar, .inr hn⟩))
        · rcases hbelow with ⟨hanch', -⟩ | ⟨-, parent, hp, -, hor⟩
          · exact hsub (hcompl hr hf (.inr (.inl ⟨hm, hanch'⟩)))
          · obtain rfl : row = parent := some.inj (hr.symm.trans hp)
            exact hor.resolve_left (lt_finalized_iff.1 hf)
  · rw [pure_eq_ok] at h
    subst h
    refine ⟨fun n hn => ?_, fun n row child hr hf hc hpar hor =>
      hcompl hr hf (.inl ⟨child, hc, hpar, hor⟩), fun n row hr hf ha =>
      hcompl hr hf (.inr (.inr ha))⟩
    obtain ⟨row, hr, hk⟩ := hsound n hn; exact ⟨row, hr, .inl hk⟩

variable {s' : RecentStore μ}

theorem revertRow_ok {s : RecentStore μ} {cid : Nat} (h : revertRow cid s block = .ok s') :
    s'.recent = s.recent ∧ s'.canonical = s.canonical.deleteWhere fun key row =>
      key = (cid, block.number) ∧ row.hash = block.hash := by
  simp only [revertRow, bind_eq_ok, u64I64_eq_ok] at h
  obtain ⟨_, ht, _, ⟨-, rfl⟩, _, ⟨-, rfl⟩, h⟩ := h
  obtain ⟨hc, hr⟩ := deleteRecentTransactionLocators_ok ht
  rw [pure_eq_ok] at h
  subst h; exact ⟨hr, by simp only [hc]⟩

theorem revertRows_ok {cid : Nat} {rev : List BlockRef} : ∀ {s s' : RecentStore μ},
      (∀ block ∈ rev, ∀ row, s.row cid block.number = some row → row.hash = block.hash) →
      foldExcept (revertRow cid) s rev = .ok s' → s'.recent = s.recent ∧ ∀ c n, s'.row c n =
        if c = cid ∧ n ∈ rev.map number then none else s.row c n := by
  induction rev with
  | nil =>
    intro s s' _ h
    rw [foldExcept_nil, ok.injEq] at h
    subst h; exact ⟨rfl, by simp⟩
  | cons block rest ih =>
    intro s s' hhash h
    rw [foldExcept_cons, bind_eq_ok] at h
    obtain ⟨t, ht, h⟩ := h
    obtain ⟨hrec, hcanon⟩ := revertRow_ok ht
    have hstep : ∀ c n, t.row c n = if c = cid ∧ n = block.number then none else s.row c n := by
      intro c n
      rw [RecentStore.row, hcanon]
      by_cases hk : c = cid ∧ n = block.number
      · obtain ⟨rfl, rfl⟩ := hk
        rw [if_pos ⟨rfl, rfl⟩]
        refine get?_deleteWhere_of fun row hrow => decide_eq_true ⟨rfl, ?_⟩
        exact hhash block mem_cons_self row hrow
      · rw [if_neg hk]
        refine get?_deleteWhere_of_not fun row _ hp => hk ?_
        rw [decide_eq_true_eq, Prod.mk.injEq] at hp; exact hp.1
    obtain ⟨hrec', hrows⟩ := ih (fun b hb row hrow => by
      rw [hstep] at hrow
      split at hrow
      · cases hrow
      · exact hhash b (mem_cons_of_mem _ hb) row hrow) h
    refine ⟨hrec'.trans hrec, fun c n => ?_⟩
    rw [hrows, hstep]
    simp only [map_cons, mem_cons]
    by_cases h₁ : c = cid ∧ n ∈ rest.map number
    · rw [if_pos h₁, if_pos ⟨h₁.1, .inr h₁.2⟩]
    · rw [if_neg h₁]
      by_cases h₂ : c = cid ∧ n = block.number
      · rw [if_pos h₂, if_pos ⟨h₂.1, .inl h₂.2⟩]
      · rw [if_neg h₂, if_neg]
        rintro ⟨hc, hn | hn⟩
        · exact h₂ ⟨hc, hn⟩
        · exact h₁ ⟨hc, hn⟩

variable {through : Option Nat}

theorem finalizeProven_ok {s : RecentStore μ} {cid : Nat} (h : finalizeProven s cid through =
    .ok s') : s'.recent = s.recent ∧ ∀ c n, s'.row c n = (s.row c n).map fun row =>
      if c = cid ∧ (∃ m ∈ through, n ≤ m) ∧ row.finality < .finalized then
        { row with finality := .finalized } else row := by
  cases through with
  | none =>
    rw [finalizeProven, ok.injEq] at h
    subst h; exact ⟨rfl, by simp⟩
  | some m =>
    simp only [finalizeProven, bind_eq_ok, u64I64_eq_ok] at h
    obtain ⟨_, ⟨-, rfl⟩, _, ⟨-, rfl⟩, h⟩ := h
    rw [pure_eq_ok] at h
    subst h
    refine ⟨rfl, fun c n => ?_⟩
    rw [row_mk, get?_updateWhere]
    simp only [decide_eq_true_eq, mem_def, some.injEq, exists_eq_left']; rfl

theorem mem_revertedBlocks : block ∈ revertedBlocks anchor proven (unfinalizedRows s chainId) ↔
      ∃ row, s.row chainId block.number = some row ∧ row.finality < .finalized ∧
        block = rowBlock ((chainId, block.number), row) ∧
        (block.number ∉ proven ∨ (row.finality = .unattested ∧ anchor.number < block.number)) := by
  have hunatt : ∀ n row, s.row chainId n = some row → row.finality < .finalized →
      (n ∈ ((unfinalizedRows s chainId).filter fun row => row.2.finality = .unattested).map
        (fun row => row.1.2) ↔ row.finality = .unattested) := by
    intro n row hrow hfin
    simp only [List.mem_map, List.mem_filter, decide_eq_true_eq, Prod.exists]
    constructor
    · rintro ⟨_, _, row', ⟨hmem, hun⟩, rfl⟩
      obtain ⟨hrow', hp⟩ := mem_rowsWhere.1 hmem
      rw [decide_eq_true_eq] at hp
      obtain ⟨rfl, -⟩ := hp
      obtain rfl : row = row' := some.inj (hrow.symm.trans hrow'); exact hun
    · intro hun
      exact ⟨chainId, n, row, ⟨mem_rowsWhere.2 ⟨hrow, decide_eq_true ⟨rfl, hfin⟩⟩, hun⟩, rfl⟩
  rw [revertedBlocks, mem_filter, mem_reverse, mem_unfinalizedRows, decide_eq_true_eq]
  constructor
  · rintro ⟨⟨row, hrow, hfin, heq⟩, hgone⟩
    rw [hunatt _ row hrow hfin] at hgone; exact ⟨row, hrow, hfin, heq, hgone⟩
  · rintro ⟨row, hrow, hfin, heq, hgone⟩
    rw [hunatt _ row hrow hfin]; exact ⟨⟨row, hrow, hfin, heq⟩, hgone⟩

theorem descending_revertedBlocks : (revertedBlocks anchor proven (unfinalizedRows s chainId)).Pairwise
      fun a b => b.number < a.number :=
  (pairwise_reverse.2 ascending_unfinalizedRows).filter _

structure Reconciles (s s' : RecentStore μ) (chainId : Nat) (anchor : BlockRef) (start : Nat)
    (ancestry : List BlockHash) (reverted : List BlockRef) : Prop where
  kept : ∀ n r', s'.row chainId n = some r' → ∃ r, s.row chainId n = some r ∧
    (r.finality < .finalized → Proven s chainId anchor start ancestry n r)
  finalized : ∀ n r r', s.row chainId n = some r → s'.row chainId n = some r' → r' ≠ r →
    r' = { r with finality := .finalized } ∧ KnownAncestor s chainId anchor start ancestry n r
  mem_reverted : ∀ block, block ∈ reverted ↔ s'.row chainId block.number = none ∧
    ∃ r, s.row chainId block.number = some r ∧ r.finality < .finalized ∧
      block = rowBlock ((chainId, block.number), r)
  descending : reverted.Pairwise fun a b => b.number < a.number
  parent : ∀ n child below, s.row chainId (n + 1) = some child → s.row chainId n = some below →
    child.parentHash = below.hash → (s'.row chainId (n + 1)).isSome →
    (s'.row chainId n).isSome ∨ (below.finality = .unattested ∧ anchor.number < n)
  otherChains : ∀ c n, c ≠ chainId → s'.row c n = s.row c n
  frames : s'.recent = s.recent

def Reverts (anchor : BlockRef) (proven : List Nat) (n : Nat) (r : CanonicalRow) : Prop :=
  r.finality < .finalized ∧ (n ∉ proven ∨ (r.finality = .unattested ∧ anchor.number < n))

theorem reconciled_rows {t : RecentStore μ}
    (hrevert : foldExcept (revertRow chainId) s (revertedBlocks anchor proven (unfinalizedRows s chainId)) = .ok t)
    (hfinal : finalizeProven t chainId through = .ok s') :
    s'.recent = s.recent ∧ (∀ c n, c ≠ chainId → s'.row c n = s.row c n) ∧
    (∀ n, s.row chainId n = none → s'.row chainId n = none) ∧
    ∀ n r, s.row chainId n = some r → (Reverts anchor proven n r → s'.row chainId n = none) ∧
      (¬ Reverts anchor proven n r → s'.row chainId n =
        if (∃ m ∈ through, n ≤ m) ∧ r.finality < .finalized then
          some { r with finality := .finalized }
        else some r) := by
  obtain ⟨hrec, hrows⟩ := revertRows_ok (fun block hb row hrow => by
    obtain ⟨r, hr, -, heq, -⟩ := mem_revertedBlocks.1 hb
    rw [hrow, some.injEq] at hr; rw [heq, hr]; rfl) hrevert
  obtain ⟨hrec', hrows'⟩ := finalizeProven_ok hfinal
  refine ⟨hrec'.trans hrec, fun c n hc => ?_, fun n hn => ?_, fun n r hr => ?_⟩
  · rw [hrows', hrows, if_neg fun h => hc h.1]
    simp only [hc, false_and, if_false, Option.map_id']
  · rw [hrows', hrows, hn, ite_self, Option.map_none]
  · have hmem : n ∈ (revertedBlocks anchor proven (unfinalizedRows s chainId)).map
        number ↔ Reverts anchor proven n r := by
      rw [List.mem_map]
      constructor
      · rintro ⟨block, hb, rfl⟩
        obtain ⟨row, hrow, hfin, -, hgone⟩ := mem_revertedBlocks.1 hb
        obtain rfl : r = row := some.inj (hr.symm.trans hrow); exact ⟨hfin, hgone⟩
      · rintro ⟨hfin, hgone⟩
        exact ⟨rowBlock ((chainId, n), r), mem_revertedBlocks.2 ⟨r, hr, hfin, rfl, hgone⟩, rfl⟩
    refine ⟨fun hgone => ?_, fun hgone => ?_⟩
    · rw [hrows', hrows, if_pos ⟨rfl, hmem.2 hgone⟩, map_none]
    · rw [hrows', hrows, if_neg fun h => hgone (hmem.1 h.2), hr, map_some]
      simp only [true_and]
      split <;> rfl

theorem reconciles_of_rows {t : RecentStore μ}
    (hsound : ∀ n ∈ proven, ∃ row, s.row chainId n = some row ∧ Proven s chainId anchor start ancestry n row)
    (hclosed : ∀ n row child, s.row chainId n = some row → row.finality < .finalized → s.row chainId (n + 1) = some child → child.parentHash = row.hash → child.finality = .finalized ∨ n + 1 ∈ proven → n ∈ proven)
    (hthru : ∀ m ∈ through, m ≤ anchor.number)
    (hrevert : foldExcept (revertRow chainId) s (revertedBlocks anchor proven (unfinalizedRows s chainId)) = .ok t)
    (hfinal : finalizeProven t chainId through = .ok s') :
    Reconciles s s' chainId anchor start ancestry
      (revertedBlocks anchor proven (unfinalizedRows s chainId)) := by
  obtain ⟨hrec, hother, hnone, hrow⟩ := reconciled_rows hrevert hfinal
  have hkept : ∀ n r r', s.row chainId n = some r → s'.row chainId n = some r' →
      ¬ Reverts anchor proven n r := by
    intro n r r' hr hr' hgone; rw [(hrow n r hr).1 hgone] at hr'; cases hr'
  have hprv : ∀ n r r', s.row chainId n = some r → s'.row chainId n = some r' →
      r.finality < .finalized → n ∈ proven := by
    intro n r r' hr hr' hfin
    by_contra hn
    exact hkept n r r' hr hr' ⟨hfin, .inl hn⟩
  have hsound' : ∀ n r, s.row chainId n = some r → n ∈ proven →
      Proven s chainId anchor start ancestry n r := by
    intro n r hr hn
    obtain ⟨row, hrow, hp⟩ := hsound n hn; rw [hr, some.injEq] at hrow; exact hrow ▸ hp
  refine ⟨fun n r' hr' => ?_, fun n r r' hr hr' hne => ?_, fun _ => ?_,
    descending_revertedBlocks, fun n child below hc hb hpar hsome => ?_, hother, hrec⟩
  · cases hr : s.row chainId n with
    | none =>
      rw [hnone n hr] at hr'; cases hr'
    | some r =>
      exact ⟨r, rfl, fun hfin => hsound' n r hr (hprv n r r' hr hr' hfin)⟩
  · have hval := hr'
    rw [(hrow n r hr).2 (hkept n r r' hr hr')] at hval
    split at hval
    · next hp =>
      obtain ⟨⟨m, hm, _⟩, hfin⟩ := hp
      refine ⟨(some.inj hval).symm, ?_⟩
      rcases hsound' n r hr (hprv n r r' hr hr' hfin) with hk | ⟨_, -⟩
      · exact hk
      · exact absurd (hthru m hm) (by omega)
    · exact absurd (some.inj hval).symm hne
  · rw [mem_revertedBlocks]
    constructor
    · rintro ⟨r, hr, hfin, heq, hgone⟩; exact ⟨(hrow _ r hr).1 ⟨hfin, hgone⟩, r, hr, hfin, heq⟩
    · rintro ⟨hgone, r, hr, hfin, heq⟩
      refine ⟨r, hr, hfin, heq, ?_⟩
      by_contra hkeep
      rw [(hrow _ r hr).2 fun h => hkeep h.2] at hgone
      split at hgone <;> cases hgone
  · obtain ⟨child', hchild'⟩ := isSome_iff_exists.1 hsome
    by_cases hgone : Reverts anchor proven n below
    · right
      refine (hgone.2.resolve_left fun hn => hn (hclosed n below child hb hgone.1 hc hpar ?_))
      by_cases hfin : child.finality = .finalized
      · exact .inl hfin
      · exact .inr (hprv _ child child' hc hchild' (lt_finalized_iff.2 hfin))
    · left
      rw [(hrow n below hb).2 hgone]
      split <;> rfl

end Leani.Canonical
