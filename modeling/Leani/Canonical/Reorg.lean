import Leani.Canonical.Model

/-!
# Reorg of the retained branch

`reorgRecentFrames` checks that the reverted list is contiguous and linked, that the replacement
links to the reverted branch's parent, that this parent is the canonical row below, and that every
reverted row is canonical and not finalized; then it deletes the reverted rows and inserts the
replacement. It never looks above the first reverted block; its caller checks that this block is the tip.
`SwitchesBranch` gives every row afterwards: the replacement from the lowest reverted height on, and
above it whatever stood above the first reverted block.
-/

namespace Leani.Canonical

open Library List Option BlockRef Prod RecentStore

variable {μ : Type}

structure RecentReorgOutcome where
  revertedFrames : Nat
  appliedFrames : Nat
  newTip : BlockRef
  deriving DecidableEq

def tipFirst : List BlockRef → Bool
  | newer :: older :: rest =>
    newer.number = satAdd older.number 1 ∧ newer.parentHash = older.hash ∧ tipFirst (older :: rest)
  | [_] | [] => true

def expectFrame (chainId : Nat) (expected : Nat × BlockHash) (frame : BlockFrame μ) :
    Except StoreError (Nat × BlockHash) := do
  frame.validateShape.mapError .invariant
  ensure (frame.chainId = chainId ∧ frame.block.number = expected.1 ∧ frame.block.parentHash =
      expected.2) (.invariant "replacement recent branch is not ancestor-first and contiguous")
  return (satAdd expected.1 1, frame.block.hash)

def revertBlock (chainId : Nat) (s : RecentStore μ) (block : BlockRef) :
    Except StoreError (RecentStore μ) := do
  let chain ← u64I64 chainId "chain_id"
  let number ← u64I64 block.number "reverted block_number"
  match s.canonical[(chain, number)]? with
  | none =>
    .error (.invariant s!"reverted block {number} is not retained canonical material")
  | some row => do
    ensure (row.hash = block.hash ∧ row.finality ≠ .finalized)
      (.invariant s!"reverted block {number} conflicts with canonical or finalized material")
    let s ← deleteRecentTransactionLocators s chainId block
    return { s with canonical := s.canonical.erase (chain, number) }

section Apply

variable [DecidableEq μ] (encodedLen : BlockFrame μ → Nat)

def applyFrame (chainId : Nat) (s : RecentStore μ) (frame : BlockFrame μ) :
    Except StoreError (RecentStore μ) := do
  let s ← retainFrame encodedLen s chainId frame fun n =>
    s!"replacement frame {n} conflicts with retained material"
  let chain ← u64I64 chainId "chain_id"
  let number ← u64I64 frame.block.number "block_number"
  let timestamp ← u64I64 frame.block.timestamp "block timestamp"
  ensure (s.canonical[(chain, number)]? = none) (.sqlx "UNIQUE constraint failed: canonical_blocks")
  let s := { s with
    canonical := s.canonical.insert (chain, number)
      ⟨frame.block.hash, frame.block.parentHash, timestamp, frame.finality⟩ }
  upsertRecentTransactionLocators s frame

def reorgAncestor (lowest : BlockRef) : BlockRef where
  number := lowest.number - 1
  hash := lowest.parentHash
  parentHash := BlockHash.zero
  timestamp := 0

def reorgRecentFrames (s : RecentStore μ) (chainId : Nat) (reverted : List BlockRef)
    (applied : List (BlockFrame μ)) : Except StoreError (RecentStore μ × RecentReorgOutcome) :=
  match reverted.getLast? with
  | none => .error (.invariant "recent reorg must revert at least one block")
  | some lowest => do
    ensure (lowest.number ≠ 0) (.invariant "the genesis block cannot be reverted")
    ensure (tipFirst reverted = true)
      (.invariant "reverted recent branch is not tip-first and contiguous")
    let ancestor := reorgAncestor lowest
    let _ ← foldExcept (expectFrame chainId) (lowest.number, ancestor.hash) applied
    let chain ← u64I64 chainId "chain_id"
    let ancestorNumber ← u64I64 ancestor.number "ancestor block_number"
    ensure ((s.canonical[(chain, ancestorNumber)]?).map CanonicalRow.hash = some ancestor.hash)
      (.invariant "recent reorg ancestor is not the retained canonical block")
    let s ← foldExcept (revertBlock chainId) s reverted
    let s ← foldExcept (applyFrame encodedLen chainId) s applied
    return (s, {
      revertedFrames := reverted.length
      appliedFrames := applied.length
      newTip := (applied.getLast?).elim ancestor (·.block) })

end Apply

variable {reverted : List BlockRef}

theorem tipFirst_heights : ∀ {newest lowest : BlockRef}, tipFirst (newest :: reverted) = true →
      (newest :: reverted).getLast? = some lowest → newest.number ≤ i64Max →
      (newest :: reverted).map number =
        (range' lowest.number (newest.number + 1 - lowest.number)).reverse ∧
      lowest.number ≤ newest.number := by
  induction reverted with
  | nil =>
    intro newest lowest _ hlast _
    obtain rfl : newest = lowest := by simpa using hlast
    refine ⟨?_, le_rfl⟩
    rw [Nat.add_sub_cancel_left]; rfl
  | cons older rest ih =>
    intro newest lowest h hlast hmax
    rw [tipFirst, decide_eq_true_eq] at h
    obtain ⟨hnum, -, hrest⟩ := h
    have hsat : newest.number = older.number + 1 := by
      rw [hnum]
      apply satAdd_of_lt
      unfold i64Max at hmax
      unfold u64Max; omega
    obtain ⟨hmap, _⟩ := ih hrest (by simpa using hlast) (by omega)
    refine ⟨?_, by omega⟩
    have e : newest.number + 1 - lowest.number = older.number + 1 - lowest.number + 1 := by omega
    rw [map_cons, hmap, e, range'_concat, reverse_append, reverse_singleton,
      singleton_append, cons.injEq]
    exact ⟨by omega, rfl⟩

structure Ascending (chainId number : Nat) (parent : BlockHash) (applied : List (BlockFrame μ)) :
    Prop where
  number_eq : ∀ i (h : i < applied.length), (applied[i]).block.number = number + i
  first : ∀ frame, applied.head? = some frame → frame.block.parentHash = parent
  linked : ∀ i (h : i + 1 < applied.length),
    (applied[i + 1]).block.parentHash = (applied[i]).block.hash

variable {chainId : Nat} {frame : BlockFrame μ}

theorem expectFrame_ok {exp next : Nat × BlockHash} (h : expectFrame chainId exp frame =
    .ok next) : frame.block.number = exp.1 ∧ frame.block.parentHash = exp.2 ∧
      next = (satAdd exp.1 1, frame.block.hash) := by
  simp only [expectFrame, eq_ok] at h
  obtain ⟨_, -, _, ⟨-, hn, hp⟩, rfl⟩ := h; exact ⟨hn, hp, rfl⟩

variable {applied : List (BlockFrame μ)}

theorem ascending_of_fold : ∀ {num : Nat} {parent : BlockHash} {last : Nat × BlockHash},
      foldExcept (expectFrame chainId) (num, parent) applied = .ok last →
      (∀ frame ∈ applied, frame.block.number ≤ i64Max) → Ascending chainId num parent applied := by
  induction applied with
  | nil =>
    intro num parent last _ _; exact ⟨by simp, by simp, by simp⟩
  | cons frame rest ih =>
    intro num parent last h hmax
    rw [foldExcept_cons, bind_eq_ok] at h
    obtain ⟨next, hstep, h⟩ := h
    obtain ⟨hn, hp, rfl⟩ := expectFrame_ok hstep
    have hle := hmax frame mem_cons_self
    have hsat : satAdd num 1 = num + 1 := by
      apply satAdd_eq
      simp only [hn, i64Max] at hle
      unfold u64Max; omega
    simp only [hsat] at h
    have hrest := ih h (forall_mem_cons.1 hmax).2
    refine ⟨fun i hi => ?_, fun f hf => ?_, fun i hi => ?_⟩
    · cases i with
      | zero => exact hn
      | succ i =>
        rw [getElem_cons_succ, hrest.number_eq i (by simpa using hi)]; omega
    · obtain rfl : frame = f := by simpa using hf
      exact hp
    · cases i with
      | zero =>
        obtain ⟨next, _, rfl⟩ := exists_cons_of_length_pos (l := rest) (by simpa using hi)
        exact hrest.first next rfl
      | succ i => exact hrest.linked i (by simpa using hi)

variable {s s' : RecentStore μ}

theorem revertBlock_ok {block : BlockRef} (h : revertBlock chainId s block = .ok s') :
    block.number ≤ i64Max ∧ (∃ row, s.row chainId block.number = some row ∧
      row.hash = block.hash ∧ row.finality ≠ .finalized) ∧
      s'.canonical = s.canonical.erase (chainId, block.number) ∧ s'.recent = s.recent := by
  simp only [revertBlock, bind_eq_ok, u64I64_eq_ok] at h
  obtain ⟨chain, ⟨-, hc⟩, number, ⟨hn, _⟩, h⟩ := h
  subst chain number
  cases hrow : s.canonical[(chainId, block.number)]? with
  | none => simp only [hrow, reduceCtorEq] at h
  | some row =>
    simp only [hrow, eq_ok] at h
    obtain ⟨_, ⟨hhash, hfin⟩, _, ht, rfl⟩ := h
    obtain ⟨hc, hr⟩ := deleteRecentTransactionLocators_ok ht
    refine ⟨hn, ⟨row, hrow, hhash, hfin⟩, ?_, hr⟩
    simp only [hc]

theorem revertAll_rows : ∀ {s s' : RecentStore μ}, foldExcept (revertBlock chainId)
    s reverted = .ok s' → (∀ block ∈ reverted, block.number ≤ i64Max) ∧ (∀ c n, s'.row c n =
        if c = chainId ∧ n ∈ reverted.map number then none else s.row c n) ∧
      (∀ n row, n ∈ reverted.map number → s.row chainId n = some row →
        row.finality ≠ .finalized) := by
  induction reverted with
  | nil =>
    intro s s' h
    rw [foldExcept_nil, Except.ok.injEq] at h
    subst h; exact ⟨by simp, by simp, by simp⟩
  | cons block rest ih =>
    intro s s' h
    rw [foldExcept_cons, bind_eq_ok] at h
    obtain ⟨t, ht, h⟩ := h
    obtain ⟨hmax, ⟨row, hrow, -, hfin⟩, hcanon, -⟩ := revertBlock_ok ht
    obtain ⟨hmaxs, hrows, hfins⟩ := ih h
    have hstep : ∀ c n, t.row c n = if c = chainId ∧ n = block.number then none else s.row c n := by
      intro c n; simp only [RecentStore.row, hcanon, Table.get?_erase_ite, Prod.mk.injEq]
    refine ⟨?_, fun c n => ?_, fun n r hn hr => ?_⟩
    · simpa using ⟨hmax, hmaxs⟩
    · rw [hrows, hstep]
      simp only [map_cons, mem_cons]
      by_cases h₁ : c = chainId ∧ n ∈ rest.map number
      · rw [if_pos h₁, if_pos ⟨h₁.1, .inr h₁.2⟩]
      · rw [if_neg h₁]
        by_cases h₂ : c = chainId ∧ n = block.number
        · rw [if_pos h₂, if_pos ⟨h₂.1, .inl h₂.2⟩]
        · rw [if_neg h₂, if_neg]
          rintro ⟨hc, rfl | hn⟩
          · exact h₂ ⟨hc, rfl⟩
          · exact h₁ ⟨hc, hn⟩
    · by_cases hb : n = block.number
      · subst hb; rw [hrow, some.injEq] at hr; exact hr ▸ hfin
      · have hn' : n ∈ rest.map number := by
          simpa [hb] using hn
        exact hfins n r hn' (by rw [hstep, if_neg (by simp [hb])]; exact hr)

section Apply

variable [DecidableEq μ] {encodedLen : BlockFrame μ → Nat}

variable {chainId : Nat} {frame : BlockFrame μ}

theorem retainFrame_ok {s s' : RecentStore μ}
    {conflict : Nat → String} (h : retainFrame encodedLen s chainId frame conflict = .ok s') :
    frame.block.number ≤ i64Max ∧ s'.canonical = s.canonical := by
  simp only [retainFrame, bind_eq_ok, u64I64_eq_ok] at h
  obtain ⟨_, ⟨-, rfl⟩, _, ⟨hn, rfl⟩, _, ⟨-, rfl⟩, h⟩ := h
  refine ⟨hn, ?_⟩
  split at h
  · rw [pure_eq_ok] at h; exact h ▸ rfl
  · simp only [eq_ok] at h
    obtain ⟨-, -, rfl⟩ := h; rfl

def frameRow (frame : BlockFrame μ) : CanonicalRow :=
  ⟨frame.block.hash, frame.block.parentHash, frame.block.timestamp, frame.finality⟩

theorem applyFrame_ok {s s' : RecentStore μ} (h : applyFrame encodedLen chainId s frame = .ok s') :
    frame.block.number ≤ i64Max ∧ s.row chainId frame.block.number = none ∧
      s'.canonical = s.canonical.insert (chainId, frame.block.number) (frameRow frame) := by
  simp only [applyFrame, eq_ok, u64I64_eq_ok] at h
  obtain ⟨_, ht, _, ⟨-, rfl⟩, _, ⟨-, rfl⟩, _, ⟨-, rfl⟩, _, hnone, h⟩ := h
  obtain ⟨hn, hc⟩ := retainFrame_ok ht
  rw [hc] at hnone
  refine ⟨hn, hnone, ?_⟩
  rw [(upsertRecentTransactionLocators_ok h).1]; simp only [hc, frameRow]

theorem applyAll_rows {applied : List (BlockFrame μ)} :
    ∀ {s s' : RecentStore μ}, foldExcept (applyFrame encodedLen chainId) s applied = .ok s' →
      (∀ frame ∈ applied, frame.block.number ≤ i64Max ∧ s.row chainId frame.block.number = none ∧
        s'.row chainId frame.block.number = some (frameRow frame)) ∧
      (∀ c n, (c = chainId → n ∉ applied.map fun frame => frame.block.number) →
        s'.row c n = s.row c n) ∧
      ∀ c n row, s.row c n = some row → s'.row c n = some row := by
  induction applied with
  | nil =>
    intro s s' h
    rw [foldExcept_nil, Except.ok.injEq] at h
    subst h; exact ⟨by simp, by simp, fun _ _ _ h => h⟩
  | cons frame rest ih =>
    intro s s' h
    rw [foldExcept_cons, bind_eq_ok] at h
    obtain ⟨t, ht, h⟩ := h
    obtain ⟨hmax, hnone, hcanon⟩ := applyFrame_ok ht
    obtain ⟨hrest, hother, hkeep⟩ := ih h
    have hstep : ∀ c n, t.row c n =
        if c = chainId ∧ n = frame.block.number then some (frameRow frame) else s.row c n := by
      intro c n; simp only [RecentStore.row, hcanon, Table.get?_insert_ite, Prod.mk.injEq]
    have hkept : ∀ c n row, s.row c n = some row → t.row c n = some row := by
      intro c n row hrow
      rw [hstep, if_neg]
      · exact hrow
      · rintro ⟨rfl, rfl⟩; rw [hnone] at hrow; cases hrow
    refine ⟨fun f hf => ?_, fun c n hn => ?_, fun c n row hrow => hkeep _ _ _ (hkept _ _ _ hrow)⟩
    · rcases mem_cons.1 hf with rfl | hf
      · refine ⟨hmax, hnone, hkeep _ _ _ ?_⟩
        rw [hstep, if_pos ⟨rfl, rfl⟩]
      · obtain ⟨hm, hfree, hrow⟩ := hrest f hf
        refine ⟨hm, ?_, hrow⟩
        cases hs : s.row chainId f.block.number with
        | none => rfl
        | some row => rw [hkept _ _ _ hs] at hfree; cases hfree
    · rw [hother c n fun hc => fun hmem => hn hc (mem_cons_of_mem _ hmem), hstep, if_neg]
      rintro ⟨hc, rfl⟩; exact hn hc mem_cons_self

end Apply

/-- What a reorg from `tip` down to just above `ancestor` did. -/
structure SwitchesBranch (s s' : RecentStore μ) (chainId tip : Nat) (ancestor : BlockRef)
    (applied : List (BlockFrame μ)) : Prop where
  below_tip : ancestor.number < tip
  anchored : ∃ row, s.row chainId ancestor.number = some row ∧ row.hash = ancestor.hash ∧
    s'.row chainId ancestor.number = some row
  ascending : Ascending chainId (ancestor.number + 1) ancestor.hash applied
  applied_row : ∀ frame ∈ applied, s'.row chainId frame.block.number = some (frameRow frame)
  applied_column : ∀ frame ∈ applied, frame.block.number ≤ i64Max
  other_row : ∀ c n, (c = chainId → n ∉ applied.map fun frame => frame.block.number) →
    s'.row c n = if c = chainId ∧ ancestor.number < n ∧ n ≤ tip then none else s.row c n
  finalized_row : ∀ c n row, s.row c n = some row → row.finality = .finalized → s'.row c n = some row

variable {ancestor : BlockRef}

theorem SwitchesBranch.exactly {tip : Nat} (h : SwitchesBranch s s' chainId tip ancestor applied)
    (htip : ∀ n, tip < n → s.row chainId n = none)
    {n : Nat} (hn : ancestor.number < n) (row : CanonicalRow) : s'.row chainId n =
    some row ↔ ∃ frame ∈ applied, frame.block.number = n ∧ frameRow frame = row := by
  constructor
  · intro hrow
    by_cases hmem : n ∈ applied.map fun frame => frame.block.number
    · obtain ⟨frame, hf, rfl⟩ := mem_map.1 hmem
      rw [h.applied_row frame hf, some.injEq] at hrow; exact ⟨frame, hf, rfl, hrow⟩
    · rw [h.other_row chainId n fun _ => hmem] at hrow
      split at hrow
      · cases hrow
      · rw [htip n (by omega)] at hrow; cases hrow
  · rintro ⟨frame, hf, rfl, rfl⟩; exact h.applied_row frame hf

theorem SwitchesBranch.linked {tip : Nat} (h : SwitchesBranch s s' chainId tip ancestor applied)
    (hf : frame ∈ applied) : ∃ n, frame.block.number = n + 1 ∧ s'.Link chainId n := by
  obtain ⟨i, hi, rfl⟩ := mem_iff_getElem.1 hf
  have hnum := h.ascending.number_eq i hi
  refine ⟨ancestor.number + i, by omega, ?_⟩
  have hrow := h.applied_row _ hf
  rw [show applied[i].block.number = ancestor.number + i + 1 by omega] at hrow
  cases i with
  | zero =>
    obtain ⟨row, -, hhash, hrow'⟩ := h.anchored
    refine ⟨_, row, hrow, hrow', ?_⟩
    rw [hhash]; exact h.ascending.first _ (by rw [head?_eq_getElem?, getElem?_eq_getElem hi])
  | succ i =>
    have hbelow := h.applied_row _ (getElem_mem (Nat.lt_of_succ_lt hi))
    rw [h.ascending.number_eq i,
      show ancestor.number + 1 + i = ancestor.number + (i + 1) by omega] at hbelow
    exact ⟨_, _, hrow, hbelow, h.ascending.linked i hi⟩

section Apply

variable [DecidableEq μ] {encodedLen : BlockFrame μ → Nat}

theorem switchesBranch_of_ok {s s' : RecentStore μ} {cid : Nat} {rev : List BlockRef}
    {applied : List (BlockFrame μ)} {outcome : RecentReorgOutcome}
    (h : reorgRecentFrames encodedLen s cid rev applied = .ok (s', outcome)) :
    ∃ tip lowest, rev.head? = some tip ∧ rev.getLast? = some lowest ∧
      SwitchesBranch s s' cid tip.number (reorgAncestor lowest) applied := by
  unfold reorgRecentFrames at h
  cases hlast : rev.getLast? with
  | none => simp only [hlast, reduceCtorEq] at h
  | some lowest =>
    simp only [hlast, eq_ok, u64I64_eq_ok, Prod.mk.injEq] at h
    obtain ⟨_, _, _, htips, _, hexpect, _, ⟨-, rfl⟩, _, ⟨-, rfl⟩, _, hanc, _, hrevert, _,
      happly, rfl, -⟩ := h
    obtain ⟨hmax, hrows, hunfin⟩ := revertAll_rows hrevert
    obtain ⟨happ, hother, hkept⟩ := applyAll_rows happly
    cases rev with
    | nil => cases hlast
    | cons tip rest =>
      obtain ⟨hheights, _⟩ := tipFirst_heights htips hlast (hmax tip mem_cons_self)
      have hmem : ∀ n, n ∈ (tip :: rest).map number ↔ lowest.number ≤ n ∧ n ≤ tip.number := by
        intro n; rw [hheights, mem_reverse, mem_range'_1]; omega
      have hanc' : (reorgAncestor lowest).number + 1 = lowest.number := by
        simp only [reorgAncestor]; omega
      obtain ⟨row, hrow, hhash⟩ := map_eq_some_iff.1 hanc
      have hasc := ascending_of_fold hexpect fun frame hf => (happ frame hf).1
      rw [← hanc'] at hasc
      refine ⟨tip, lowest, rfl, rfl, by omega, ⟨row, hrow, hhash, hkept _ _ _ ?_⟩, hasc,
        fun frame hf => (happ frame hf).2.2, fun frame hf => (happ frame hf).1,
        fun c n hn => ?_, fun c n r hr hfin => ?_⟩
      · rw [hrows, if_neg]
        · exact hrow
        · rintro ⟨-, hn⟩; rw [hmem] at hn; omega
      · rw [hother c n hn, hrows]
        simp only [hmem]
        congr 1
        simp only [eq_iff_iff]; omega
      · refine hkept _ _ _ ?_
        rw [hrows, if_neg]
        · exact hr
        · rintro ⟨rfl, hn⟩; exact hunfin n r hn hr hfin

/-- **A reorg keeps one linked chain**: when it succeeds, the rows above the ancestor are the
applied blocks, hash-linked to it, and whatever stood above the first reverted block, which is
nothing when that block is the tip; no finalized row is removed. When it fails, nothing changes. -/
theorem reorgRecentFrames_switchesBranch (s : RecentStore μ) (chainId : Nat)
    (reverted : List BlockRef) (applied : List (BlockFrame μ)) :
    match reorgRecentFrames encodedLen s chainId reverted applied with
    | .ok (s', _) =>
      ∃ tip lowest, reverted.head? = some tip ∧ reverted.getLast? = some lowest ∧
        SwitchesBranch s s' chainId tip.number (reorgAncestor lowest) applied ∧
        (∀ frame ∈ applied, ∃ n, frame.block.number = n + 1 ∧ s'.Link chainId n) ∧
        ((∀ n, tip.number < n → s.row chainId n = none) →
          ∀ n row, (reorgAncestor lowest).number < n → (s'.row chainId n = some row ↔
            ∃ frame ∈ applied, frame.block.number = n ∧ frameRow frame = row))
    | .error _ => commit s (reorgRecentFrames encodedLen s chainId reverted applied) = s := by
  cases h : reorgRecentFrames encodedLen s chainId reverted applied with
  | error e => rfl
  | ok r =>
    obtain ⟨tip, lowest, hhead, hlast, hswitch⟩ := switchesBranch_of_ok h
    exact ⟨tip, lowest, hhead, hlast, hswitch, fun frame hf => hswitch.linked hf,
      fun htip n row hn => hswitch.exactly htip hn row⟩

end Apply

def bareFrame (number : Nat) (hash parent : BlockHash) (finality : Finality) : BlockFrame Unit where
  chainId := 1
  block := ⟨number, hash, parent, 0⟩
  finality := finality
  transactions := .missing ()
  receipts := .missing ()
  otherMaterial := ()
  provenance := ()
  verification := ⟨false, none, ()⟩

def threeAboveAnchor : RecentStore Unit where
  canonical := ((((∅ : Table (Nat × Nat) CanonicalRow).insert (1, 0) ⟨10, 0, 0, .finalized⟩).insert
    (1, 1) ⟨11, 10, 0, .attested⟩).insert (1, 2) ⟨12, 11, 0, .attested⟩).insert
    (1, 3) ⟨13, 12, 0, .attested⟩
  recent := ∅
  locators := ∅

/-- Reverting blocks 2 and 1 of a linked branch of three leaves block 3 above the replacement. -/
theorem reorgRecentFrames_leavesDescendants :
    (∀ n < 3, threeAboveAnchor.Link 1 n) ∧
      (reorgRecentFrames (fun _ => 1) threeAboveAnchor 1 [⟨2, 12, 11, 0⟩, ⟨1, 11, 10, 0⟩]
        [bareFrame 1 21 10 .attested]).toOption.map
          (fun r => [0, 1, 2, 3].map fun n => (r.1.row 1 n).map CanonicalRow.hash) =
        some [some 10, some 21, none, some 13] := by
  refine ⟨fun n _ => ?_, by decide +kernel⟩
  rcases n with _ | _ | _ | n
  · exact ⟨⟨11, 10, 0, .attested⟩, ⟨10, 0, 0, .finalized⟩, by decide, by decide, rfl⟩
  · exact ⟨⟨12, 11, 0, .attested⟩, ⟨11, 10, 0, .attested⟩, by decide, by decide, rfl⟩
  · exact ⟨⟨13, 12, 0, .attested⟩, ⟨12, 11, 0, .attested⟩, by decide, by decide, rfl⟩
  · omega

end Leani.Canonical
