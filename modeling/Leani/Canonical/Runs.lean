import Leani.Canonical.Reconcile

/-!
# Runs of the canonical table

Every table the store's operations produce keeps its heights inside a signed column
(`Reachable.bounded`). On such a table restart reconciliation keeps, finalizes and reverts what
`Reconciles` allows.
-/

namespace Leani.Canonical

open Library Option Table Prod

variable {μ : Type}

inductive RecentOp (μ : Type) where
  | storeCanonicalAnchor (chainId : Nat) (block : BlockRef) (finality : Finality)
  | storeRecentFrameWithin (frame : BlockFrame μ) (hardBytes : Nat)
  | reorgRecentFrames (chainId : Nat) (reverted : List BlockRef) (applied : List (BlockFrame μ))
  | markRecentAttested (chainId through : Nat) (expectedHash : BlockHash)
  | markRecentFinalized (chainId through : Nat) (expectedHash : BlockHash)
  | revertUnprovenRecentBlocks (chainId : Nat) (anchor : BlockRef) (ancestry : List BlockHash)

section Runs

variable [DecidableEq μ] (encodedLen : BlockFrame μ → Nat)

def RecentOp.run (s : RecentStore μ) : RecentOp μ → RecentStore μ
  | storeCanonicalAnchor chainId block finality =>
    commit s (Canonical.storeCanonicalAnchor s chainId block finality)
  | storeRecentFrameWithin frame hardBytes =>
    commit s (Canonical.storeRecentFrameWithin encodedLen s frame hardBytes)
  | reorgRecentFrames chainId reverted applied =>
    commit s (Canonical.reorgRecentFrames encodedLen s chainId reverted applied)
  | markRecentAttested chainId through expectedHash =>
    commit s (Canonical.markRecentAttested s chainId through expectedHash)
  | markRecentFinalized chainId through expectedHash =>
    commit s (Canonical.markRecentFinalized s chainId through expectedHash)
  | revertUnprovenRecentBlocks chainId anchor ancestry =>
    commit s (Canonical.revertUnprovenRecentBlocks s chainId anchor ancestry)

inductive Reachable : RecentStore μ → Prop where
  | empty : Reachable .empty
  | step {s : RecentStore μ} (h : Reachable s) (op : RecentOp μ) : Reachable (op.run encodedLen s)

end Runs

def RecentStore.Bounded (s : RecentStore μ) : Prop :=
  ∀ chainId n row, s.row chainId n = some row → n ≤ i64Max

variable {s s' : RecentStore μ} {chainId : Nat}

theorem RecentStore.Bounded.insert (hs : s.Bounded) {num : Nat}
    {row : CanonicalRow} (hn : num ≤ i64Max)
    (h : s'.canonical = s.canonical.insert (chainId, num) row) : s'.Bounded := by
  intro c n r hr
  simp only [RecentStore.row, h, get?_insert_ite, Prod.mk.injEq] at hr
  split at hr
  · next e => rw [e.2]; exact hn
  · exact hs c n r hr

theorem RecentStore.Bounded.of_rows (hs : s.Bounded)
    (h : ∀ c n row, s'.row c n = some row → ∃ row', s.row c n = some row') : s'.Bounded := by
  intro c n row hrow
  obtain ⟨row', hrow'⟩ := h c n row hrow; exact hs c n row' hrow'

theorem storeCanonicalAnchor_bounded {block : BlockRef} {fin : Finality} {u : Unit} (hs : s.Bounded)
    (h : storeCanonicalAnchor s chainId block fin = .ok (s', u)) : s'.Bounded := by
  simp only [storeCanonicalAnchor, bind_eq_ok, u64I64_eq_ok, ensure_eq_ok] at h
  obtain ⟨_, ⟨-, rfl⟩, _, ⟨hn, rfl⟩, _, ⟨-, rfl⟩, _, -, h⟩ := h
  rw [pure_eq_ok, mk.injEq] at h
  obtain ⟨rfl, -⟩ := h; exact hs.insert hn rfl

variable {expectedHash : BlockHash}

theorem markRecentAttested_bounded {thru promoted : Nat} (hs : s.Bounded)
    (h : markRecentAttested s chainId thru expectedHash = .ok (s', promoted)) : s'.Bounded := by
  simp only [markRecentAttested, bind_eq_ok, u64I64_eq_ok] at h
  obtain ⟨_, ⟨-, rfl⟩, _, ⟨-, rfl⟩, h⟩ := h
  split at h
  · rw [pure_eq_ok, mk.injEq] at h; exact h.1 ▸ hs
  · simp only [eq_ok, mk.injEq] at h
    obtain ⟨_, -, rfl, -⟩ := h
    refine hs.of_rows fun _ _ _ hrow => ?_
    obtain ⟨r, hr, -⟩ := get?_updateWhere_eq_some.1 hrow; exact ⟨r, hr⟩

theorem markRecentFinalized_bounded {thru promoted : Nat} (hs : s.Bounded)
    (h : markRecentFinalized s chainId thru expectedHash = .ok (s', promoted)) : s'.Bounded := by
  obtain ⟨_, _, -, -, -, rfl⟩ := markRecentFinalized_ok h
  refine hs.of_rows fun _ _ _ hrow => ?_
  obtain ⟨r, hr, -⟩ := get?_updateWhere_eq_some.1 hrow; exact ⟨r, hr⟩

section Store

variable [DecidableEq μ] {encodedLen : BlockFrame μ → Nat}

theorem storeRecentFrameWithin_bounded {s s' : RecentStore μ} {frame : BlockFrame μ}
    {hardBytes : Nat} {u : Unit} (hs : s.Bounded)
    (h : storeRecentFrameWithin encodedLen s frame hardBytes = .ok (s', u)) : s'.Bounded := by
  simp only [storeRecentFrameWithin, eq_ok, u64I64_eq_ok, mk.injEq] at h
  obtain ⟨_, -, _, ⟨-, rfl⟩, _, ⟨hn, rfl⟩, _, -, _, -, _, ⟨-, rfl⟩, _, ht, _, ht', rfl, -⟩ := h
  exact hs.insert hn ((upsertRecentTransactionLocators_ok ht').1.trans (retainFrame_ok ht).2)

theorem reorgRecentFrames_bounded {s s' : RecentStore μ} {cid : Nat} {rev : List BlockRef}
    {applied : List (BlockFrame μ)} {outcome : RecentReorgOutcome} (hs : s.Bounded)
    (h : reorgRecentFrames encodedLen s cid rev applied = .ok (s', outcome)) : s'.Bounded := by
  obtain ⟨_, _, -, -, hswitch⟩ := switchesBranch_of_ok h
  intro c n row hrow
  by_cases hn : c = cid ∧ n ∈ applied.map fun frame => frame.block.number
  · obtain ⟨frame, hf, rfl⟩ := List.mem_map.1 hn.2; exact hswitch.applied_column frame hf
  · rw [hswitch.other_row c n fun hc hmem => hn ⟨hc, hmem⟩] at hrow
    split at hrow
    · cases hrow
    · exact hs c n row hrow

end Store

variable {anchor : BlockRef} {ancestry : List BlockHash}

theorem ancestry_length
    (hlen : ancestry.length ≤ satAdd anchor.number 1) (hn : anchor.number ≤ i64Max) :
    ancestryStart anchor ancestry + ancestry.length = anchor.number + 1 := by
  have hsat : satAdd anchor.number 1 = anchor.number + 1 :=
    satAdd_eq (by unfold i64Max at hn; unfold u64Max; omega)
  unfold ancestryStart; omega

variable {start : Nat}

theorem reconciles_of_finalized (h : (unfinalizedRows s chainId).map rowBlock = []) :
    Reconciles s s chainId anchor start ancestry [] := by
  have hfin : ∀ n r, s.row chainId n = some r → ¬ r.finality < .finalized := by
    intro n r hr hfin
    have hmem : rowBlock ((chainId, n), r) ∈ (unfinalizedRows s chainId).map rowBlock :=
      mem_unfinalizedRows.2 ⟨r, hr, hfin, rfl⟩
    rw [h] at hmem; cases hmem
  refine ⟨fun n r hr => ⟨r, hr, fun hf => absurd hf (hfin n r hr)⟩, fun n r _ hr hr' hne => ?_,
    fun _ => ?_, List.Pairwise.nil, fun n _ _ _ hb _ _ => ?_, fun _ _ _ => rfl, rfl⟩
  · rw [hr, some.injEq] at hr'; exact absurd hr'.symm hne
  · constructor
    · intro hmem; cases hmem
    · rintro ⟨hnone, r, hr, -⟩; rw [hnone] at hr; cases hr
  · exact .inl (by rw [hb]; rfl)

variable {reverted : List BlockRef}

theorem reconciles_of_ok (hs : s.Bounded)
    (h : revertUnprovenRecentBlocks s chainId anchor ancestry = .ok (s', reverted)) :
    Reconciles s s' chainId anchor (ancestryStart anchor ancestry) ancestry reverted := by
  simp only [revertUnprovenRecentBlocks, eq_ok, u64I64_eq_ok] at h
  obtain ⟨_, hlast, _, hlen, chain, ⟨-, _⟩, h⟩ := h
  subst chain
  split at h
  · next hempty =>
    rw [pure_eq_ok, mk.injEq] at h
    obtain ⟨rfl, rfl⟩ := h; exact reconciles_of_finalized hempty
  · rw [bind_eq_ok] at h
    obtain ⟨_, hprv, h⟩ := h
    obtain ⟨hsound, hclosed, -⟩ :=
      provenBlocks_ok (fun n row => hs chainId n row) hlast (ancestry_length hlen) hprv
    have hthru : ∀ m ∈ (((unfinalizedRows s chainId).map rowBlock).reverse.find? fun block =>
        ancestral anchor (ancestryStart anchor ancestry) ancestry block).map BlockRef.number,
        m ≤ anchor.number := by
      intro m hm
      obtain ⟨block, hb, rfl⟩ := map_eq_some_iff.1 hm
      have := List.find?_some hb; rw [ancestral, decide_eq_true_eq] at this; exact this.1
    split at h
    · next hnothing =>
      -- The early return writes what the writes would have: nothing.
      rw [pure_eq_ok, mk.injEq] at h
      obtain ⟨rfl, rfl⟩ := h
      refine reconciles_of_rows (t := s) hsound hclosed hthru ?_ ?_
      · rw [hnothing.1, foldExcept_nil]
      · rw [hnothing.2, finalizeProven]
    · simp only [eq_ok, mk.injEq] at h
      obtain ⟨t, hrevert, _, hfinal, rfl, rfl⟩ := h
      exact reconciles_of_rows hsound hclosed hthru hrevert hfinal

theorem revertUnprovenRecentBlocks_bounded (hs : s.Bounded)
    (h : revertUnprovenRecentBlocks s chainId anchor ancestry = .ok (s', reverted)) : s'.Bounded := by
  have hr := reconciles_of_ok hs h
  refine hs.of_rows fun c n row hrow => ?_
  by_cases hc : c = chainId
  · subst hc
    obtain ⟨r, hr, -⟩ := hr.kept n row hrow; exact ⟨r, hr⟩
  · rw [hr.otherChains c n hc] at hrow; exact ⟨row, hrow⟩

section Store

variable [DecidableEq μ] {encodedLen : BlockFrame μ → Nat}

variable {s : RecentStore μ}

theorem RecentOp.run_bounded (hs : s.Bounded) (op : RecentOp μ) : (op.run encodedLen s).Bounded := by
  unfold RecentOp.run
  cases op with
  | storeCanonicalAnchor chainId block finality =>
    exact commit_keeps hs fun s' _ h => storeCanonicalAnchor_bounded hs h
  | storeRecentFrameWithin frame hardBytes =>
    exact commit_keeps hs fun s' _ h => storeRecentFrameWithin_bounded hs h
  | reorgRecentFrames chainId reverted applied =>
    exact commit_keeps hs fun s' _ h => reorgRecentFrames_bounded hs h
  | markRecentAttested chainId through expectedHash =>
    exact commit_keeps hs fun s' _ h => markRecentAttested_bounded hs h
  | markRecentFinalized chainId through expectedHash =>
    exact commit_keeps hs fun s' _ h => markRecentFinalized_bounded hs h
  | revertUnprovenRecentBlocks chainId anchor ancestry =>
    exact commit_keeps hs fun s' _ h => revertUnprovenRecentBlocks_bounded hs h

theorem Reachable.bounded (h : Reachable encodedLen s) : s.Bounded := by
  induction h with
  | empty =>
    intro _ _ _ hrow
    rw [RecentStore.empty, row_mk, Std.ExtTreeMap.getElem?_empty] at hrow; cases hrow
  | step _ op ih => exact op.run_bounded ih

/-- **Restart reconciliation keeps only proven blocks**: on every table a run produces, either it
keeps, finalizes and reverts as `Reconciles` allows, or it fails and changes nothing. -/
theorem revertUnprovenRecentBlocks_reconciles (hs : Reachable encodedLen s)
    (chainId : Nat) (anchor : BlockRef) (ancestry : List BlockHash) :
    (∀ s' reverted, revertUnprovenRecentBlocks s chainId anchor ancestry = .ok (s', reverted) →
      Reconciles s s' chainId anchor (ancestryStart anchor ancestry) ancestry reverted) ∧
    ∀ e, revertUnprovenRecentBlocks s chainId anchor ancestry = .error e →
      commit s (revertUnprovenRecentBlocks s chainId anchor ancestry) = s := by
  refine ⟨fun s' reverted h => reconciles_of_ok hs.bounded h, fun e h => ?_⟩
  rw [h, commit_error]

end Store

theorem revertUnprovenRecentBlocks_eq_ok {t : RecentStore μ}
 {rows : List ((Nat × Nat) × CanonicalRow)} {prv : List Nat}
    (hlast : ∀ hash ∈ ancestry.getLast?, hash = anchor.hash)
    (hlen : ancestry.length ≤ satAdd anchor.number 1) (hchain : chainId ≤ i64Max)
    (hstart : ancestryStart anchor ancestry = start)
    (hrows : unfinalizedRows s chainId = rows) (hne : rows ≠ [])
    (hprv : provenBlocks s chainId anchor start ancestry (rows.map rowBlock) = .ok prv)
    (hreverted : revertedBlocks anchor prv rows = reverted)
    (hrevert : foldExcept (revertRow chainId) s reverted = .ok t)
    (hfinal : finalizeProven t chainId (((rows.map rowBlock).reverse.find? fun block =>
      ancestral anchor start ancestry block).map BlockRef.number) = .ok s') :
    revertUnprovenRecentBlocks s chainId anchor ancestry = .ok (s', reverted) := by
  simp only [revertUnprovenRecentBlocks, ensure_of _ hlast, ensure_of _ hlen, ok_bind,
    u64I64_eq_ok.2 ⟨hchain, rfl⟩, hstart, hrows, List.map_eq_nil_iff, hne, if_false, hprv,
    hreverted, hrevert, hfinal]
  split
  · next h =>
    rw [h.1, foldExcept_nil, Except.ok.injEq] at hrevert
    rw [h.2, finalizeProven, ← hrevert, Except.ok.injEq] at hfinal; rw [← hfinal]; rfl
  · rfl

def detachedFinality : RecentStore Unit where
  canonical := Table.insertRows ∅ [((1, 10), ⟨110, 109, 0, .finalized⟩),
    ((1, 20), ⟨120, 119, 0, .finalized⟩), ((1, 21), ⟨121, 120, 0, .attested⟩)]
  recent := Table.insertRows ∅ [((1, 21, 121), ⟨bareFrame 21 121 120 .attested, 1⟩)]
  locators := ∅

theorem detachedFinality_reachable : Reachable (fun _ => 1) detachedFinality :=
  ((Reachable.empty.step (.storeCanonicalAnchor 1 ⟨10, 110, 109, 0⟩ .finalized)).step
    (.storeCanonicalAnchor 1 ⟨20, 120, 119, 0⟩ .finalized)).step
    (.storeRecentFrameWithin (bareFrame 21 121 120 .attested) u64Max)

def finalityBelowAncestry : RecentStore Unit where
  canonical := Table.insertRows ∅ [((1, 4), ⟨104, 103, 0, .attested⟩),
    ((1, 5), ⟨105, 104, 0, .finalized⟩), ((1, 7), ⟨207, 206, 0, .attested⟩)]
  recent := Table.insertRows ∅ [((1, 4, 104), ⟨bareFrame 4 104 103 .attested, 1⟩),
    ((1, 5, 105), ⟨bareFrame 5 105 104 .finalized, 1⟩),
    ((1, 7, 207), ⟨bareFrame 7 207 206 .attested, 1⟩)]
  locators := ∅

theorem finalityBelowAncestry_reachable : Reachable (fun _ => 1) finalityBelowAncestry :=
  ((Reachable.empty.step (.storeRecentFrameWithin (bareFrame 4 104 103 .attested) u64Max)).step
    (.storeRecentFrameWithin (bareFrame 5 105 104 .finalized) u64Max)).step
    (.storeRecentFrameWithin (bareFrame 7 207 206 .attested) u64Max)

def attestedOnUnattested : RecentStore Unit where
  canonical := Table.insertRows ∅ [((1, 100), ⟨200, 199, 0, .finalized⟩),
    ((1, 101), ⟨201, 200, 0, .unattested⟩), ((1, 102), ⟨202, 201, 0, .attested⟩)]
  recent := Table.insertRows ∅ [((1, 101, 201), ⟨bareFrame 101 201 200 .unattested, 1⟩),
    ((1, 102, 202), ⟨bareFrame 102 202 201 .attested, 1⟩)]
  locators := ∅

theorem attestedOnUnattested_reachable : Reachable (fun _ => 1) attestedOnUnattested :=
  ((Reachable.empty.step (.storeCanonicalAnchor 1 ⟨100, 200, 199, 0⟩ .finalized)).step
    (.storeRecentFrameWithin (bareFrame 101 201 200 .unattested) u64Max)).step
    (.storeRecentFrameWithin (bareFrame 102 202 201 .attested) u64Max)

theorem revert_detachedFinality : revertUnprovenRecentBlocks detachedFinality 1 ⟨10, 110, 109, 0⟩ [] =
      .ok (detachedFinality, []) := by
  have hrows : unfinalizedRows detachedFinality 1 = [((1, 21), ⟨121, 120, 0, .attested⟩)] := by
    decide +kernel
  have hstart : ancestryStart ⟨10, 110, 109, 0⟩ [] = 11 := by decide
  have hprv : provenBlocks detachedFinality 1 ⟨10, 110, 109, 0⟩ 11 []
      [⟨21, 121, 120, 0⟩] = .ok [21] := by rfl
  exact revertUnprovenRecentBlocks_eq_ok (by simp) (by decide) (by decide) hstart hrows (by simp)
    hprv (by decide) (foldExcept_nil _ _) rfl

theorem revert_finalityBelowAncestry : revertUnprovenRecentBlocks finalityBelowAncestry 1 ⟨10,
    210, 209, 0⟩ [207, 208, 209, 210] = .ok ({ finalityBelowAncestry with
        canonical := finalityBelowAncestry.canonical.updateWhere
          (fun key row => key.1 = 1 ∧ key.2 ≤ 7 ∧ row.finality < .finalized)
          fun row => { row with finality := .finalized } }, []) := by
  have hrows : unfinalizedRows finalityBelowAncestry 1 =
      [((1, 4), ⟨104, 103, 0, .attested⟩), ((1, 7), ⟨207, 206, 0, .attested⟩)] := by
    decide +kernel
  have hstart : ancestryStart ⟨10, 210, 209, 0⟩ [207, 208, 209, 210] = 7 := by decide
  have hprv : provenBlocks finalityBelowAncestry 1 ⟨10, 210, 209, 0⟩ 7 [207, 208, 209, 210]
      [⟨4, 104, 103, 0⟩, ⟨7, 207, 206, 0⟩] = .ok [4, 7] := by rfl
  exact revertUnprovenRecentBlocks_eq_ok (by simp) (by decide) (by decide) hstart hrows (by simp)
    hprv (by decide) (foldExcept_nil _ _) rfl

theorem revert_attestedOnUnattested : revertUnprovenRecentBlocks attestedOnUnattested 1 ⟨100,
    200, 199, 0⟩ [] = .ok ({ attestedOnUnattested with
        canonical := attestedOnUnattested.canonical.deleteWhere fun key row =>
          key = (1, 101) ∧ row.hash = 201 }, [⟨101, 201, 200, 0⟩]) := by
  have hrows : unfinalizedRows attestedOnUnattested 1 =
      [((1, 101), ⟨201, 200, 0, .unattested⟩), ((1, 102), ⟨202, 201, 0, .attested⟩)] := by
    decide +kernel
  have hstart : ancestryStart ⟨100, 200, 199, 0⟩ [] = 101 := by decide
  have hprv : provenBlocks attestedOnUnattested 1 ⟨100, 200, 199, 0⟩ 101 []
      [⟨101, 201, 200, 0⟩, ⟨102, 202, 201, 0⟩] = .ok [102, 101] := by rfl
  exact revertUnprovenRecentBlocks_eq_ok (by simp) (by decide) (by decide) hstart hrows (by simp)
    hprv (by decide) rfl rfl

theorem revertUnprovenRecentBlocks_reconciles_attestedOnUnattested :
    ∃ s', revertUnprovenRecentBlocks attestedOnUnattested 1 ⟨100, 200, 199, 0⟩ [] =
        .ok (s', [⟨101, 201, 200, 0⟩]) ∧
      Reconciles attestedOnUnattested s' 1 ⟨100, 200, 199, 0⟩
        (ancestryStart ⟨100, 200, 199, 0⟩ []) [] [⟨101, 201, 200, 0⟩] :=
  ⟨_, revert_attestedOnUnattested,
    (revertUnprovenRecentBlocks_reconciles attestedOnUnattested_reachable 1 ⟨100, 200, 199, 0⟩
      []).1 _ _ revert_attestedOnUnattested⟩

theorem not_pathDown_of_hole {m n k : Nat} (hk : s.row chainId k = none)
    (h₁ : n ≤ k) (h₂ : k ≤ m) : ¬ s.PathDown chainId m n := by
  intro h
  have hsome := (h.split h₁ h₂).1.isSome; rw [hk] at hsome; cases hsome

/-- Reconciliation keeps the child of a detached finalized row, finalizes the parent of one below
the ancestry, and reverts the unattested parent of a row it keeps. -/
theorem revertUnprovenRecentBlocks_beyondTheAnchor :
    (∃ s' reverted, Reachable (fun _ => 1) detachedFinality ∧
      revertUnprovenRecentBlocks detachedFinality 1 ⟨10, 110, 109, 0⟩ [] = .ok (s', reverted) ∧
      s'.row 1 21 = some ⟨121, 120, 0, .attested⟩ ∧
      ¬ FinalizedAncestor detachedFinality 1 21 ∧ ¬ detachedFinality.PathDown 1 21 10) ∧
    (∃ s' reverted, Reachable (fun _ => 1) finalityBelowAncestry ∧
      revertUnprovenRecentBlocks finalityBelowAncestry 1 ⟨10, 210, 209, 0⟩ [207, 208, 209, 210] =
        .ok (s', reverted) ∧
      finalityBelowAncestry.row 1 4 = some ⟨104, 103, 0, .attested⟩ ∧
      s'.row 1 4 = some ⟨104, 103, 0, .finalized⟩ ∧
      ¬ AnchorAncestor finalityBelowAncestry 1 ⟨10, 210, 209, 0⟩ 7 [207, 208, 209, 210] 4 104) ∧
    (∃ s' reverted, Reachable (fun _ => 1) attestedOnUnattested ∧
      revertUnprovenRecentBlocks attestedOnUnattested 1 ⟨100, 200, 199, 0⟩ [] =
        .ok (s', reverted) ∧
      attestedOnUnattested.Link 1 101 ∧ (s'.row 1 102).isSome ∧ s'.row 1 101 = none) := by
  refine ⟨⟨_, _, detachedFinality_reachable, revert_detachedFinality, by decide +kernel, ?_, ?_⟩,
    ⟨_, _, finalityBelowAncestry_reachable, revert_finalityBelowAncestry, by decide +kernel,
      by decide +kernel, ?_⟩,
    ⟨_, _, attestedOnUnattested_reachable, revert_attestedOnUnattested, ?_, by decide +kernel,
      by decide +kernel⟩⟩
  · rintro ⟨_, row, hrow, hfin, hpath⟩
    rcases Nat.eq_or_lt_of_le hpath.le with rfl | hlt
    · rw [show detachedFinality.row 1 21 = some ⟨121, 120, 0, .attested⟩ by decide +kernel,
        some.injEq] at hrow
      rw [← hrow] at hfin; cases hfin
    · exact not_pathDown_of_hole (k := 22) (by decide +kernel) (by omega) hlt hpath
  · exact not_pathDown_of_hole (k := 15) (by decide +kernel) (by omega) (by omega)
  · -- The known links from the anchor end at height 6, where there is no row.
    have key : ∀ n hash, AnchorAncestor finalityBelowAncestry 1 ⟨10, 210, 209, 0⟩ 7
        [207, 208, 209, 210] n hash → 6 ≤ n := by
      intro n hash h
      induction h with
      | anchor => decide
      | @ancestry n child parent _ _ hp _ =>
        have := (ancestryAt_eq_some.1 hp).1; omega
      | @row n child _ hc ih =>
        rcases Nat.eq_or_lt_of_le ih with h6 | h6
        · rw [← h6, show finalityBelowAncestry.row 1 6 = none by decide +kernel] at hc
          cases hc
        · omega
    exact fun h => absurd (key 4 104 h) (by decide)
  · exact ⟨⟨202, 201, 0, .attested⟩, ⟨201, 200, 0, .unattested⟩, by decide +kernel,
      by decide +kernel, rfl⟩

/-- The block with this hash is finalized at height `n`. -/
def Settled (chain n : Nat) (hash : BlockHash) (s : RecentStore μ) : Prop :=
  ∃ row, s.row chain n = some row ∧ row.hash = hash ∧ row.finality = .finalized

variable {chain number n thru promoted : Nat} {hash : BlockHash} {fin : Finality} {u : Unit}

theorem Settled.keep (h : Settled chain n hash s)
    (hkeep : ∀ row, s.row chain n = some row → row.finality = .finalized →
      s'.row chain n = some row) : Settled chain n hash s' := by
  obtain ⟨row, hrow, hhash, hfin⟩ := h
  exact ⟨row, hkeep row hrow hfin, hhash, hfin⟩

theorem Settled.put {stored : CanonicalRow} (h : Settled chain n hash s)
    (hput : ∀ row, s.row chainId number = some row →
      stored.hash = row.hash ∧ row.finality ≤ stored.finality)
    (hrows : s'.canonical = s.canonical.insert (chainId, number) stored) :
    Settled chain n hash s' := by
  obtain ⟨row, hrow, hhash, hfin⟩ := h
  rw [Settled, RecentStore.row, hrows, get?_insert_ite]
  split
  · next hkey =>
    rw [Prod.mk.injEq] at hkey
    obtain ⟨rfl, rfl⟩ := hkey
    obtain ⟨hsame, hlevel⟩ := hput row hrow
    rw [hfin] at hlevel
    exact ⟨stored, rfl, hsame.trans hhash, (Finality.le_finalized _).antisymm hlevel⟩
  · exact ⟨row, hrow, hhash, hfin⟩

theorem Settled.storeCanonicalAnchor {block : BlockRef} (hs : Settled chain n hash s)
    (h : storeCanonicalAnchor s chainId block fin = .ok (s', u)) : Settled chain n hash s' := by
  simp only [Canonical.storeCanonicalAnchor, bind_eq_ok, u64I64_eq_ok, ensure_eq_ok] at h
  obtain ⟨_, ⟨-, rfl⟩, _, ⟨-, rfl⟩, _, -, _, -, h⟩ := h
  rw [pure_eq_ok, Prod.mk.injEq] at h
  obtain ⟨rfl, -⟩ := h
  refine hs.put (fun row hrow => ?_) rfl
  rw [RecentStore.row] at hrow
  simp only [hrow]
  exact ⟨trivial, le_max_left ..⟩

theorem Settled.markRecentAttested (hs : Settled chain n hash s)
    (h : markRecentAttested s chainId thru expectedHash = .ok (s', promoted)) :
    Settled chain n hash s' := by
  simp only [Canonical.markRecentAttested, bind_eq_ok, u64I64_eq_ok] at h
  obtain ⟨_, ⟨-, rfl⟩, _, ⟨-, rfl⟩, h⟩ := h
  split at h
  · rw [pure_eq_ok, Prod.mk.injEq] at h
    exact h.1 ▸ hs
  · simp only [eq_ok, Prod.mk.injEq] at h
    obtain ⟨_, -, rfl, -⟩ := h
    refine hs.keep fun row hrow hfin => (get?_updateWhere_of_not fun row' hrow' => ?_).trans hrow
    obtain rfl : row = row' := some.inj (hrow.symm.trans hrow')
    simp [hfin]

theorem Settled.revertUnprovenRecentBlocks (hs : Settled chain n hash s)
    (h : revertUnprovenRecentBlocks s chainId anchor ancestry = .ok (s', reverted)) :
    Settled chain n hash s' := by
  simp only [Canonical.revertUnprovenRecentBlocks, eq_ok, u64I64_eq_ok] at h
  obtain ⟨_, -, _, -, chain', ⟨-, rfl⟩, h⟩ := h
  split at h
  · rw [pure_eq_ok, Prod.mk.injEq] at h
    exact h.1 ▸ hs
  · rw [bind_eq_ok] at h
    obtain ⟨_, -, h⟩ := h
    split at h
    · rw [pure_eq_ok, Prod.mk.injEq] at h
      exact h.1 ▸ hs
    · simp only [eq_ok, Prod.mk.injEq] at h
      obtain ⟨_, hrevert, _, hfinal, rfl, -⟩ := h
      obtain ⟨-, hother, -, hrow⟩ := reconciled_rows hrevert hfinal
      refine hs.keep fun row hr hfin => ?_
      have hopen : ¬ row.finality < .finalized := by rw [hfin]; exact lt_irrefl _
      by_cases hchain : chain = chain'
      · subst hchain
        rw [(hrow n row hr).2 fun hgone => hopen hgone.1, if_neg fun h => hopen h.2]
      · rw [hother _ _ hchain, hr]

section Store

variable [DecidableEq μ] {encodedLen : BlockFrame μ → Nat}

theorem Settled.storeRecentFrameWithin {s s' : RecentStore μ} {frame : BlockFrame μ}
    {hardBytes : Nat} (hs : Settled chain n hash s)
    (h : storeRecentFrameWithin encodedLen s frame hardBytes = .ok (s', u)) :
    Settled chain n hash s' := by
  simp only [Canonical.storeRecentFrameWithin, eq_ok, u64I64_eq_ok, Prod.mk.injEq] at h
  obtain ⟨_, -, _, ⟨-, rfl⟩, _, ⟨-, rfl⟩, _, -, _, -, _, -, _, ht, _, ht', rfl, -⟩ := h
  refine hs.put (fun row hrow => ?_)
    ((upsertRecentTransactionLocators_ok ht').1.trans (retainFrame_ok ht).2)
  rw [RecentStore.row] at hrow
  rw [hrow]
  exact ⟨rfl, le_max_left ..⟩

theorem Settled.run {s : RecentStore μ} (hs : Settled chain n hash s) (op : RecentOp μ) :
    Settled chain n hash (op.run encodedLen s) := by
  unfold RecentOp.run
  cases op with
  | storeCanonicalAnchor => exact commit_keeps hs fun _ _ h => hs.storeCanonicalAnchor h
  | storeRecentFrameWithin => exact commit_keeps hs fun _ _ h => hs.storeRecentFrameWithin h
  | reorgRecentFrames =>
    refine commit_keeps hs fun _ _ h => ?_
    obtain ⟨_, _, -, -, hswitch⟩ := switchesBranch_of_ok h
    exact hs.keep fun row hrow hfin => hswitch.finalized_row _ _ row hrow hfin
  | markRecentAttested => exact commit_keeps hs fun _ _ h => hs.markRecentAttested h
  | markRecentFinalized =>
    refine commit_keeps hs fun _ _ h => ?_
    obtain ⟨_, _, -, -, -, rfl⟩ := markRecentFinalized_ok h
    refine hs.keep fun row hrow hfin => (get?_updateWhere_of_not fun row' hrow' => ?_).trans hrow
    obtain rfl : row = row' := some.inj (hrow.symm.trans hrow')
    simp [hfin]
  | revertUnprovenRecentBlocks =>
    exact commit_keeps hs fun _ _ h => hs.revertUnprovenRecentBlocks h

/-- **Finality is final**: no run of the table's operations, from whatever table, removes a finalized
block, gives its height another block or takes its finality back. -/
theorem run_keeps_finalized (encodedLen : BlockFrame μ → Nat) (ops : List (RecentOp μ))
    {s : RecentStore μ} (h : Settled chain n hash s) :
    Settled chain n hash (ops.foldl (RecentOp.run encodedLen) s) := by
  induction ops generalizing s with
  | nil => exact h
  | cons op ops ih => exact ih (h.run op)

end Store

theorem run_keeps_finalized_anchor : Settled 1 20 120
    ([.markRecentFinalized 1 21 121, .revertUnprovenRecentBlocks 1 ⟨10, 110, 109, 0⟩ []].foldl
      (RecentOp.run fun _ => 1) detachedFinality) :=
  run_keeps_finalized _ _ ⟨⟨120, 119, 0, .finalized⟩, rfl, rfl, rfl⟩

end Leani.Canonical
