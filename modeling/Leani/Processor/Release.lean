import Leani.Processor.Subscriptions
import Leani.Processor.Invisible

/-!
# What deleting a subscription lets go of

Rows go one by one and intervals go whole, so a deletion uncovers the blocks that only the deleted
subscription owned unless an interval that holds them meets a range of another owner. That the
cursor is right afterwards rests on one more invariant: a cursor stands wherever something is
covered.
-/

namespace Leani.Processor

open Library Std Delivery Option Table Bool Instance Prod Store

def Covered (s : Store) (n : Nat) : Prop := CoveredBy (fun _ => true) s n

namespace Instance

variable (i : Instance)

def OwnedBy (subscriptionId : String) (first last : Nat) : Prop :=
  ∃ a b : Nat, i.subscriptionOwners[(subscriptionId, a)]? = some b ∧ a ≤ last ∧ first ≤ b

def OwnedByOthers (subscriptionId : String) (first last : Nat) : Prop :=
  (∃ a b : Nat, i.sharedOwner[a]? = some b ∧ a ≤ last ∧ first ≤ b) ∨
    ∃ other ≠ subscriptionId, i.OwnedBy other first last

variable {subscriptionId : String} {first last : Nat}

theorem OwnedBy.mono {i : Instance} {first' last' : Nat} (h : i.OwnedBy subscriptionId first last)
    (hfst : first' ≤ first) (hlast : last ≤ last') : i.OwnedBy subscriptionId first' last' := by
  obtain ⟨a, b, hb, hle, hle'⟩ := h
  exact ⟨a, b, hb, Nat.le_trans hle hlast, Nat.le_trans hfst hle'⟩

theorem OwnedByOthers.mono {i : Instance} {first' last' : Nat}
    (h : i.OwnedByOthers subscriptionId first last) (hfst : first' ≤ first)
    (hlast : last ≤ last') : i.OwnedByOthers subscriptionId first' last' := by
  rcases h with ⟨a, b, hb, hle, hle'⟩ | ⟨other, hne, howned⟩
  · exact .inl ⟨a, b, hb, Nat.le_trans hle hlast, Nat.le_trans hfst hle'⟩
  · exact .inr ⟨other, hne, howned.mono hfst hlast⟩

def disowned (subscriptionId : String) : Instance :=
  { i with
    subscriptionOwners := Table.deleteWhere i.subscriptionOwners fun key _ =>
      key.1 = subscriptionId }

theorem disowned_owners {id : String} {a b : Nat} :
    (i.disowned subscriptionId).subscriptionOwners[(id, a)]? = some b ↔
      i.subscriptionOwners[(id, a)]? = some b ∧ id ≠ subscriptionId := by
  change (deleteWhere _ _)[(id, a)]? = some b ↔ _
  rw [get?_deleteWhere_eq_some, decide_eq_false_iff_not]

theorem ownsWithin_disowned : (i.disowned subscriptionId).ownsWithin first last = true ↔
      i.OwnedByOthers subscriptionId first last := by
  rw [ownsWithin, or_eq_true, isSome_firstWhere, isSome_firstWhere]
  simp only [and_eq_true, decide_eq_true_iff]
  refine or_congr Iff.rfl ⟨?_, ?_⟩
  · rintro ⟨⟨other, a⟩, b, hb, hle⟩
    rw [disowned_owners] at hb; exact ⟨other, hb.2, a, b, hb.1, hle⟩
  · rintro ⟨other, hne, a, b, hb, hle⟩; exact ⟨(other, a), b, (i.disowned_owners).2 ⟨hb, hne⟩, hle⟩

theorem any_rangesOf : ((i.rangesOf subscriptionId).any fun range =>
    range.1 ≤ last && first ≤ range.2) = true ↔ i.OwnedBy subscriptionId first last := by
  simp only [List.any_eq_true, rangesOf, List.mem_map, and_eq_true, decide_eq_true_iff]
  constructor
  · rintro ⟨range, ⟨⟨⟨_, a⟩, b⟩, hrow, rfl⟩, hle⟩
    rw [mem_rowsWhere, decide_eq_true_iff] at hrow
    obtain ⟨hb, rfl⟩ := hrow; exact ⟨a, b, hb, hle⟩
  · rintro ⟨a, b, hb, hle⟩
    exact ⟨_, ⟨((subscriptionId, a), b), mem_rowsWhere.2 ⟨hb, decide_eq_true rfl⟩, rfl⟩, hle⟩

def OnlyOwnedBy (subscriptionId : String) (n : Nat) : Prop :=
  i.OwnedBy subscriptionId n n ∧ ¬ i.OwnedByOthers subscriptionId n n

theorem orphaned_disowned {n : Nat} : (i.disowned subscriptionId).orphaned (i.rangesOf subscriptionId)
    n = true ↔ i.OnlyOwnedBy subscriptionId n := by
  rw [orphaned, and_eq_true, any_rangesOf, not_eq_true', owned, ← not_eq_true, ownsWithin_disowned]
  rfl

theorem orphanedInterval_disowned (h : Folded i.toStore) {a b : Nat} (hb : i.intervals[a]? = some b) :
    (i.disowned subscriptionId).orphanedInterval (i.rangesOf subscriptionId) a b = true ↔
      i.OwnedBy subscriptionId a b ∧ ¬ i.OwnedByOthers subscriptionId a b := by
  rw [orphanedInterval, and_eq_true, and_eq_true, any_rangesOf, not_eq_true',
    ← not_eq_true, ownsWithin_disowned, isSome_firstWhere, and_iff_left]
  obtain ⟨e, segment, hs, hstart, -⟩ := h.proved hb (Nat.le_refl a) (h.ordered hb)
  exact ⟨e, segment, hs, decide_eq_true hstart⟩

section Release

variable {i : Instance} {d : ProcessorDescriptor} {subscriptionId : String}

theorem release_eq_of_output (hd : d.output.mode = .none) : let j := i.disowned subscriptionId
    let ranges := i.rangesOf subscriptionId
    i.release d subscriptionId =
      let kept := { j with
        intervals := deleteWhere i.intervals (j.orphanedInterval ranges)
        segments := deleteWhere i.segments fun _ seg =>
          (i.intervals[seg.intervalStart]?).any (j.orphanedInterval ranges seg.intervalStart)
        coverage := deleteWhere i.coverage fun num _ => j.orphaned ranges num
        applied := deleteWhere i.applied fun key _ => j.orphaned ranges key.1
        journal := deleteWhere i.journal fun key row => row.finalized && j.orphaned ranges key.1 }
      { kept with
        cursor := i.cursor.bind fun cursor => kept.highestCoverageCursor d cursor.chainId } := by
  intro j ranges
  unfold release; rw [if_pos hd]; rfl

variable (hd : d.output.mode = .none)

include hd

theorem release_interval (h : Folded i.toStore) {a b : Nat} :
    (i.release d subscriptionId).intervals[a]? = some b ↔ i.intervals[a]? = some b ∧
      (i.OwnedBy subscriptionId a b → i.OwnedByOthers subscriptionId a b) := by
  rw [release_eq_of_output hd]
  rw [get?_deleteWhere_eq_some]
  refine and_congr_right fun hb => ?_
  rw [← not_eq_true, orphanedInterval_disowned i h hb]; exact not_and_not_right

variable {n : Nat}

theorem release_coverage {row : CoverageRow} : (i.release d subscriptionId).coverage[n]? =
    some row ↔ i.coverage[n]? = some row ∧ ¬ i.OnlyOwnedBy subscriptionId n := by
  rw [release_eq_of_output hd]; rw [get?_deleteWhere_eq_some, ← not_eq_true, orphaned_disowned]

theorem release_applied {hash csum : BlockHash} :
    (i.release d subscriptionId).applied[(n, hash)]? = some csum ↔
      i.applied[(n, hash)]? = some csum ∧ ¬ i.OnlyOwnedBy subscriptionId n := by
  rw [release_eq_of_output hd]; rw [get?_deleteWhere_eq_some, ← not_eq_true, orphaned_disowned]

theorem release_journal {hash : BlockHash} {row : JournalRow} :
    (i.release d subscriptionId).journal[(n, hash)]? = some row ↔ i.journal[(n, hash)]? = some row ∧
        ¬ (row.finalized = true ∧ i.OnlyOwnedBy subscriptionId n) := by
  rw [release_eq_of_output hd]
  rw [get?_deleteWhere_eq_some, ← not_eq_true, and_eq_true, orphaned_disowned]

theorem release_compacted (h : Folded i.toStore) :
    Compacted (i.release d subscriptionId).toStore n ↔ ∃ a b, i.intervals[a]? = some b ∧
      a ≤ n ∧ n ≤ b ∧ (i.OwnedBy subscriptionId a b → i.OwnedByOthers subscriptionId a b) := by
  constructor
  · rintro ⟨a, b, hb, hle, hle'⟩
    obtain ⟨hb, hothers⟩ := (release_interval hd h).1 hb; exact ⟨a, b, hb, hle, hle', hothers⟩
  · rintro ⟨a, b, hb, hle, hle', hothers⟩
    exact ⟨a, b, (release_interval hd h).2 ⟨hb, hothers⟩, hle, hle'⟩

theorem release_cursor : (i.release d subscriptionId).cursor = i.cursor.bind fun cursor =>
      (i.release d subscriptionId).highestCoverageCursor d cursor.chainId := by
  rw [release_eq_of_output hd]; rfl

theorem covered_of_release (h : Folded i.toStore)
    (hn : Covered (i.release d subscriptionId).toStore n) : Covered i.toStore n := by
  rcases hn with ⟨row, hrow, -⟩ | hc
  · exact .inl ⟨row, ((release_coverage hd).1 hrow).1, rfl⟩
  · obtain ⟨a, b, hb, hle, hle', -⟩ := (release_compacted hd h).1 hc
    exact .inr ⟨a, b, hb, hle, hle'⟩

end Release

end Instance

variable {s s' : Store}

theorem segments_greatest (h : Folded s) :
    Greatest (Compacted s) ((lastWhere s.segments fun _ _ => true).map (·.1)) := by
  cases hlast : lastWhere s.segments fun _ _ => true with
  | none =>
    rintro n ⟨a, b, hb, hle, hle'⟩
    obtain ⟨e, segment, hs, -⟩ := h.proved hb hle hle'
    exact lastWhere_eq_none.1 hlast e segment hs rfl
  | some found =>
    obtain ⟨_, segment⟩ := found
    obtain ⟨hs, -, hmax⟩ := lastWhere_eq_some hlast
    refine ⟨h.compacted hs (h.within hs).1 le_rfl, ?_⟩
    rintro n ⟨a, b, hb, hle, hle'⟩
    obtain ⟨e, segment', hs', -, -, hend⟩ := h.proved hb hle hle'
    rcases hmax e segment' hs' rfl with rfl | hlt
    · exact hend
    · exact Nat.le_trans hend (Nat.compare_eq_lt.1 hlt).le

theorem highestCoverageCursor_spec (h : Folded s) (d : ProcessorDescriptor) (cid : Nat) :
    Greatest (Covered s) ((s.highestCoverageCursor d cid).map (·.blockNumber)) ∧
      ∀ cursor ∈ s.highestCoverageCursor d cid,
        s.coverageHash cursor.blockNumber = some cursor.blockHash := by
  have hmax := (lastWhere_greatest s.coverage fun _ => true).or (segments_greatest h)
  unfold highestCoverageCursor
  cases hexact : lastWhere s.coverage fun _ _ => true with
  | none =>
    rw [hexact] at hmax
    have hnone : ∀ n : Nat, s.coverage[n]? = none := by
      intro n
      rw [eq_none_iff_forall_ne_some]
      exact fun row hrow => lastWhere_eq_none.1 hexact n row hrow rfl
    cases hcompact : lastWhere s.segments fun _ _ => true with
    | none =>
      rw [hcompact] at hmax; exact ⟨hmax, nofun⟩
    | some found =>
      rw [hcompact] at hmax
      refine ⟨hmax, fun cursor hc => ?_⟩
      cases hc; rw [coverageHash, hnone, (lastWhere_eq_some hcompact).1]; rfl
  | some found =>
    rw [hexact] at hmax
    obtain ⟨num, row⟩ := found
    obtain ⟨hrow, -, hhighest⟩ := lastWhere_eq_some hexact
    cases hcompact : lastWhere s.segments fun _ _ => true with
    | none =>
      rw [hcompact] at hmax
      refine ⟨hmax, fun cursor hc => ?_⟩
      cases hc; rw [coverageHash, hrow]
    | some found =>
      rw [hcompact] at hmax
      obtain ⟨segEnd, _⟩ := found
      change Greatest (Covered s) (some (max num segEnd)) at hmax
      dsimp only
      by_cases hle : segEnd ≤ num
      · rw [if_pos hle]
        rw [Nat.max_eq_left hle] at hmax
        refine ⟨hmax, fun cursor hc => ?_⟩
        cases hc; rw [coverageHash, hrow]
      · rw [if_neg hle]
        rw [Nat.max_eq_right (Nat.le_of_not_le hle)] at hmax
        refine ⟨hmax, fun cursor hc => ?_⟩
        cases hc
        -- The last row lies below the segment's end.
        have hnone : s.coverage[segEnd]? = none := by
          rw [eq_none_iff_forall_ne_some]
          intro row' hrow'
          rcases hhighest segEnd row' hrow' rfl with rfl | hlt
          · exact hle le_rfl
          · exact hle (Nat.compare_eq_lt.1 hlt).le
        rw [coverageHash, hnone, (lastWhere_eq_some hcompact).1]; rfl

def Headed (s : Store) : Prop := ∀ n, Covered s n → s.cursor ≠ none

theorem Headed.congr (h : Headed s) (hcovg : s'.coverage = s.coverage)
    (hivls : s'.intervals = s.intervals) (hcur : s'.cursor = s.cursor) : Headed s' := by
  intro n hn
  rw [Covered, CoveredBy, Compacted, hcovg, hivls] at hn; rw [hcur]; exact h n hn

variable {p : Processor}

theorem Headed.forwards (h : Headed s) (hf : Forwards p s s') : Headed s' := by
  cases hf with
  | applied ha =>
    intro n _ hnone
    rw [ha.advanced] at hnone
    split at hnone
    · cases hnone
    · rename_i hstays; exact hstays (.inr (by rw [hnone]; exact nofun))
  | raised hr =>
    intro n hn hnone
    rw [hr.cursor, promoteCursor, map_eq_none_iff] at hnone
    refine h n ?_ hnone
    rcases hn with ⟨_, hrow, -⟩ | ⟨a, b, hb, hn⟩
    · rw [hr.coverage] at hrow
      obtain ⟨old, hold, -⟩ := get?_updateWhere_eq_some.1 hrow; exact .inl ⟨old, hold, rfl⟩
    · exact .inr ⟨a, b, hr.intervals ▸ hb, hn⟩
  | published hs =>
    subst hs; exact h.congr rfl rfl rfl

variable {streamId : String} {origin : DeliveryOrigin}

theorem append_cursor {st st' : Store.Publishing} {now cid : Nat} {block : BlockRef}
 {chgs : List DomainChange} (h : st.append streamId now cid origin block chgs = .ok st') :
 st'.store.cursor = st.store.cursor := by
  simp only [Store.Publishing.append, eq_ok, Prod.exists] at h
  obtain ⟨_, _, _, happend, rfl⟩ := h
  obtain ⟨⟨_, rfl⟩, -⟩ := appendTo_spec "" happend; rfl

variable {env : Environment} {mode : HistoricalBatchMode}

theorem commitItem_sameCoverage {st st' : Store.Publishing}
    {x : HistoricalBatchItem × List DomainChange} (hmode : mode ≠ .apply)
    (h : commitItem env mode streamId origin st x = .ok st') : SameCoverage st.store st'.store := by
  simp only [commitItem, bind_eq_ok, if_neg hmode] at h
  obtain ⟨_, ht, happend⟩ := h
  rw [Except.ok.injEq] at ht
  subst ht; exact append_sameCoverage happend

theorem SameCoverage.trans {s'' : Store} (h : SameCoverage s s') (h' : SameCoverage s' s'') :
    SameCoverage s s'' :=
  ⟨h'.applied.trans h.applied, h'.coverage.trans h.coverage, h'.intervals.trans h.intervals,
    h'.segments.trans h.segments⟩

variable {items : List HistoricalBatchItem} {limits : HistoricalCommitLimits}
  {outcome : HistoricalBatchOutcome}

theorem Headed.historical (h : Headed s) {completion : List (BlockRef × DomainChange)}
    (hc : s.commitHistoricalMicrobatch p env mode items streamId completion limits =
      .ok (s', outcome)) : Headed s' := by
  simp only [Store.commitHistoricalMicrobatch, eq_ok, Prod.exists, Prod.mk.injEq] at hc
  obtain ⟨_, -, -, -, -, -, -, -, -, -, -, -, _, -, _, _, -, -, -, -, -,
    origin, -, output, -, st, hitems, -, -, st', hprogress, st'', hcompn, rfl, -⟩ := hc
  have hcur := foldExcept_invariant (fun t : Store.Publishing => t.store.cursor = st'.store.cursor)
      (fun _ ht hstep => (append_cursor hstep).trans ht) rfl hcompn
  rw [append_cursor hprogress] at hcur
  by_cases hmode : mode = .apply
  · intro _ _ hnone
    rw [hcur] at hnone
    dsimp only at hnone
    split at hnone
    · cases hnone
    · rename_i hstays; exact hstays ⟨hmode, by simp [hnone]⟩
  · have hst := foldExcept_invariant (fun t : Store.Publishing => SameCoverage s t.store)
        (fun _ ht hstep => ht.trans (commitItem_sameCoverage hmode hstep)) ⟨rfl, rfl, rfl, rfl⟩ hitems
    have hkept := append_sameCoverage hprogress
    have hst' := foldExcept_invariant (fun t : Store.Publishing => SameCoverage s t.store)
        (fun _ ht hstep => ht.trans (append_sameCoverage hstep))
        (hst.trans ⟨hkept.applied, hkept.coverage, hkept.intervals, hkept.segments⟩) hcompn
    refine h.congr hst'.coverage hst'.intervals (hcur.trans (if_neg fun hadvs => ?_))
    exact hmode hadvs.1

theorem materializedCursor_ne_none {d : ProcessorDescriptor} (items : List HistoricalBatchItem) :
    ∀ {prior : Option ProcessorCursor} {seq : Nat}, prior ≠ none ∨ items ≠ [] →
      materializedCursor d prior seq items ≠ none := by
  induction items with
  | nil => exact fun h => h.resolve_right fun hne => hne rfl
  | cons item items ih =>
    intro prior seq _
    refine ih (.inl ?_)
    split
    · exact nofun
    · rename_i hstays
      intro hnone; exact hstays (by rw [hnone]; exact nofun)

variable {held : EncodedDelta → Bool}

theorem Headed.materialize (hc : s.commitHistoricalMaterializationMicrobatch p env held items limits =
      .ok (s', outcome)) : Headed s' := by
  simp only [Store.commitHistoricalMaterializationMicrobatch, bind_eq_ok, required_eq_ok,
    pure_eq_ok, Prod.exists, Prod.mk.injEq] at hc
  obtain ⟨_, hfirst, -, -, -, -, -, -, -, -, -, -, -, -, -, -, -, -, -, -, -, _, -, -, -, rfl,
    -⟩ := hc
  intro _ _
  refine materializedCursor_ne_none items (.inr fun hnil => ?_)
  rw [hnil] at hfirst; cases hfirst

structure Sound (i : Instance) : Prop where
  folded : Folded i.toStore
  headed : Headed i.toStore
  bounded : ∀ {key : String × Nat} {last : Nat}, i.subscriptionOwners[key]? = some last →
    last ≤ i64Max

structure Unclaimed (s : Store) (n : Nat) : Prop where
  uncovered : ¬ Covered s n
  applies : ∀ (cursor : ProcessorCursor) (delta : EncodedDelta), cursor.blockNumber = n →
    s.alreadyApplied cursor delta = .ok false ∧
      s.validateCoverage cursor.blockNumber cursor.blockHash = .ok ()
  batches : ∀ item : HistoricalBatchItem, item.delta.block.number = n → s.validateFresh item = .ok ()
  unjournaled : ∀ (hash : BlockHash) (row : JournalRow), s.journal[(n, hash)]? = some row →
    row.finalized = false

theorem Folded.unclaimed (h : Folded s) {n : Nat} (hle : n ≤ i64Max) (hn : ¬ Covered s n)
    (hjrnl : ∀ (hash : BlockHash) (row : JournalRow), s.journal[(n, hash)]? = some row →
      row.finalized = false) : Unclaimed s n := by
  have hrow : s.coverage[n]? = none := by
    rw [eq_none_iff_forall_ne_some]; exact fun row hrow => hn (.inl ⟨row, hrow, rfl⟩)
  have happ : ∀ hash : BlockHash, s.applied[(n, hash)]? = none := by
    intro hash
    rw [eq_none_iff_forall_ne_some]
    intro _ hc
    obtain ⟨row, hrow', -⟩ := h.applied hc; rw [hrow] at hrow'; cases hrow'
  have hcontains := h.contains_of_not fun hc => hn (.inr hc)
  refine ⟨hn, ?_, ?_, hjrnl⟩
  · rintro _ delta rfl
    exact ⟨by rw [alreadyApplied, happ]; exact hcontains _, by rw [validateCoverage, hrow]⟩
  · rintro item rfl
    have hvalid : s.validateCoverage item.delta.block.number item.delta.block.hash = .ok () := by
      rw [validateCoverage, hrow]
    simp only [validateFresh, u64I64, if_pos hle, ok_bind, hvalid, hcontains,
      ExtTreeMap.mem_iff_isSome_getElem?, happ, hrow]
    rfl

structure LetsGo (subscriptionId : String) (i i' : Instance) : Prop where
  kept : ∀ n, Covered i.toStore n → i.OwnedByOthers subscriptionId n n → Covered i'.toStore n
  freed : ∀ n, i.OnlyOwnedBy subscriptionId n → (∀ a b : Nat, i.intervals[a]? =
    some b → a ≤ n → n ≤ b → ¬ i.OwnedByOthers subscriptionId a b) → Unclaimed i'.toStore n
  whole : ∀ a b : Nat, i.intervals[a]? = some b → i.OwnedByOthers subscriptionId a b →
    i'.intervals[a]? = some b
  untouched : ∀ n, ¬ i.OnlyOwnedBy subscriptionId n → i'.coverage[n]? = i.coverage[n]? ∧
    ∀ hash : BlockHash, i'.applied[(n, hash)]? = i.applied[(n, hash)]? ∧
      i'.journal[(n, hash)]? = i.journal[(n, hash)]?
  highest : Greatest (Covered i'.toStore) (i'.cursor.map (·.blockNumber))
  named : ∀ cursor ∈ i'.cursor, i'.coverageHash cursor.blockNumber = some cursor.blockHash

section

variable {i : Instance} {d : ProcessorDescriptor}

theorem Sound.unclaimed (h : Sound i) (hd : d.output.mode = .none) {subId : String}
    {n : Nat} (hn : i.OnlyOwnedBy subId n) (hapart : ∀ a b : Nat, i.intervals[a]? = some b →
    a ≤ n → n ≤ b → ¬ i.OwnedByOthers subId a b) : Unclaimed (i.release d subId).toStore n := by
  obtain ⟨a, b, hb, -, hle⟩ := hn.1
  refine (h.folded.release d subId).unclaimed (Nat.le_trans hle (h.bounded hb)) ?_
    fun _ row hrow => ?_
  · rintro (⟨row, hrow, -⟩ | hc)
    · exact ((release_coverage hd).1 hrow).2 hn
    · obtain ⟨a, b, hb, hle, hle', hothers⟩ := (release_compacted hd h.folded).1 hc
      exact hapart a b hb hle hle' (hothers (hn.1.mono hle hle'))
  · have hkept := ((release_journal hd).1 hrow).2
    rw [← not_eq_true]; exact fun hf => hkept ⟨hf, hn⟩

theorem Sound.highest (h : Sound i) (hd : d.output.mode = .none) (subId : String) :
    Greatest (Covered (i.release d subId).toStore) ((i.release d subId).cursor.map (·.blockNumber)) ∧
      ∀ cursor ∈ (i.release d subId).cursor,
        (i.release d subId).coverageHash cursor.blockNumber = some cursor.blockHash := by
  rw [release_cursor hd]
  cases hcur : i.cursor with
  | none =>
    exact ⟨fun n hn => h.headed n (covered_of_release hd h.folded hn) hcur, nofun⟩
  | some cursor =>
    exact highestCoverageCursor_spec (h.folded.release d subId) d cursor.chainId

theorem Sound.letsGo (h : Sound i) (hd : d.output.mode = .none) (subId : String) :
    LetsGo subId i (i.release d subId) where
  kept n hn howned := by
    rcases hn with ⟨row, hrow, -⟩ | ⟨a, b, hb, hle, hle'⟩
    · exact .inl ⟨row, (release_coverage hd).2 ⟨hrow, fun hn => hn.2 howned⟩, rfl⟩
    · exact .inr ((release_compacted hd h.folded).2
        ⟨a, b, hb, hle, hle', fun _ => howned.mono hle hle'⟩)
  freed n hn hapart := h.unclaimed hd hn hapart
  whole a b hb hothers := (release_interval hd h.folded).2 ⟨hb, fun _ => hothers⟩
  untouched n hn := by
    refine ⟨ext fun row => ?_, fun _ => ⟨ext fun _ => ?_,
      ext fun row => ?_⟩⟩
    · rw [release_coverage hd, and_iff_left hn]
    · rw [release_applied hd, and_iff_left hn]
    · rw [release_journal hd, and_iff_left fun hf => hn hf.2]
  highest := (h.highest hd subId).1
  named := (h.highest hd subId).2

theorem release_of_output (hd : d.output.mode ≠ .none) (subId : String) :
    i.release d subId = i.disowned subId := by
  unfold release; rw [if_neg hd]; rfl

theorem release_owners (subId : String) : (i.release d subId).subscriptionOwners =
      (i.disowned subId).subscriptionOwners := by
  unfold release
  split <;> rfl

theorem release_rest (subId : String) :
      (i.release d subId).output = i.output ∧ (i.release d subId).deferred = i.deferred ∧
      (i.release d subId).sharedOwner = i.sharedOwner ∧ (i.release d subId).streams = i.streams := by
  unfold release
  split <;> exact ⟨rfl, rfl, rfl, rfl⟩

theorem LetsGo.dropStream {subId : String} {i' : Instance} (h : LetsGo subId i i') (strmId : String) :
    LetsGo subId i (i'.dropStream strmId) := by
  refine ⟨h.kept, fun n hn hapart => ?_, h.whole, h.untouched, h.highest, h.named⟩
  obtain ⟨huncovered, happlies, hbatches, hunjournaled⟩ := h.freed n hn hapart
  exact ⟨huncovered, happlies, hbatches, hunjournaled⟩

theorem Sound.release (h : Sound i) (d : ProcessorDescriptor) (subId : String) :
    Sound (i.release d subId) where
  folded := h.folded.release d subId
  headed := by
    by_cases hd : d.output.mode = .none
    · intro n hn hnone
      have hhighest := (h.highest hd subId).1; rw [hnone] at hhighest; exact hhighest n hn
    · rw [release_of_output hd]; exact h.headed
  bounded {key last} hlast := by
    rw [release_owners] at hlast; exact h.bounded (i.disowned_owners.1 hlast).1

end

theorem sound_registered (d : ProcessorDescriptor) : Sound (.registered d) where
  folded := folded_registered d
  headed := by
    rintro _ (⟨_, hrow, -⟩ | ⟨_, _, hb, -⟩)
    · exact (not_mem_empty hrow).elim
    · exact (not_mem_empty hb).elim
  bounded h := (not_mem_empty h).elim

theorem extendSharedOwner_owners (i : Instance) (first last : Nat) :
    (i.extendSharedOwner first last).subscriptionOwners = i.subscriptionOwners := by
  unfold extendSharedOwner
  dsimp only
  split
  · split
    · split <;> rfl
    · rfl
  · rfl

variable {i : Instance}

theorem materialize_eq_ok {i' : Instance}
    (h : i.materialize p env held items limits = .ok (i', outcome)) :
    ∃ s first last, i.commitHistoricalMaterializationMicrobatch p env held items limits =
      .ok (s, outcome) ∧ i' = ({ i with toStore := s }).extendSharedOwner first last := by
  simp only [Instance.materialize, eq_ok, Prod.exists, Prod.mk.injEq] at h
  obtain ⟨s, _, hcommit, first, -, rfl, rfl⟩ := h; exact ⟨s, _, _, hcommit, rfl⟩

variable {event : CoverageEvent}

theorem coverageStep_owners (hd : event.Direct) :
    (coverageStep p i event).subscriptionOwners = i.subscriptionOwners := by
  cases event with
  | operate op =>
    change (Option.elim _ _ _ : Instance).subscriptionOwners = _
    cases op.shared p i.toStore with
    | none => rfl
    | some number => rw [elim_some, extendSharedOwner_owners]
  | historical env mode items streamId completion limits => rfl
  | materialize env held items limits =>
    refine commit_keeps (P := fun j : Instance => j.subscriptionOwners = i.subscriptionOwners) rfl
      fun i' outcome hout => ?_
    obtain ⟨_, _, _, -, rfl⟩ := materialize_eq_ok hout; rw [extendSharedOwner_owners]
  | own subscriptionId ranges => exact hd.elim
  | compact context through segmentSize maximumBlocks =>
    refine commit_keeps (P := fun j : Instance => j.subscriptionOwners = i.subscriptionOwners) rfl
      fun i' outcome hout => ?_
    rcases compactFinalizedCoverage_spec hout with ⟨rfl, -⟩ | ⟨_, _, _, -, hf⟩
    · rfl
    · rw [hf.store]
  | release subscriptionId => exact hd.elim

theorem headed_coverageStep (hd : event.Direct) (hf : Folded i.toStore) (h : Headed i.toStore) :
    Headed (coverageStep p i event).toStore := by
  cases event with
  | operate op =>
    have hstep := h.forwards (step_forwards p i.toStore hd)
    change Headed (toStore (Option.elim _ _ _))
    cases op.shared p i.toStore with
    | none => exact hstep
    | some number => rwa [elim_some, extendSharedOwner_toStore]
  | historical env mode items streamId completion limits =>
    exact commit_keeps h fun _ outcome hout => h.historical hout
  | materialize env held items limits =>
    refine commit_keeps (P := fun i : Instance => Headed i.toStore) h fun i' outcome hout => ?_
    obtain ⟨_, _, _, hcommit, rfl⟩ := materialize_eq_ok hout
    rw [extendSharedOwner_toStore]; exact Headed.materialize hcommit
  | own subscriptionId ranges => exact hd.elim
  | compact context through segmentSize maximumBlocks =>
    refine commit_keeps (P := fun i : Instance => Headed i.toStore) h fun i' outcome hout => ?_
    rcases compactFinalizedCoverage_spec hout with ⟨rfl, -⟩ | ⟨_, _, _, -, hfold⟩
    · exact h
    · intro n hn
      have hcur : i'.cursor = i.cursor := by rw [hfold.store]
      rw [hcur]; exact h n ((hfold.coveredBy_iff hf (fun _ _ => rfl) n).1 hn)
  | release subscriptionId => exact hd.elim

theorem Sound.coverageStep {p : Processor} (h : Sound i) {event : CoverageEvent}
    (hd : event.Direct) : Sound (coverageStep p i event) where
  folded := folded_coverageStep h.folded event
  headed := headed_coverageStep hd h.folded h.headed
  bounded hlast := h.bounded (coverageStep_owners hd ▸ hlast)

theorem Sound.own {subId : String} {rngs : List Range} : ∀ {i : Instance},
    Sound i → (∀ range ∈ rngs, range.last ≤ i64Max) → Sound (i.own subId rngs) := by
  induction rngs with
  | nil => exact fun h _ => h
  | cons range rngs ih =>
    intro i h hrngs
    refine ih ⟨h.folded, h.headed, fun {_ last} hlast => ?_⟩
      fun r hr => hrngs r (List.mem_cons_of_mem _ hr)
    have hrange := hrngs range List.mem_cons_self
    rcases insert_cases hlast with ⟨-, rfl⟩ | ⟨-, hlast⟩
    · cases hold : i.subscriptionOwners[(subId, range.start)]? with
      | none => exact hrange
      | some stop => exact Nat.max_le.2 ⟨h.bounded hold, hrange⟩
    · exact h.bounded hlast

theorem Sound.dropStream (h : Sound i) (strmId : String) : Sound (i.dropStream strmId) :=
  ⟨h.folded.congr rfl rfl rfl rfl, h.headed.congr rfl rfl rfl, h.bounded⟩

end Leani.Processor
