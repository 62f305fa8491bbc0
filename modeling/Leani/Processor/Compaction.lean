import Leani.Library.Chain
import Leani.Processor.Coverage

/-!
# Compaction of finalized coverage cannot be seen

`Folded` says how intervals, segments and exact rows of one instance fit together. It holds in every
reachable state. From it follows what each reader of coverage answers in terms of the covered blocks
alone, and folding a run of rows leaves the covered blocks as they are.
-/

namespace Leani.Processor

open Library Std Delivery List Option Table Bool Instance Store

def Compacted (s : Store) (n : Nat) : Prop := ∃ a b, s.intervals[a]? = some b ∧ a ≤ n ∧ n ≤ b

/-- The block is covered by an exact row that satisfies `p` or by an interval. -/
def CoveredBy (p : CoverageRow → Bool) (s : Store) (n : Nat) : Prop :=
  (∃ row, s.coverage[n]? = some row ∧ p row = true) ∨ Compacted s n

structure Folded (s : Store) : Prop where
  ordered : ∀ {a b : Nat}, s.intervals[a]? = some b → a ≤ b
  within : ∀ {e : Nat} {segment : CoverageSegment}, s.segments[e]? = some segment →
    segment.segmentStart ≤ e ∧ segment.intervalStart ≤ segment.segmentStart ∧
      ∃ b, s.intervals[segment.intervalStart]? = some b ∧ e ≤ b
  proved : ∀ {a b n : Nat}, s.intervals[a]? = some b → a ≤ n → n ≤ b → ∃ e segment,
    s.segments[e]? = some segment ∧ segment.intervalStart = a ∧ segment.segmentStart ≤ n ∧ n ≤ e
  apart : ∀ {e e' : Nat} {segment segment' : CoverageSegment}, s.segments[e]? = some segment →
    s.segments[e']? = some segment' → e < e' → e < segment'.segmentStart
  exact : ∀ {n : Nat} {row : CoverageRow}, s.coverage[n]? = some row → ¬ Compacted s n
  applied : ∀ {n : Nat} {hash checksum : BlockHash}, s.applied[(n, hash)]? = some checksum →
    ∃ row, s.coverage[n]? = some row ∧ row.hash = hash

variable {s s' : Store}

variable {n e : Nat} {segment : CoverageSegment}

section

variable (h : Folded s) (hs : s.segments[e]? = some segment) (hle : segment.segmentStart ≤ n)
  (hle' : n ≤ e)

include h hs hle hle'

theorem Folded.compacted : Compacted s n := by
  obtain ⟨-, hstart, b, hb, hend⟩ := h.within hs
  exact ⟨_, b, hb, Nat.le_trans hstart hle, Nat.le_trans hle' hend⟩

theorem Folded.firstWhere_eq :
    firstWhere s.segments (fun segEnd _ => n ≤ segEnd) = some (e, segment) := by
  obtain ⟨⟨_, _⟩, hfirst⟩ := exists_firstWhere
    (p := fun segEnd _ => n ≤ segEnd) hs (decide_eq_true hle')
  obtain ⟨hs', hn, hleast⟩ := firstWhere_eq_some hfirst
  rcases hleast e segment hs (decide_eq_true hle') with rfl | hlt
  · rw [hs', some.injEq] at hs; rw [hfirst, hs]
  · have hlt := Nat.compare_eq_lt.1 hlt
    have hapart := h.apart hs' hs hlt
    have hn := of_decide_eq_true hn; omega

theorem Folded.contains_of_segment (hash : BlockHash) :
    s.compactedCoverageContains n hash = if e = n ∧ segment.endHash ≠ hash then
      .error (.canonicalConflict n segment.endHash hash) else .ok true := by
  rw [compactedCoverageContains, h.firstWhere_eq hs hle hle']; exact if_neg (Nat.not_lt.2 hle)

end

variable {hash : BlockHash}

theorem Folded.not_compacted (h : Folded s)
    (hc : s.compactedCoverageContains n hash = .ok false) : ¬ Compacted s n := by
  rintro ⟨_, _, hb, hle, hle'⟩
  obtain ⟨_, _, hs, -, hstart, hend⟩ := h.proved hb hle hle'
  rw [h.contains_of_segment hs hstart hend] at hc
  split at hc <;> cases hc

theorem Folded.contains_of_not (h : Folded s) (hn : ¬ Compacted s n) (hash : BlockHash) :
    s.compactedCoverageContains n hash = .ok false := by
  rw [compactedCoverageContains]
  cases hfirst : firstWhere s.segments (fun segEnd _ => n ≤ segEnd) with
  | none => rfl
  | some found =>
    obtain ⟨_, _⟩ := found
    obtain ⟨hs, hend, -⟩ := firstWhere_eq_some hfirst
    refine if_pos (Nat.lt_of_not_le fun hle => hn ?_)
    exact h.compacted hs hle (of_decide_eq_true hend)

theorem Folded.congr (h : Folded s) (happ : s'.applied = s.applied) (hcovg : s'.coverage = s.coverage)
    (hivls : s'.intervals = s.intervals) (hsegs : s'.segments = s.segments) : Folded s' where
  ordered hb := h.ordered (hivls ▸ hb)
  within hs := hivls ▸ h.within (hsegs ▸ hs)
  proved hb := hsegs ▸ h.proved (hivls ▸ hb)
  apart hs hs' := h.apart (hsegs ▸ hs) (hsegs ▸ hs')
  exact hrow hc := h.exact (hcovg ▸ hrow) (by rwa [Compacted, hivls] at hc)
  applied ha := hcovg ▸ h.applied (happ ▸ ha)

theorem Folded.rows (h : Folded s) (hivls : s'.intervals = s.intervals) (hsegs : s'.segments =
    s.segments) (hrow : ∀ {n : Nat} {row : CoverageRow}, s'.coverage[n]? = some row → ¬ Compacted s n)
    (happ : ∀ {n : Nat} {hash csum : BlockHash}, s'.applied[(n, hash)]? =
    some csum → ∃ row, s'.coverage[n]? = some row ∧ row.hash = hash) : Folded s' where
  ordered hb := h.ordered (hivls ▸ hb)
  within hs := hivls ▸ h.within (hsegs ▸ hs)
  proved hb := hsegs ▸ h.proved (hivls ▸ hb)
  apart hs hs' := h.apart (hsegs ▸ hs) (hsegs ▸ hs')
  exact hr hc := hrow hr (by rwa [Compacted, hivls] at hc)
  applied ha := happ ha

variable {block : BlockRef} {row : CoverageRow}

theorem Folded.cover (h : Folded s) {csum : BlockHash} (hivls : s'.intervals = s.intervals)
    (hsegs : s'.segments = s.segments) (hcovg : s'.coverage = s.coverage.insert block.number row)
    (hhash : row.hash = block.hash) (happ : s'.applied =
    s.applied.insert (block.number, block.hash) csum) (hfresh : ¬ Compacted s block.number)
    (hsame : ∀ old, s.coverage[block.number]? = some old → old.hash = block.hash) : Folded s' := by
  refine h.rows hivls hsegs (fun {n _} hr => ?_) fun {n hash _} ha => ?_
  · rw [hcovg] at hr
    rcases insert_cases hr with ⟨hn, hr⟩ | ⟨-, hr⟩
    · rwa [hn]
    · exact h.exact hr
  · rw [happ, get?_insert_ite] at ha
    rw [hcovg, get?_insert_ite]
    split at ha
    · rename_i hkey
      obtain ⟨rfl, rfl⟩ := Prod.mk.inj hkey; exact ⟨row, if_pos rfl, hhash⟩
    · obtain ⟨old, hold, hh⟩ := h.applied ha
      by_cases hn : n = block.number
      · subst hn; exact ⟨row, if_pos rfl, by rw [hhash, ← hsame old hold, hh]⟩
      · exact ⟨old, by rw [if_neg hn, hold], hh⟩

variable {cursor : ProcessorCursor} {delta : EncodedDelta}

theorem alreadyApplied_eq_false (h : s.alreadyApplied cursor delta = .ok false) :
    s.applied[(cursor.blockNumber, cursor.blockHash)]? = none ∧
      s.compactedCoverageContains cursor.blockNumber cursor.blockHash = .ok false := by
  unfold alreadyApplied at h
  cases ha : s.applied[(cursor.blockNumber, cursor.blockHash)]? with
  | none =>
    rw [ha] at h; exact ⟨rfl, h⟩
  | some checksum =>
    rw [ha] at h
    dsimp only at h
    split at h <;> cases h

variable {p : Processor} {env : Environment} {streamId : String} {origin : DeliveryOrigin}
  {o : Output}

theorem Folded.applies (h : Folded s) {publ : Bool} {recov : Bool} {batch : MutationBatch}
    {inv : List DomainChange} {pruned : PrunedOutput}
    (ha : Applies p env cursor delta publ streamId recov origin batch inv s s' o pruned) :
    Folded s' := by
  obtain ⟨hnum, hhash⟩ := ha.block
  have hfresh := h.not_compacted (alreadyApplied_eq_false ha.unapplied).2
  have hsame := ha.uncovered
  rw [hnum] at hfresh hsame
  rw [hhash] at hsame
  exact h.cover ha.intervals ha.segments ha.coverage rfl ha.applied hfresh hsame

variable {d : ProcessorDescriptor}

variable {chainId : Nat}

theorem Folded.undo (h : Folded s) {num : Nat} {row : JournalRow}
    (hu : Undoes d env chainId num hash row s s' o) : Folded s' := by
  have hkept : ∀ {n : Nat} {r : CoverageRow}, s'.coverage[n]? = some r ↔
      s.coverage[n]? = some r ∧ ¬ (n = num ∧ r.hash = hash) := by
    intro n r
    rw [hu.coverage]
    change (deleteWhere s.coverage _)[n]? = some r ↔ _
    rw [get?_deleteWhere_eq_some, and_eq_false_iff, decide_eq_false_iff_not,
      decide_eq_false_iff_not, not_and_or]
  refine h.rows hu.intervals hu.segments (fun hr => h.exact (hkept.1 hr).1) fun {n _ _} ha => ?_
  rw [hu.applied] at ha
  obtain ⟨hkey, ha⟩ := erase_cases ha
  obtain ⟨r, hr, hh⟩ := h.applied ha
  refine ⟨r, hkept.2 ⟨hr, fun hsame => hkey ?_⟩, hh⟩
  rw [hsame.1, ← hh, hsame.2]

variable {now : Nat}

theorem Folded.raise (h : Folded s) {thru : Nat} {level : Finality} {holds marks : Bool}
    (hr : Raises d now thru level holds marks s s') : Folded s' := by
  have hrow : ∀ {n : Nat} {row : CoverageRow}, s'.coverage[n]? = some row →
      ∃ old, s.coverage[n]? = some old ∧ old.hash = row.hash := by
    intro n row hrow
    rw [hr.coverage] at hrow
    obtain ⟨old, hold, hupdate⟩ := get?_updateWhere_eq_some.1 hrow
    refine ⟨old, hold, ?_⟩
    rw [← hupdate]
    split <;> rfl
  refine h.rows hr.intervals hr.segments (fun hr => ?_) fun {n hash _} ha => ?_
  · obtain ⟨old, hold, -⟩ := hrow hr; exact h.exact hold
  · rw [hr.applied] at ha
    obtain ⟨old, hold, hh⟩ := h.applied ha
    rw [hr.coverage]
    refine ⟨_, get?_updateWhere_eq_some.2 ⟨old, hold, rfl⟩, ?_⟩
    rw [← hh]
    split <;> rfl

theorem Folded.operates (h : Folded s) (ho : Operates p s s') : Folded s' := by
  cases ho with
  | applied ha => exact h.applies ha
  | undone hu => exact h.undo hu
  | raised hr => exact h.raise hr
  | published hs =>
    subst hs; exact h.congr rfl rfl rfl rfl

structure SameCoverage (s s' : Store) : Prop where
  applied : s'.applied = s.applied
  coverage : s'.coverage = s.coverage
  intervals : s'.intervals = s.intervals
  segments : s'.segments = s.segments

theorem Folded.same (h : Folded s) (hs : SameCoverage s s') : Folded s' :=
  h.congr hs.applied hs.coverage hs.intervals hs.segments

variable {changes : List DomainChange}

variable {st st' : Store.Publishing}

theorem append_sameCoverage (h : st.append streamId now chainId origin block changes = .ok st') :
    SameCoverage st.store st'.store := by
  simp only [Store.Publishing.append, eq_ok, Prod.exists] at h
  obtain ⟨_, _, _, happend, rfl⟩ := h
  obtain ⟨⟨_, rfl⟩, -⟩ := appendTo_spec "" happend; exact ⟨rfl, rfl, rfl, rfl⟩

theorem coverFinalized_eq_ok (h : s.coverFinalized delta = .ok s') :
    (delta.block.number, delta.block.hash) ∉ s.applied ∧ delta.block.number ∉ s.coverage ∧ s' = { s with
        applied := s.applied.insert (delta.block.number, delta.block.hash) delta.checksum
        coverage := s.coverage.insert delta.block.number
          ⟨delta.block.hash, delta.block.parentHash, .finalized⟩ } := by
  simp only [coverFinalized, eq_ok] at h
  obtain ⟨_, happ, -, hfresh, rfl⟩ := h
  obtain ⟨hnot, rfl⟩ := recordApplied_eq_ok happ; exact ⟨hnot, hfresh, rfl⟩

theorem Folded.coverFinalized (h : Folded s) (hfresh : ¬ Compacted s delta.block.number)
    (hc : s.coverFinalized delta = .ok s') : Folded s' ∧ s'.intervals = s.intervals := by
  obtain ⟨-, huncovered, rfl⟩ := coverFinalized_eq_ok hc
  refine ⟨h.cover rfl rfl rfl rfl rfl hfresh fun _ hold => absurd ?_ huncovered, rfl⟩
  exact mem_of_getElem? hold

theorem Folded.fresh (h : Folded s) {item : HistoricalBatchItem} {u : Unit}
    (hv : s.validateFresh item = .ok u) : ¬ Compacted s item.delta.block.number := by
  simp only [validateFresh, eq_ok] at hv
  obtain ⟨-, -, -, -, -, -, -, -, _, hcontains, rfl⟩ := hv; exact h.not_compacted hcontains

structure Filling (s t : Store) : Prop where
  folded : Folded t
  intervals : t.intervals = s.intervals

theorem Filling.same {t t' : Store} (h : Filling s t) (hs : SameCoverage t t') : Filling s t' :=
  ⟨h.folded.same hs, hs.intervals.trans h.intervals⟩

theorem Filling.coverFinalized {t t' : Store} (h : Filling s t)
    (hfresh : ¬ Compacted s delta.block.number) (hc : t.coverFinalized delta = .ok t') :
    Filling s t' := by
  obtain ⟨hfolded, hivls⟩ := h.folded.coverFinalized (by rwa [Compacted, h.intervals]) hc
  exact ⟨hfolded, hivls.trans h.intervals⟩

theorem Filling.append (h : Filling s st.store)
    (ha : st.append streamId now chainId origin block changes = .ok st') : Filling s st'.store :=
  h.same (append_sameCoverage ha)

variable {mode : HistoricalBatchMode}

theorem Filling.commitItem (h : Filling s st.store) {x : HistoricalBatchItem × List DomainChange}
    (hfresh : mode = .apply → ¬ Compacted s x.1.delta.block.number)
    (hc : Store.commitItem env mode streamId origin st x = .ok st') : Filling s st'.store := by
  simp only [Store.commitItem, bind_eq_ok] at hc
  obtain ⟨_, ht, happend⟩ := hc
  split at ht
  · exact (h.coverFinalized (hfresh ‹_›) ht).append happend
  · rw [Except.ok.injEq] at ht
    subst ht; exact h.append happend

variable {items : List HistoricalBatchItem} {limits : HistoricalCommitLimits}
  {outcome : HistoricalBatchOutcome}

theorem Folded.historical (h : Folded s) {completion : List (BlockRef × DomainChange)}
    (hc : s.commitHistoricalMicrobatch p env mode items streamId completion limits =
      .ok (s', outcome)) : Folded s' := by
  simp only [commitHistoricalMicrobatch, eq_ok, Prod.exists, Prod.mk.injEq] at hc
  obtain ⟨_, -, -, -, -, -, -, -, -, -, -, -, _, hbatch, _, _, -, -, -, -, -,
    origin, -, output, -, st, hitems, -, -, st', hprogress, st'', hcompn, rfl, -⟩ := hc
  have hfresh : mode = .apply → ∀ item ∈ items, ¬ Compacted s item.delta.block.number := by
    intro hmode item hitem
    rw [validateBatch, if_pos hmode] at hbatch
    exact h.fresh (forall_of_foldExcept_eq_ok hbatch item hitem)
  have hst : Filling s st.store := by
    refine foldExcept_invariant (fun st : Store.Publishing => Filling s st.store)
      (fun {_ _ _} hx ht hstep => ?_) (Filling.mk (h.congr rfl rfl rfl rfl) rfl) hitems
    exact ht.commitItem (fun hmode => hfresh hmode _ (of_mem_zip hx).1) hstep
  have hst' := Filling.append (by exact hst.same ⟨rfl, rfl, rfl, rfl⟩) hprogress
  exact (foldExcept_invariant (fun st : Store.Publishing => Filling s st.store)
    (fun _ ht hstep => ht.append hstep) hst' hcompn).folded

theorem Filling.commitMaterialized (h : Filling s st.store)
    {x : HistoricalBatchItem × MutationBatch} (hfresh : ¬ Compacted s x.1.delta.block.number)
    (hc : Store.commitMaterialized d env st x = .ok st') : Filling s st'.store := by
  simp only [Store.commitMaterialized, bind_eq_ok, Prod.exists] at hc
  obtain ⟨_, -, _, -, -, _, hcover, hc⟩ := hc
  have ht := Filling.coverFinalized (by exact h.same ⟨rfl, rfl, rfl, rfl⟩) hfresh hcover
  split at hc
  · simp only [bind_eq_ok, Prod.exists] at hc
    obtain ⟨_, _, hrel, happend⟩ := hc
    apply Filling.append ?_ happend
    split at hrel
    · obtain ⟨⟨_, rfl⟩, -⟩ := releaseDeferredChanges_spec "" hrel
      exact ht.same ⟨rfl, rfl, rfl, rfl⟩
    · rw [Except.ok.injEq, Prod.mk.injEq] at hrel; exact hrel.1 ▸ ht
  · rw [pure_eq_ok] at hc
    subst hc; exact ht

theorem Folded.materialize (h : Folded s) {held : EncodedDelta → Bool}
    (hc : s.commitHistoricalMaterializationMicrobatch p env held items limits =
      .ok (s', outcome)) : Folded s' := by
  simp only [commitHistoricalMaterializationMicrobatch, eq_ok, Prod.exists, Prod.mk.injEq] at hc
  obtain ⟨_, -, -, -, -, -, -, -, -, -, _, hvalid, _, _, -, -, -, -, -, -, -, st,
    hitems, -, -, rfl, -⟩ := hc
  have hfresh : ∀ item ∈ items, ¬ Compacted s item.delta.block.number := by
    intro item hitem
    have hitem := forall_of_foldExcept_eq_ok hvalid item hitem
    rw [bind_eq_ok] at hitem
    obtain ⟨_, hitem, -⟩ := hitem; exact h.fresh hitem
  have hst := foldExcept_invariant (fun st : Store.Publishing => Filling s st.store)
      (fun {_ _ _} hx ht hstep => ht.commitMaterialized (hfresh _ (of_mem_zip hx).1) hstep)
      ⟨h, rfl⟩ hitems
  exact hst.folded.congr rfl rfl rfl rfl

theorem release_eq {i : Instance} {d : ProcessorDescriptor}
    {subId : String} : (i.release d subId).toStore = i.toStore ∨ ∃ (drops : Nat → Nat → Bool)
    (gone : Nat → Bool), (i.release d subId).intervals = deleteWhere i.intervals drops ∧
    (i.release d subId).segments = (deleteWhere i.segments fun _ seg =>
        (i.intervals[seg.intervalStart]?).any (drops seg.intervalStart)) ∧
      (i.release d subId).coverage = (deleteWhere i.coverage fun n _ => gone n) ∧
      (i.release d subId).applied = deleteWhere i.applied fun key _ => gone key.1 := by
  unfold release
  by_cases hd : d.output.mode = .none
  · simp only [if_pos hd]; exact .inr ⟨_, _, rfl, rfl, rfl, rfl⟩
  · rw [if_neg hd]; exact .inl rfl

theorem Folded.release {i : Instance} (h : Folded i.toStore) (d : ProcessorDescriptor)
    (subId : String) : Folded (i.release d subId).toStore := by
  rcases @release_eq i d subId with
    hs | ⟨drops, gone, hivls, hsegs, hcovg, happ⟩
  · rwa [hs]
  generalize (i.release d subId).toStore = s' at *
  have hivl : ∀ {a b : Nat}, s'.intervals[a]? = some b ↔
      i.intervals[a]? = some b ∧ drops a b = false := by
    intro a b; rw [hivls, get?_deleteWhere_eq_some]
  have hseg : ∀ {e : Nat} {seg : CoverageSegment}, s'.segments[e]? = some seg →
      i.segments[e]? = some seg ∧ ∀ b, i.intervals[seg.intervalStart]? = some b →
        drops seg.intervalStart b = false := by
    intro e seg hs
    rw [hsegs, get?_deleteWhere_eq_some] at hs
    refine ⟨hs.1, fun b hb => ?_⟩
    have hkept := hs.2; rwa [hb, any_some] at hkept
  refine ⟨fun hb => h.ordered (hivl.1 hb).1, fun hs => ?_, fun hb hle hle' => ?_,
    fun hs hs' => h.apart (hseg hs).1 (hseg hs').1, fun hr hc => ?_, fun ha => ?_⟩
  · obtain ⟨hs, hkept⟩ := hseg hs
    obtain ⟨hle, hstart, b, hb, hend⟩ := h.within hs
    exact ⟨hle, hstart, b, hivl.2 ⟨hb, hkept b hb⟩, hend⟩
  · obtain ⟨hb, hkept⟩ := hivl.1 hb
    obtain ⟨e, seg, hs, rfl, hstart, hend⟩ := h.proved hb hle hle'
    refine ⟨e, seg, ?_, rfl, hstart, hend⟩
    rw [hsegs, get?_deleteWhere_eq_some, hb, any_some]; exact ⟨hs, hkept⟩
  · rw [hcovg, get?_deleteWhere_eq_some] at hr
    obtain ⟨a, b, hb, hle, hle'⟩ := hc; exact h.exact hr.1 ⟨a, b, (hivl.1 hb).1, hle, hle'⟩
  · rw [happ, get?_deleteWhere_eq_some] at ha
    obtain ⟨row, hrow, hh⟩ := h.applied ha.1
    exact ⟨row, by rw [hcovg, get?_deleteWhere_eq_some]; exact ⟨hrow, ha.2⟩, hh⟩

theorem extendSharedOwner_toStore (i : Instance) (first last : Nat) :
    (i.extendSharedOwner first last).toStore = i.toStore := by
  unfold extendSharedOwner
  dsimp only
  split
  · split
    · split <;> rfl
    · rfl
  · rfl

theorem own_toStore (subId : String) (rngs : List Range) :
    ∀ i : Instance, (i.own subId rngs).toStore = i.toStore := by
  induction rngs with
  | nil => exact fun _ => rfl
  | cons range rngs ih => exact fun i => ih _

structure Folds (i i' : Instance) (context : Instance.CompactionContext) (bound first last : Nat)
    (segments : List (Nat × CoverageSegment)) : Prop where
  le : first ≤ last
  row : ∀ n, first ≤ n → n ≤ last → ∃ row, i.coverage[n]? = some row ∧ row.finality = .finalized ∧
    n ≤ bound ∧ i.owned n = true ∧ ¬ Compacted i.toStore n ∧ context.held n = false
  linked : ∀ n, first ≤ n → n < last →
    Chain.Link (fun n => i.coverage[n]?) CoverageRow.hash CoverageRow.parentHash n
  segment : ∀ x ∈ segments, x.2.intervalStart = first ∧ first ≤ x.2.segmentStart ∧
    x.2.segmentStart ≤ x.1 ∧ x.1 ≤ last ∧ ∃ row, i.coverage[x.1]? = some row ∧ x.2.endHash = row.hash
  pieces : ∀ n, first ≤ n → n ≤ last → ∃ x ∈ segments, x.2.segmentStart ≤ n ∧ n ≤ x.1
  sorted : segments.Pairwise fun x y => x.1 < y.2.segmentStart
  store : i' = { i with
    intervals := i.intervals.insert first last
    segments := Table.insertRows i.segments segments
    coverage := Table.deleteWhere i.coverage fun n row =>
      first ≤ n && n ≤ last && row.finality = .finalized
    applied := Table.deleteWhere i.applied fun key _ => first ≤ key.1 && key.1 ≤ last
    journal := Table.deleteWhere i.journal fun key row =>
      first ≤ key.1 && key.1 ≤ last && row.finalized }

variable {context : Instance.CompactionContext}

theorem exactRun_eq {rows : List (Nat × CoverageRow)} :
    ∀ {prior : Nat × CoverageRow} {exact : List (Nat × CoverageRow)},
      (∀ x ∈ prior :: rows, x.1 ≤ i64Max) → exactRun context (some prior) rows = .ok exact →
      (∀ x ∈ exact, x ∈ rows) ∧ ∃ rs, exact = numbered (prior.1 + 1) rs ∧
        (prior.2 :: rs).IsChain fun below row => row.parentHash = below.hash := by
  induction rows with
  | nil =>
    intro prior exact _ h
    rw [exactRun, Except.ok.injEq] at h
    subst h; exact ⟨nofun, [], rfl, List.IsChain.singleton _⟩
  | cons row rows ih =>
    intro prior exact hle h
    simp only [exactRun, bind_eq_ok, all_some] at h
    obtain ⟨-, -, h⟩ := h
    split at h
    · rename_i hnext
      simp only [eq_ok, decide_eq_true_iff] at h
      obtain ⟨-, hpar, _, hrest, rfl⟩ := h
      have hprior := hle prior mem_cons_self
      have hnum : row.1 = prior.1 + 1 := by
        rw [of_decide_eq_true hnext]
        refine satAdd_eq ?_
        have : i64Max + 1 ≤ u64Max := by decide
        omega
      obtain ⟨hmem, rs, rfl, hchain⟩ := ih (forall_mem_cons.1 hle).2 hrest
      refine ⟨fun x hx => ?_, row.2 :: rs, ?_, ?_⟩
      · rcases mem_cons.1 hx with rfl | hx
        · exact mem_cons_self
        · exact mem_cons_of_mem _ (hmem x hx)
      · rw [numbered_cons, ← hnum]
      · exact isChain_cons_cons.2 ⟨hpar, hchain⟩
    · rw [pure_eq_ok] at h
      subst h; exact ⟨nofun, [], rfl, List.IsChain.singleton _⟩

theorem segments_spec {size intervalStart : Nat} (hsize : 0 < size) {fuel : Nat} :
    ∀ {a : Nat} {rs : List CoverageRow} {segs : List (Nat × CoverageSegment)}, rs.length ≤ fuel →
      (chunksFrom size fuel (numbered a rs)).mapM (segmentOf intervalStart) = .ok segs →
      (∀ x ∈ segs, x.2.intervalStart = intervalStart ∧ a ≤ x.2.segmentStart ∧
        x.2.segmentStart ≤ x.1 ∧ ∃ row, (x.1, row) ∈ numbered a rs ∧ x.2.endHash = row.hash) ∧
      (∀ n, a ≤ n → n < a + rs.length → ∃ x ∈ segs, x.2.segmentStart ≤ n ∧ n ≤ x.1) ∧
      segs.Pairwise fun x y => x.1 < y.2.segmentStart := by
  induction fuel with
  | zero =>
    intro a rs segs hfuel h
    rw [Nat.le_zero, length_eq_zero_iff] at hfuel
    subst hfuel; cases h; exact ⟨nofun, fun n hle hlt => absurd hlt (Nat.not_lt.2 hle), .nil⟩
  | succ fuel ih =>
    intro a rs segs hfuel h
    cases rs with
    | nil =>
      cases h; exact ⟨nofun, fun n hle hlt => absurd hlt (Nat.not_lt.2 hle), .nil⟩
    | cons r rs =>
      rw [Instance.chunksFrom, numbered_cons, isEmpty_cons, if_neg Bool.false_ne_true,
        ← numbered_cons, numbered_take, numbered_drop] at h
      obtain ⟨⟨_, _⟩, _, hseg, hrest, rfl⟩ := mapM_cons_eq_ok.1 h
      obtain ⟨size, rfl⟩ : ∃ k, size = k + 1 := ⟨size - 1, by omega⟩
      simp only [segmentOf, eq_ok, Prod.mk.injEq, take_succ_cons, numbered_cons, head?_cons,
        some.injEq] at hseg
      obtain ⟨_, rfl, last, hlast, rfl, rfl⟩ := hseg
      obtain ⟨hin, hpieces, hsort⟩ := ih (by rw [length_drop]; omega) hrest
      -- The first chunk ends where its rows do.
      rw [← numbered_cons, ← take_succ_cons] at hlast
      have hend := getLast?_numbered hlast
      have hmem : last ∈ numbered a (r :: rs) := by
        rw [← numbered_take] at hlast; exact mem_of_mem_take (mem_of_getLast? hlast)
      have hle := (mem_numbered.1 hmem).1
      rw [length_take, length_cons] at hend
      rw [length_drop, length_cons] at hpieces
      rw [← numbered_drop] at hin
      refine ⟨fun x hx => ?_, fun n hn hn' => ?_, pairwise_cons.2 ⟨fun y hy => ?_, hsort⟩⟩
      · rcases mem_cons.1 hx with rfl | hx
        · exact ⟨rfl, le_rfl, hle, last.2, hmem, rfl⟩
        · obtain ⟨hstart, _, hle'', row, hrow, hh⟩ := hin x hx
          exact ⟨hstart, by omega, hle'', row, mem_of_mem_drop hrow, hh⟩
      · rw [length_cons] at hn'
        by_cases hlast' : n ≤ last.1
        · exact ⟨_, mem_cons_self, hn, hlast'⟩
        · obtain ⟨x, hx, hx'⟩ := hpieces n (by omega) (by omega)
          exact ⟨x, mem_cons_of_mem _ hx, hx'⟩
      · obtain ⟨-, hstart, -⟩ := hin y hy; omega

theorem mem_compactable {i : Instance} {bound : Nat} (h : (n, row) ∈ i.compactable context bound) :
    i.coverage[n]? = some row ∧ row.finality = .finalized ∧ n ≤ bound ∧ i.owned n = true ∧
      ¬ Compacted i.toStore n ∧ context.held n = false := by
  obtain ⟨hrow, h⟩ := mem_rowsWhere.1 h
  simp only [Bool.and_eq_true, decide_eq_true_iff, Bool.not_eq_eq_eq_not, Bool.not_true] at h
  obtain ⟨⟨⟨⟨hf, hle⟩, howned⟩, hcompacted⟩, hheld⟩ := h
  refine ⟨hrow, hf, hle, howned, ?_, hheld⟩
  rintro ⟨_, _, hb, hle, hle'⟩
  obtain ⟨_, hfound⟩ := exists_firstWhere (p := fun start stop => start ≤ n && n ≤ stop)
    hb (by rw [decide_eq_true hle, decide_eq_true hle']; rfl)
  rw [compacted, hfound] at hcompacted; cases hcompacted

theorem compactFinalizedCoverage_spec {i i' : Instance} {thru segmentSize maximumBlocks : Nat}
    {outcome : Instance.FinalizedCoverageCompaction}
    (h : i.compactFinalizedCoverage d context thru segmentSize maximumBlocks = .ok (i', outcome)) :
    (i' = i ∧ outcome = .empty) ∨ ∃ first last segments, outcome.compactedRange = some (first, last) ∧
      Folds i i' context (context.archiveAuditBound thru) first last segments := by
  simp only [compactFinalizedCoverage, eq_ok] at h
  obtain ⟨-, _, -, _, h⟩ := h
  split at h
  · rw [pure_eq_ok, Prod.mk.injEq] at h; exact .inl ⟨h.1.symm, h.2.symm⟩
  simp only [bind_eq_ok, u64I64_eq_ok] at h
  obtain ⟨-, -, _, ⟨hbound, rfl⟩, h⟩ := h
  split at h
  · rw [pure_eq_ok, Prod.mk.injEq] at h; exact .inl ⟨h.1.symm, h.2.symm⟩
  rename_i hrows
  generalize hr : (i.compactable context (context.archiveAuditBound thru)).take
    (min maximumBlocks 100000) = rows at h hrows
  have hrow : ∀ x ∈ rows, x ∈ i.compactable context (context.archiveAuditBound thru) :=
    fun x hx => mem_of_mem_take (hr ▸ hx)
  cases rows with
  | nil => exact absurd rfl hrows
  | cons row rows =>
    simp only [eq_ok, exactRun, all_none, if_true] at h
    obtain ⟨_, ⟨-, -, -, -, _, hrest, rfl⟩, first, hfirst, last, hlast, segments, hsegs, h⟩ := h
    obtain ⟨hmem, rs, rfl, hchain⟩ := exactRun_eq
      (fun x hx => Nat.le_trans (mem_compactable (hrow x hx)).2.2.1 hbound) hrest
    have hexact : row :: numbered (row.1 + 1) rs = numbered row.1 (row.2 :: rs) := rfl
    rw [hexact] at hlast hsegs
    cases hfirst
    have hend := getLast?_numbered hlast
    rw [length_cons] at hend
    simp only [fold, eq_ok, Prod.mk.injEq] at h
    obtain ⟨-, -, rfl, rfl⟩ := h
    -- Every height of the run has a row, and all of them could be folded.
    have hnumbered : ∀ n, row.1 ≤ n → n ≤ last.1 → ∃ r, (row.2 :: rs)[n - row.1]? = some r ∧
        (n, r) ∈ i.compactable context (context.archiveAuditBound thru) := by
      intro n hle hle'
      have hlt : n - row.1 < (row.2 :: rs).length := by rw [length_cons]; omega
      refine ⟨_, getElem?_eq_getElem hlt, hrow (n, (row.2 :: rs)[n - row.1]) ?_⟩
      have hn : (n, (row.2 :: rs)[n - row.1]) ∈ row :: numbered (row.1 + 1) rs := by
        rw [hexact, mem_numbered]; exact ⟨hle, getElem?_eq_getElem hlt⟩
      rcases mem_cons.1 hn with hn | hn
      · exact mem_cons.2 (.inl hn)
      · exact mem_cons_of_mem _ (hmem _ hn)
    obtain ⟨hin, hpieces, hsort⟩ := segments_spec (by omega) (by rw [length_numbered]) hsegs
    refine .inr ⟨row.1, last.1, segments, rfl, ?_, fun n hle hle' => ?_, fun n hle hlt => ?_,
      fun x hx => ?_, fun n hle hle' => hpieces n hle (by rw [length_cons]; omega), hsort, rfl⟩
    · omega
    · obtain ⟨r, -, hr⟩ := hnumbered n hle hle'; exact ⟨r, mem_compactable hr⟩
    · obtain ⟨child, hc, hchild⟩ := hnumbered (n + 1) (by omega) (by omega)
      obtain ⟨below, hb, hbelow⟩ := hnumbered n hle (by omega)
      refine ⟨child, below, (mem_compactable hchild).1, (mem_compactable hbelow).1, ?_⟩
      have e : n + 1 - row.1 = n - row.1 + 1 := by omega
      rw [e] at hc
      rw [getElem?_eq_some_iff] at hb hc
      obtain ⟨hlt, rfl⟩ := hb
      obtain ⟨hlt', rfl⟩ := hc; exact isChain_iff_getElem.1 hchain _ hlt'
    · obtain ⟨hstart, hle, hle', r, hr, hh⟩ := hin x hx
      have hx := mem_numbered.1 hr
      have hlt := (List.getElem?_eq_some_iff.1 hx.2).1
      rw [List.length_cons] at hlt
      have hle'' : x.1 ≤ last.1 := by omega
      obtain ⟨_, hr', hmem'⟩ := hnumbered x.1 hx.1 hle''
      rw [hx.2, some.injEq] at hr'
      subst hr'; exact ⟨hstart, hle, hle', hle'', r, (mem_compactable hmem').1, hh⟩

section Folding

variable {i i' : Instance} {context : Instance.CompactionContext} {bound first last : Nat}
  {segments : List (Nat × CoverageSegment)}

variable {n : Nat}

section

variable (h : Folds i i' context bound first last segments)

include h

theorem Folds.coverage_iff {row : CoverageRow} : i'.coverage[n]? = some row ↔
      i.coverage[n]? = some row ∧ ¬ (first ≤ n ∧ n ≤ last) := by
  rw [h.store]
  rw [get?_deleteWhere_eq_some]
  refine and_congr_right fun hrow => ?_
  simp only [and_eq_false_iff, decide_eq_false_iff_not]
  constructor
  · rintro hout ⟨hle, hle'⟩
    obtain ⟨_, hr, hf, -⟩ := h.row n hle hle'
    rw [hrow, some.injEq] at hr
    subst hr
    rcases hout with (hout | hout) | hout
    · exact hout hle
    · exact hout hle'
    · exact hout hf
  · exact fun hout => .inl (not_and_or.1 hout)

theorem Folds.applied_iff {hash csum : BlockHash} : i'.applied[(n, hash)]? = some csum ↔
      i.applied[(n, hash)]? = some csum ∧ ¬ (first ≤ n ∧ n ≤ last) := by
  rw [h.store]
  rw [get?_deleteWhere_eq_some, ← not_eq_true, and_eq_true,
    decide_eq_true_iff, decide_eq_true_iff]

theorem Folds.interval_iff {a b : Nat} :
    i'.intervals[a]? = some b ↔ a = first ∧ b = last ∨ i.intervals[a]? = some b ∧ a ≠ first := by
  rw [h.store]
  rw [get?_insert_ite]
  split
  · rename_i ha
    rw [some.injEq]
    exact ⟨fun hb => .inl ⟨ha, hb.symm⟩, fun hb => hb.elim (fun hb => hb.2.symm)
      fun hb => absurd ha hb.2⟩
  · rename_i ha
    exact ⟨fun hb => .inr ⟨hb, ha⟩, fun hb => hb.elim (fun hb => absurd hb.1 ha) And.left⟩

theorem Folds.apart (hc : Compacted i.toStore n) : ¬ (first ≤ n ∧ n ≤ last) := by
  rintro ⟨hle, hle'⟩
  obtain ⟨-, -, -, -, -, hn, -⟩ := h.row n hle hle'; exact hn hc

theorem Folds.old_interval (hi : Folded i.toStore) {a b : Nat} (hb : i.intervals[a]? = some b) :
    i'.intervals[a]? = some b :=
  h.interval_iff.2 (.inr ⟨hb, fun ha => h.apart ⟨a, b, hb, le_rfl, hi.ordered hb⟩
    ⟨Nat.le_of_eq ha.symm, ha ▸ h.le⟩⟩)

theorem Folds.compacted_iff (hi : Folded i.toStore) : Compacted i'.toStore n ↔
      Compacted i.toStore n ∨ first ≤ n ∧ n ≤ last := by
  constructor
  · rintro ⟨a, b, hb, hle, hle'⟩
    rcases h.interval_iff.1 hb with ⟨rfl, rfl⟩ | ⟨hb, -⟩
    · exact .inr ⟨hle, hle'⟩
    · exact .inl ⟨a, b, hb, hle, hle'⟩
  · rintro (⟨a, b, hb, hle, hle'⟩ | ⟨hle, hle'⟩)
    · exact ⟨a, b, h.old_interval hi hb, hle, hle'⟩
    · exact ⟨first, last, h.interval_iff.2 (.inl ⟨rfl, rfl⟩), hle, hle'⟩

theorem Folds.nodup : (segments.map Prod.fst).Nodup := by
  rw [nodup_iff_pairwise_ne, pairwise_map]
  refine h.sorted.imp_of_mem fun {_ y} _ hy hlt => ?_
  obtain ⟨-, -, hle, -⟩ := h.segment y hy; exact Nat.ne_of_lt (Nat.lt_of_lt_of_le hlt hle)

theorem Folds.segment_iff (hi : Folded i.toStore) {e : Nat} {seg : CoverageSegment} :
    i'.segments[e]? = some seg ↔ (e, seg) ∈ segments ∨ i.segments[e]? = some seg := by
  have hsegs : i'.segments = insertRows i.segments segments := by rw [h.store]
  rw [hsegs]
  by_cases hkey : e ∈ segments.map Prod.fst
  · obtain ⟨⟨e, _⟩, hmem, rfl⟩ := mem_map.1 hkey
    obtain ⟨-, hfirst, hle, hlast, -⟩ := h.segment _ hmem
    rw [get?_insertRows_of_mem h.nodup hmem, some.injEq]
    constructor
    · rintro rfl; exact .inl hmem
    · rintro (hmem' | hs)
      · have hsame := inj_on_of_nodup_map h.nodup hmem hmem' rfl; exact congrArg Prod.snd hsame
      · obtain ⟨hstart, -⟩ := hi.within hs
        exact absurd ⟨Nat.le_trans hfirst hle, hlast⟩ (h.apart (hi.compacted hs hstart le_rfl))
  · rw [get?_insertRows_of_notMem hkey]
    exact (or_iff_right fun hmem => hkey (mem_map_of_mem (f := Prod.fst) hmem)).symm

theorem Folds.apart_of_mem {x y : Nat × CoverageSegment}
    (hx : x ∈ segments) (hy : y ∈ segments) (hlt : x.1 < y.1) : x.1 < y.2.segmentStart := by
  have hforth : segments.Pairwise fun x y => x.1 < y.1 → x.1 < y.2.segmentStart := by
    apply h.sorted.imp
    intro x y hlt _; exact hlt
  have hback : segments.Pairwise fun x y => y.1 < x.1 → y.1 < x.2.segmentStart := by
    refine h.sorted.imp_of_mem fun {x y} _ hy hlt _ => ?_
    obtain ⟨-, -, _, -⟩ := h.segment y hy; omega
  have hall := List.Pairwise.forall_of_forall_of_flip
    (fun x _ hlt => absurd hlt (Nat.lt_irrefl _)) hforth hback
  exact hall hx hy hlt

end

theorem Folded.folds (hi : Folded i.toStore) (h : Folds i i' context bound first last segments) :
    Folded i'.toStore where
  ordered hb := by
    rcases h.interval_iff.1 hb with ⟨rfl, rfl⟩ | ⟨hb, -⟩
    · exact h.le
    · exact hi.ordered hb
  within hs := by
    rcases (h.segment_iff hi).1 hs with hmem | hs
    · obtain ⟨hstart, hfirst, hle, hlast, -⟩ := h.segment _ hmem
      rw [hstart]; exact ⟨hle, hfirst, last, h.interval_iff.2 (.inl ⟨rfl, rfl⟩), hlast⟩
    · obtain ⟨hle, hstart, b, hb, hend⟩ := hi.within hs
      exact ⟨hle, hstart, b, h.old_interval hi hb, hend⟩
  proved hb hle hle' := by
    rcases h.interval_iff.1 hb with ⟨rfl, rfl⟩ | ⟨hb, -⟩
    · obtain ⟨x, hx, hstart, hend⟩ := h.pieces _ hle hle'
      exact ⟨x.1, x.2, (h.segment_iff hi).2 (.inl hx), (h.segment x hx).1, hstart, hend⟩
    · obtain ⟨e, segment, hs, hstart⟩ := hi.proved hb hle hle'
      exact ⟨e, segment, (h.segment_iff hi).2 (.inr hs), hstart⟩
  apart {e e' segment segment'} hs hs' hlt := by
    refine Nat.lt_of_not_le fun hle => ?_
    rcases (h.segment_iff hi).1 hs with hmem | hs
    · rcases (h.segment_iff hi).1 hs' with hmem' | hs'
      · exact Nat.not_lt.2 hle (h.apart_of_mem hmem hmem' hlt)
      -- The old segment would reach into the run.
      · obtain ⟨-, hfirst, hend, hlast, -⟩ := h.segment _ hmem
        exact h.apart (hi.compacted hs' hle hlt.le) ⟨Nat.le_trans hfirst hend, hlast⟩
    · rcases (h.segment_iff hi).1 hs' with hmem' | hs'
      · obtain ⟨-, hfirst, -, hlast, -⟩ := h.segment _ hmem'
        obtain ⟨hstart, -⟩ := hi.within hs
        exact h.apart (hi.compacted hs hstart le_rfl)
          ⟨Nat.le_trans hfirst hle, Nat.le_trans hlt.le hlast⟩
      · exact absurd (hi.apart hs hs' hlt) (Nat.not_lt.2 hle)
  exact hr hc := by
    obtain ⟨hr, hout⟩ := h.coverage_iff.1 hr
    rcases (h.compacted_iff hi).1 hc with hc | hc
    · exact hi.exact hr hc
    · exact hout hc
  applied ha := by
    obtain ⟨ha, hout⟩ := h.applied_iff.1 ha
    obtain ⟨row, hrow, hh⟩ := hi.applied ha; exact ⟨row, h.coverage_iff.2 ⟨hrow, hout⟩, hh⟩

end Folding

end Leani.Processor
