import Leani.Processor.Boundaries
import Leani.Processor.Compaction

/-!
# What readers see of compaction

Every reader of coverage answers in terms of the covered blocks, whether a row or an interval covers
them. A compaction changes neither the covered blocks nor any of these answers, in every state an
instance can be in.
-/

namespace Leani.Processor

open Library Std Delivery List Option Table Bool Instance Leani Prod Range Store

variable {s s' : Store}

variable {requested : BlockRange}

theorem clip_eq_ok {ivl : Nat × Nat} {range : Range} : clip requested ivl =
    .ok range ↔ range.start = max ivl.1 requested.start ∧ range.last = min ivl.2 requested.last := by
  unfold clip
  split
  · rw [Except.ok.injEq]; exact ⟨fun h => h ▸ ⟨rfl, rfl⟩, fun h => (ext h.1 h.2).symm⟩
  · rename_i hempty
    refine iff_of_false (fun h => ?_) fun h => hempty (h.1 ▸ h.2 ▸ range.start_le_last)
    cases h

theorem reportCoverage_spec (hord : ∀ a b : Nat, s.intervals[a]? = some b → a ≤ b)
    (p : CoverageRow → Bool) (hlast : requested.last ≤ i64Max) :
    ∃ ranges, s.reportCoverage p requested = .ok ranges ∧ Range.Separated ranges ∧
      ∀ n, Range.Covers ranges n ↔ (requested.start ≤ n ∧ n ≤ requested.last) ∧ CoveredBy p s n := by
  have hstart := Nat.le_trans requested.start_le_last hlast
  have hlimit : requested.last ≤ u64Max := Nat.le_trans hlast (by decide)
  generalize hexact : (rowsWhere s.coverage fun num row =>
    requested.start ≤ num && num ≤ requested.last && p row).map fst = exact
  generalize hcompact : (rowsWhere s.intervals fun intervalStart intervalEnd =>
    requested.start ≤ intervalEnd && intervalStart ≤ requested.last) = compact
  have hmem : ∀ n, n ∈ exact ↔ (requested.start ≤ n ∧ n ≤ requested.last) ∧
      ∃ row, s.coverage[n]? = some row ∧ p row = true := by
    intro n
    rw [← hexact, List.mem_map]
    constructor
    · rintro ⟨⟨n, row⟩, hrow, rfl⟩
      simp only [mem_rowsWhere, and_eq_true, decide_eq_true_iff] at hrow
      exact ⟨hrow.2.1, row, hrow.1, hrow.2.2⟩
    · rintro ⟨hn, row, hrow, hp⟩
      refine ⟨(n, row), ?_, rfl⟩
      simp only [mem_rowsWhere, and_eq_true, decide_eq_true_iff]; exact ⟨hrow, hn, hp⟩
  have hivl : ∀ a b, (a, b) ∈ compact ↔
      s.intervals[a]? = some b ∧ requested.start ≤ b ∧ a ≤ requested.last := by
    intro a b; rw [← hcompact, mem_rowsWhere, and_eq_true, decide_eq_true_iff, decide_eq_true_iff]
  -- No interval is empty, so clipping one that meets the request leaves something.
  obtain ⟨clipped, hclipped⟩ := exists_mapM_eq_ok (show ∀ x ∈ compact, ∃ range, clip requested x = .ok range by
    rintro ⟨a, b⟩ hx
    obtain ⟨hb, _⟩ := (hivl a b).1 hx
    have hab := hord a b hb
    have hne := requested.start_le_last
    exact ⟨⟨max a requested.start, min b requested.last, by omega⟩, clip_eq_ok.2 ⟨rfl, rfl⟩⟩)
  have hpart := mem_of_mapM_eq_ok hclipped
  obtain ⟨hruns, hcover⟩ := @runs_spec u64Max exact fun n hn =>
    Nat.le_trans ((hmem n).1 hn).1.2 hlimit
  obtain ⟨hseparated, hnormal⟩ := @normalize_spec u64Max (runs u64Max exact ++ clipped) fun r hr => by
      rcases mem_append.1 hr with hr | hr
      · exact hruns r hr
      · obtain ⟨x, -, hx⟩ := (hpart r).1 hr; rw [(clip_eq_ok.1 hx).2]; omega
  refine ⟨_, ?_, hseparated, fun n => ?_⟩
  · simp only [reportCoverage, u64I64, if_pos hstart, if_pos hlast, ok_bind, hexact, hcompact,
      hclipped]
    rfl
  · rw [hnormal, covers_append, hcover, hmem, CoveredBy, and_or_left]
    refine or_congr_right ⟨?_, ?_⟩
    · rintro ⟨r, hr, hn⟩
      obtain ⟨⟨a, b⟩, hx, hclip⟩ := (hpart r).1 hr
      obtain ⟨hs, hl⟩ := clip_eq_ok.1 hclip
      rw [mem_iff, hs, hl] at hn; exact ⟨by omega, a, b, ((hivl a b).1 hx).1, by omega, by omega⟩
    · rintro ⟨hn, a, b, hb, _, _⟩
      have hx := (hivl a b).2 ⟨hb, by omega, by omega⟩
      have hclip : clip requested (a, b) =
          .ok ⟨max a requested.start, min b requested.last, by omega⟩ := clip_eq_ok.2 ⟨rfl, rfl⟩
      refine ⟨_, (hpart _).2 ⟨(a, b), hx, hclip⟩, ?_⟩
      rw [mem_iff]
      dsimp only; omega

theorem reportCoverage_congr (hord : ∀ a b : Nat, s.intervals[a]? = some b → a ≤ b)
    (hord' : ∀ a b : Nat, s'.intervals[a]? = some b → a ≤ b) {p : CoverageRow → Bool}
    (h : ∀ n, CoveredBy p s' n ↔ CoveredBy p s n) (reqd : BlockRange) :
    s'.reportCoverage p reqd = s.reportCoverage p reqd := by
  by_cases hlast : reqd.last ≤ i64Max
  · obtain ⟨_, hr, hsep, hcov⟩ := reportCoverage_spec hord p hlast
    obtain ⟨_, hr', hsep', hcov'⟩ := reportCoverage_spec hord' p hlast
    rw [hr, hr', Range.Separated.eq hsep' hsep fun n => by rw [hcov', hcov, h]]
  · have hnumeric : ∀ t : Store, t.reportCoverage p reqd = .error (.numeric "block_number") := by
      intro t
      unfold reportCoverage u64I64
      rw [if_neg hlast]
      split <;> rfl
    rw [hnumeric, hnumeric]

def FinalizedAt (s : Store) (n : Nat) : Prop := CoveredBy (fun row => row.finality = .finalized) s n

/-- The greatest number that satisfies `P`, if any does. -/
def Greatest (P : Nat → Prop) : Option Nat → Prop
  | none => ∀ n, ¬ P n
  | some m => P m ∧ ∀ n, P n → n ≤ m

variable {P : Nat → Prop} {a : Option Nat}

theorem Greatest.eq {b : Option Nat} (ha : Greatest P a) (hb : Greatest P b) : a = b := by
  cases a with
  | none =>
    cases b with
    | none => rfl
    | some m => exact absurd hb.1 (ha m)
  | some m =>
    cases b with
    | none => exact absurd ha.1 (hb m)
    | some m' => rw [Nat.le_antisymm (hb.2 m ha.1) (ha.2 m' hb.1)]

theorem Greatest.congr {Q : Nat → Prop} (h : ∀ n, P n ↔ Q n) (ha : Greatest P a) : Greatest Q a := by
  obtain rfl : P = Q := funext fun n => propext (h n)
  exact ha

theorem Greatest.or {Q : Nat → Prop} {b : Option Nat} :
    Greatest P a → Greatest Q b → Greatest (fun n => P n ∨ Q n) (match a, b with
      | some m, some m' => some (max m m')
      | a, b => a.or b) := by
  intro ha hb
  cases a with
  | none =>
    cases b with
    | none => exact fun n hn => hn.elim (ha n) (hb n)
    | some m => exact ⟨.inr hb.1, fun n hn => hb.2 n (hn.resolve_left (ha n))⟩
  | some m =>
    cases b with
    | none => exact ⟨.inl ha.1, fun n hn => ha.2 n (hn.resolve_right (hb n))⟩
    | some m' =>
      refine ⟨?_, fun n hn => hn.elim (fun hp => Nat.le_trans (ha.2 n hp) (Nat.le_max_left ..))
        fun hq => Nat.le_trans (hb.2 n hq) (Nat.le_max_right ..)⟩
      rcases Nat.le_total m m' with hle | hle
      · rw [Nat.max_eq_right hle]; exact .inr hb.1
      · rw [Nat.max_eq_left hle]; exact .inl ha.1

theorem lastWhere_greatest {ν : Type} (t : Table Nat ν) (p : ν → Bool) : Greatest (fun n => ∃ v,
    t[n]? = some v ∧ p v = true) ((lastWhere t fun _ v => p v).map (·.1)) := by
  cases hlast : lastWhere t fun _ v => p v with
  | none =>
    rintro n ⟨v, hv, hp⟩; exact lastWhere_eq_none.1 hlast n v hv hp
  | some found =>
    obtain ⟨_, v⟩ := found
    obtain ⟨hv, hp, hmax⟩ := lastWhere_eq_some hlast
    refine ⟨⟨v, hv, hp⟩, fun n hn => ?_⟩
    obtain ⟨w, hw, hq⟩ := hn
    rcases hmax n w hw hq with rfl | hlt
    · exact le_rfl
    · exact (Nat.compare_eq_lt.1 hlt).le

theorem intervals_greatest (hord : ∀ a b : Nat, s.intervals[a]? = some b → a ≤ b) :
    Greatest (Compacted s) ((s.intervals.toList.map (·.2)).max?) := by
  have hmem : ∀ b, b ∈ s.intervals.toList.map (·.2) ↔ ∃ a : Nat, s.intervals[a]? = some b := by
    intro b
    rw [List.mem_map]
    constructor
    · rintro ⟨⟨a, b⟩, hx, rfl⟩; exact ⟨a, mem_toList.1 hx⟩
    · rintro ⟨a, hb⟩; exact ⟨(a, b), mem_toList.2 hb, rfl⟩
  cases hmax : (s.intervals.toList.map (·.2)).max? with
  | none =>
    rw [max?_eq_none_iff] at hmax
    rintro n ⟨a, b, hb, -, -⟩
    have := (hmem b).2 ⟨a, hb⟩; rw [hmax] at this; cases this
  | some m =>
    obtain ⟨hm, hgreatest⟩ := max?_eq_some_iff.1 hmax
    obtain ⟨a, hb⟩ := (hmem m).1 hm
    refine ⟨⟨a, m, hb, hord a m hb, le_rfl⟩, ?_⟩
    rintro n ⟨a', b, hb', -, hle⟩; exact Nat.le_trans hle (hgreatest b ((hmem b).2 ⟨a', hb'⟩))

theorem finalizedThrough_greatest (hord : ∀ a b : Nat, s.intervals[a]? = some b → a ≤ b) :
    Greatest (FinalizedAt s) s.finalizedThrough :=
  (lastWhere_greatest s.coverage fun row => row.finality = .finalized).or (intervals_greatest hord)

section Folding

variable {i i' : Instance} {context : Instance.CompactionContext} {bound first last : Nat}
  {segments : List (Nat × CoverageSegment)}

theorem Folds.alreadyApplied (h : Folds i i' context bound first last segments)
    (hi : Folded i.toStore) {cursor : ProcessorCursor} {delta : EncodedDelta}
    (ha : i.alreadyApplied cursor delta = .ok true) : i'.alreadyApplied cursor delta = .ok true := by
  have hi' := hi.folds h
  unfold Store.alreadyApplied at ha ⊢
  cases hc : i.applied[(cursor.blockNumber, cursor.blockHash)]? with
  | some checksum =>
    by_cases hin : first ≤ cursor.blockNumber ∧ cursor.blockNumber ≤ last
    · -- The row was folded: a segment has the block, and ends elsewhere or with its hash.
      have hgone : i'.applied[(cursor.blockNumber, cursor.blockHash)]? = none := by
        rw [eq_none_iff_forall_ne_some]
        intro c hc'; exact (h.applied_iff.1 hc').2 hin
      obtain ⟨row, hrow, hh⟩ := hi.applied hc
      obtain ⟨x, hx, hstart, hend⟩ := h.pieces _ hin.1 hin.2
      rw [hgone]
      rw [hi'.contains_of_segment ((h.segment_iff hi).2 (.inl hx)) hstart hend, if_neg]
      rintro ⟨he, hne⟩
      obtain ⟨-, -, -, -, _, hrow', hh'⟩ := h.segment x hx
      rw [he, hrow, some.injEq] at hrow'; rw [hh', ← hrow', hh] at hne; exact hne rfl
    · rw [hc] at ha; rw [h.applied_iff.2 ⟨hc, hin⟩]; exact ha
  | none =>
    rw [hc] at ha
    have hgone : i'.applied[(cursor.blockNumber, cursor.blockHash)]? = none := by
      rw [eq_none_iff_forall_ne_some]
      intro c hc'; rw [(h.applied_iff.1 hc').1] at hc; cases hc
    rw [hgone]
    by_cases hn : Compacted i.toStore cursor.blockNumber
    · obtain ⟨a, _, hb, hle, hle'⟩ := hn
      obtain ⟨_, segment, hs, -, hstart, hend⟩ := hi.proved hb hle hle'
      rw [hi.contains_of_segment hs hstart hend] at ha
      rwa [hi'.contains_of_segment ((h.segment_iff hi).2 (.inr hs)) hstart hend]
    · rw [hi.contains_of_not hn] at ha; cases ha

theorem Folds.coveredBy_iff (h : Folds i i' context bound first last segments) (hi : Folded i.toStore)
    {p : CoverageRow → Bool} (hp : ∀ row : CoverageRow, row.finality = .finalized → p row = true)
    (n : Nat) : CoveredBy p i'.toStore n ↔ CoveredBy p i.toStore n := by
  unfold CoveredBy
  rw [h.compacted_iff hi]
  simp only [h.coverage_iff]
  constructor
  · rintro (⟨row, ⟨hrow, -⟩, hpr⟩ | hc | hin)
    · exact .inl ⟨row, hrow, hpr⟩
    · exact .inr hc
    · obtain ⟨row, hrow, hf, -⟩ := h.row n hin.1 hin.2; exact .inl ⟨row, hrow, hp row hf⟩
  · rintro (⟨row, hrow, hpr⟩ | hc)
    · by_cases hin : first ≤ n ∧ n ≤ last
      · exact .inr (.inr hin)
      · exact .inl ⟨row, ⟨hrow, hin⟩, hpr⟩
    · exact .inr (.inl hc)

end Folding

variable {p : Processor} {env : Environment} {cursor : ProcessorCursor} {delta : EncodedDelta}
  {streamId : String}

theorem applyToStream_alreadyApplied {publ recov : Bool} :
    s.applyToStream p env cursor delta publ streamId recov = .ok (s, .alreadyApplied) ↔
      validateDelta p delta = .ok () ∧ validateCursor p.descriptor cursor delta = .ok () ∧
      (p.descriptor.deliveryEnabled → streamId ∈ s.streams) ∧ cursor.blockNumber ≤ i64Max ∧
      s.alreadyApplied cursor delta = .ok true := by
  simp only [applyToStream, eq_ok, u64I64_eq_ok]
  constructor
  · rintro ⟨_, hdelta, _, hcur, _, hstrm, _, ⟨hle, -⟩, applied, happ, h⟩
    cases applied with
    | true => exact ⟨hdelta, hcur, hstrm, hle, happ⟩
    | false =>
      rw [if_neg Bool.false_ne_true] at h
      simp only [bind_eq_ok] at h
      obtain ⟨-, -, _, -, _, -, -, -, _, -, hcommit⟩ := h
      obtain ⟨⟨_, _, _, houtc, -⟩, -⟩ := commitBlock_spec hcommit; cases houtc
  · rintro ⟨hdelta, hcur, hstrm, hle, happ⟩
    exact ⟨(), hdelta, (), hcur, (), hstrm, _, ⟨hle, rfl⟩, true, happ, rfl⟩

theorem applyToStream_refused {publ recov : Bool}
    (h : (∃ e, s.alreadyApplied cursor delta = .error e) ∨ s.alreadyApplied cursor delta = .ok false ∧
        ∃ e, s.validateCoverage cursor.blockNumber cursor.blockHash = .error e) :
    ∃ e, s.applyToStream p env cursor delta publ streamId recov = .error e := by
  cases hout : s.applyToStream p env cursor delta publ streamId recov with
  | error e => exact ⟨e, rfl⟩
  | ok out =>
    simp only [applyToStream, bind_eq_ok] at hout
    obtain ⟨-, -, -, -, -, -, -, -, _, happ, hout⟩ := hout
    rcases h with ⟨e, he⟩ | ⟨hfalse, e, he⟩
    · rw [he] at happ; cases happ
    · rw [hfalse, Except.ok.injEq] at happ
      subst happ
      rw [if_neg Bool.false_ne_true, bind_eq_ok] at hout
      obtain ⟨_, hvalid, -⟩ := hout; rw [he] at hvalid; cases hvalid

variable {segment : CoverageSegment}

theorem Folded.refuses (h : Folded s) (hs : s.segments[cursor.blockNumber]? = some segment)
    (hne : cursor.blockHash ≠ segment.endHash) : ∃ e, s.alreadyApplied cursor delta = .error e := by
  obtain ⟨hstart, -⟩ := h.within hs
  have happ : s.applied[(cursor.blockNumber, cursor.blockHash)]? = none := by
    rw [eq_none_iff_forall_ne_some]
    intro _ hc
    obtain ⟨_, hrow, -⟩ := h.applied hc; exact h.exact hrow (h.compacted hs hstart le_rfl)
  refine ⟨.canonicalConflict cursor.blockNumber segment.endHash cursor.blockHash, ?_⟩
  rw [alreadyApplied, happ]
  exact (h.contains_of_segment hs hstart le_rfl _).trans (if_pos ⟨rfl, hne.symm⟩)

variable {i : Instance} {context : Instance.CompactionContext}
  {segments : List (Nat × CoverageSegment)}

theorem Folds.refused {i' : Instance} {bound first last : Nat}
    (h : Folds i i' context bound first last segments) (hi : Folded i.toStore)
    (hs : i'.segments[cursor.blockNumber]? = some segment)
    (hne : cursor.blockHash ≠ segment.endHash) :
    (∃ e, i.alreadyApplied cursor delta = .error e) ∨ i.alreadyApplied cursor delta = .ok false ∧
      ∃ e, i.validateCoverage cursor.blockNumber cursor.blockHash = .error e := by
  rcases (h.segment_iff hi).1 hs with hmem | hs
  · obtain ⟨-, hfirst, hle, hlast, row, hrow, hh⟩ := h.segment _ hmem
    obtain ⟨-, -, -, -, -, hn, -⟩ := h.row _ (Nat.le_trans hfirst hle) hlast
    have happ : i.applied[(cursor.blockNumber, cursor.blockHash)]? = none := by
      rw [eq_none_iff_forall_ne_some]
      intro _ hc
      obtain ⟨_, hrow', hh'⟩ := hi.applied hc
      rw [hrow, some.injEq] at hrow'; rw [← hh', ← hrow', ← hh] at hne; exact hne rfl
    refine .inr ⟨?_, .canonicalConflict cursor.blockNumber row.hash cursor.blockHash, ?_⟩
    · rw [Store.alreadyApplied, happ]; exact hi.contains_of_not hn _
    · rw [validateCoverage, hrow]
      exact ensure_eq_error.2 ⟨fun he => hne (he.symm.trans hh.symm), rfl⟩
  · exact .inl (hi.refuses hs hne)

theorem folded_registered (d : ProcessorDescriptor) : Folded (.registered d) where
  ordered h := (not_mem_empty h).elim
  within h := (not_mem_empty h).elim
  proved h := (not_mem_empty h).elim
  apart h := (not_mem_empty h).elim
  exact h := (not_mem_empty h).elim
  applied h := (not_mem_empty h).elim

theorem folded_coverageStep (h : Folded i.toStore) (event : CoverageEvent) :
    Folded (coverageStep p i event).toStore := by
  cases event with
  | operate op =>
    have hstep := h.operates (step_operates p i.toStore op)
    change Folded (Instance.toStore (Option.elim _ _ _))
    cases op.shared p i.toStore with
    | none => exact hstep
    | some number => rwa [elim_some, extendSharedOwner_toStore]
  | historical env mode items streamId completion limits =>
    exact commit_keeps h fun _ outcome hout => h.historical hout
  | materialize env held items limits =>
    refine commit_keeps (P := fun i : Instance => Folded i.toStore) h fun i' outcome hout => ?_
    simp only [Instance.materialize, eq_ok, Prod.exists, Prod.mk.injEq] at hout
    obtain ⟨_, _, hcommit, _, -, rfl, -⟩ := hout
    rw [extendSharedOwner_toStore]; exact h.materialize hcommit
  | own subscriptionId ranges =>
    change Folded (i.own subscriptionId ranges).toStore; rwa [own_toStore]
  | compact context through segmentSize maximumBlocks =>
    exact commit_keeps (P := fun i : Instance => Folded i.toStore) h fun i' outcome hout => by
      rcases compactFinalizedCoverage_spec hout with ⟨rfl, -⟩ | ⟨_, _, _, -, hf⟩
      · exact h
      · exact h.folds hf
  | release subscriptionId => exact h.release p.descriptor subscriptionId

theorem folded_coverageRun (evs : List CoverageEvent) :
    ∀ {i : Instance}, Folded i.toStore → Folded (coverageRun p i evs).toStore := by
  induction evs with
  | nil => exact id
  | cons event evs ih => exact fun h => ih (folded_coverageStep h event)

/-- Going from `i` to `i'` by a call of compaction, which folded the range it names if it folded
one. -/
structure Invisible (p : Processor) (context : Instance.CompactionContext) (through : Nat)
    (i i' : Instance) (taken : Option (Nat × Nat)) : Prop where
  coverage : ∀ requested, i'.reportedCoverage requested = i.reportedCoverage requested
  finalizedCoverage : ∀ requested, i'.finalizedCoverage requested = i.finalizedCoverage requested
  repeated : ∀ env cursor delta publish streamId recovery,
    i.applyToStream p env cursor delta publish streamId recovery = .ok (i.toStore, .alreadyApplied) →
    i'.applyToStream p env cursor delta publish streamId recovery = .ok (i'.toStore, .alreadyApplied)
  refused : ∀ env (cursor : ProcessorCursor) delta publish streamId recovery segment,
    i'.segments[cursor.blockNumber]? = some segment → cursor.blockHash ≠ segment.endHash →
    (∃ e, i.applyToStream p env cursor delta publish streamId recovery = .error e) ∧
    ∃ e, i'.applyToStream p env cursor delta publish streamId recovery = .error e
  finalizedThrough : i'.finalizedThrough = i.finalizedThrough
  /-- The folded blocks are finalized, linked by their parent hashes, not above the bound and not in
  the overlap of a running handoff. -/
  folded : ∀ range ∈ taken, range.2 ≤ context.archiveAuditBound through ∧ Chain.PathDown (fun n =>
    i.coverage[n]?) CoverageRow.hash CoverageRow.parentHash range.2 range.1 ∧ ∀ n, range.1 ≤ n → n ≤
    range.2 → context.held n = false ∧ ∃ row, i.coverage[n]? = some row ∧ row.finality = .finalized
  untouched : ∀ n : Nat, (∀ range ∈ taken, ¬ (range.1 ≤ n ∧ n ≤ range.2)) →
    i'.coverage[n]? = i.coverage[n]? ∧ ∀ hash : BlockHash,
    i'.applied[(n, hash)]? = i.applied[(n, hash)]? ∧ i'.journal[(n, hash)]? = i.journal[(n, hash)]?
  rest : ∃ intervals segments coverage applied journal, i' = { i with
    intervals := intervals
    segments := segments
    coverage := coverage
    applied := applied
    journal := journal }

theorem Invisible.refl (p : Processor) (ctx : Instance.CompactionContext) (thru : Nat)
    (hi : Folded i.toStore) : Invisible p ctx thru i i none where
  coverage _ := rfl
  finalizedCoverage _ := rfl
  repeated _ _ _ _ _ _ h := h
  refused _ _ _ _ _ _ _ hs hne :=
    ⟨applyToStream_refused (.inl (hi.refuses hs hne)),
      applyToStream_refused (.inl (hi.refuses hs hne))⟩
  finalizedThrough := rfl
  folded := nofun
  untouched _ _ := ⟨rfl, fun _ => ⟨rfl, rfl⟩⟩
  rest := ⟨_, _, _, _, _, rfl⟩

theorem Folds.invisible {i' : Instance} {thru first last : Nat}
    (h : Folds i i' context (context.archiveAuditBound thru) first last segments)
    (hi : Folded i.toStore) : Invisible p context thru i i' (some (first, last)) where
  coverage := reportCoverage_congr (fun _ _ => hi.ordered) (fun _ _ => (hi.folds h).ordered)
    (h.coveredBy_iff hi fun _ _ => rfl)
  finalizedCoverage := reportCoverage_congr (fun _ _ => hi.ordered)
    (fun _ _ => (hi.folds h).ordered) (h.coveredBy_iff hi fun _ hf => decide_eq_true hf)
  repeated env cursor delta publish streamId recovery ha := by
    obtain ⟨hdelta, hcur, hstrm, hle, happ⟩ := applyToStream_alreadyApplied.1 ha
    refine applyToStream_alreadyApplied.2 ⟨hdelta, hcur, ?_, hle, h.alreadyApplied hi happ⟩
    rw [h.store]; exact hstrm
  refused env cursor delta publish streamId recovery segment hs hne :=
    ⟨applyToStream_refused (h.refused hi hs hne),
      applyToStream_refused (.inl ((hi.folds h).refuses hs hne))⟩
  finalizedThrough := by
    have hmax := finalizedThrough_greatest (s := i'.toStore) fun _ _ => (hi.folds h).ordered
    refine (hmax.congr fun n => ?_).eq (finalizedThrough_greatest fun _ _ => hi.ordered)
    exact h.coveredBy_iff hi (fun _ hf => decide_eq_true hf) n
  folded := by
    rintro _ hrng
    cases hrng
    obtain ⟨row, hrow, -, hbound, -⟩ := h.row last h.le le_rfl
    refine ⟨hbound, Chain.pathDown_iff.2 ⟨h.le, ?_, h.linked⟩, fun n hle hle' => ?_⟩
    · rw [hrow]; rfl
    · obtain ⟨row, hrow, hf, -, -, -, hheld⟩ := h.row n hle hle'; exact ⟨hheld, row, hrow, hf⟩
  untouched n hn := by
    have hout := hn _ rfl
    rw [h.store]
    refine ⟨get?_deleteWhere_of_not fun row _ hr => hout ?_, fun _ =>
      ⟨get?_deleteWhere_of_not fun row _ hr => hout ?_,
        get?_deleteWhere_of_not fun row _ hr => hout ?_⟩⟩
    all_goals
      simp only [and_eq_true, decide_eq_true_iff] at hr
    · exact hr.1
    · exact hr
    · exact hr.1
  rest := ⟨_, _, _, _, _, h.store⟩

/-- In every state an instance can be in, compaction cannot be seen, whatever its arguments are and
whether or not it succeeds. -/
theorem run_invisible (p : Processor) (events : List CoverageEvent)
    (context : Instance.CompactionContext) (through segmentSize maximumBlocks : Nat) :
    let i := coverageRun p (.registered p.descriptor) events
    let r := Leani.settle i (i.compactFinalizedCoverage p.descriptor context through segmentSize
      maximumBlocks)
    Invisible p context through i r.1 (r.2.toOption.bind (·.compactedRange)) := by
  intro i r
  have hi : Folded i.toStore := folded_coverageRun events (folded_registered p.descriptor)
  cases hout : i.compactFinalizedCoverage p.descriptor context through segmentSize maximumBlocks with
  | error e =>
    have hr : r = (i, .error e) := by
      change Leani.settle i (i.compactFinalizedCoverage _ _ _ _ _) = _; rw [hout]; rfl
    rw [hr]; exact .refl p context through hi
  | ok out =>
    have hr : r = (out.1, .ok out.2) := by
      change Leani.settle i (i.compactFinalizedCoverage _ _ _ _ _) = _; rw [hout]; rfl
    rw [hr]
    rcases compactFinalizedCoverage_spec hout with ⟨hsame, hempty⟩ | ⟨_, _, _, hrange, hf⟩
    · rw [hsame, hempty]; exact .refl p context through hi
    · change Invisible p context through i out.1 out.2.compactedRange
      rw [hrange]; exact hf.invisible hi

def applyFinalized (number : Nat) (hash parentHash : BlockHash) : CoverageEvent :=
  .operate (.apply ⟨0, fun _ => 0, none⟩ ⟨"silent", "1", 1, number, hash, .finalized, number⟩
    ⟨"silent", "1", 0, 1, 1, ⟨number, hash, parentHash, 0⟩, [], 0⟩ true "silent:live")

example :
    ((coverageRun silent (.registered silent.descriptor) [applyFinalized 1 1 0,
      applyFinalized 2 2 1, applyFinalized 3 3 2, applyFinalized 5 5 4]).compactFinalizedCoverage
        silent.descriptor ⟨0, [], [], fun _ => false⟩ 5 2 10).toOption.map (·.2) =
      some ⟨1, 2, 3, 3, 0, some (1, 3)⟩ := by
  decide +kernel

end Leani.Processor
