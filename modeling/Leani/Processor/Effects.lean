import Leani.Delivery.Retention
import Leani.Processor.Store

/-!
# What store operations publish

`Emits sid s s' rows` says that going from `s` to `s'` appended exactly `rows` to the stream `sid`.
Effects compose. Each operation has one lemma with the records it appends and the rows of the other
tables it leaves.
-/

namespace Leani.Processor

open Library Std Delivery List Option Table Except Store

/-- From `s` to `s'` the stream `sid` was appended `rows`, whatever it holds. -/
structure Emits (sid : String) (s s' : Store) (rows : List ChangeRow) : Prop where
  log : ∀ stream log, s.streams[sid]? = some stream → Holds log stream →
    ∃ stream', s'.streams[sid]? = some stream' ∧ Holds (log.append rows) stream'
  absent : s.streams[sid]? = none → s'.streams[sid]? = none ∧ rows = []
  kind : ∀ id : String, (s'.streams[id]?).map Stream.kind = (s.streams[id]?).map Stream.kind

variable {sid : String} {s s' s'' : Store} {rows rows' : List ChangeRow}

theorem Emits.nil (h : s'.streams = s.streams) : Emits sid s s' [] where
  log stream log hs hlog := ⟨stream, by rw [h, hs], by rwa [Log.append_nil]⟩
  absent hs := ⟨by rw [h, hs], rfl⟩
  kind id := by rw [h]

theorem Emits.trans (h₁ : Emits sid s s' rows) (h₂ : Emits sid s' s'' rows') :
    Emits sid s s'' (rows ++ rows') where
  log stream log hs hlog := by
    obtain ⟨stream₁, hs₁, hlog₁⟩ := h₁.log stream log hs hlog
    obtain ⟨stream₂, hs₂, hlog₂⟩ := h₂.log stream₁ _ hs₁ hlog₁
    rw [Log.append_append] at hlog₂; exact ⟨stream₂, hs₂, hlog₂⟩
  absent hs := by
    obtain ⟨hs₁, rfl⟩ := h₁.absent hs
    obtain ⟨hs₂, rfl⟩ := h₂.absent hs₁; exact ⟨hs₂, rfl⟩
  kind id := (h₂.kind id).trans (h₁.kind id)

theorem Emits.congr {t t' : Store} (h : Emits sid s s' rows) (ht : t.streams = s.streams)
    (ht' : t'.streams = s'.streams) : Emits sid t t' rows where
  log stream log hs hlog := by
    rw [ht] at hs; rw [ht']; exact h.log stream log hs hlog
  absent hs := by
    rw [ht] at hs; rw [ht']; exact h.absent hs
  kind id := by
    rw [ht, ht']; exact h.kind id

/-- The records that an append to a stream puts on the stream `sid`. -/
def emitted (sid streamId : String) (now chainId : Nat) (origin : DeliveryOrigin) (block : BlockRef)
    (finality : Finality) (direction : ChangeDirection) (changes : List DomainChange) :
    List ChangeRow :=
  if streamId = sid then changes.map (changeRow now chainId origin block finality direction) else []

theorem emitted_self (sid : String) (now cid : Nat) (origin : DeliveryOrigin) (block : BlockRef)
    (fin : Finality) (dir : ChangeDirection) (chgs : List DomainChange) :
    emitted sid sid now cid origin block fin dir chgs =
      chgs.map (changeRow now cid origin block fin dir) := if_pos rfl

variable {streamId : String} {now chainId : Nat} {origin : DeliveryOrigin} {block : BlockRef}
  {finality : Finality} {changes : List DomainChange} {bounds : Option Nat × Option Nat}

theorem appendTo_spec {dir : ChangeDirection} (sid : String)
    (h : s.appendTo streamId now chainId origin block finality dir changes = .ok (s', bounds)) :
    (∃ streams, s' = { s with streams := streams }) ∧
      Emits sid s s' (emitted sid streamId now chainId origin block finality dir changes) := by
  simp only [appendTo, eq_ok, Prod.exists, Prod.mk.injEq] at h
  obtain ⟨_, hstrm, stream', _, _, happend, rfl, -⟩ := h
  refine ⟨⟨_, rfl⟩, ?_, ?_, ?_⟩
  · intro stream₀ _ hs hlog
    by_cases hsid : streamId = sid
    · subst hsid
      rw [hstrm, some.injEq] at hs
      subst hs
      have hholds := appendChanges_holds hlog happend
      exact ⟨stream', getElem?_insert_self .., by rwa [emitted_self]⟩
    · refine ⟨stream₀, ?_, ?_⟩
      · rw [← hs]; exact getElem?_insert_of_ne _ _ hsid
      · rwa [emitted, if_neg hsid, Log.append_nil]
  · intro hs
    by_cases hsid : streamId = sid
    · rw [hsid, hs] at hstrm; cases hstrm
    · refine ⟨?_, if_neg hsid⟩
      rw [← hs]; exact getElem?_insert_of_ne _ _ hsid
  · intro _
    rw [get?_insert_ite]
    split
    · rename_i hid; rw [hid, hstrm, map_some, map_some, (appendChanges_frame happend).1]
    · rfl

/-- The records that releasing parked rows puts on the stream `sid`. -/
def releasedRows (sid : String) (now : Nat) (finality : Finality)
    (rows : List ((Nat × Nat) × DeferredRow)) : List ChangeRow :=
  rows.flatMap fun row =>
    emitted sid row.2.streamId now row.2.chainId row.2.origin row.2.block finality .apply
      row.2.changes

theorem releaseRow_spec {row : (Nat × Nat) × DeferredRow}
    (sid : String) (h : releaseRow now finality s row = .ok s') :
    (∃ streams, s' = { s with streams := streams, deferred := s.deferred.erase row.1 }) ∧
      Emits sid s s' (releasedRows sid now finality [row]) := by
  simp only [releaseRow, eq_ok, Prod.exists] at h
  obtain ⟨_, _, _, happend, rfl⟩ := h
  obtain ⟨⟨streams, rfl⟩, hemits⟩ := appendTo_spec sid happend
  refine ⟨⟨streams, rfl⟩, ?_⟩
  rw [releasedRows, flatMap_cons, flatMap_nil, append_nil]; exact hemits.congr rfl rfl

theorem releaseRows_spec (sid : String) {rows : List ((Nat × Nat) × DeferredRow)} :
    ∀ {s : Store}, foldExcept (releaseRow now finality) s rows = .ok s' →
    (∃ streams, s' = { s with streams := streams, deferred := eraseRows s.deferred rows }) ∧
      Emits sid s s' (releasedRows sid now finality rows) := by
  induction rows with
  | nil =>
    intro s h
    rw [foldExcept_nil, ok.injEq] at h
    subst h; exact ⟨⟨_, rfl⟩, .nil rfl⟩
  | cons row rows ih =>
    intro s h
    rw [foldExcept_cons, bind_eq_ok] at h
    obtain ⟨_, hrow, h⟩ := h
    obtain ⟨⟨streams, rfl⟩, hemits⟩ := releaseRow_spec sid hrow
    obtain ⟨⟨streams', rfl⟩, hemits'⟩ := ih h
    refine ⟨⟨streams', rfl⟩, ?_⟩
    have e : releasedRows sid now finality (row :: rows) =
        releasedRows sid now finality [row] ++ releasedRows sid now finality rows := by
      rw [releasedRows, releasedRows, releasedRows, ← flatMap_append, singleton_append]
    rw [e]; exact hemits.trans hemits'

variable {through : Nat}

theorem releaseBatches_spec (sid : String)
    {fuel : Nat} : ∀ {s : Store} {b b' : Bool}, (s.parkedThrough through).length <
    fuel → releaseBatches now through finality fuel s b = .ok (s', b') → (∃ streams, s' = { s with
        streams := streams
        deferred := deleteWhere s.deferred fun key _ => key.1 ≤ through }) ∧
      Emits sid s s' (releasedRows sid now finality (s.parkedThrough through)) := by
  induction fuel with
  | zero => intro s b b' hfuel; exact absurd hfuel (Nat.not_lt_zero _)
  | succ fuel ih =>
    intro s b b' hfuel h
    rw [releaseBatches] at h
    split at h
    · rename_i hempty
      rw [List.isEmpty_iff, List.take_eq_nil_iff, or_iff_right (by decide)] at hempty
      rw [ok.injEq, Prod.mk.injEq] at h
      obtain ⟨rfl, -⟩ := h
      rw [hempty, deleteWhere_of_rowsWhere_nil hempty]; exact ⟨⟨_, rfl⟩, .nil rfl⟩
    · rw [bind_eq_ok] at h
      obtain ⟨t, hrows, h⟩ := h
      obtain ⟨⟨streams, ht⟩, hemits⟩ := releaseRows_spec sid hrows
      -- What a batch leaves parked is what it did not read.
      have hrest : t.parkedThrough through = (s.parkedThrough through).drop deferredFlushBatch := by
        rw [ht]; exact rowsWhere_eraseRows_take _ _ _
      have hdelete : (deleteWhere t.deferred fun key _ => key.1 ≤ through) =
          deleteWhere s.deferred fun key _ => key.1 ≤ through := by
        rw [ht]; exact deleteWhere_eraseRows fun _ hrow => mem_of_mem_take hrow
      have hsplit : releasedRows sid now finality (s.parkedThrough through) =
          releasedRows sid now finality ((s.parkedThrough through).take deferredFlushBatch) ++
            releasedRows sid now finality (t.parkedThrough through) := by
        rw [hrest, releasedRows, releasedRows, releasedRows, ← flatMap_append, take_append_drop]
      rw [hsplit]
      split at h
      · rename_i hlast
        rw [length_take] at hlast
        have hnil : t.parkedThrough through = [] := by
          rw [hrest, drop_eq_nil_iff]; omega
        rw [ok.injEq, Prod.mk.injEq] at h
        obtain ⟨rfl, -⟩ := h
        refine ⟨⟨streams, ?_⟩, ?_⟩
        · rw [← hdelete, deleteWhere_of_rowsWhere_nil hnil, ht]
        · rw [hnil]; exact hemits.trans (.nil rfl)
      · rename_i hfull
        rw [length_take] at hfull
        have hshort : (t.parkedThrough through).length < fuel := by
          rw [hrest, length_drop]
          have : 0 < deferredFlushBatch := by decide
          omega
        obtain ⟨⟨streams', hs'⟩, hemits'⟩ := ih hshort h
        refine ⟨⟨streams', ?_⟩, hemits.trans hemits'⟩
        rw [hs', hdelete, ht]

variable {b : Bool}

theorem releaseDeferredChanges_spec (sid : String)
    (h : s.releaseDeferredChanges now through finality = .ok (s', b)) : (∃ streams, s' = { s with
      streams := streams
      deferred := deleteWhere s.deferred fun key _ => key.1 ≤ through }) ∧
    Emits sid s s' (releasedRows sid now finality (s.parkedThrough through)) := by
  simp only [releaseDeferredChanges, bind_eq_ok, u64I64_eq_ok] at h
  obtain ⟨_, ⟨-, rfl⟩, h⟩ := h
  refine releaseBatches_spec sid ?_ h
  rw [Nat.lt_succ_iff, ← ExtTreeMap.length_toList]; exact length_filter_le ..

variable {d : ProcessorDescriptor} {cursor : ProcessorCursor} {publish : Bool}

theorem not_releasesBelow
    (h : Store.Defers d cursor publish) : ¬ Store.ReleasesBelow d cursor publish :=
  fun h' => h.1.not_ge h'.2.2.2.2.1

theorem park_spec (s : Store) (row : DeferredRow) : ∃ key : Nat × Nat, key.1 = row.block.number ∧
    s.deferred[key]? = none ∧ (s.park row).deferred = s.deferred.insert key row := by
  refine ⟨_, rfl, ?_, rfl⟩
  rw [← not_isSome_iff_eq_none]
  intro hsome
  obtain ⟨_, hold⟩ := isSome_iff_exists.1 hsome
  have hmem := mem_map_of_mem (f := (·.1.2)) (ExtTreeMap.mem_toList_iff_getElem?_eq_some.2 hold)
  cases hmax : (s.deferred.toList.map (·.1.2)).max? with
  | none =>
    rw [max?_eq_none_iff] at hmax; rw [hmax] at hmem; cases hmem
  | some greatest =>
    rw [hmax] at hmem; exact absurd ((max?_eq_some_iff.1 hmax).2 _ hmem) (Nat.not_succ_le_self _)

theorem releaseBelow_spec (sid : String) (h : s.releaseBelow d now cursor publish = .ok (s', b)) :
    (∃ streams, s' = { s with
      streams := streams
      deferred := if Store.ReleasesBelow d cursor publish then
        deleteWhere s.deferred fun key _ => key.1 ≤ cursor.blockNumber - 1 else s.deferred }) ∧
    Emits sid s s' (if Store.ReleasesBelow d cursor publish then
      releasedRows sid now cursor.finality (s.parkedThrough (cursor.blockNumber - 1)) else []) := by
  unfold releaseBelow at h
  by_cases hr : Store.ReleasesBelow d cursor publish
  · rw [if_pos hr] at h; rw [if_pos hr, if_pos hr]; exact releaseDeferredChanges_spec sid h
  · rw [if_neg hr, ok.injEq, Prod.mk.injEq] at h
    rw [if_neg hr, if_neg hr]
    obtain ⟨rfl, -⟩ := h; exact ⟨⟨_, rfl⟩, .nil rfl⟩

theorem Emits.isBackfill (h : Emits sid s s' rows) (id : String) :
    s'.isBackfill id = s.isBackfill id := by
  have hk := h.kind id
  unfold Store.isBackfill
  cases h₁ : s'.streams[id]? with
  | none =>
    cases h₂ : s.streams[id]? with
    | none => rfl
    | some t => simp [h₁, h₂] at hk
  | some t' =>
    cases h₂ : s.streams[id]? with
    | none => simp [h₁, h₂] at hk
    | some t =>
      rw [h₁, h₂, map_some, map_some, some.injEq] at hk; rw [any_some, any_some, hk]

def ownRows (sid : String) (d : ProcessorDescriptor) (s : Store) (now : Nat) (streamId : String)
    (origin : DeliveryOrigin) (cursor : ProcessorCursor) (block : BlockRef)
    (changes : List DomainChange) : List ChangeRow :=
  if d.deliveryEnabled then
    emitted sid streamId now cursor.chainId origin block cursor.finality .apply changes ++
      if s.isBackfill streamId then
        emitted sid streamId now cursor.chainId origin block .finalized .apply
          [Store.backfillProgressChange cursor.blockNumber cursor.blockNumber 1]
      else []
  else []

theorem ownRows_congr (h : Emits sid s s' rows) {sid' : String} :
    ownRows sid' d s' now streamId origin cursor block changes =
      ownRows sid' d s now streamId origin cursor block changes := by
  rw [ownRows, ownRows, h.isBackfill]

theorem publishBlock_spec (sid : String)
    (h : s.publishBlock d now streamId origin cursor block changes = .ok (s', bounds)) :
    (∃ streams, s' = { s with streams := streams }) ∧
      Emits sid s s' (ownRows sid d s now streamId origin cursor block changes) := by
  unfold publishBlock at h
  unfold ownRows
  by_cases hd : d.deliveryEnabled = true
  · rw [if_pos hd] at h
    rw [if_pos hd]
    simp only [bind_eq_ok, Prod.exists] at h
    obtain ⟨_, _, _, happend, h⟩ := h
    obtain ⟨⟨streams, rfl⟩, hemits⟩ := appendTo_spec sid happend
    rw [hemits.isBackfill] at h
    by_cases hb : s.isBackfill streamId = true
    · rw [if_pos hb] at h
      rw [if_pos hb]
      simp only [eq_ok, Prod.exists, Prod.mk.injEq] at h
      obtain ⟨_, _, _, happend', rfl, -⟩ := h
      obtain ⟨⟨streams', rfl⟩, hemits'⟩ := appendTo_spec sid happend'
      exact ⟨⟨streams', rfl⟩, hemits.trans hemits'⟩
    · rw [if_neg hb, pure_eq_ok, Prod.mk.injEq] at h
      rw [if_neg hb, append_nil]
      obtain ⟨rfl, -⟩ := h; exact ⟨⟨streams, rfl⟩, hemits⟩
  · rw [if_neg hd, ok.injEq, Prod.mk.injEq] at h
    rw [if_neg hd]
    obtain ⟨rfl, -⟩ := h; exact ⟨⟨_, rfl⟩, .nil rfl⟩

structure CommitsBlock (d : ProcessorDescriptor) (env : Environment) (cursor : ProcessorCursor)
    (delta : EncodedDelta) (publish : Bool) (streamId : String) (origin : DeliveryOrigin)
    (batch : MutationBatch) (inverse : List DomainChange) (s s' : Store) (o : Output)
    (pruned : PrunedOutput) : Prop where
  written : applyMutations s.output batch.mutations false d.retainsOutput
    ⟨delta.block, cursor.finality, env.writeTime⟩ = .ok o
  output : pruneOutputWindow o d.output delta.block env.now = .ok (s'.output, pruned)
  fresh : (delta.block.number, delta.block.hash) ∉ s.applied
  applied : s'.applied = s.applied.insert (delta.block.number, delta.block.hash) delta.checksum
  coverage : s'.coverage = (s.cover delta.block cursor.finality).coverage
  intervals : s'.intervals = s.intervals
  segments : s'.segments = s.segments
  advanced : s'.cursor = if s.AdvancesCursor d cursor then some cursor else s.cursor
  unjournaled : cursor.finality ≠ .finalized → (delta.block.number, delta.block.hash) ∉ s.journal
  journal : s'.journal = if cursor.finality = .finalized then s.journal else
    s.journal.insert (delta.block.number, delta.block.hash) 
      (s.journalRow d cursor delta.block batch inverse pruned)
  deferred : s'.deferred = if Store.Defers d cursor publish then
      (s.park ⟨streamId, cursor.chainId, delta.block, origin, batch.changes⟩).deferred
    else if Store.ReleasesBelow d cursor publish then
      Table.deleteWhere s.deferred fun key _ => key.1 ≤ cursor.blockNumber - 1
    else s.deferred
  emits : ∀ sid, Emits sid s s' ((if Store.ReleasesBelow d cursor publish then
        releasedRows sid env.now cursor.finality (s.parkedThrough (cursor.blockNumber - 1)) else []) ++
      ownRows sid d s env.now streamId origin cursor delta.block
        (if Store.Defers d cursor publish then [] else Store.admittedChanges d publish batch))

variable {row : JournalRow}

theorem journalBlock_eq_ok (h : s.journalBlock row = .ok s') :
    (row.undo.finality ≠ .finalized → (row.undo.block.number, row.undo.block.hash) ∉ s.journal) ∧
    s' = { s with journal := if row.undo.finality = .finalized then s.journal else
      s.journal.insert (row.undo.block.number, row.undo.block.hash) row } := by
  unfold journalBlock at h
  split at h
  · rename_i hf; rw [ok.injEq] at h; exact ⟨fun hne => absurd hf hne, by rw [if_pos hf, h]⟩
  · rename_i hf
    simp only [eq_ok] at h
    obtain ⟨-, hfresh, rfl⟩ := h; exact ⟨fun _ => hfresh, by rw [if_neg hf]⟩

theorem recordApplied_eq_ok {csum : BlockHash} (h : s.recordApplied block csum = .ok s') :
    (block.number, block.hash) ∉ s.applied ∧
      s' = { s with applied := s.applied.insert (block.number, block.hash) csum } := by
  simp only [recordApplied, eq_ok] at h
  obtain ⟨-, hfresh, rfl⟩ := h; exact ⟨hfresh, rfl⟩

variable {env : Environment} {delta : EncodedDelta} {batch : MutationBatch}
  {inverse : List DomainChange}

theorem recordBlock_spec (h : s.recordBlock d env cursor delta batch inverse = .ok s') :
    ∃ o output pruned, applyMutations s.output batch.mutations false d.retainsOutput
        ⟨delta.block, cursor.finality, env.writeTime⟩ = .ok o ∧
      pruneOutputWindow o d.output delta.block env.now = .ok (output, pruned) ∧
      (delta.block.number, delta.block.hash) ∉ s.applied ∧
      (cursor.finality ≠ .finalized → (delta.block.number, delta.block.hash) ∉ s.journal) ∧
      s' = { s with
        output := output
        applied := s.applied.insert (delta.block.number, delta.block.hash) delta.checksum
        coverage := (s.cover delta.block cursor.finality).coverage
        journal := if cursor.finality = .finalized then s.journal else
          s.journal.insert (delta.block.number, delta.block.hash)
            (s.journalRow d cursor delta.block batch inverse pruned)
        cursor := if s.AdvancesCursor d cursor then some cursor else s.cursor } := by
  simp only [recordBlock, eq_ok, Prod.exists] at h
  obtain ⟨o, ho, output, pruned, hprun, _, hjrnl, _, happ, -, -, rfl⟩ := h
  obtain ⟨hunjournaled, rfl⟩ := journalBlock_eq_ok hjrnl
  obtain ⟨hfresh, rfl⟩ := recordApplied_eq_ok happ
  exact ⟨o, output, pruned, ho, hprun, hfresh, hunjournaled, rfl⟩

variable {outcome : Store.ApplyOutcome}

theorem commitBlock_spec (h : s.commitBlock d env cursor delta publish streamId origin batch inverse =
      .ok (s', outcome)) : (∃ committed first last,
      outcome = .applied committed first last ∧ s'.cursor = some committed) ∧ ∃ o pruned,
      CommitsBlock d env cursor delta publish streamId origin batch inverse s s' o pruned := by
  simp only [commitBlock, eq_ok, Prod.exists, Prod.mk.injEq] at h
  obtain ⟨_, hrcd, -, -, _, _, hrelease, s'', first, last, hpublish, rfl, rfl⟩ := h
  obtain ⟨o, _, pruned, ho, hprun, hfresh, hunjournaled, rfl⟩ := recordBlock_spec hrcd
  have hcur : (if s.AdvancesCursor d cursor then some cursor else s.cursor) =
      some (if s.AdvancesCursor d cursor then cursor else s.cursor.getD cursor) := by
    split
    · rfl
    · rename_i hstays
      cases hprior : s.cursor with
      | none =>
        refine absurd (.inr fun prior hsome => ?_) hstays
        rw [hprior] at hsome; cases hsome
      | some prior => rfl
  suffices hcommits : ∃ o pruned, CommitsBlock d env cursor delta publish streamId origin batch
      inverse s s'' o pruned by
    refine ⟨⟨_, _, _, rfl, ?_⟩, hcommits⟩
    obtain ⟨_, _, hcommits⟩ := hcommits; rw [hcommits.advanced, hcur]
  refine ⟨o, pruned, ?_⟩
  by_cases hdefer : Store.Defers d cursor publish
  · rw [if_pos hdefer] at hrelease hpublish
    have hnot := not_releasesBelow hdefer
    have hrel := fun sid => releaseBelow_spec sid hrelease
    have hpub := fun sid => publishBlock_spec sid hpublish
    simp only [if_neg hnot] at hrel
    obtain ⟨strms, rfl⟩ := (hrel "").1
    obtain ⟨strms', rfl⟩ := (hpub "").1
    refine ⟨ho, hprun, hfresh, rfl, rfl, rfl, rfl, rfl, hunjournaled, rfl, ?_, fun sid => ?_⟩
    · rw [if_pos hdefer]; rfl
    · rw [if_neg hnot, if_pos hdefer]
      have hemits := (hrel sid).2.trans (hpub sid).2
      rw [ownRows_congr (hrel sid).2] at hemits; exact hemits.congr rfl rfl
  · rw [if_neg hdefer] at hrelease hpublish
    have hrel := fun sid => releaseBelow_spec sid hrelease
    have hpub := fun sid => publishBlock_spec sid hpublish
    obtain ⟨strms, rfl⟩ := (hrel "").1
    obtain ⟨strms', rfl⟩ := (hpub "").1
    refine ⟨ho, hprun, hfresh, rfl, rfl, rfl, rfl, rfl, hunjournaled, rfl, ?_, fun sid => ?_⟩
    · rw [if_neg hdefer]
    · rw [if_neg hdefer]
      have hemits := (hrel sid).2.trans (hpub sid).2
      rw [ownRows_congr (hrel sid).2] at hemits; exact hemits.congr rfl rfl

structure Applies (p : Processor) (env : Environment) (cursor : ProcessorCursor)
    (delta : EncodedDelta) (publish : Bool) (streamId : String) (recovery : Bool)
    (origin : DeliveryOrigin) (batch : MutationBatch) (inverse : List DomainChange) (s s' : Store)
    (o : Output) (pruned : PrunedOutput) : Prop
    extends CommitsBlock p.descriptor env cursor delta publish streamId origin batch inverse s s' o
      pruned where
  block : cursor.blockNumber = delta.block.number ∧ cursor.blockHash = delta.block.hash
  number_le : cursor.blockNumber ≤ i64Max
  stream : p.descriptor.deliveryEnabled → streamId ∈ s.streams
  unapplied : s.alreadyApplied cursor delta = .ok false
  uncovered : ∀ row, s.coverage[cursor.blockNumber]? = some row → row.hash = cursor.blockHash
  reduced : s.reduceBlock p cursor delta = .ok batch
  inverted : Store.inverseChanges p.descriptor cursor publish batch = .ok inverse
  provenance : s.applyOrigin p.descriptor streamId recovery = .ok origin

variable {number : Nat} {hash : BlockHash}

theorem validateCoverage_eq_ok {u : Unit} (h : s.validateCoverage number hash = .ok u) :
    ∀ row, s.coverage[number]? = some row → row.hash = hash := by
  intro row hrow; rw [validateCoverage, hrow] at h; exact ensure_eq_ok.1 h

variable {p : Processor}

theorem applyToStream_spec {recov : Bool}
    (h : s.applyToStream p env cursor delta publish streamId recov = .ok (s', outcome)) :
    (outcome = .alreadyApplied ∧ s' = s) ∨
    (∃ committed first last, outcome = .applied committed first last ∧ s'.cursor = some committed) ∧
      ∃ origin batch inverse o pruned,
        Applies p env cursor delta publish streamId recov origin batch inverse s s' o pruned := by
  simp only [applyToStream, validateCursor, eq_ok, u64I64_eq_ok] at h
  obtain ⟨-, -, -, ⟨-, -, -, hnum, hhash⟩, -, hstrm, _, ⟨hle, -⟩, applied, happ, h⟩ := h
  cases applied with
  | true =>
    rw [if_pos rfl, pure_eq_ok, Prod.mk.injEq] at h
    obtain ⟨rfl, rfl⟩ := h; exact .inl ⟨rfl, rfl⟩
  | false =>
    rw [if_neg Bool.false_ne_true] at h
    simp only [bind_eq_ok] at h
    obtain ⟨_, hcovg, batch, hbatch, inverse, hinverse, -, -, origin, horig, hcommit⟩ := h
    obtain ⟨houtc, o, pruned, hcommits⟩ := commitBlock_spec hcommit
    exact .inr ⟨houtc, origin, batch, inverse, o, pruned, { hcommits with
      block := ⟨hnum, hhash⟩
      number_le := hle
      stream := hstrm
      unapplied := happ
      uncovered := validateCoverage_eq_ok hcovg
      reduced := hbatch
      inverted := hinverse
      provenance := horig }⟩

def undoRows (sid : String) (d : ProcessorDescriptor) (s : Store) (now chainId number : Nat)
    (hash : BlockHash) (undo : UndoRecord) : List ChangeRow :=
  if d.deliveryEnabled ∧ s.parkedOf number hash = [] then
    emitted sid d.defaultStreamId now chainId (.live d.inst) undo.block
      (s.undoLevel number hash undo.finality) .undo undo.inverseChanges
  else []

structure Undoes (d : ProcessorDescriptor) (env : Environment) (chainId number : Nat)
    (hash : BlockHash) (row : JournalRow) (s s' : Store) (o : Output) : Prop where
  journaled : s.journal[(number, hash)]? = some row
  unfinalized : row.finalized = false
  written : applyMutations s.output row.undo.mutations true d.retainsOutput
    ⟨row.undo.block, row.undo.finality, env.writeTime⟩ = .ok o
  output : s'.output = if d.retainsOutput then
      restoreEntityMetadata s.coveredLevel
        (if row.images.any fun image => image.row.finality ≠ .finalized then s.finalizedThrough
          else none) o row.images
    else o
  coverage : s'.coverage = (s.forget number hash).coverage
  applied : s'.applied = s.applied.erase (number, hash)
  journal : s'.journal = s.journal.erase (number, hash)
  intervals : s'.intervals = s.intervals
  segments : s'.segments = s.segments
  cursor : s'.cursor = match d.mode with
    | .blockLocal => (s.forget number hash).highestCoverageCursor d chainId
    | .orderedState => row.undo.priorCursor
  deferred : s'.deferred = if d.deliveryEnabled then
      Table.deleteWhere s.deferred fun key row => key.1 = number && row.block.hash = hash
    else s.deferred
  emits : ∀ sid, Emits sid s s' (undoRows sid d s env.now chainId number hash row.undo)

theorem undoRow_eq_ok (h : s.undoRow number hash = .ok row) :
    s.journal[(number, hash)]? = some row ∧ row.finalized = false := by
  unfold undoRow at h
  split at h
  · rename_i row' hrow
    simp only [eq_ok] at h
    obtain ⟨-, hf, rfl⟩ := h; exact ⟨hrow, hf⟩
  · split at h <;> cases h

variable {level : Finality}

theorem publishUndo_spec {undo : UndoRecord} (h : s.publishUndo d now chainId undo number hash level =
    .ok (s', bounds)) : (∃ streams, s' = { s with
      streams := streams
      deferred := if d.deliveryEnabled then
          Table.deleteWhere s.deferred fun key row => key.1 = number && row.block.hash = hash
        else s.deferred }) ∧
    ∀ sid, Emits sid s s' (if d.deliveryEnabled ∧ s.parkedOf number hash = [] then
      emitted sid d.defaultStreamId now chainId (.live d.inst) undo.block level .undo
        undo.inverseChanges else []) := by
  unfold publishUndo at h
  by_cases hd : d.deliveryEnabled = true
  · rw [if_pos hd] at h
    rw [if_pos hd]
    simp only [List.isEmpty_iff] at h
    by_cases hparked : s.parkedOf number hash = []
    · rw [if_pos hparked] at h
      have hspec := fun sid => appendTo_spec sid h
      obtain ⟨streams, rfl⟩ := (hspec "").1
      refine ⟨⟨streams, rfl⟩, fun sid => ?_⟩
      rw [if_pos ⟨hd, hparked⟩]; exact (hspec sid).2.congr rfl rfl
    · rw [if_neg hparked, ok.injEq, Prod.mk.injEq] at h
      obtain ⟨rfl, -⟩ := h
      refine ⟨⟨_, rfl⟩, fun sid => ?_⟩
      rw [if_neg fun h => hparked h.2]
      exact .nil rfl
  · rw [if_neg hd, ok.injEq, Prod.mk.injEq] at h
    rw [if_neg hd]
    obtain ⟨rfl, -⟩ := h
    refine ⟨⟨_, rfl⟩, fun sid => ?_⟩
    rw [if_neg fun h => hd h.1]
    exact .nil rfl

theorem undo_spec (h : s.undo d env chainId number hash = .ok (s', bounds)) :
    ∃ row o, Undoes d env chainId number hash row s s' o := by
  simp only [undo, bind_eq_ok, u64I64_eq_ok] at h
  obtain ⟨-, -, row, hrow, o, ho, hpublish⟩ := h
  obtain ⟨hjrnl, hfinalized⟩ := undoRow_eq_ok hrow
  obtain ⟨⟨_, rfl⟩, hemits⟩ := publishUndo_spec hpublish
  exact ⟨row, o, hjrnl, hfinalized, ho, rfl, rfl, rfl, rfl, rfl, rfl, rfl, rfl, fun sid =>
    (hemits sid).congr rfl rfl⟩

theorem releaseAt_spec {holds : Bool} (sid : String)
    (h : s.releaseAt d now through level holds = .ok (s', b)) : (∃ streams, s' = { s with
      streams := streams
      deferred := if holds && d.deliveryEnabled then
        deleteWhere s.deferred fun key _ => key.1 ≤ through else s.deferred }) ∧
    Emits sid s s' (if holds && d.deliveryEnabled then
      releasedRows sid now level (s.parkedThrough through) else []) := by
  unfold releaseAt at h
  by_cases hr : (holds && d.deliveryEnabled) = true
  · rw [if_pos hr] at h; rw [if_pos hr, if_pos hr]; exact releaseDeferredChanges_spec sid h
  · rw [if_neg hr, ok.injEq, Prod.mk.injEq] at h
    rw [if_neg hr, if_neg hr]
    obtain ⟨rfl, -⟩ := h; exact ⟨⟨_, rfl⟩, .nil rfl⟩

def markerRows (sid : String) (d : ProcessorDescriptor) (now through : Nat) (level : Finality)
    (marks : Bool) (cursor : Option ProcessorCursor) (context : Option UndoRecord) : List ChangeRow :=
  match cursor, context with
  | some cursor, some context =>
    if d.deliveryEnabled && marks then
      emitted sid d.defaultStreamId now cursor.chainId (.live d.inst) context.block level .finalized
        [Store.finalityChange through]
    else []
  | _, _ => []

theorem publishMarker_spec {marks : Bool} {cursor : Option ProcessorCursor} {ctx : Option UndoRecord}
    (sid : String) (h : s.publishMarker d now through level marks cursor ctx = .ok s') :
    (∃ streams, s' = { s with streams := streams }) ∧
    Emits sid s s' (markerRows sid d now through level marks cursor ctx) := by
  cases cursor with
  | none =>
    rw [publishMarker, ok.injEq] at h
    · subst h; exact ⟨⟨_, rfl⟩, .nil rfl⟩
    · exact nofun
  | some cursor =>
    cases ctx with
    | none =>
      rw [publishMarker, ok.injEq] at h
      · subst h; exact ⟨⟨_, rfl⟩, .nil rfl⟩
      · exact nofun
    | some ctx =>
      rw [publishMarker] at h
      rw [markerRows]
      by_cases hm : (d.deliveryEnabled && marks) = true
      · simp only [if_pos hm, eq_ok, Prod.exists] at h
        obtain ⟨_, _, _, happend, rfl⟩ := h; rw [if_pos hm]; exact appendTo_spec sid happend
      · rw [if_neg hm, ok.injEq] at h; rw [if_neg hm, h]; exact ⟨⟨_, rfl⟩, .nil rfl⟩

structure Raises (d : ProcessorDescriptor) (now through : Nat) (level : Finality)
    (holds marks : Bool) (s s' : Store) : Prop where
  through_le : through ≤ i64Max
  output : s'.output = (s.promote through level).output
  coverage : s'.coverage = (s.promote through level).coverage
  applied : s'.applied = s.applied
  intervals : s'.intervals = s.intervals
  segments : s'.segments = s.segments
  cursor : s'.cursor = (s.promoteCursor through level).cursor
  journaled : ∀ {key : Nat × BlockHash} {row : JournalRow}, s'.journal[key]? = some row →
    ∃ old, s.journal[key]? = some old ∧ old.undo = row.undo ∧ (row.finalized = false → row = old)
  deferred : s'.deferred = if holds && d.deliveryEnabled then
    Table.deleteWhere s.deferred fun key _ => key.1 ≤ through else s.deferred
  emits : ∀ sid, Emits sid s s' ((if holds && d.deliveryEnabled then
      releasedRows sid now level (s.parkedThrough through) else []) ++
    markerRows sid d now through level marks s.cursor (s.unfinalizedContext through))

theorem undo_of_marked {d : ProcessorDescriptor}
    {thru : Nat} {key : Nat × BlockHash} {row : JournalRow} (h : ({ s with
      journal := updateWhere s.journal (fun key row => key.1 ≤ thru && !row.finalized)
        fun row => { row with finalized := true } }.pruneFinalizedUndo d thru).journal[key]? =
      some row) :
    ∃ old, s.journal[key]? = some old ∧ old.undo = row.undo ∧ (row.finalized = false → row = old) := by
  obtain ⟨h, -⟩ := get?_deleteWhere_eq_some.1 h
  obtain ⟨old, hold, hrow⟩ := get?_updateWhere_eq_some.1 h
  refine ⟨old, hold, ?_⟩
  rw [← hrow]
  split
  · exact ⟨rfl, nofun⟩
  · exact ⟨rfl, fun _ => rfl⟩

theorem Raises.undo_eq {holds marks : Bool} (h : Raises d now through level holds marks s s')
    {key : Nat × BlockHash} (hrow : s'.journal[key]? = some row) :
    ∃ old, s.journal[key]? = some old ∧ old.undo = row.undo := by
  obtain ⟨old, hold, hundo, -⟩ := h.journaled hrow; exact ⟨old, hold, hundo⟩

theorem markFinalized_spec {n : Nat} (h : s.markFinalized d env through hash = .ok (s', n)) :
    Raises d env.now through .finalized (.unattested < d.publication.firstLevel)
    (!(rowsWhere s.journal fun key row => key.1 ≤ through && !row.finalized).isEmpty) s s' := by
  simp only [markFinalized, eq_ok, u64I64_eq_ok, Prod.exists, Prod.mk.injEq] at h
  obtain ⟨height, ⟨hle, rfl⟩, -, -, _, _, hrelease, _, hmark, rfl, -⟩ := h
  have hrel := fun sid => releaseAt_spec sid hrelease
  have hpublish := fun sid => publishMarker_spec sid hmark
  obtain ⟨_, rfl⟩ := (hrel "").1
  obtain ⟨_, rfl⟩ := (hpublish "").1
  have hjrnl := @undo_of_marked s d height
  exact ⟨hle, rfl, rfl, rfl, rfl, rfl, rfl, hjrnl, rfl, fun sid =>
    ((hrel sid).2.trans ((hpublish sid).2.congr rfl rfl)).congr rfl rfl⟩

theorem markAttested_spec {n : Nat} (h : s.markAttested d env through hash = .ok (s', n)) :
    Raises d env.now through .attested (d.publication = .attested)
      (d.publication = .unattested && !(rowsWhere s.coverage fun n row =>
        n ≤ through && row.finality = .unattested).isEmpty) s s' := by
  simp only [markAttested, eq_ok, u64I64_eq_ok, Prod.exists, Prod.mk.injEq] at h
  obtain ⟨_, ⟨hle, rfl⟩, -, -, _, _, hrelease, _, hmark, rfl, -⟩ := h
  have hrel := fun sid => releaseAt_spec sid hrelease
  have hpublish := fun sid => publishMarker_spec sid hmark
  obtain ⟨_, rfl⟩ := (hrel "").1
  obtain ⟨_, rfl⟩ := (hpublish "").1
  exact ⟨hle, rfl, rfl, rfl, rfl, rfl, rfl, fun hrow => ⟨_, hrow, rfl, fun _ => rfl⟩, rfl,
    fun sid => ((hrel sid).2.trans ((hpublish sid).2.congr rfl rfl)).congr rfl rfl⟩

def noticeRows (sid : String) (d : ProcessorDescriptor) (s : Store) (now chainId : Nat)
    (block : BlockRef) (skipped : BlockRange) : List ChangeRow :=
  if d.deliveryEnabled ∧ ¬ (s.streams[d.defaultStreamId]?).any fun stream =>
      Store.noticeCovered stream block skipped then
    emitted sid d.defaultStreamId now chainId (.live d.inst) block .finalized .finalized
      [Store.liveGapChange skipped]
  else []

theorem appendLiveGapNotice_spec {skipped : BlockRange} (sid : String)
    (h : s.appendLiveGapNotice d env chainId block skipped = .ok (s', b)) :
    (∃ streams, s' = { s with streams := streams }) ∧
      Emits sid s s' (noticeRows sid d s env.now chainId block skipped) := by
  unfold appendLiveGapNotice at h
  unfold noticeRows
  by_cases hd : d.deliveryEnabled = true
  · simp only [if_pos hd, eq_ok] at h
    obtain ⟨strm, hstrm, h⟩ := h
    rw [hstrm, any_some]
    by_cases hc : noticeCovered strm block skipped = true
    · rw [if_pos hc, pure_eq_ok, Prod.mk.injEq] at h
      rw [if_neg fun h => h.2 hc]
      obtain ⟨rfl, -⟩ := h; exact ⟨⟨_, rfl⟩, .nil rfl⟩
    · simp only [if_neg hc, eq_ok, Prod.exists, Prod.mk.injEq] at h
      rw [if_pos ⟨hd, hc⟩]
      obtain ⟨_, _, _, happend, rfl, -⟩ := h; exact appendTo_spec sid happend
  · rw [if_neg hd, ok.injEq, Prod.mk.injEq] at h
    rw [if_neg fun h => hd h.1]
    obtain ⟨rfl, -⟩ := h; exact ⟨⟨_, rfl⟩, .nil rfl⟩

def replayRows (sid : String) (s : Store) (now : Nat) (streamId : String) (origin : DeliveryOrigin)
    (cursor : ProcessorCursor) (block : BlockRef) (changes : List DomainChange) : List ChangeRow :=
  emitted sid streamId now cursor.chainId origin block cursor.finality .apply changes ++
    if s.isBackfill streamId then
      emitted sid streamId now cursor.chainId origin block .finalized .apply
        [Store.backfillProgressChange cursor.blockNumber cursor.blockNumber 1]
    else []

theorem republishBlockLocal_spec (sid : String)
    (h : s.republishBlockLocal p env cursor delta publish streamId = .ok (s', bounds)) :
    (∃ streams, s' = { s with streams := streams }) ∧ ∃ batch origin,
      s.reduceBlock p cursor delta = .ok batch ∧
      s.replayOrigin p.descriptor streamId = .ok origin ∧
      Emits sid s s' (replayRows sid s env.now streamId origin cursor delta.block
        (if publish then batch.changes else [])) := by
  simp only [republishBlockLocal, bind_eq_ok, Prod.exists] at h
  obtain ⟨-, -, -, -, -, -, -, -, -, -, -, -, -, -, batch, hbatch, -, -, origin, horig, _, _,
    last, happend, h⟩ := h
  obtain ⟨⟨streams, rfl⟩, hemits⟩ := appendTo_spec sid happend
  rw [hemits.isBackfill] at h
  unfold replayRows
  by_cases hb : s.isBackfill streamId = true
  · simp only [if_pos hb, eq_ok, Prod.exists, Prod.mk.injEq] at h
    obtain ⟨_, _, _, happend', rfl, -⟩ := h
    obtain ⟨⟨streams', rfl⟩, hemits'⟩ := appendTo_spec sid happend'
    refine ⟨⟨streams', rfl⟩, batch, origin, hbatch, horig, ?_⟩
    rw [if_pos hb]; exact hemits.trans hemits'
  · rw [if_neg hb, pure_eq_ok, Prod.mk.injEq] at h
    obtain ⟨rfl, -⟩ := h
    refine ⟨⟨streams, rfl⟩, batch, origin, hbatch, horig, ?_⟩
    rw [if_neg hb, append_nil]; exact hemits

theorem registered_stream {id : String} {strm : Stream}
    (h : (registered d).streams[id]? = some strm) : strm = .new d.defaultStreamKind := by
  change (if d.deliveryEnabled = true then _ else _ : Table String Stream)[id]? = _ at h
  split at h
  · rcases insert_cases h with ⟨-, h⟩ | ⟨-, h⟩
    · exact h.symm
    · exact (not_mem_empty h).elim
  · exact (not_mem_empty h).elim

end Leani.Processor
