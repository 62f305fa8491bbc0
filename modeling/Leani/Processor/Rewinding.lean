import Leani.Processor.Release
import Leani.Processor.WorkingState

/-!
# The way back

What each transaction does to the working state, to the blocks that count as applied and to the
records that undo them; and the working state that a store goes back to when the blocks above a
height are undone.
-/

namespace Leani.Processor

open Library Std Delivery List Table Except Store

variable {s s' : Store}

def EncodedDelta.key (delta : EncodedDelta) : Nat × BlockHash :=
  (delta.block.number, delta.block.hash)

structure Recorded (s : Store) : Prop where
  folded : Folded s
  exact : ∀ n, ¬ Compacted s n
  applied : ∀ {n : Nat} {row : CoverageRow}, s.coverage[n]? = some row → (n, row.hash) ∈ s.applied
  journaled : ∀ {key : Nat × BlockHash} {row : JournalRow}, s.journal[key]? = some row →
    key ∈ s.applied

theorem recorded_registered (d : ProcessorDescriptor) : Recorded (.registered d) where
  folded := folded_registered d
  exact := by
    rintro _ ⟨_, _, hb, -⟩; exact not_mem_empty hb
  applied h := (not_mem_empty h).elim
  journaled h := (not_mem_empty h).elim

theorem Recorded.coverage (h : Recorded s) {key : Nat × BlockHash} (hkey : key ∈ s.applied) :
    ∃ row, s.coverage[key.1]? = some row ∧ row.hash = key.2 := by
  obtain ⟨_, happ⟩ := Option.isSome_iff_exists.1 (ExtTreeMap.mem_iff_isSome_getElem?.1 hkey)
  exact @Folded.applied _ h.folded key.1 key.2 _ happ

theorem Recorded.eq_of_height (h : Recorded s) {key key' : Nat × BlockHash}
    (hkey : key ∈ s.applied) (hkey' : key' ∈ s.applied) (heq : key.1 = key'.1) : key = key' := by
  obtain ⟨_, hrow, hhash⟩ := h.coverage hkey
  obtain ⟨_, hrow', hhash'⟩ := h.coverage hkey'
  rw [heq, hrow', Option.some.injEq] at hrow; exact Prod.ext heq (by rw [← hhash, ← hhash', hrow])

theorem Recorded.congr (h : Recorded s) (happ : s'.applied = s.applied)
    (hcovg : s'.coverage = s.coverage) (hivls : s'.intervals = s.intervals)
    (hsegs : s'.segments = s.segments) (hjrnl : s'.journal = s.journal) : Recorded s' where
  folded := h.folded.congr happ hcovg hivls hsegs
  exact n hn := h.exact n (by rwa [Compacted, hivls] at hn)
  applied hrow := by
    rw [happ]; exact h.applied (hcovg ▸ hrow)
  journaled hrow := by
    rw [happ]; exact h.journaled (hjrnl ▸ hrow)

theorem Recorded.highest (h : Recorded s) (d : ProcessorDescriptor) (cid : Nat) :
    (∀ cursor ∈ s.highestCoverageCursor d cid, cursor.at ∈ s.applied ∧
      ∀ key ∈ s.applied, key.1 ≤ cursor.blockNumber) ∧
    (s.highestCoverageCursor d cid = none → ∀ key, key ∉ s.applied) := by
  obtain ⟨hmax, hhash⟩ := highestCoverageCursor_spec h.folded d cid
  have hcov : ∀ key ∈ s.applied, Covered s key.1 := by
    intro key hkey
    obtain ⟨row, hrow, -⟩ := h.coverage hkey; exact .inl ⟨row, hrow, rfl⟩
  refine ⟨fun cursor hcur => ?_, fun hnone key hkey => ?_⟩
  · have hcursorHash := hhash cursor hcur
    rw [hcur, Option.map_some] at hmax
    refine ⟨?_, fun key hkey => hmax.2 key.1 (hcov key hkey)⟩
    rw [coverageHash] at hcursorHash
    cases hrow : s.coverage[cursor.blockNumber]? with
    | some row =>
      rw [hrow, Option.some.injEq] at hcursorHash
      rw [ProcessorCursor.at, ← hcursorHash]; exact h.applied hrow
    | none =>
      rw [hrow] at hcursorHash
      obtain ⟨_, hs, -⟩ := Option.map_eq_some_iff.1 hcursorHash
      exact absurd (h.folded.compacted hs (h.folded.within hs).1 le_rfl) (h.exact _)
  · rw [hnone] at hmax; exact hmax key.1 (hcov key hkey)

section Operations

variable {p : Processor} {env : Environment} {cursor : ProcessorCursor} {delta : EncodedDelta}
  {publish recovery : Bool} {streamId : String} {origin : DeliveryOrigin} {batch : MutationBatch}
  {inverse : List DomainChange} {o : Output} {pruned : PrunedOutput}

theorem Applies.key_eq
    (ha : Applies p env cursor delta publish streamId recovery origin batch inverse s s' o pruned) :
    cursor.at = delta.key := Prod.ext ha.block.1 ha.block.2

variable {key : Nat × BlockHash}

theorem Applies.mem_applied
    (ha : Applies p env cursor delta publish streamId recovery origin batch inverse s s' o pruned)
 : key ∈ s'.applied ↔ key = delta.key ∨ key ∈ s.applied := by
  rw [ha.applied, Table.mem_insert_iff]; rfl

variable {d : ProcessorDescriptor} {chainId number : Nat} {hash : BlockHash} {row : JournalRow}

theorem Undoes.mem_applied (hu : Undoes d env chainId number hash row s s' o) :
    key ∈ s'.applied ↔ key ≠ (number, hash) ∧ key ∈ s.applied := by
  rw [hu.applied, mem_erase_iff]

theorem Undoes.journal_iff (hu : Undoes d env chainId number hash row s s' o) {r : JournalRow} :
    s'.journal[key]? = some r ↔ key ≠ (number, hash) ∧ s.journal[key]? = some r := by
  rw [hu.journal, get?_erase_ite]
  split
  · rename_i hkey; exact ⟨nofun, fun hr => absurd hkey hr.1⟩
  · rename_i hkey; exact ⟨fun hr => ⟨hkey, hr⟩, And.right⟩

theorem Recorded.applies (h : Recorded s)
    (ha : Applies p env cursor delta publish streamId recovery origin batch inverse s s' o pruned) :
    Recorded s' where
  folded := h.folded.applies ha
  exact n hn := h.exact n (by rwa [Compacted, ha.intervals] at hn)
  applied {n row} hrow := by
    rw [ha.mem_applied]
    rw [ha.coverage, cover, get?_insert_ite] at hrow
    split at hrow
    · rename_i hn; rw [Option.some.injEq] at hrow; exact .inl (by rw [hn, ← hrow]; rfl)
    · exact .inr (h.applied hrow)
  journaled {key row} hrow := by
    rw [ha.mem_applied]
    rw [ha.journal] at hrow
    split at hrow
    · exact .inr (h.journaled hrow)
    · rcases insert_cases hrow with ⟨hkey, hrow⟩ | ⟨-, hrow⟩
      · exact .inl hkey
      · exact .inr (h.journaled hrow)

theorem Recorded.undoes (h : Recorded s) (hu : Undoes d env chainId number hash row s s' o) :
    Recorded s' where
  folded := h.folded.undo hu
  exact n hn := h.exact n (by rwa [Compacted, hu.intervals] at hn)
  applied {n row} hrow := by
    rw [hu.coverage] at hrow
    obtain ⟨hrow, hkept⟩ := get?_deleteWhere_eq_some.1 hrow
    refine hu.mem_applied.2 ⟨fun hkey => ?_, h.applied hrow⟩
    rw [Prod.mk.injEq] at hkey
    rw [hkey.1, hkey.2, decide_eq_true rfl, decide_eq_true rfl] at hkept; cases hkept
  journaled hrow := by
    obtain ⟨hkey, hrow⟩ := hu.journal_iff.1 hrow; exact hu.mem_applied.2 ⟨hkey, h.journaled hrow⟩

variable {level : Finality}

variable {now through : Nat} {holds marks : Bool}

theorem Recorded.raises (h : Recorded s) (hr : Raises d now through level holds marks s s') :
    Recorded s' where
  folded := h.folded.raise hr
  exact n hn := h.exact n (by rwa [Compacted, hr.intervals] at hn)
  applied {n row} hrow := by
    rw [hr.coverage] at hrow
    obtain ⟨old, hold, hupdate⟩ := get?_updateWhere_eq_some.1 hrow
    have hhash : old.hash = row.hash := by
      rw [← hupdate]
      split <;> rfl
    rw [hr.applied, ← hhash]; exact h.applied hold
  journaled hrow := by
    obtain ⟨old, hold, -⟩ := hr.undo_eq hrow; rw [hr.applied]; exact h.journaled hold

theorem Applies.state
    (ha : Applies p env cursor delta publish streamId recovery origin batch inverse s s' o pruned) :
    s'.output.state = writeStates s.output.state batch.mutations := by
  rw [(pruneOutputWindow_state ha.output).1, applyMutations_state ha.written]

theorem Applies.unwrites
    (ha : Applies p env cursor delta publish streamId recovery origin batch inverse s s' o pruned) :
    unwriteStates s'.output.state (batch.mutations ++ pruned.mutations) = s.output.state := by
  rw [unwriteStates_append, unwriteStates_of_not (pruneOutputWindow_state ha.output).2, ha.state]
  exact reduceBlock_unwrites ha.reduced

theorem Undoes.state (hu : Undoes d env chainId number hash row s s' o) :
    s'.output.state = unwriteStates s.output.state row.undo.mutations := by
  rw [← applyMutations_inverse_state hu.written, hu.output]
  split
  · exact restoreEntityMetadata_state _ _
  · rfl

theorem Raises.state (hr : Raises d now through level holds marks s s') :
    s'.output.state = s.output.state := by
  rw [hr.output]; rfl

theorem Raises.at_eq (hr : Raises d now through level holds marks s s') :
    s'.cursor.map ProcessorCursor.at = s.cursor.map ProcessorCursor.at := by
  rw [hr.cursor, promoteCursor, Option.map_map]
  refine Option.map_congr fun cursor _ => ?_
  rw [Function.comp_apply]
  split <;> rfl

end Operations

/-- From `s` to `s'` the blocks of `items` were covered, with these mutations. -/
structure Fills (items : List HistoricalBatchItem) (ms : List Mutation) (s s' : Store) : Prop where
  state : s'.output.state = writeStates s.output.state ms
  journal : s'.journal = s.journal
  intervals : s'.intervals = s.intervals
  cursor : s'.cursor = s.cursor
  applied : ∀ key, key ∈ s'.applied ↔ key ∈ s.applied ∨ ∃ item ∈ items, key = item.delta.key
  coverage : ∀ {n : Nat} {row : CoverageRow}, s'.coverage[n]? = some row →
    s.coverage[n]? = some row ∨ (n, row.hash) ∈ s'.applied

theorem Fills.refl (s : Store) : Fills [] [] s s where
  state := rfl
  journal := rfl
  intervals := rfl
  cursor := rfl
  applied key := by
    rw [or_iff_left]
    rintro ⟨_, hitem, -⟩; cases hitem
  coverage := .inl

variable {ms : List Mutation}

variable {items : List HistoricalBatchItem}

theorem Fills.trans {items' : List HistoricalBatchItem} {ms' : List Mutation} {s'' : Store}
    (h : Fills items ms s s') (h' : Fills items' ms' s' s'') :
    Fills (items ++ items') (ms ++ ms') s s'' where
  state := by rw [h'.state, h.state, writeStates_append]
  journal := h'.journal.trans h.journal
  intervals := h'.intervals.trans h.intervals
  cursor := h'.cursor.trans h.cursor
  applied key := by
    rw [h'.applied, h.applied, or_assoc]
    refine or_congr_right ?_
    constructor
    · rintro (⟨item, hitem, hkey⟩ | ⟨item, hitem, hkey⟩)
      · exact ⟨item, mem_append_left _ hitem, hkey⟩
      · exact ⟨item, mem_append_right _ hitem, hkey⟩
    · rintro ⟨item, hitem, hkey⟩
      rcases mem_append.1 hitem with hitem | hitem
      · exact .inl ⟨item, hitem, hkey⟩
      · exact .inr ⟨item, hitem, hkey⟩
  coverage hrow := by
    rcases h'.coverage hrow with hrow | hkey
    · exact (h.coverage hrow).imp_right fun hkey => (h'.applied _).2 (.inl hkey)
    · exact .inr hkey

theorem Fills.writes {o : Output}
    (h : o.state = writeStates s.output.state ms) : Fills [] ms s { s with output := o } :=
  ⟨h, rfl, rfl, rfl, (Fills.refl s).applied, .inl⟩

variable {item : HistoricalBatchItem}

theorem Fills.covers (h : s.coverFinalized item.delta = .ok s') : Fills [item] [] s s' := by
  obtain ⟨-, -, rfl⟩ := coverFinalized_eq_ok h
  refine ⟨rfl, rfl, rfl, rfl, fun _ => ?_, fun {_ _} hrow => ?_⟩
  · rw [Table.mem_insert_iff, or_comm]; simp only [List.mem_singleton, exists_eq_left]; rfl
  · rw [get?_insert_ite] at hrow
    split at hrow
    · rename_i hn
      rw [Option.some.injEq] at hrow
      subst hn hrow; exact .inr (mem_insert_iff.2 (.inl rfl))
    · exact .inl hrow

variable {chainId : Nat}

variable {st st' : Store.Publishing}

theorem Fills.appends {strmId : String} {now : Nat} {origin : DeliveryOrigin} {block : BlockRef}
    {chgs : List DomainChange} (h : st.append strmId now chainId origin block chgs = .ok st') :
    Fills [] [] st.store st'.store := by
  simp only [Store.Publishing.append, eq_ok, Prod.exists] at h
  obtain ⟨_, _, _, happend, rfl⟩ := h
  obtain ⟨⟨_, rfl⟩, -⟩ := appendTo_spec "" happend
  exact ⟨rfl, rfl, rfl, rfl, (Fills.refl st.store).applied, .inl⟩

theorem Fills.fold {β : Type} (items : β → List HistoricalBatchItem) (ms : β → List Mutation)
    {turn : Store.Publishing → β → Except StoreError Store.Publishing}
    (hturn : ∀ {st x st'}, turn st x = .ok st' → Fills (items x) (ms x) st.store st'.store)
    (xs : List β) : ∀ {st st'}, foldExcept turn st xs = .ok st' →
      Fills (xs.flatMap items) (xs.flatMap ms) st.store st'.store := by
  induction xs with
  | nil =>
    intro st st' h; rw [foldExcept_nil, ok.injEq] at h; exact h ▸ .refl st.store
  | cons x xs ih =>
    intro st st' h
    rw [foldExcept_cons, bind_eq_ok] at h
    obtain ⟨_, hx, h⟩ := h; exact (hturn hx).trans (ih h)

theorem Fills.commitItem {env : Environment} {mode : HistoricalBatchMode} {strmId : String}
    {origin : DeliveryOrigin} {x : HistoricalBatchItem × List DomainChange}
    (h : commitItem env mode strmId origin st x = .ok st') :
    Fills (if mode = .apply then [x.1] else []) [] st.store st'.store := by
  simp only [Store.commitItem, bind_eq_ok] at h
  obtain ⟨_, ht, happend⟩ := h
  split at ht
  · rename_i hmode
    rw [if_pos hmode]
    have hcovers := Fills.covers ht; exact hcovers.trans (Fills.appends happend)
  · rename_i hmode
    rw [if_neg hmode]
    rw [ok.injEq] at ht
    subst ht; exact Fills.appends happend

variable {d : ProcessorDescriptor}

theorem Fills.commitMaterialized {env : Environment} {x : HistoricalBatchItem × MutationBatch}
    (h : commitMaterialized d env st x = .ok st') : Fills [x.1] x.2.mutations st.store st'.store := by
  simp only [Store.commitMaterialized, bind_eq_ok, Prod.exists] at h
  obtain ⟨_, ho, _, _, hprun, t, hcover, h⟩ := h
  have hstate := (pruneOutputWindow_state hprun).1.trans (applyMutations_state ho)
  have hfills : Fills [x.1] x.2.mutations st.store t := by
    have hfills := (Fills.writes hstate).trans (Fills.covers hcover)
    rwa [append_nil, nil_append] at hfills
  suffices hkept : Fills [] [] t st'.store by
    have hfills := hfills.trans hkept; rwa [append_nil, append_nil] at hfills
  split at h
  · simp only [bind_eq_ok, Prod.exists] at h
    obtain ⟨_, _, hrel, happend⟩ := h
    have happend := Fills.appends happend
    split at hrel
    · obtain ⟨⟨_, rfl⟩, -⟩ := releaseDeferredChanges_spec "" hrel
      exact ⟨happend.state, happend.journal, happend.intervals, happend.cursor, happend.applied,
        happend.coverage⟩
    · rw [ok.injEq, Prod.mk.injEq] at hrel; exact hrel.1 ▸ happend
  · rw [pure_eq_ok] at h; exact h ▸ .refl t

theorem Fills.moved {cursor : Option ProcessorCursor}
    (h : Fills items ms { s with cursor := cursor } s') :
    Fills items ms s { s' with cursor := s.cursor } where
  state := h.state
  journal := h.journal
  intervals := h.intervals
  cursor := rfl
  applied := h.applied
  coverage := h.coverage

theorem flatMap_fst_zip {α β : Type} {as : List α} {bs : List β} (h : bs.length = as.length) :
    (as.zip bs).flatMap (fun x => [x.1]) = as := by
  rw [← map_eq_flatMap, map_fst_zip h.ge]

theorem flatMap_snd_zip {α β γ : Type} {as : List α} {bs : List β} (h : bs.length = as.length)
    (f : β → List γ) : (as.zip bs).flatMap (fun x => f x.2) = bs.flatMap f := by
  conv_rhs => rw [← map_snd_zip h.le, flatMap_map]

variable {finalized : Bool} {message : String}

variable {p : Processor}

theorem validateItem_eq_ok {exp next : Nat × Option BlockHash}
    (h : validateItem p chainId finalized message exp item = .ok next) :
    item.delta.block.number = exp.1 ∧ next.1 = satAdd exp.1 1 := by
  simp only [validateItem, eq_ok] at h
  obtain ⟨-, -, -, ⟨-, -, hnum, -⟩, rfl⟩ := h; exact ⟨hnum, rfl⟩

theorem validateItem_ordered (hle : ∀ item ∈ items, item.delta.block.number ≤ i64Max) :
    ∀ {exp next : Nat × Option BlockHash}, foldExcept (validateItem p chainId finalized message)
    exp items = .ok next → (∀ item ∈ items, exp.1 ≤ item.delta.block.number) ∧
    items.Pairwise fun a b => a.delta.block.number < b.delta.block.number := by
  induction items with
  | nil => exact fun _ => ⟨nofun, .nil⟩
  | cons item items ih =>
    intro exp next h
    rw [foldExcept_cons, bind_eq_ok] at h
    obtain ⟨_, hitem, h⟩ := h
    obtain ⟨hnum, hmid⟩ := validateItem_eq_ok hitem
    obtain ⟨hlower, hord⟩ := ih (forall_mem_cons.1 hle).2 h
    have hitem := hle item mem_cons_self
    have hlimit : i64Max + 1 ≤ u64Max := by decide
    rw [hmid, satAdd_eq (by omega)] at hlower
    refine ⟨fun x hx => ?_, pairwise_cons.2 ⟨fun x hx => ?_, hord⟩⟩
    · rcases mem_cons.1 hx with rfl | hx
      · exact hnum.ge
      · exact Nat.le_of_succ_le (hlower x hx)
    · rw [hnum]; exact hlower x hx

theorem validateFresh_eq_ok {u : Unit} (h : s.validateFresh item = .ok u) :
    item.delta.block.number ≤ i64Max ∧ item.delta.key ∉ s.applied := by
  simp only [validateFresh, eq_ok, u64I64_eq_ok] at h
  obtain ⟨-, ⟨hle, -⟩, -, hfresh, -⟩ := h; exact ⟨hle, hfresh⟩

theorem length_reduceIsolated : ∀ {ovl : ReducerOverlay} {seq : Nat} {ms : List Mutation}
      {chgs : List (List DomainChange)},
      s.reduceIsolated p ovl seq items = .ok (ms, chgs) → chgs.length = items.length := by
  induction items with
  | nil =>
    intro ovl seq ms chgs h
    rw [reduceIsolated, ok.injEq, Prod.mk.injEq] at h; rw [← h.2]; rfl
  | cons item items ih =>
    intro ovl seq ms chgs h
    simp only [reduceIsolated, eq_ok, Prod.exists, Prod.mk.injEq] at h
    obtain ⟨_, _, -, _, _, h, -, rfl⟩ := h; rw [length_cons, length_cons, ih h]

theorem length_reduceMaterialized :
    ∀ {ovl ovl' : ReducerOverlay} {seq : Nat} {batches : List MutationBatch},
      s.reduceMaterialized p ovl seq items = .ok (ovl', batches) → batches.length = items.length := by
  induction items with
  | nil =>
    intro ovl ovl' seq batches h
    rw [reduceMaterialized, ok.injEq, Prod.mk.injEq] at h; rw [← h.2]; rfl
  | cons item items ih =>
    intro ovl ovl' seq batches h
    simp only [reduceMaterialized, eq_ok, Prod.exists, Prod.mk.injEq] at h
    obtain ⟨_, _, -, _, _, h, -, rfl⟩ := h; rw [length_cons, length_cons, ih h]

variable {last : HistoricalBatchItem}

theorem materializedCursor_at
    (hord : items.Pairwise fun a b => a.delta.block.number < b.delta.block.number)
    (hlast : items.getLast? = some last) : ∀ (prior : Option ProcessorCursor) (seq : Nat),
      ((∀ cursor ∈ prior, cursor.blockNumber ≤ last.delta.block.number) →
        (materializedCursor d prior seq items).map ProcessorCursor.at = some last.delta.key) ∧
      (¬ (∀ cursor ∈ prior, cursor.blockNumber ≤ last.delta.block.number) →
        materializedCursor d prior seq items = prior) := by
  induction items with
  | nil => cases hlast
  | cons item items ih =>
    intro prior seq
    rw [pairwise_cons] at hord
    rw [materializedCursor]
    cases items with
    | nil =>
      rw [getLast?_singleton, Option.some.injEq] at hlast
      subst hlast
      rw [materializedCursor]
      split
      · rename_i hmoves; exact ⟨fun _ => rfl, fun hstays => absurd hmoves hstays⟩
      · rename_i hstays; exact ⟨fun hreaches => absurd hreaches hstays, fun _ => rfl⟩
    | cons next items =>
      rw [getLast?_cons_cons] at hlast
      have hbelow := hord.1 last (mem_of_getLast? hlast)
      split
      · rename_i hmoves
        have hreaches : ∀ cursor ∈ prior, cursor.blockNumber ≤ last.delta.block.number :=
          fun cursor hcur => Nat.le_trans (hmoves cursor hcur) hbelow.le
        refine ⟨fun _ => (ih hord.2 hlast _ _).1 ?_, fun hstays => absurd hreaches hstays⟩
        intro cursor hcur; cases hcur; exact hbelow.le
      · exact ih hord.2 hlast prior _

structure CommitsBatch (items : List HistoricalBatchItem) (last : HistoricalBatchItem)
    (ms : List Mutation) (s s' : Store) : Prop where
  fills : Fills items ms s { s' with cursor := s.cursor }
  fresh : ∀ item ∈ items, item.delta.key ∉ s.applied
  ends : items.getLast? = some last
  below : ∀ item ∈ items, item = last ∨ item.delta.block.number < last.delta.block.number
  reached : s.Reaches last.delta.block → s'.cursor.map ProcessorCursor.at = some last.delta.key
  stayed : ¬ s.Reaches last.delta.block → s'.cursor = s.cursor

theorem below_of_ordered (hord : items.Pairwise fun a b =>
    a.delta.block.number < b.delta.block.number) (hlast : items.getLast? = some last) :
    ∀ item ∈ items, item = last ∨ item.delta.block.number < last.delta.block.number := by
  obtain ⟨_, rfl⟩ := getLast?_eq_some_iff.1 hlast
  intro item hitem
  rcases mem_append.1 hitem with hitem | hitem
  · exact .inr ((pairwise_append.1 hord).2.2 item hitem last mem_cons_self)
  · exact .inl (mem_singleton.1 hitem)

theorem getLast?_of_head? {first : HistoricalBatchItem} (h : items.head? = some first) :
    items.getLast? = some (items.getLastD first) := by
  obtain ⟨_, rfl⟩ := head?_eq_some_iff.1 h; rw [getLast?_cons, getLastD_cons, getLastD_eq_getLast?]

section Batches

variable {p : Processor} {env : Environment} {items : List HistoricalBatchItem}
  {limits : HistoricalCommitLimits} {outcome : HistoricalBatchOutcome}

variable {ms : List Mutation}

theorem Recorded.fills (h : Recorded s) (hf : Fills items ms s s')
    (hfolded : Folded s') : Recorded s' where
  folded := hfolded
  exact n hn := h.exact n (by rwa [Compacted, hf.intervals] at hn)
  applied hrow := by
    rcases hf.coverage hrow with hrow | hkey
    · exact (hf.applied _).2 (.inl (h.applied hrow))
    · exact hkey
  journaled hrow := (hf.applied _).2 (.inl (h.journaled (hf.journal ▸ hrow)))

theorem Recorded.commits {last : HistoricalBatchItem} (h : Recorded s)
    (hc : CommitsBatch items last ms s s') (hfolded : Folded s') : Recorded s' :=
  (h.fills hc.fills (hfolded.congr rfl rfl rfl rfl)).congr rfl rfl rfl rfl rfl

theorem ordered_of_valid {first : HistoricalBatchItem} {finalized : Bool} {msg : String}
    {u : Unit} (hvalid : validateItems p first finalized msg items = .ok u)
    (hfresh : ∀ item ∈ items, s.validateFresh item = .ok ()) :
    items.Pairwise fun a b => a.delta.block.number < b.delta.block.number := by
  simp only [validateItems, bind_eq_ok] at hvalid
  obtain ⟨_, hvalid, -⟩ := hvalid
  exact (validateItem_ordered (fun item hitem => (validateFresh_eq_ok (hfresh item hitem)).1) hvalid).2

theorem commitHistoricalMicrobatch_spec {mode : HistoricalBatchMode} {strmId : String}
    {completion : List (BlockRef × DomainChange)}
    (h : s.commitHistoricalMicrobatch p env mode items strmId completion limits = .ok (s', outcome)) :
    mode ≠ .apply ∧ Fills [] [] s s' ∨ mode = .apply ∧ ∃ ms changes last,
      s.reduceBatch p .apply items = .ok (ms, changes) ∧ CommitsBatch items last ms s s' := by
  simp only [commitHistoricalMicrobatch, eq_ok, Prod.exists, Prod.mk.injEq] at h
  obtain ⟨_, hfirst, -, -, -, -, -, -, -, -, _, hvalid, _, hbatch, ms, changes, hreduce, -, -, -,
    -, origin, -, output, hout, st, hturns, -, -, st', hprogress, st'', hcompn, rfl, -⟩ := h
  have hlast := getLast?_of_head? hfirst
  have hnil : ∀ {β γ : Type} (xs : List β), xs.flatMap (fun _ => ([] : List γ)) = [] :=
    fun xs => flatMap_eq_nil_iff.2 fun _ _ => rfl
  have hfold := Fills.fold (fun x => if mode = .apply then [x.1] else []) (fun _ => [])
    Fills.commitItem _ hturns
  have hcomp := Fills.fold (fun _ => []) (fun _ => []) Fills.appends _ hcompn
  rw [hnil] at hfold
  rw [hnil, hnil] at hcomp
  have hrest := Fills.trans (Fills.appends hprogress) hcomp
  have hcur := hrest.cursor
  by_cases hmode : mode = .apply
  · subst hmode
    rw [validateBatch, if_pos rfl] at hbatch
    have hfresh := forall_of_foldExcept_eq_ok hbatch
    have hord := ordered_of_valid hvalid hfresh
    rw [if_pos rfl] at hout
    have hlen : changes.length = items.length := by
      rw [reduceBatch, if_pos rfl] at hreduce; exact length_reduceIsolated hreduce
    simp only [if_true, flatMap_fst_zip hlen] at hfold
    have hwr := (Fills.writes (applyMutations_state hout)).trans hfold
    have hfills := hwr.trans (Fills.moved hrest)
    rw [hwr.cursor] at hfills
    simp only [nil_append, append_nil] at hfills
    refine .inr ⟨rfl, ms, changes, _, hreduce, hfills,
      fun item hitem => (validateFresh_eq_ok (hfresh item hitem)).2, hlast,
      below_of_ordered hord hlast, fun hreaches => ?_, fun hstays => ?_⟩
    · rw [hcur, if_pos ⟨rfl, hreaches⟩]; rfl
    · rw [hcur, if_neg fun hadvs => hstays hadvs.2]
  · refine .inl ⟨hmode, ?_⟩
    rw [if_neg hmode, ok.injEq] at hout
    subst hout
    simp only [if_neg hmode, hnil] at hfold
    rw [if_neg fun hadvs => hmode hadvs.1] at hrest
    have hfills := hfold.trans (Fills.moved hrest)
    have hcur := hrest.cursor
    exact ⟨hfills.state, hfills.journal, hfills.intervals, hcur, hfills.applied, hfills.coverage⟩

theorem commitHistoricalMaterializationMicrobatch_spec {held : EncodedDelta → Bool}
    (h : s.commitHistoricalMaterializationMicrobatch p env held items limits = .ok (s', outcome)) :
    ∃ overlay batches last, s.reduceMaterialized p .new s.firstSequence items = .ok (overlay, batches) ∧
        CommitsBatch items last (batches.flatMap MutationBatch.mutations) s s' := by
  simp only [commitHistoricalMaterializationMicrobatch, eq_ok, Prod.exists, Prod.mk.injEq] at h
  obtain ⟨_, hfirst, -, -, -, -, _, hvalid, -, -, _, hchk, overlay, batches, hreduce, -, -, -,
    -, -, -, st, hturns, -, -, rfl, -⟩ := h
  have hlast := getLast?_of_head? hfirst
  have hfresh : ∀ item ∈ items, s.validateFresh item = .ok () := by
    intro item hitem
    have hitem := forall_of_foldExcept_eq_ok hchk item hitem
    rw [bind_eq_ok] at hitem
    obtain ⟨_, hitem, -⟩ := hitem; exact hitem
  have hord := ordered_of_valid hvalid hfresh
  have hfold := Fills.fold (fun x => [x.1]) (fun x => x.2.mutations) Fills.commitMaterialized _ hturns
  have hlen := length_reduceMaterialized hreduce
  rw [flatMap_fst_zip hlen, flatMap_snd_zip hlen MutationBatch.mutations] at hfold
  obtain ⟨hreach, hstayed⟩ := materializedCursor_at (d := p.descriptor) hord hlast s.cursor
    s.firstSequence
  refine ⟨overlay, batches, _, hreduce, ⟨hfold.state, hfold.journal, hfold.intervals, rfl,
    hfold.applied, hfold.coverage⟩, fun item hitem => (validateFresh_eq_ok (hfresh item hitem)).2,
    hlast, below_of_ordered hord hlast, hreach, hstayed⟩

end Batches

namespace Store

def writers (s : Store) (n : Nat) : List ((Nat × BlockHash) × JournalRow) :=
  Table.rowsWhere s.journal fun key row =>
    n < key.1 && !row.finalized && row.undo.mutations.any Mutation.writesState

def stateAt (s : Store) (n : Nat) : Table StateKey Bytes :=
  (s.writers n).foldr (fun row state => unwriteStates state row.2.undo.mutations) s.output.state

def Undoable (s : Store) (key : Nat × BlockHash) : Prop :=
  ∃ row, s.journal[key]? = some row ∧ row.finalized = false

def Open (s : Store) (n : Nat) : Prop := ∀ key ∈ s.applied, n < key.1 → s.Undoable key

variable {n : Nat}

theorem mem_writers {key : Nat × BlockHash} {row : JournalRow} :
    (key, row) ∈ s.writers n ↔ s.journal[key]? = some row ∧ n < key.1 ∧ row.finalized = false ∧
      row.undo.mutations.any Mutation.writesState = true := by
  rw [writers, mem_rowsWhere, Bool.and_eq_true, Bool.and_eq_true, decide_eq_true_eq,
    Bool.not_eq_true', and_assoc]

section

variable (h : ∀ (key : Nat × BlockHash) (row : JournalRow), s.journal[key]? = some row → n < key.1 → row.finalized = false → row.undo.mutations.any Mutation.writesState = false)

include h

theorem writers_eq_nil : s.writers n = [] := by
  rw [eq_nil_iff_forall_not_mem]
  rintro ⟨key, row⟩ hmem
  obtain ⟨hrow, hlt, hopen, hwrites⟩ := mem_writers.1 hmem
  rw [h key row hrow hlt hopen] at hwrites; cases hwrites

theorem stateAt_eq : s.stateAt n = s.output.state := by
  rw [stateAt, writers_eq_nil h]; rfl

end

theorem stateAt_congr (hst : s'.output.state = s.output.state)
    (h : ∀ (key : Nat × BlockHash) (row : JournalRow), n < key.1 → row.finalized = false →
      row.undo.mutations.any Mutation.writesState = true →
      (s'.journal[key]? = some row ↔ s.journal[key]? = some row)) : s'.stateAt n = s.stateAt n := by
  have hwriters : s'.writers n = s.writers n := by
    refine rowsWhere_eq (sorted_rowsWhere _ _) fun key row => ?_
    rw [mem_writers, Bool.and_eq_true, Bool.and_eq_true, decide_eq_true_eq, Bool.not_eq_true',
      and_assoc]
    refine and_congr_left fun hrow => ?_
    exact (h key row hrow.1 hrow.2.1 hrow.2.2).symm
  rw [stateAt, stateAt, hwriters, hst]

theorem stateAt_push (key : Nat × BlockHash) (row : JournalRow)
    (hjrnl : ∀ k : Nat × BlockHash, s'.journal[k]? = if k = key then some row else s.journal[k]?)
    (hfresh : s.journal[key]? = none) (hlt : n < key.1) (hopen : row.finalized = false)
    (habove : ∀ (k : Nat × BlockHash) (r : JournalRow), s.journal[k]? = some r → k.1 < key.1)
    (hst : unwriteStates s'.output.state row.undo.mutations = s.output.state) :
    s'.stateAt n = s.stateAt n := by
  by_cases hwrites : row.undo.mutations.any Mutation.writesState = true
  · have hwriters : s'.writers n = s.writers n ++ [(key, row)] := by
      refine rowsWhere_eq ?_ fun k r => ?_
      · rw [pairwise_append]
        refine ⟨sorted_rowsWhere _ _, pairwise_singleton _ _, ?_⟩
        rintro ⟨k, r⟩ hk _ hx
        obtain ⟨hr, -⟩ := mem_writers.1 hk
        rw [mem_singleton.1 hx, compare_pair, Nat.compare_eq_lt.2 (habove k r hr)]; rfl
      · rw [mem_append, mem_writers, mem_singleton, Prod.mk.injEq, hjrnl,
          Bool.and_eq_true, Bool.and_eq_true, decide_eq_true_eq, Bool.not_eq_true', and_assoc]
        by_cases hk : k = key
        · subst hk
          rw [if_pos rfl, hfresh, Option.some.injEq]
          constructor
          · rintro (⟨hr, -⟩ | ⟨-, rfl⟩)
            · cases hr
            · exact ⟨rfl, hlt, hopen, hwrites⟩
          · rintro ⟨rfl, -⟩; exact .inr ⟨rfl, rfl⟩
        · rw [if_neg hk, or_iff_left fun h => hk h.1]
    rw [stateAt, stateAt, hwriters, foldr_append, foldr_cons, foldr_nil, hst]
  · rw [Bool.not_eq_true] at hwrites
    rw [unwriteStates_of_not hwrites] at hst
    refine stateAt_congr hst fun k r _ _ hr => ?_
    rw [hjrnl]
    split
    · rename_i hk
      subst hk
      rw [hfresh, Option.some.injEq]
      refine ⟨?_, nofun⟩
      rintro rfl; rw [hwrites] at hr; cases hr
    · rfl

end Store

structure Moment where
  block : Nat × BlockHash
  state : Table StateKey Bytes

def Linked (journal : Table (Nat × BlockHash) JournalRow) : List Moment → Prop
  | [] => True
  | m :: line =>
    (∀ row, journal[m.block]? = some row → row.finalized = false →
      row.undo.priorCursor.map ProcessorCursor.at = line.head?.map Moment.block ∧
        ∀ prior ∈ line.head?, unwriteStates m.state row.undo.mutations = prior.state) ∧
    Linked journal line

theorem Linked.mono {journal journal' : Table (Nat × BlockHash) JournalRow}
    {line : List Moment} (h : Linked journal line) (hsub : ∀ m ∈ line,
    ∀ row, journal'[m.block]? = some row → row.finalized = false → ∃ old, journal[m.block]? =
    some old ∧ old.undo = row.undo ∧ old.finalized = false) : Linked journal' line := by
  induction line with
  | nil => trivial
  | cons m line ih =>
    refine ⟨fun row hrow hopen => ?_, ih h.2 (forall_mem_cons.1 hsub).2⟩
    obtain ⟨old, hold, hundo, hopen⟩ := hsub m mem_cons_self row hrow hopen
    rw [← hundo]; exact h.1 old hold hopen

/-- Blocks applied above the finalized one and undone again, newest first, in any nesting. -/
inductive Rewound (p : Processor) (chainId : Nat) : Store → Store → Prop where
  | refl (s : Store) : Rewound p chainId s s
  | trans {s s' s'' : Store} (h : Rewound p chainId s s') (h' : Rewound p chainId s' s'') :
      Rewound p chainId s s''
  | around {env env' : Environment} {cursor committed : ProcessorCursor} {delta : EncodedDelta}
      {publish recovery : Bool} {streamId : String} {first last : Option Nat}
      {bounds : Option Nat × Option Nat} {s s₁ s₂ s₃ : Store} (hopen : cursor.finality ≠ .finalized)
      (happly : s.applyToStream p env cursor delta publish streamId recovery =
        .ok (s₁, .applied committed first last))
      (hinner : Rewound p chainId s₁ s₂)
      (hundo : s₂.undo p.descriptor env' chainId delta.block.number delta.block.hash =
        .ok (s₃, bounds)) : Rewound p chainId s s₃

/-- **Undo takes apply back**: after every burst of blocks that is undone newest first the working
state, the applied blocks, the undo records and, of an ordered processor, the cursor are what they
were. -/
theorem Rewound.unchanged {p : Processor} {chainId : Nat} {s s' : Store} (h : Rewound p chainId s s') :
    s'.output.state = s.output.state ∧ s'.applied = s.applied ∧ s'.journal = s.journal ∧
      (p.descriptor.mode = .orderedState → s'.cursor = s.cursor) := by
  induction h with
  | refl s => exact ⟨rfl, rfl, rfl, fun _ => rfl⟩
  | trans _ _ ih ih' =>
    obtain ⟨hstate, happlied, hjournal, hcursor⟩ := ih
    obtain ⟨hstate', happlied', hjournal', hcursor'⟩ := ih'
    exact ⟨hstate'.trans hstate, happlied'.trans happlied, hjournal'.trans hjournal,
      fun hmode => (hcursor' hmode).trans (hcursor hmode)⟩
  | around hopen happly _ hundo ih =>
    obtain ⟨hstate, happlied, hjournal, -⟩ := ih
    obtain ⟨row, o, hu⟩ := undo_spec hundo
    rcases applyToStream_spec happly with ⟨houtcome, -⟩ | ⟨-, _, batch, inverse, _, pruned, ha⟩
    · cases houtcome
    -- The undo record is the one this block's apply left.
    have hrow := hu.journaled
    rw [hjournal, ha.journal, if_neg hopen, getElem?_insert_self, Option.some.injEq] at hrow
    refine ⟨?_, ?_, ?_, fun hmode => ?_⟩
    · rw [hu.state, hstate, ← hrow]
      exact ha.unwrites
    · rw [hu.applied, happlied, ha.applied, erase_insert_of_notMem ha.fresh]
    · rw [hu.journal, hjournal, ha.journal, if_neg hopen,
        erase_insert_of_notMem (ha.unjournaled hopen)]
    · rw [hu.cursor, hmode, ← hrow]
      rfl

end Leani.Processor
