import Leani.Processor.Rewinding

/-!
# Restoring loses nothing

A checkpoint is matched to the store by the cursor alone. Where every step that writes working state
moves the cursor, and undoing goes back along the cursor, the blocks the cursor can go back to
remember the working state it had there; a checkpoint that is accepted then holds the state the
store already has. Below the cursor of a block-local processor a block can write working state, and
a restore loses it.
-/

namespace Leani.Processor

open Library Std Delivery List Option Table Bool Checkpointed Except ExtTreeMap Leani Mutation ProcessorCursor Prod Store

namespace Checkpointed

variable {s s' : Checkpointed} {t : Store} {p : Processor} {d : ProcessorDescriptor}

/-- A block-local processor: its cursor is the highest applied block, and the checkpoints of a block
that it can go back to hold the working state that it finds there. -/
structure RemembersHeights (s : Checkpointed) : Prop where
  top : ∀ cursor ∈ s.cursor, cursor.at ∈ s.applied ∧ ∀ key ∈ s.applied, key.1 ≤ cursor.blockNumber
  headed : s.cursor = none → ∀ key, key ∉ s.applied
  agrees : ∀ key ∈ s.applied, s.Open key.1 → s.Agrees key (s.stateAt key.1)

structure RemembersLine (s : Checkpointed) (line : List Moment) : Prop where
  cursor : s.cursor.map ProcessorCursor.at = line.head?.map Moment.block
  state : ∀ m ∈ line.head?, m.state = s.output.state
  applied : ∀ m ∈ line, m.block ∈ s.applied
  nodup : (line.map Moment.block).Nodup
  linked : Linked s.journal line
  agrees : ∀ m ∈ line, s.Agrees m.block m.state

structure Remembers (d : ProcessorDescriptor) (s : Checkpointed) : Prop where
  recorded : Recorded s.toStore
  heights : d.mode = .blockLocal → s.RemembersHeights
  line : d.mode = .orderedState → ∃ line, s.RemembersLine line

theorem remembers_registered (d : ProcessorDescriptor) : Remembers d (.registered d) where
  recorded := recorded_registered d
  heights _ := {
    top := nofun
    headed := fun _ _ => not_mem_empty
    agrees := fun _ hkey => absurd hkey not_mem_empty }
  line _ := ⟨[], rfl, nofun, nofun, .nil, trivial, nofun⟩

variable {row : JournalRow}

variable {cursor : ProcessorCursor}

theorem RemembersHeights.le (h : s.RemembersHeights) (hr : Recorded s.toStore)
    (hcur : cursor ∈ s.cursor) {key : Nat × BlockHash} (hrow : s.journal[key]? = some row) :
    key.1 ≤ cursor.blockNumber :=
  (h.top cursor hcur).2 key (hr.journaled hrow)

theorem RemembersHeights.stateAt_cursor (h : s.RemembersHeights) (hr : Recorded s.toStore)
    (hcur : cursor ∈ s.cursor) : s.stateAt cursor.blockNumber = s.output.state :=
  stateAt_eq fun _ _ hrow hlt => absurd (h.le hr hcur hrow) (Nat.not_le_of_lt hlt)

theorem Remembers.agrees (h : Remembers d s) (hcur : cursor ∈ s.cursor) :
    s.Agrees cursor.at s.output.state := by
  cases hmode : d.mode with
  | blockLocal =>
    have hh := h.heights hmode
    obtain ⟨hat, htop⟩ := hh.top cursor hcur
    have hagree := hh.agrees cursor.at hat fun key hkey hlt =>
      absurd (htop key hkey) (Nat.not_le_of_lt hlt)
    rwa [← hh.stateAt_cursor h.recorded hcur]
  | orderedState =>
    obtain ⟨line, hl⟩ := h.line hmode
    have hat := hl.cursor
    rw [hcur, map_some] at hat
    obtain ⟨m, hm, hblock⟩ := map_eq_some_iff.1 hat.symm
    rw [← hblock, ← hl.state m hm]; exact hl.agrees m (mem_of_mem_head? hm)

structure Takes (s s' : Checkpointed) : Prop where
  toStore : s'.toStore = s.toStore
  checkpoints : ∀ {id : Nat} {row : Checkpoint}, s'.checkpoints[id]? = some row → s.checkpoints[id]? =
    some row ∨ s.cursor.map ProcessorCursor.at = some row.cursor.at ∧ row.state = s.output.state

theorem Takes.refl (s : Checkpointed) : Takes s s := ⟨rfl, .inl⟩

variable {keep : Nat}

theorem insertRecoveryCheckpoint_takes (hcur : s.cursor.map ProcessorCursor.at = some cursor.at)
    (h : s.insertRecoveryCheckpoint cursor keep = .ok s') : Takes s s' := by
  simp only [insertRecoveryCheckpoint, eq_ok] at h
  obtain ⟨-, -, rfl⟩ := h
  refine ⟨by split <;> rfl, fun {_ _} hrow => ?_⟩
  obtain ⟨hrow, -⟩ := get?_deleteWhere_eq_some.1 hrow
  split at hrow
  · exact .inl hrow
  · rcases insert_cases hrow with ⟨-, rfl⟩ | ⟨-, hrow⟩
    · exact .inr ⟨hcur, rfl⟩
    · exact .inl hrow

theorem createRecoveryCheckpoint_takes (hcur : s.cursor.map ProcessorCursor.at = some cursor.at)
    (h : s.createRecoveryCheckpoint cursor keep = .ok s') : Takes s s' := by
  unfold createRecoveryCheckpoint at h
  dsimp only at h
  split at h
  · rw [ok.injEq] at h; exact h ▸ .refl s
  · exact insertRecoveryCheckpoint_takes hcur h

variable {policy : CheckpointPolicy}

theorem automatic_takes {take : Checkpointed → ProcessorCursor → Nat → Except StoreError Checkpointed}
    (htake : ∀ {cursor : ProcessorCursor}, s.cursor.map ProcessorCursor.at = some cursor.at →
      take s cursor policy.keep = .ok s' → Takes s s')
    (h : s.automatic policy s.cursor take = .ok s') : Takes s s' := by
  unfold automatic at h
  split at h
  · rename_i cursor hmode hcur; exact htake (by rw [hcur]; rfl) h
  · rw [ok.injEq] at h; exact h ▸ .refl s

theorem Agrees.takes {block : Nat × BlockHash} {state : Table StateKey Bytes}
    (h : s.Agrees block state) (ht : Takes s s') (hcurr : s.cursor.map ProcessorCursor.at =
    some block → state = s.output.state) : s'.Agrees block state := by
  intro id row hrow hblk
  rcases ht.checkpoints hrow with hrow | ⟨hcur, hstate⟩
  · exact h id row hrow hblk
  · rw [hstate, hcurr (hcur.trans (congrArg some hblk))]

theorem RemembersHeights.takes (h : s.RemembersHeights) (hr : Recorded s.toStore)
    (ht : Takes s s') : s'.RemembersHeights where
  top := ht.toStore ▸ h.top
  headed := ht.toStore ▸ h.headed
  agrees key hkey hopen := by
    rw [ht.toStore] at hkey hopen ⊢
    refine (h.agrees key hkey hopen).takes ht fun hcur => ?_
    obtain ⟨_, hmem, rfl⟩ := map_eq_some_iff.1 hcur; exact h.stateAt_cursor hr hmem

theorem RemembersLine.takes {line : List Moment} (h : s.RemembersLine line) (ht : Takes s s') :
    s'.RemembersLine line where
  cursor := ht.toStore ▸ h.cursor
  state := ht.toStore ▸ h.state
  applied := ht.toStore ▸ h.applied
  nodup := h.nodup
  linked := ht.toStore ▸ h.linked
  agrees m hm := by
    refine (h.agrees m hm).takes ht fun hcur => ?_
    cases line with
    | nil => cases hm
    | cons head line =>
      -- A block stands on the line once.
      have hhead : head.block = m.block := by
        have hat := h.cursor; rw [hcur, head?_cons, map_some, some.injEq] at hat; exact hat.symm
      rcases mem_cons.1 hm with rfl | hm
      · exact h.state m rfl
      · have hnodup := h.nodup
        rw [map_cons, nodup_cons] at hnodup; exact absurd (hhead ▸ mem_map_of_mem hm) hnodup.1

theorem Remembers.takes (h : Remembers d s) (ht : Takes s s') : Remembers d s' where
  recorded := ht.toStore ▸ h.recorded
  heights hmode := (h.heights hmode).takes h.recorded ht
  line hmode := (h.line hmode).imp fun _ hl => hl.takes ht

section Transactions

variable {env : Environment} {cursor : ProcessorCursor} {delta : EncodedDelta}
  {publish recovery : Bool} {streamId : String} {origin : DeliveryOrigin} {batch : MutationBatch}
  {inverse : List DomainChange} {o : Output} {pruned : PrunedOutput}

theorem journal_of_applies
    (ha : Applies p env cursor delta publish streamId recovery origin batch inverse s.toStore t o
      pruned) {key : Nat × BlockHash} {row : JournalRow} (hrow : t.journal[key]? = some row) :
    s.journal[key]? = some row ∧ (key = delta.key → cursor.finality = .finalized) ∨
      key = delta.key ∧ cursor.finality ≠ .finalized ∧
        row = s.journalRow p.descriptor cursor delta.block batch inverse pruned := by
  rw [ha.journal] at hrow
  split at hrow
  · rename_i hfinal; exact .inl ⟨hrow, fun _ => hfinal⟩
  · rename_i hopen
    rcases insert_cases hrow with ⟨hkey, hrow⟩ | ⟨hkey, hrow⟩
    · exact .inr ⟨hkey, hopen, hrow.symm⟩
    · exact .inl ⟨hrow, fun h => absurd h hkey⟩

section

variable (h : s.RemembersHeights) (hr : Recorded s.toStore)
  (ha : Applies p env cursor delta publish streamId recovery origin batch inverse s.toStore t o pruned)

include h hr ha

theorem RemembersHeights.below (hreaches : ∀ prior ∈ s.cursor, prior.blockNumber ≤ cursor.blockNumber) :
    ∀ key ∈ s.applied, key.1 < delta.key.1 := by
  intro key happ
  rw [← ha.key_eq]
  have hle : key.1 ≤ cursor.blockNumber := by
    cases hcur : s.cursor with
    | none => exact absurd happ (h.headed hcur key)
    | some prior =>
      exact Nat.le_trans ((h.top prior hcur).2 key happ) (hreaches prior hcur)
  refine Nat.lt_of_le_of_ne hle fun heq => ?_
  have heq : key.1 = cursor.blockNumber := heq
  obtain ⟨row, hrow, hhash⟩ := hr.coverage happ
  have hat : key = cursor.at := Prod.ext heq (hhash.symm.trans (ha.uncovered row (heq ▸ hrow)))
  rw [hat, ha.key_eq] at happ; exact ha.fresh happ

theorem RemembersHeights.advances (hmode : p.descriptor.mode = .blockLocal)
    (hadvs : s.AdvancesCursor p.descriptor cursor)
    (hk : s.Agrees cursor.at (writeStates s.output.state batch.mutations)) :
    RemembersHeights { s with toStore := t } := by
  have hkey := ha.key_eq
  have hnew := ha.fresh
  have hbelow := h.below hr ha (hadvs.resolve_left fun hord => by
    rw [hord] at hmode; cases hmode)
  have hfinal : ∀ row, t.journal[delta.key]? = some row → cursor.finality ≠ .finalized ∧
      row = s.journalRow p.descriptor cursor delta.block batch inverse pruned := by
    intro row hrow
    rcases journal_of_applies ha hrow with ⟨hold, -⟩ | ⟨-, hopen, hrow⟩
    · exact absurd (hr.journaled hold) hnew
    · exact ⟨hopen, hrow⟩
  have hcur : t.cursor = some cursor := by rw [ha.advanced, if_pos hadvs]
  refine ⟨fun _ hcurr => ?_, fun hnone => ?_, fun key happ hopen => ?_⟩
  · rw [hcur, mem_some_iff] at hcurr
    subst hcurr
    refine ⟨ha.mem_applied.2 (.inl hkey), fun key happ => ?_⟩
    have hht : delta.key.1 = cursor.blockNumber := congrArg fst hkey.symm
    rw [← hht]
    rcases ha.mem_applied.1 happ with rfl | happ
    · exact le_rfl
    · exact (hbelow key happ).le
  · rw [hcur] at hnone; cases hnone
  · change t.Open key.1 at hopen
    rcases ha.mem_applied.1 happ with rfl | happ
    · rw [stateAt_eq, ha.state, ← hkey]
      · exact hk
      · intro k row hrow hlt
        refine absurd hlt (Nat.not_lt_of_le ?_)
        rcases ha.mem_applied.1 ((hr.applies ha).journaled hrow) with rfl | happ
        · exact le_rfl
        · exact (hbelow k happ).le
    · have hlt := hbelow key happ
      obtain ⟨row, hrow, hrowOpen⟩ := hopen delta.key (ha.mem_applied.2 (.inl rfl)) hlt
      obtain ⟨hnotFinal, hrowEq⟩ := hfinal row hrow
      have hjrnl := ha.journal
      rw [if_neg hnotFinal] at hjrnl
      have hfresh : s.journal[delta.key]? = none := by
        rw [← not_isSome_iff_eq_none, ← mem_iff_isSome_getElem?]; exact ha.unjournaled hnotFinal
      rw [stateAt_push (s := s.toStore) delta.key row ?_ hfresh hlt hrowOpen
        (fun k r hr' => hbelow k (hr.journaled hr')) ?_]
      · refine h.agrees key happ fun k hk' hlt' => ?_
        obtain ⟨r, hr', hopen'⟩ := hopen k (ha.mem_applied.2 (.inr hk')) hlt'
        rcases journal_of_applies ha hr' with ⟨hold, -⟩ | ⟨rfl, -⟩
        · exact ⟨r, hold, hopen'⟩
        · exact absurd hk' hnew
      · intro k; rw [hjrnl, get?_insert_ite, hrowEq]; rfl
      · rw [hrowEq]; exact ha.unwrites

theorem RemembersHeights.stays (hstays : ¬ s.AdvancesCursor p.descriptor cursor)
    (hneutral : batch.mutations.any writesState = false)
    (hk : ∀ (id : Nat) (row : Checkpoint), s.checkpoints[id]? = some row → row.cursor.at = cursor.at →
      row.state = s.output.state ∧ s.Restful) : RemembersHeights { s with toStore := t } := by
  have hkey := ha.key_eq
  have hnew := ha.fresh
  have hst : t.output.state = s.output.state := by rw [ha.state, writeStates_of_not hneutral]
  have hrow : ∀ (key : Nat × BlockHash) (row : JournalRow), t.journal[key]? = some row →
      row.undo.mutations.any writesState = true → s.journal[key]? = some row := by
    intro key row hrow hwrites
    rcases journal_of_applies ha hrow with ⟨hold, -⟩ | ⟨-, -, rfl⟩
    · exact hold
    · change (batch.mutations ++ pruned.mutations).any _ = true at hwrites
      rw [any_append, hneutral, (pruneOutputWindow_state ha.output).2] at hwrites; cases hwrites
  have hold : ∀ (key : Nat × BlockHash) (row : JournalRow), s.journal[key]? = some row →
      t.journal[key]? = some row := by
    intro key row hrow
    rw [ha.journal]
    split
    · exact hrow
    · rw [getElem?_insert_of_ne _ _ fun heq => hnew ?_, hrow]
      have heq := heq; exact heq ▸ hr.journaled hrow
  have hcur : t.cursor = s.cursor := by rw [ha.advanced, if_neg hstays]
  refine ⟨fun cur hcurr => ?_, fun hnone => ?_, fun key happ hopen => ?_⟩
  · rw [hcur] at hcurr
    obtain ⟨hat, htop⟩ := h.top cur hcurr
    refine ⟨ha.mem_applied.2 (.inr hat), fun key happ => ?_⟩
    rcases ha.mem_applied.1 happ with rfl | happ
    · rw [← hkey]
      refine Nat.le_of_not_le fun hle => hstays (.inr fun _ hprior => ?_)
      rw [mem_unique hprior hcurr]; exact hle
    · exact htop key happ
  · rw [hcur] at hnone; exact absurd (.inr (by rw [hnone]; exact nofun)) hstays
  · change t.Open key.1 at hopen
    rcases ha.mem_applied.1 happ with rfl | happ
    · intro id row hckpt hblk
      obtain ⟨hcurr, hrestful⟩ := hk id row hckpt (hblk.trans hkey.symm)
      rw [hcurr, stateAt_eq, hst]
      intro k r hr' _ hopen'
      rw [← not_eq_true]
      intro hwrites; rw [hrestful k r (hrow k r hr' hwrites) hopen'] at hwrites; cases hwrites
    · rw [stateAt_congr (s := s.toStore) hst fun k r _ _ hwrites =>
        ⟨fun hr' => hrow k r hr' hwrites, hold k r⟩]
      refine h.agrees key happ fun k hk' hlt' => ?_
      obtain ⟨r, hr', hopen'⟩ := hopen k (ha.mem_applied.2 (.inr hk')) hlt'
      rcases journal_of_applies ha hr' with ⟨hold, -⟩ | ⟨rfl, -⟩
      · exact ⟨r, hold, hopen'⟩
      · exact absurd hk' hnew

end

end Transactions

variable {hash : BlockHash}

variable {env : Environment} {o : Output}

theorem RemembersHeights.undoes (h : s.RemembersHeights) (hr : Recorded s.toStore)
    {cid number : Nat} (hu : Undoes d env cid number hash row s.toStore t o) (hmode : d.mode =
    .blockLocal) (hk : s.KeepsUndo d number hash) : RemembersHeights { s with toStore := t } := by
  have hcur : t.cursor = t.highestCoverageCursor d cid := by
    rw [hu.cursor, hmode, highestCoverageCursor, highestCoverageCursor, hu.coverage, hu.segments]
    rfl
  obtain ⟨htop, hheaded⟩ := (hr.undoes hu).highest d cid
  refine ⟨fun cur hcurr => ?_, fun hnone => ?_, fun key happ hopen => ?_⟩
  · exact htop cur (hcur ▸ hcurr)
  · exact hheaded (hcur ▸ hnone)
  · obtain ⟨hne, happ⟩ := hu.mem_applied.1 happ
    have hopen' : s.Open key.1 := by
      intro k hk' hlt
      by_cases hkey : k = (number, hash)
      · exact ⟨row, hkey ▸ hu.journaled, hu.unfinalized⟩
      · obtain ⟨r, hrow, hrowOpen⟩ := hopen k (hu.mem_applied.2 ⟨hkey, hk'⟩) hlt
        exact ⟨r, (hu.journal_iff.1 hrow).2, hrowOpen⟩
    suffices hstate : t.stateAt key.1 = s.stateAt key.1 by
      rw [hstate]; exact h.agrees key happ hopen'
    rcases hk with hat | ⟨-, hneutral⟩
    · -- The highest block is undone.
      obtain ⟨cur, hcurr, hat⟩ := map_eq_some_iff.1 hat
      have hnum : cur.blockNumber = number := congrArg fst hat
      have hbelow : ∀ k ∈ s.applied, k ≠ (number, hash) → k.1 < number := by
        intro k hk' hkne
        refine Nat.lt_of_le_of_ne (hnum ▸ (h.top cur hcurr).2 k hk') fun heq => hkne ?_
        exact hr.eq_of_height hk' (hr.journaled hu.journaled) heq
      refine (stateAt_push (s := t) (number, hash) row (fun k => ?_) ?_
        (hbelow key happ hne) hu.unfinalized (fun k r hrow => ?_) hu.state.symm).symm
      · rw [hu.journal, get?_erase_ite]
        split
        · rename_i hkey; rw [hkey, hu.journaled]
        · rfl
      · rw [hu.journal, get?_erase_ite, if_pos rfl]
      · obtain ⟨hkne, hrow⟩ := hu.journal_iff.1 hrow; exact hbelow k (hr.journaled hrow) hkne
    · have hneutral := hneutral row hu.journaled
      refine stateAt_congr ?_ fun k r _ _ hwrites => ?_
      · rw [hu.state, unwriteStates_of_not hneutral]
      · rw [hu.journal_iff]
        refine and_iff_right_of_imp fun hrow hkey => ?_
        rw [hkey, hu.journaled, some.injEq] at hrow; rw [← hrow, hneutral] at hwrites; cases hwrites

variable {level : Finality}

theorem RemembersHeights.raises (h : s.RemembersHeights) (hr : Recorded s.toStore)
    {now thru : Nat} {holds marks : Bool} (hraise : Raises d now thru level holds marks s.toStore t) :
    RemembersHeights { s with toStore := t } := by
  have hrow : ∀ (key : Nat × BlockHash) (row : JournalRow), t.journal[key]? = some row →
      row.finalized = false → s.journal[key]? = some row := by
    intro key row hrow hopen
    obtain ⟨_, hold, -, hsame⟩ := hraise.journaled hrow; rw [hsame hopen, hold]
  refine ⟨fun cur hcurr => ?_, fun hnone => ?_, fun key happ hopen => ?_⟩
  · have hat := hraise.at_eq
    rw [show t.cursor = some cur from hcurr, map_some] at hat
    obtain ⟨prior, hprior, hat⟩ := map_eq_some_iff.1 hat.symm
    change cur.at ∈ t.applied ∧ ∀ key ∈ t.applied, key.1 ≤ cur.at.1
    rw [hraise.applied, ← hat]; exact h.top prior hprior
  · have hat := hraise.at_eq
    rw [show t.cursor = none from hnone, map_none] at hat
    rw [hraise.applied]; exact h.headed (map_eq_none_iff.1 hat.symm)
  · change s.Agrees key (t.stateAt key.1)
    rw [hraise.applied] at happ
    have hopen' : s.Open key.1 := by
      intro k hk' hlt
      obtain ⟨r, hr', hrowOpen⟩ := hopen k (hraise.applied ▸ hk') hlt
      exact ⟨r, hrow k r hr' hrowOpen, hrowOpen⟩
    rw [stateAt_congr (s := s.toStore) hraise.state fun k r hlt hrowOpen _ =>
      ⟨fun hr' => hrow k r hr' hrowOpen, fun hr' => ?_⟩]
    · exact h.agrees key happ hopen'
    · -- The block is above the height, so it can still be undone.
      obtain ⟨r', hr'', hopen''⟩ := hopen k (hraise.applied ▸ hr.journaled hr') hlt
      have hsame := hrow k r' hr'' hopen''; rw [hr', some.injEq] at hsame; rw [hr'', hsame]

section Batches

variable {items : List HistoricalBatchItem} {last : HistoricalBatchItem} {ms : List Mutation}

theorem mem_last (hc : CommitsBatch items last ms s.toStore t) : last ∈ items :=
  mem_of_getLast? hc.ends

variable {item : HistoricalBatchItem}

theorem eq_last_of_open (hr : Recorded s.toStore) (hc : CommitsBatch items last ms s.toStore t)
 (hitem : item ∈ items) (hopen : t.Open item.delta.key.1) : item = last := by
  refine (hc.below item hitem).resolve_right fun hlt => ?_
  have happ := (hc.fills.applied _).2 (.inr ⟨last, mem_last hc, rfl⟩)
  obtain ⟨_, hrow, -⟩ := hopen last.delta.key happ hlt
  rw [show t.journal = s.journal from hc.fills.journal] at hrow
  exact hc.fresh last (mem_last hc) (hr.journaled hrow)

theorem le_last (hc : CommitsBatch items last ms s.toStore t)
    (hitem : item ∈ items) : item.delta.key.1 ≤ last.delta.key.1 := by
  rcases hc.below item hitem with rfl | hlt
  · exact le_rfl
  · exact Nat.le_of_lt hlt

theorem RemembersHeights.reaches (h : s.RemembersHeights) (hr : Recorded s.toStore)
    (hc : CommitsBatch items last ms s.toStore t) (hr' : Recorded t)
    (hreaches : s.Reaches last.delta.block)
    (hk : s.Agrees last.delta.key (writeStates s.output.state ms)) :
    RemembersHeights { s with toStore := t } := by
  have hbelow : ∀ key ∈ s.applied, key.1 ≤ last.delta.key.1 := by
    intro key happ
    cases hcur : s.cursor with
    | none => exact absurd happ (h.headed hcur key)
    | some prior =>
      exact Nat.le_trans ((h.top prior hcur).2 key happ) (hreaches prior hcur)
  have hat := hc.reached hreaches
  refine ⟨fun cur hcurr => ?_, fun hnone => ?_, fun key happ hopen => ?_⟩
  · rw [show t.cursor = some cur from hcurr, map_some, some.injEq] at hat
    change cur.at ∈ t.applied ∧ ∀ key ∈ t.applied, key.1 ≤ cur.at.1
    rw [hat]
    refine ⟨(hc.fills.applied _).2 (.inr ⟨last, mem_last hc, rfl⟩), fun key happ => ?_⟩
    rcases (hc.fills.applied key).1 happ with happ | ⟨item, hitem, rfl⟩
    · exact hbelow key happ
    · exact le_last hc hitem
  · rw [show t.cursor = none from hnone] at hat; cases hat
  · change t.Open key.1 at hopen
    have happliedLast := (hc.fills.applied _).2 (.inr ⟨last, mem_last hc, rfl⟩)
    have heq : key = last.delta.key := by
      rcases (hc.fills.applied key).1 happ with hold | ⟨item, hitem, rfl⟩
      · refine hr'.eq_of_height happ happliedLast (Nat.le_antisymm (hbelow key hold) ?_)
        refine Nat.le_of_not_lt fun hlt => ?_
        obtain ⟨row, hrow, -⟩ := hopen last.delta.key happliedLast hlt
        rw [show t.journal = s.journal from hc.fills.journal] at hrow
        exact hc.fresh last (mem_last hc) (hr.journaled hrow)
      · rw [eq_last_of_open hr hc hitem hopen]
    subst heq
    have hstate := hc.fills.state
    rw [stateAt_eq, hstate]
    · exact hk
    · intro k row hrow hlt
      rw [show t.journal = s.journal from hc.fills.journal] at hrow
      exact absurd (hbelow k (hr.journaled hrow)) (Nat.not_le_of_lt hlt)

theorem RemembersHeights.fillsIn (h : s.RemembersHeights) (hr : Recorded s.toStore)
    (hc : CommitsBatch items last ms s.toStore t) (hstays : ¬ s.Reaches last.delta.block)
    (hneutral : ms.any writesState = false) (hk : ∀ (id : Nat) (row : Checkpoint),
    s.checkpoints[id]? = some row → row.cursor.at = last.delta.key →
    row.state = s.output.state ∧ s.Restful) : RemembersHeights { s with toStore := t } := by
  have hcur := hc.stayed hstays
  have hjrnl := hc.fills.journal
  have hst : t.output.state = s.output.state :=
    hc.fills.state.trans (writeStates_of_not hneutral _)
  refine ⟨fun cur hcurr => ?_, fun hnone => ?_, fun key happ hopen => ?_⟩
  · rw [hcur] at hcurr
    obtain ⟨hat, htop⟩ := h.top cur hcurr
    refine ⟨(hc.fills.applied _).2 (.inl hat), fun key happ => ?_⟩
    rcases (hc.fills.applied key).1 happ with happ | ⟨item, hitem, rfl⟩
    · exact htop key happ
    · refine Nat.le_trans (le_last hc hitem) (Nat.le_of_not_le fun hle => hstays ?_)
      intro _ hprior; rw [mem_unique hprior hcurr]; exact hle
  · rw [hcur] at hnone; exact absurd (by rw [Store.Reaches, hnone]; exact nofun) hstays
  · change t.Open key.1 at hopen
    rcases (hc.fills.applied key).1 happ with happ | ⟨item, hitem, rfl⟩
    · rw [stateAt_congr (s := s.toStore) hst fun k r _ _ _ => by rw [hjrnl]]
      refine h.agrees key happ fun k hk' hlt => ?_
      obtain ⟨r, hrow, hrowOpen⟩ := hopen k ((hc.fills.applied k).2 (.inl hk')) hlt
      exact ⟨r, hjrnl ▸ hrow, hrowOpen⟩
    · rw [eq_last_of_open hr hc hitem hopen]
      intro id row hckpt hblk
      obtain ⟨hcurr, hrestful⟩ := hk id row hckpt hblk
      rw [hcurr, stateAt_eq, hst]
      intro k r hrow _ hrowOpen; exact hrestful k r (hjrnl ▸ hrow) hrowOpen

end Batches

section Line

variable {line : List Moment}

theorem RemembersLine.advances {env : Environment} {cursor : ProcessorCursor} {delta : EncodedDelta}
    {publ recov : Bool} {strmId : String} {origin : DeliveryOrigin} {batch : MutationBatch}
    {inv : List DomainChange} {o : Output} {pruned : PrunedOutput} (h : s.RemembersLine line)
    (hr : Recorded s.toStore)
    (ha : Applies p env cursor delta publ strmId recov origin batch inv s.toStore t o
      pruned) (hadvs : s.AdvancesCursor p.descriptor cursor)
    (hk : s.Agrees cursor.at (writeStates s.output.state batch.mutations)) :
    RemembersLine { s with toStore := t } (⟨cursor.at, t.output.state⟩ :: line) where
  cursor := by
    rw [ha.advanced, if_pos hadvs]; rfl
  state m hm := by
    rw [head?_cons, mem_some_iff] at hm; rw [← hm]
  applied m hm := by
    rw [ha.mem_applied]
    rcases mem_cons.1 hm with rfl | hm
    · exact .inl ha.key_eq
    · exact .inr (h.applied m hm)
  nodup := by
    rw [map_cons, nodup_cons]
    refine ⟨fun hmem => ?_, h.nodup⟩
    obtain ⟨m, hm, hblock⟩ := mem_map.1 hmem
    have happ := h.applied m hm; rw [hblock, ha.key_eq] at happ; exact ha.fresh happ
  linked := by
    have hnew : delta.key ∉ s.applied := ha.fresh
    refine ⟨fun row hrow _ => ?_, h.linked.mono fun m hm row hrow hopen => ?_⟩
    · rcases journal_of_applies ha hrow with ⟨hold, -⟩ | ⟨-, -, rfl⟩
      · exact absurd (ha.key_eq ▸ hr.journaled hold) hnew
      · refine ⟨h.cursor, fun prior hprior => ?_⟩
        rw [h.state prior hprior]; exact ha.unwrites
    · rcases journal_of_applies ha hrow with ⟨hold, -⟩ | ⟨hkey, -, -⟩
      · exact ⟨row, hold, rfl, hopen⟩
      · exact absurd (hkey ▸ h.applied m hm) hnew
  agrees m hm := by
    rcases mem_cons.1 hm with rfl | hm
    · rw [ha.state]; exact hk
    · exact h.agrees m hm

theorem RemembersLine.undoes {env : Environment} {cid num : Nat} {hash : BlockHash}
    {row : JournalRow} {o : Output} (h : s.RemembersLine line)
    (hu : Undoes d env cid num hash row s.toStore t o) (hmode : d.mode = .orderedState)
    (hat : s.cursor.map ProcessorCursor.at = some (num, hash)) :
    ∃ line, RemembersLine { s with toStore := t } line := by
  have hcur : t.cursor = row.undo.priorCursor := by rw [hu.cursor, hmode]
  rw [h.cursor] at hat
  cases line with
  | nil => cases hat
  | cons m line =>
    rw [head?_cons, map_some, some.injEq] at hat
    have hstate := h.state m rfl
    obtain ⟨hprior, hback⟩ := h.linked.1 row (hat ▸ hu.journaled) hu.unfinalized
    have hnodup := h.nodup
    rw [map_cons, nodup_cons] at hnodup
    have hne : ∀ m' ∈ line, m'.block ≠ (num, hash) := by
      intro m' hm' hblk; exact hnodup.1 (hat.trans hblk.symm ▸ mem_map_of_mem hm')
    refine ⟨line, ?_, fun m' hm' => ?_, fun m' hm' => ?_, hnodup.2, ?_, fun m' hm' => ?_⟩
    · rw [hcur, hprior]
    · rw [hu.state, ← hstate, hback m' hm']
    · exact hu.mem_applied.2 ⟨hne m' hm', h.applied m' (mem_cons_of_mem _ hm')⟩
    · exact h.linked.2.mono fun m' _ r hrow hopen => ⟨r, (hu.journal_iff.1 hrow).2, rfl, hopen⟩
    · exact h.agrees m' (mem_cons_of_mem _ hm')

theorem RemembersLine.raises {now thru : Nat} {level : Finality} {holds marks : Bool}
    (h : s.RemembersLine line) (hraise : Raises d now thru level holds marks s.toStore t) :
    RemembersLine { s with toStore := t } line where
  cursor := hraise.at_eq.trans h.cursor
  state m hm := (h.state m hm).trans hraise.state.symm
  applied m hm := by
    rw [hraise.applied]; exact h.applied m hm
  nodup := h.nodup
  linked := h.linked.mono fun m _ _ hrow hopen => by
    obtain ⟨old, hold, hundo, hsame⟩ := hraise.journaled hrow
    exact ⟨old, hold, hundo, hsame hopen ▸ hopen⟩
  agrees := h.agrees

theorem RemembersLine.commits {items : List HistoricalBatchItem} {last : HistoricalBatchItem}
    {ms : List Mutation} (h : s.RemembersLine line) (hr : Recorded s.toStore)
    (hc : CommitsBatch items last ms s.toStore t) (hk : s.KeepsBatch items ms) :
    ∃ line, RemembersLine { s with toStore := t } line := by
  have hjrnl := hc.fills.journal
  have hstate := hc.fills.state
  have happ : ∀ m ∈ line, m.block ∈ t.applied :=
    fun m hm => (hc.fills.applied _).2 (.inl (h.applied m hm))
  have hlink := hjrnl ▸ h.linked
  obtain ⟨hmoves, hstays⟩ := hk last hc.ends
  by_cases hreaches : s.Reaches last.delta.block
  · have hnew := hc.fresh last (mem_last hc)
    refine ⟨⟨last.delta.key, t.output.state⟩ :: line, hc.reached hreaches, fun m hm => ?_,
      fun m hm => ?_, ?_, ⟨fun _ hrow => ?_, hlink⟩, fun m hm => ?_⟩
    · rw [head?_cons, mem_some_iff] at hm; rw [← hm]
    · rcases mem_cons.1 hm with rfl | hm
      · exact (hc.fills.applied _).2 (.inr ⟨last, mem_last hc, rfl⟩)
      · exact happ m hm
    · rw [map_cons, nodup_cons]
      refine ⟨fun hmem => ?_, h.nodup⟩
      obtain ⟨m, hm, hblock⟩ := mem_map.1 hmem
      have happliedLast := h.applied m hm; rw [hblock] at happliedLast; exact hnew happliedLast
    · exact absurd (hr.journaled (hjrnl ▸ hrow)) hnew
    · rcases mem_cons.1 hm with rfl | hm
      · rw [hstate]; exact hmoves hreaches
      · exact h.agrees m hm
  · rw [writeStates_of_not (hstays hreaches).1] at hstate
    refine ⟨line, ?_, fun m hm => (h.state m hm).trans hstate.symm, happ, h.nodup, hlink, h.agrees⟩
    rw [hc.stayed hreaches, h.cursor]

end Line

theorem Remembers.applies {delta : EncodedDelta} {publ recov : Bool} {strmId : String}
    {origin : DeliveryOrigin} {batch : MutationBatch} {inv : List DomainChange}
    {pruned : PrunedOutput} (h : Remembers p.descriptor s)
    (ha : Applies p env cursor delta publ strmId recov origin batch inv s.toStore t o pruned)
    (hk : s.KeepsApply p cursor delta) : Remembers p.descriptor { s with toStore := t } := by
  obtain ⟨hmoves, hstays⟩ := hk ha.unapplied batch ha.reduced
  refine ⟨h.recorded.applies ha, fun hmode => ?_, fun hmode => ?_⟩
  · by_cases hadvs : s.AdvancesCursor p.descriptor cursor
    · exact (h.heights hmode).advances h.recorded ha hmode hadvs (hmoves hadvs)
    · obtain ⟨hneutral, hckpts⟩ := hstays hadvs
      exact (h.heights hmode).stays h.recorded ha hadvs hneutral hckpts
  · obtain ⟨line, hl⟩ := h.line hmode
    have hadvs : s.AdvancesCursor p.descriptor cursor := .inl hmode
    exact ⟨_, hl.advances h.recorded ha hadvs (hmoves hadvs)⟩

theorem Remembers.undoes {cid num : Nat} (h : Remembers d s)
    (hu : Undoes d env cid num hash row s.toStore t o) (hk : s.KeepsUndo d num hash) :
    Remembers d { s with toStore := t } := by
  refine ⟨h.recorded.undoes hu, fun hmode => ?_, fun hmode => ?_⟩
  · exact (h.heights hmode).undoes h.recorded hu hmode hk
  · obtain ⟨line, hl⟩ := h.line hmode
    refine hl.undoes hu hmode (hk.resolve_right fun hlocal => ?_)
    rw [hmode] at hlocal; cases hlocal.1

theorem Remembers.raises {now thru : Nat} {holds marks : Bool}
    (h : Remembers d s) (hraise : Raises d now thru level holds marks s.toStore t) :
    Remembers d { s with toStore := t } where
  recorded := h.recorded.raises hraise
  heights hmode := (h.heights hmode).raises h.recorded hraise
  line hmode := (h.line hmode).imp fun _ hl => hl.raises hraise

theorem Remembers.commits {items : List HistoricalBatchItem} {last : HistoricalBatchItem}
    {ms : List Mutation} (h : Remembers d s) (hc : CommitsBatch items last ms s.toStore t)
    (hfolded : Folded t) (hk : s.KeepsBatch items ms) : Remembers d { s with toStore := t } := by
  have hrecorded := h.recorded.commits hc hfolded
  refine ⟨hrecorded, fun hmode => ?_, fun hmode => ?_⟩
  · obtain ⟨hmoves, hstays⟩ := hk last hc.ends
    by_cases hreaches : s.Reaches last.delta.block
    · exact (h.heights hmode).reaches h.recorded hc hrecorded hreaches (hmoves hreaches)
    · obtain ⟨hneutral, hckpts⟩ := hstays hreaches
      exact (h.heights hmode).fillsIn h.recorded hc hreaches hneutral hckpts
  · obtain ⟨line, hl⟩ := h.line hmode; exact hl.commits h.recorded hc hk

theorem Remembers.fills (h : Remembers d s) (hf : Fills [] [] s.toStore t) (hfolded : Folded t) :
    Remembers d { s with toStore := t } := by
  have happ : ∀ key, key ∈ t.applied ↔ key ∈ s.applied := by
    intro key
    rw [hf.applied, or_iff_left]
    rintro ⟨_, hitem, -⟩; cases hitem
  have hstate := hf.state
  refine ⟨h.recorded.fills hf hfolded, fun hmode => ?_, fun hmode => ?_⟩
  · have hh := h.heights hmode
    refine ⟨fun cur hcurr => ?_, fun hnone key hkey => ?_, fun key hkey hopen => ?_⟩
    · rw [hf.cursor] at hcurr
      obtain ⟨hat, htop⟩ := hh.top cur hcurr
      exact ⟨(happ _).2 hat, fun key hkey => htop key ((happ key).1 hkey)⟩
    · exact hh.headed (hf.cursor ▸ hnone) key ((happ key).1 hkey)
    · rw [stateAt_congr (s := s.toStore) hstate fun k r _ _ _ => by rw [hf.journal]]
      refine hh.agrees key ((happ key).1 hkey) fun k hk' hlt => ?_
      obtain ⟨r, hrow, hrowOpen⟩ := hopen k ((happ k).2 hk') hlt
      exact ⟨r, hf.journal ▸ hrow, hrowOpen⟩
  · obtain ⟨line, hl⟩ := h.line hmode
    refine ⟨line, ?_, fun m hm => (hl.state m hm).trans hstate.symm,
      fun m hm => (happ _).2 (hl.applied m hm), hl.nodup, ?_, hl.agrees⟩
    · rw [hf.cursor, hl.cursor]
    · rw [hf.journal]; exact hl.linked

theorem Remembers.publishes (h : Remembers d s) {streams : Table String Stream}
    {origins : Table String DeliveryOrigin}
    (ht : t = { s.toStore with streams := streams, backfillOrigins := origins }) :
    Remembers d { s with toStore := t } := by
  subst ht
  apply h.fills
  · exact ⟨rfl, rfl, rfl, rfl, (Fills.refl s.toStore).applied, .inl⟩
  · exact h.recorded.folded.congr rfl rfl rfl rfl

theorem checkpointApplied_eq_ok {r : Except StoreError (Store × Store.ApplyOutcome)}
    {outcome : Store.ApplyOutcome}
    (hcommitted : ∀ {t committed first last}, r = .ok (t, .applied committed first last) → t.cursor = some committed)
    (h : s.checkpointApplied policy cursor r = .ok (s', outcome)) :
    ∃ t, r = .ok (t, outcome) ∧ Takes { s with toStore := t } s' := by
  simp only [checkpointApplied, bind_eq_ok, Prod.exists] at h
  obtain ⟨t, answer, hr, h⟩ := h
  cases answer with
  | alreadyApplied =>
    simp only [pure_eq_ok, mk.injEq] at h
    obtain ⟨rfl, rfl⟩ := h; exact ⟨t, hr, .refl _⟩
  | applied committed first last =>
    simp only [eq_ok, mk.injEq] at h
    obtain ⟨_, htaken, rfl, rfl⟩ := h
    refine ⟨t, hr, ?_⟩
    split at htaken
    · rw [← hcommitted hr] at htaken
      exact automatic_takes (s := { s with toStore := t }) createRecoveryCheckpoint_takes htaken
    · rw [ok.injEq] at htaken; exact htaken ▸ .refl _

theorem Remembers.applied {policy : CheckpointPolicy} {env : Environment}
    {cursor : ProcessorCursor} {delta : EncodedDelta} {publ recov : Bool} {strmId : String}
    {outcome : Store.ApplyOutcome} (h : Remembers p.descriptor s) (hk : s.KeepsApply p cursor delta)
    (hc : s.checkpointApplied policy cursor (s.applyToStream p env cursor delta publ strmId recov) =
    .ok (s', outcome)) : Remembers p.descriptor s' := by
  obtain ⟨t, ht, htakes⟩ := checkpointApplied_eq_ok (fun {t _ _ _} ht => by
    rcases applyToStream_spec ht with ⟨hno, -⟩ | ⟨⟨_, _, _, houtc, hcur⟩, -⟩
    · cases hno
    · cases houtc; exact hcur) hc
  rcases applyToStream_spec ht with ⟨-, rfl⟩ | ⟨-, _, _, _, _, _, ha⟩
  · exact h.takes htakes
  · exact (h.applies ha hk).takes htakes

theorem Remembers.restores (h : Remembers d s) {checkpointId : Nat} {cur : ProcessorCursor}
    (hc : s.restoreRecoveryCheckpoint d checkpointId = .ok (s', cur)) : s' = s := by
  simp only [restoreRecoveryCheckpoint, eq_ok, Prod.mk.injEq] at hc
  obtain ⟨_, -, snapshot, hsnap, -, -, _, hcurr, -, hrestorable, rfl, -⟩ := hc
  rw [restorable, Bool.and_eq_true, decide_eq_true_eq, decide_eq_true_eq] at hrestorable
  have hat := (congrArg ProcessorCursor.at hrestorable.2).symm
  rw [h.agrees hcurr _ snapshot hsnap hat]

end Checkpointed

variable {policy : CheckpointPolicy}

variable {p : Processor} {s : Checkpointed}

theorem remembers_step {event : CheckpointEvent} (h : s.Remembers p.descriptor)
    (hk : KeepsToCursor p s event) : (checkpointStep p policy s event).Remembers p.descriptor := by
  cases event with
  | operate op =>
    by_cases hp : op.Publishes
    · obtain ⟨_, _, hs⟩ := step_publishes p s.toStore hp
      have hpublishes := h.publishes hs
      cases op <;> first | exact hpublishes | exact hp.elim
    · cases op with
      | apply env cursor delta publish streamId =>
        change (commit s (s.checkpointApplied policy cursor
          (s.applyToStream p env cursor delta publish streamId false))).Remembers _
        cases hout : s.checkpointApplied policy cursor
            (s.applyToStream p env cursor delta publish streamId false) with
        | error err => exact h
        | ok out => exact h.applied hk hout
      | applyLiveRecovery env cursor delta =>
        change (commit s (s.checkpointApplied policy cursor
          (s.applyLiveRecovery p env cursor delta))).Remembers _
        cases hout : s.checkpointApplied policy cursor (s.applyLiveRecovery p env cursor delta) with
        | error err => exact h
        | ok out =>
          unfold Store.applyLiveRecovery at hout
          by_cases hfinal : cursor.finality = .finalized
          · rw [ensure_of _ hfinal, ok_bind] at hout; exact h.applied hk hout
          · rw [ensure, if_neg hfinal, error_bind] at hout; cases hout
      | undo env chainId number hash =>
        change Checkpointed.Remembers _ { s with
          toStore := commit s.toStore (s.undo p.descriptor env chainId number hash) }
        cases hout : s.undo p.descriptor env chainId number hash with
        | error err => exact h
        | ok out =>
          obtain ⟨_, _, hu⟩ := undo_spec hout; exact h.undoes hu hk
      | markAttested env through hash =>
        change Checkpointed.Remembers _ { s with
          toStore := commit s.toStore (s.markAttested p.descriptor env through hash) }
        cases hout : s.markAttested p.descriptor env through hash with
        | error err => exact h
        | ok out => exact h.raises (markAttested_spec hout)
      | markFinalized env through hash =>
        change (commit s (s.markFinalized p.descriptor policy env through hash)).Remembers _
        cases hout : s.markFinalized p.descriptor policy env through hash with
        | error err => exact h
        | ok out =>
          simp only [Checkpointed.markFinalized, eq_ok, Prod.exists] at hout
          obtain ⟨t, _, hmark, taken, htaken, rfl⟩ := hout
          have hraised := h.raises (markFinalized_spec hmark)
          split at htaken
          · exact hraised.takes
              (Checkpointed.automatic_takes Checkpointed.createRecoveryCheckpoint_takes htaken)
          · rw [Except.ok.injEq] at htaken; exact htaken ▸ hraised
      | _ => exact absurd trivial hp
  | historical env mode items streamId completion limits =>
    change Checkpointed.Remembers _ { s with
      toStore := commit s.toStore
        (s.commitHistoricalMicrobatch p env mode items streamId completion limits) }
    cases hout : s.commitHistoricalMicrobatch p env mode items streamId completion limits with
    | error err => exact h
    | ok out =>
      have hfolded := h.recorded.folded.historical hout
      rcases commitHistoricalMicrobatch_spec hout with ⟨_, hfills⟩ | ⟨rfl, ms, changes, last,
        hreduce, hcommits⟩
      · exact h.fills hfills hfolded
      · exact h.commits hcommits hfolded (hk ms changes hreduce)
  | materialize env held items limits =>
    change (commit s (s.materialize p policy env held items limits)).Remembers _
    cases hout : s.materialize p policy env held items limits with
    | error err => exact h
    | ok out =>
      simp only [Checkpointed.materialize, eq_ok, Prod.exists] at hout
      obtain ⟨t, _, hcommit, taken, htaken, rfl⟩ := hout
      obtain ⟨ovl, batches, last, hreduce, hcommits⟩ :=
        commitHistoricalMaterializationMicrobatch_spec hcommit
      have hfolded := h.recorded.folded.materialize hcommit
      exact (h.commits hcommits hfolded (hk ovl batches hreduce)).takes
        (Checkpointed.automatic_takes Checkpointed.createRecoveryCheckpoint_takes htaken)
  | completeJob =>
    change (commit s (s.completeJob policy)).Remembers _
    cases hout : s.completeJob policy with
    | error err => exact h
    | ok out =>
      simp only [Checkpointed.completeJob, eq_ok] at hout
      obtain ⟨taken, htaken, rfl⟩ := hout
      exact h.takes (Checkpointed.automatic_takes Checkpointed.insertRecoveryCheckpoint_takes htaken)
  | restore checkpointId =>
    change (commit s (s.restoreRecoveryCheckpoint p.descriptor checkpointId)).Remembers _
    cases hout : s.restoreRecoveryCheckpoint p.descriptor checkpointId with
    | error err => exact h
    | ok out =>
      have hsame := h.restores hout; exact hsame ▸ h

theorem remembers_run (evs : List CheckpointEvent) :
    ∀ {s : Checkpointed}, s.Remembers p.descriptor → RunKeepsToCursor p policy s evs →
      (checkpointRun p policy s evs).Remembers p.descriptor := by
  induction evs with
  | nil => exact fun h _ => h
  | cons event evs ih => exact fun h hk => ih (remembers_step h hk.1) hk.2

/-- Restoring the checkpoint loses nothing: the working state stays as it is where the checkpoint is
accepted, and everything does where it is refused. -/
def Checkpointed.LosesNothing (d : ProcessorDescriptor) (s : Checkpointed) (checkpointId : Nat) :
    Prop :=
  let r := Leani.settle s (s.restoreRecoveryCheckpoint d checkpointId)
  (∀ current, r.2 = .ok current → r.1.output.state = s.output.state) ∧ ∀ e, r.2 = .error e → r.1 = s

theorem Checkpointed.Remembers.losesNothing {d : ProcessorDescriptor} (h : s.Remembers d)
    (checkpointId : Nat) : s.LosesNothing d checkpointId := by
  unfold Checkpointed.LosesNothing
  cases hout : s.restoreRecoveryCheckpoint d checkpointId with
  | error err => exact ⟨nofun, fun _ _ => rfl⟩
  | ok out =>
    have hsame := h.restores hout
    exact ⟨fun _ _ => congrArg (fun s => s.output.state) hsame, nofun⟩

/-- After a run that keeps to the cursor no restore loses working state. -/
theorem checkpointRun_losesNothing (p : Processor) (policy : CheckpointPolicy)
    (events : List CheckpointEvent) (checkpointId : Nat)
    (h : RunKeepsToCursor p policy (.registered p.descriptor) events) :
    (checkpointRun p policy (.registered p.descriptor) events).LosesNothing p.descriptor
      checkpointId :=
  (remembers_run events (remembers_registered p.descriptor) h).losesNothing checkpointId

theorem Checkpointed.keepsApply_of {cursor : ProcessorCursor} {delta : EncodedDelta}
    (hadvs : s.AdvancesCursor p.descriptor cursor)
    (hnone : (firstWhere s.checkpoints fun _ row => row.cursor.at = cursor.at).isSome = false) :
    s.KeepsApply p cursor delta := by
  intro _ _ _
  refine ⟨fun _ id row hrow hblk => ?_, fun hstays => absurd hadvs hstays⟩
  rw [← not_eq_true, isSome_firstWhere] at hnone
  exact absurd ⟨id, row, hrow, decide_eq_true hblk⟩ hnone

def counting : Processor :=
  { silent with
    reduce := fun cursor _ => .statePut ("count", []) [.ofNat cursor.blockNumber] (.done []) }

def countBlock (number : Nat) (finality : Finality) : CheckpointEvent :=
  .operate (.apply ⟨0, fun _ => 0, none⟩
    ⟨"silent", "1", 1, number, BitVec.ofNat 256 number, finality, number⟩
    ⟨"silent", "1", 0, 1, 1, ⟨number, BitVec.ofNat 256 number, 0, 0⟩, [], 0⟩ true "silent:live")

def keepOne : CheckpointPolicy := ⟨.automatic, 1⟩

def undoneAbove : List CheckpointEvent :=
  [countBlock 5 .finalized, countBlock 6 .unattested, .operate (.undo ⟨0, fun _ => 0, none⟩ 1 6 6)]

/-- The checkpoint of block 5 is accepted and holds what the undo left. -/
theorem checkpointRun_losesNothing_undoneAbove :
    let s := checkpointRun counting keepOne (.registered counting.descriptor) undoneAbove
    (s.restoreRecoveryCheckpoint counting.descriptor 1).toOption.isSome = true ∧
      s.output.state[(("count", []) : StateKey)]? = some [5] ∧
      s.LosesNothing counting.descriptor 1 := by
  refine ⟨by decide +kernel, by decide +kernel,
    checkpointRun_losesNothing counting keepOne undoneAbove 1 ⟨?_, ?_, ?_, trivial⟩⟩
  · apply keepsApply_of
    · decide +kernel
    · decide +kernel
  · apply keepsApply_of
    · decide +kernel
    · decide +kernel
  · refine .inl ?_
    decide +kernel

def filledBelow : List CheckpointEvent := [countBlock 5 .finalized, countBlock 3 .finalized]

/-- The cursor still stands on block 5, so its checkpoint is accepted, and what block 3 wrote is
lost. -/
theorem checkpointRun_losesState :
    let s := checkpointRun counting keepOne (.registered counting.descriptor) filledBelow
    s.cursor.map ProcessorCursor.at = some (5, 5) ∧
      s.output.state[(("count", []) : StateKey)]? = some [3] ∧
      ((Leani.settle s (s.restoreRecoveryCheckpoint counting.descriptor 1)).1.output.state[
        (("count", []) : StateKey)]?) = some [5] ∧
      ¬ s.LosesNothing counting.descriptor 1 := by
  intro s
  have hstate : s.output.state[(("count", []) : StateKey)]? = some [3] := by decide +kernel
  have hrestored : ((Leani.settle s (s.restoreRecoveryCheckpoint counting.descriptor 1)).1.output.state[
      (("count", []) : StateKey)]?) = some [5] := by decide +kernel
  refine ⟨by decide +kernel, hstate, hrestored, fun hlosesNothing => ?_⟩
  have haccepted : (Leani.settle s
      (s.restoreRecoveryCheckpoint counting.descriptor 1)).2.toOption.isSome = true := by
    decide +kernel
  cases hr : (Leani.settle s (s.restoreRecoveryCheckpoint counting.descriptor 1)).2 with
  | error err =>
    rw [hr] at haccepted; cases haccepted
  | ok current =>
    rw [hlosesNothing.1 current hr, hstate] at hrestored; cases hrestored

end Leani.Processor
