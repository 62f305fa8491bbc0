import Leani.Processor.Rewinding
import Leani.Processor.Snapshots

/-!
# A follower agrees with the store

What a transaction does to the entities of a collection, the records that it publishes do to a copy
of the collection: a block's changes describe its net mutations, and the inverse changes in its undo
record describe the before-images. So a snapshot and the records after its boundary give the
collection, wherever the consumer stops to read.
-/

namespace Leani.Processor

open Library Std Delivery List Option Table Except Mutation Store

/-! ## Writes of rows -/

section Writes

variable {κ ν : Type} [Ord κ] [TransOrd κ] [LawfulEqOrd κ] [DecidableEq κ]

def writeRows (t : Table κ ν) (writes : List (κ × Option ν)) : Table κ ν :=
  writes.foldl (fun t write => writeRow t write.1 write.2) t

variable {writes : List (κ × Option ν)}

theorem get?_writeRows_of_not {k : κ} :
    ∀ {t : Table κ ν}, (∀ v, (k, v) ∉ writes) → (writeRows t writes)[k]? = t[k]? := by
  induction writes with
  | nil => exact fun _ => rfl
  | cons write writes ih =>
    intro t h
    have hne : k ≠ write.1 := by
      rintro rfl; exact h write.2 mem_cons_self
    change (writeRows (writeRow t write.1 write.2) writes)[k]? = _
    rw [ih fun v hv => h v (mem_cons_of_mem _ hv), get?_writeRow, if_neg hne]

theorem get?_writeRows_of_mem {k : κ} {v : Option ν} : ∀ {t : Table κ ν},
    (k, v) ∈ writes → (∀ v', (k, v') ∈ writes → v' = v) → (writeRows t writes)[k]? = v := by
  induction writes with
  | nil => exact fun h => nomatch h
  | cons write writes ih =>
    intro t hmem honly
    change (writeRows (writeRow t write.1 write.2) writes)[k]? = _
    by_cases hlater : ∃ v', (k, v') ∈ writes
    · obtain ⟨v', hv'⟩ := hlater
      have hv := honly v' (mem_cons_of_mem _ hv')
      subst hv; exact ih hv' fun w hw => honly w (mem_cons_of_mem _ hw)
    · rw [get?_writeRows_of_not fun w hw => hlater ⟨w, hw⟩, get?_writeRow]
      rcases mem_cons.1 hmem with rfl | hmem
      · exact if_pos rfl
      · exact absurd ⟨v, hmem⟩ hlater

end Writes

def Copies (collection : String) (copy : Table Bytes Bytes) (entities : Table EntityKey Bytes) :
    Prop := ∀ key : Bytes, copy[key]? = entities[(collection, key)]?

theorem Copies.write {coll : String} {copy : Table Bytes Bytes}
    {entities : Table EntityKey Bytes} (h : Copies coll copy entities)
    {writes : List (Bytes × Option Bytes)} {writes' : List (EntityKey × Option Bytes)}
    (hsame : ∀ key value, (key, value) ∈ writes ↔ ((coll, key), value) ∈ writes')
    (honce : ∀ key value value', (key, value) ∈ writes' → (key, value') ∈ writes' → value = value') :
    Copies coll (writeRows copy writes) (writeRows entities writes') := by
  intro key
  by_cases hw : ∃ value, (key, value) ∈ writes
  · obtain ⟨value, hvalue⟩ := hw
    rw [get?_writeRows_of_mem hvalue fun v hv =>
        honce _ _ _ ((hsame key v).1 hv) ((hsame key value).1 hvalue),
      get?_writeRows_of_mem ((hsame key value).1 hvalue) fun v hv =>
        honce _ _ _ hv ((hsame key value).1 hvalue)]
  · rw [get?_writeRows_of_not fun v hv => hw ⟨v, hv⟩,
      get?_writeRows_of_not fun v hv => hw ⟨v, (hsame key v).2 hv⟩]
    exact h key

/-! ## Entities under mutations -/

def entityValues (inverse : Bool) (mutations : List Mutation) : List (EntityKey × Option Bytes) :=
  mutations.filterMap fun m =>
    match m with
    | .entity key before after => some (key, if inverse then before else after)
    | _ => none

variable {ms : List Mutation} {key : EntityKey} {value : Option Bytes}

theorem mem_entityValues {inv : Bool} : (key, value) ∈ entityValues inv ms ↔
      ∃ bef after, entity key bef after ∈ ms ∧ (if inv then bef else after) = value := by
  rw [entityValues, mem_filterMap]
  constructor
  · rintro ⟨m, hm, h⟩
    cases m with
    | entity key' bef after =>
      obtain ⟨rfl, rfl⟩ := h; exact ⟨bef, after, hm, rfl⟩
    | index => cases h
    | state => cases h
  · rintro ⟨bef, after, hm, rfl⟩; exact ⟨_, hm, rfl⟩

def Joined (o : Output) : Prop := ∀ key : EntityKey, key ∈ o.entityMeta ↔ key ∈ o.entities

theorem mem_writeRow {κ ν : Type} [Ord κ] [TransOrd κ] [LawfulEqOrd κ] [DecidableEq κ] {t : Table κ ν}
    {k a : κ} {v : Option ν} : a ∈ writeRow t k v ↔ a = k ∧ v.isSome ∨ a ≠ k ∧ a ∈ t := by
  rw [← ExtTreeMap.isSome_getElem?_iff_mem, get?_writeRow, ← ExtTreeMap.isSome_getElem?_iff_mem]
  by_cases h : a = k <;> simp [h]

theorem applyMutation_entities {inv : Bool} {w : Stamp} {o : Output} (m : Mutation) :
    (applyMutation inv true w o m).entities = writeRows o.entities (entityValues inv [m]) ∧
      (Joined o → Joined (applyMutation inv true w o m)) := by
  cases m with
  | entity key before after =>
    refine ⟨rfl, fun h a => ?_⟩
    change a ∈ writeRow o.entityMeta key _ ↔ a ∈ writeRow o.entities key _
    rw [mem_writeRow, mem_writeRow, isSome_map, h a]
  | index key before after => exact ⟨rfl, id⟩
  | state key before after => exact ⟨rfl, id⟩

theorem foldl_applyMutation_entities {inv : Bool} {w : Stamp} (ms : List Mutation) : ∀ o : Output,
    (ms.foldl (applyMutation inv true w) o).entities = writeRows o.entities (entityValues inv ms) ∧
    (Joined o → Joined (ms.foldl (applyMutation inv true w) o)) := by
  induction ms with
  | nil => exact fun _ => ⟨rfl, id⟩
  | cons m ms ih =>
    intro o
    obtain ⟨hvals, hjoined⟩ := @applyMutation_entities inv w o m
    obtain ⟨hvals', hjoined'⟩ := ih (applyMutation inv true w o m)
    refine ⟨?_, fun h => hjoined' (hjoined h)⟩
    have hsplit : entityValues inv (m :: ms) = entityValues inv [m] ++ entityValues inv ms := by
      rw [entityValues, entityValues, entityValues, ← filterMap_append, singleton_append]
    rw [foldl_cons, hvals', hvals, hsplit, writeRows, writeRows, writeRows, foldl_append]

variable {o : Output}

theorem applyMutations_entities {inv : Bool} {w : Stamp} {o' : Output}
    (h : applyMutations o ms inv true w = .ok o') :
    o'.entities = writeRows o.entities (entityValues inv (if inv then ms.reverse else ms)) ∧
      (Joined o → Joined o') := by
  simp only [applyMutations, eq_ok] at h
  obtain ⟨-, -, -, -, rfl⟩ := h; exact foldl_applyMutation_entities _ o

theorem restoreEntityMetadata_entities {coveredLevel : Nat → Option Finality}
    {finalThru : Option Nat} (images : List EntityMetaImage) :
    ∀ o, (restoreEntityMetadata coveredLevel finalThru o images).entities = o.entities ∧
      (Joined o → Joined (restoreEntityMetadata coveredLevel finalThru o images)) := by
  induction images with
  | nil => exact fun _ => ⟨rfl, id⟩
  | cons image images ih =>
    intro o
    obtain ⟨hents, hjoined⟩ := ih (restoreImage coveredLevel finalThru o image)
    have himage : (restoreImage coveredLevel finalThru o image).entities = o.entities ∧
        (Joined o → Joined (restoreImage coveredLevel finalThru o image)) := by
      unfold restoreImage
      split
      · rename_i hmem
        refine ⟨rfl, fun h a => ?_⟩
        rw [Table.mem_insert_iff]
        refine Iff.trans (or_iff_right_of_imp ?_) (h a)
        rintro rfl; exact hmem
      · exact ⟨rfl, id⟩
    exact ⟨hents.trans himage.1, fun h => hjoined (himage.2 h)⟩

def Single (ms : List Mutation) : Prop :=
  ∀ ⦃key before after before' after'⦄, Mutation.entity key before after ∈ ms →
    Mutation.entity key before' after' ∈ ms → before = before' ∧ after = after'

theorem Single.once {inv : Bool} (h : Single ms) {value' : Option Bytes}
    (hv : (key, value) ∈ entityValues inv ms) (hv' : (key, value') ∈ entityValues inv ms) :
    value = value' := by
  obtain ⟨_, _, hm, rfl⟩ := mem_entityValues.1 hv
  obtain ⟨_, _, hm', rfl⟩ := mem_entityValues.1 hv'
  obtain ⟨rfl, rfl⟩ := h hm hm'; rfl

theorem mem_changedKeys {κ α : Type} [Ord κ] [TransOrd κ] [LawfulEqOrd κ] [DecidableEq α]
    {t : Table κ (OverlayValue α)} {mutation : κ → α → α → Mutation} {m : Mutation} :
    m ∈ changedKeys t mutation ↔ ∃ (key : κ) (value : OverlayValue α), t[key]? = some value ∧
      value.before ≠ value.after ∧ mutation key value.before value.after = m := by
  rw [changedKeys, mem_filterMap]
  constructor
  · rintro ⟨⟨key, value⟩, hmem, h⟩
    split at h
    · cases h
    · rename_i hne; exact ⟨key, value, mem_toList.1 hmem, hne, some.inj h⟩
  · rintro ⟨key, value, hmem, hne, h⟩
    exact ⟨(key, value), mem_toList.2 hmem, by rw [if_neg hne, h]⟩

variable {before : Option Bytes}

theorem entity_mem_mutations {overlay : ReducerOverlay} {after : Option Bytes} :
    entity key before after ∈ overlay.mutations ↔
      overlay.entities[key]? = some ⟨before, after⟩ ∧ before ≠ after := by
  rw [ReducerOverlay.mutations, mem_append, mem_append, mem_changedKeys,
    mem_changedKeys, mem_changedKeys]
  constructor
  · rintro ((⟨_, _, hv, hne, h⟩ | ⟨_, _, _, _, h⟩) | ⟨_, _, _, _, h⟩)
    · obtain ⟨rfl, rfl, rfl⟩ := h; exact ⟨hv, hne⟩
    · cases h
    · cases h
  · rintro ⟨hv, hne⟩; exact .inl (.inl ⟨key, _, hv, hne, rfl⟩)

theorem single_intoBatch (ovl : ReducerOverlay) : Single ovl.intoBatch.mutations := by
  intro _ _ _ _ _ hm hm'
  obtain ⟨hv, -⟩ := entity_mem_mutations.1 hm
  obtain ⟨hv', -⟩ := entity_mem_mutations.1 hm'
  rw [hv, some.injEq, OverlayValue.mk.injEq] at hv'; exact hv'

/-! ## Inverse changes -/

variable {mirror : String → Option String}

theorem mem_mirrored {coll : String} {chgs : List DomainChange} {key : Bytes} :
    (key, value) ∈ mirrored mirror coll chgs ↔ ∃ chg ∈ chgs,
      mirror chg.kind = some coll ∧ chg.key = key ∧ chg.value = value := by
  rw [mirrored, List.mem_map]
  constructor
  · rintro ⟨chg, hmem, h⟩
    obtain ⟨hmem, hkind⟩ := mem_filter.1 hmem
    rw [Prod.mk.injEq] at h; exact ⟨chg, hmem, of_decide_eq_true hkind, h.1, h.2⟩
  · rintro ⟨chg, hmem, hkind, rfl, rfl⟩
    exact ⟨chg, mem_filter.2 ⟨hmem, decide_eq_true hkind⟩, rfl⟩

variable {change : DomainChange}

theorem matchesChange_iff {write : Bytes × Option Bytes × Option Bytes} :
    matchesChange change write = true ↔ write.1 = change.key ∧ write.2.2 = change.value := by
  unfold matchesChange DomainChange.value
  rw [Bool.and_eq_true, decide_eq_true_eq]
  cases change.operation with
  | upsert => rw [decide_eq_true_eq]
  | delete => rw [decide_eq_true_eq]

theorem mem_entityWrites {key : Bytes} {after : Option Bytes} :
    (key, before, after) ∈ entityWrites ms ↔ ∃ coll, entity (coll, key) before after ∈ ms := by
  rw [entityWrites, mem_filterMap]
  constructor
  · rintro ⟨m, hm, h⟩
    cases m with
    | entity key' before' after' =>
      obtain ⟨rfl, rfl, rfl⟩ := h; exact ⟨key'.1, hm⟩
    | index => cases h
    | state => cases h
  · rintro ⟨coll, hm⟩; exact ⟨_, hm, rfl⟩

theorem inverseChange_kind {inv : DomainChange} (h : inverseChange ms change = .ok inv) :
    inv.kind = change.kind := by
  unfold inverseChange at h
  extract_lets entities matching created at h
  clear_value matching created
  split at h
  · rw [← ok.inj h]
  · split at h
    · rw [← ok.inj h]
    · cases h

theorem inverseChange_of_entity {inv : DomainChange} {coll : String}
    (hm : entity (coll, change.key) before change.value ∈ ms) (h : inverseChange ms change =
    .ok inv) : inv.kind = change.kind ∧ inv.key = change.key ∧ inv.value = before := by
  have hmem := mem_filter.2 ⟨mem_entityWrites.2 ⟨coll, hm⟩, matchesChange_iff.2 ⟨rfl, rfl⟩⟩
  have hne := isEmpty_eq_false_iff_exists_mem.2 ⟨_, hmem⟩
  unfold inverseChange at h
  dsimp only at h
  rw [hne, if_neg Bool.false_ne_true, hne, if_neg fun hc => Bool.false_ne_true hc.1] at h
  split at h
  · rename_i key before' after heq
    rw [heq, mem_singleton, Prod.mk.injEq, Prod.mk.injEq] at hmem
    obtain ⟨-, rfl, -⟩ := hmem
    rw [ok.injEq] at h
    subst h
    refine ⟨rfl, rfl, ?_⟩
    cases before with
    | some v => rfl
    | none => rfl
  · cases h

structure Reverses (mirror : String → Option String) (undo : UndoRecord) : Prop where
  single : Single undo.mutations
  describes : ∀ ⦃kind collection⦄, mirror kind = some collection → ∀ key value,
    (key, value) ∈ mirrored mirror collection undo.inverseChanges ↔
      ∃ after, Mutation.entity (collection, key) value after ∈ undo.mutations

variable {batch : MutationBatch} {kind : String}

theorem Describes.inverse (h : Describes mirror batch)
    {inv : List DomainChange} (hinverse : buildInverseChanges batch = .ok inv) {coll : String}
    (hkind : mirror kind = some coll) (key : Bytes) (value : Option Bytes) : (key, value)
    ∈ mirrored mirror coll inv ↔ ∃ after, entity (coll, key) value after ∈ batch.mutations := by
  -- A change of the collection comes with the mutation it describes.
  have hown : ∀ chg ∈ batch.changes, mirror chg.kind = some coll →
      ∃ bef, entity (coll, chg.key) bef chg.value ∈ batch.mutations :=
    fun chg hchg hc => (h hkind _ _).1 (mem_mirrored.2 ⟨chg, hchg, hc, rfl, rfl⟩)
  rw [mem_mirrored]
  constructor
  · rintro ⟨back, hb, hc, rfl, rfl⟩
    obtain ⟨chg, hchg, hback⟩ := (mem_of_mapM_eq_ok hinverse back).1 hb
    rw [mem_reverse] at hchg
    have hsame := inverseChange_kind hback
    obtain ⟨bef, hm⟩ := hown chg hchg (hsame ▸ hc)
    obtain ⟨-, hkey, hvalue⟩ := inverseChange_of_entity hm hback
    rw [hkey, hvalue]; exact ⟨chg.value, hm⟩
  · rintro ⟨after, hm⟩
    obtain ⟨chg, hchg, hc, rfl, rfl⟩ :=
      mem_mirrored.1 ((h hkind key after).2 ⟨value, hm⟩)
    obtain ⟨back, hb, hback⟩ :=
      answer_of_mapM_eq_ok hinverse chg (mem_reverse.2 hchg)
    obtain ⟨hsame, hkey, hvalue⟩ := inverseChange_of_entity hm hback
    exact ⟨back, hb, hsame ▸ hc, hkey, hvalue⟩

/-! ## What a transaction publishes -/

variable {p : MirroringProcessor} {s s' s'' : Store} {log : Log ChangeRow}
  {rows rows' : List ChangeRow}

def Tracks (p : MirroringProcessor) (rows : List ChangeRow) (s s' : Store) : Prop :=
  ∀ ⦃kind collection⦄, p.mirror kind = some collection → ∀ ⦃copy⦄,
    Copies collection copy s.output.entities →
      Copies collection (rows.foldl (follow p.mirror collection) copy) s'.output.entities

theorem Tracks.trans (h : Tracks p rows s s') (h' : Tracks p rows' s' s'') :
    Tracks p (rows ++ rows') s s'' := by
  intro _ _ hkind _ hcopy; rw [foldl_append]; exact h' hkind (h hkind hcopy)

theorem Tracks.unmirrored (hents : s'.output.entities = s.output.entities)
    (hrows : ∀ r ∈ rows, p.mirror r.change.kind = none) : Tracks p rows s s' := by
  intro kind coll _ copy hcopy
  rw [hents]
  induction rows with
  | nil => exact hcopy
  | cons r rows ih =>
    have hr : follow p.mirror coll copy r = copy := by
      rw [follow, hrows r mem_cons_self, if_neg nofun]
    rw [foldl_cons, hr]; exact ih (forall_mem_cons.1 hrows).2

variable {now chainId : Nat} {origin : DeliveryOrigin} {block : BlockRef}

theorem foldl_follow {coll : String} {fin : Finality} {dir : ChangeDirection}
    (chgs : List DomainChange) : ∀ copy, (chgs.map (changeRow now chainId origin block fin dir)).foldl
        (follow mirror coll) copy = writeRows copy (mirrored mirror coll chgs) := by
  induction chgs with
  | nil => exact fun _ => rfl
  | cons change chgs ih =>
    intro copy
    rw [map_cons, foldl_cons, ih, follow, mirrored, mirrored, filter_cons]
    change writeRows (if mirror change.kind = some coll then _ else _) _ = _
    by_cases hkind : mirror change.kind = some coll
    · rw [if_pos hkind, if_pos (decide_eq_true hkind)]; rfl
    · rw [if_neg hkind, if_neg (by rw [decide_eq_true_eq]; exact hkind)]

theorem Tracks.changes {inv : Bool} (hsingle : Single ms)
    (hents : s'.output.entities = writeRows s.output.entities (entityValues inv (if inv then ms.reverse else ms)))
    {fin : Finality} {dir : ChangeDirection} {chgs : List DomainChange}
    (hdescr : ∀ ⦃kind coll⦄, p.mirror kind = some coll → ∀ key value, (key, value) ∈ mirrored p.mirror coll chgs ↔ ((coll, key), value) ∈ entityValues inv ms) :
    Tracks p (chgs.map (changeRow now chainId origin block fin dir)) s s' := by
  have hmem : ∀ key value, (key, value) ∈ entityValues inv (if inv then ms.reverse else ms) ↔
      (key, value) ∈ entityValues inv ms := by
    intro key value
    rw [mem_entityValues, mem_entityValues]
    cases inv with
    | true => simp only [if_true, mem_reverse]
    | false => rfl
  intro kind coll hkind _ hcopy
  rw [foldl_follow, hents]
  apply hcopy.write
  · intro key value; rw [hdescr hkind, hmem]
  · intro key value _ hv hv'; exact hsingle.once ((hmem _ _).1 hv) ((hmem _ _).1 hv')

structure Mirrors (p : MirroringProcessor) (log : Log ChangeRow) (s : Store) : Prop where
  stream : ∃ stream, s.streams[p.descriptor.defaultStreamId]? = some stream ∧
    stream.kind = .canonical ∧ Holds log stream
  deferred : s.deferred = ∅
  joined : Joined s.output
  journal : ∀ {key : Nat × BlockHash} {row : JournalRow}, s.journal[key]? = some row →
    Reverses p.mirror row.undo

def MovesOn (p : MirroringProcessor) (log : Log ChangeRow) (s s' : Store) : Prop :=
  ∃ rows log', log'.history = log.history ++ rows ∧ Mirrors p log' s' ∧ Tracks p rows s s'

theorem Mirrors.refl (h : Mirrors p log s) : MovesOn p log s s :=
  ⟨[], log, (append_nil _).symm, h, fun _ _ _ _ hcopy => hcopy⟩

theorem MovesOn.trans (h : MovesOn p log s s') (h' : ∀ {log' : Log ChangeRow},
    Mirrors p log' s' → MovesOn p log' s' s'') : MovesOn p log s s'' := by
  obtain ⟨rows, _, hhist, hsound, htracks⟩ := h
  obtain ⟨rows', log₂, hhist', hsound', htracks'⟩ := h' hsound
  refine ⟨rows ++ rows', log₂, ?_, hsound', htracks.trans htracks'⟩
  rw [hhist', hhist, append_assoc]

theorem Mirrors.emits (h : Mirrors p log s) (hemits : Emits p.descriptor.defaultStreamId s s' rows) :
    ∃ strm, s'.streams[p.descriptor.defaultStreamId]? = some strm ∧
      strm.kind = .canonical ∧ Holds (log.append rows) strm := by
  obtain ⟨strm, hs, hkind, hlog⟩ := h.stream
  obtain ⟨strm', hs', hlog'⟩ := hemits.log strm log hs hlog
  have hk := hemits.kind p.descriptor.defaultStreamId
  rw [hs, hs', map_some, map_some, some.injEq] at hk; exact ⟨strm', hs', hk.trans hkind, hlog'⟩

theorem Mirrors.not_backfill (h : Mirrors p log s) :
    s.isBackfill p.descriptor.defaultStreamId = false := by
  obtain ⟨strm, hs, hkind, -⟩ := h.stream; rw [isBackfill, hs, any_some, hkind]; rfl

theorem Mirrors.parked (h : Mirrors p log s) (q : Nat × Nat → DeferredRow → Bool) :
    rowsWhere s.deferred q = [] := by
  rw [h.deferred]
  exact rowsWhere_eq .nil fun _ _ => iff_of_false not_mem_nil fun hmem => not_mem_empty hmem.1

theorem Mirrors.delete_parked (h : Mirrors p log s) (q : Nat × Nat → DeferredRow → Bool) :
    deleteWhere s.deferred q = ∅ := by
  rw [deleteWhere_of_rowsWhere_nil (h.parked q), h.deferred]

theorem not_lt_unattested (level : Finality) : ¬ level < .unattested := by
  cases level <;> decide

theorem MirroringProcessor.firstLevel_eq (p : MirroringProcessor) :
    p.descriptor.publication.firstLevel = .unattested := by
  rw [p.unattested]; rfl

theorem MirroringProcessor.not_defers (p : MirroringProcessor) (cursor : ProcessorCursor)
    (publ : Bool) : ¬ Store.Defers p.descriptor cursor publ := by
  rintro ⟨hlt, -⟩; rw [p.firstLevel_eq] at hlt; exact not_lt_unattested _ hlt

theorem MirroringProcessor.not_releasesBelow (p : MirroringProcessor) (cursor : ProcessorCursor)
    (publ : Bool) : ¬ Store.ReleasesBelow p.descriptor cursor publ := by
  rintro ⟨hlt, -⟩; rw [p.firstLevel_eq] at hlt; exact not_lt_unattested _ hlt

theorem MirroringProcessor.retainsOutput (p : MirroringProcessor) :
    p.descriptor.retainsOutput = true := by
  rw [ProcessorDescriptor.retainsOutput, p.full]; rfl

theorem MirroringProcessor.prune_eq (p : MirroringProcessor) {o' : Output} {pruned : PrunedOutput}
    (h : pruneOutputWindow o p.descriptor.output block now = .ok (o', pruned)) :
    o' = o ∧ pruned = ⟨[], []⟩ := by
  rw [pruneOutputWindow, p.full, if_neg nofun, pure_eq_ok, Prod.mk.injEq] at h
  exact ⟨h.1.symm, h.2.symm⟩

theorem rested_new : ReducerOverlay.Rested .new where
  state _ _ h := (not_mem_empty h).elim
  entities _ _ h := (not_mem_empty h).elim
  indexes _ _ h := (not_mem_empty h).elim
  changes := rfl

variable {cursor : ProcessorCursor} {delta : EncodedDelta}

theorem MirroringProcessor.reduceBlock_describes (p : MirroringProcessor)
    (h : s.reduceBlock p.toProcessor cursor delta = .ok batch) :
    Describes p.mirror batch ∧ Single batch.mutations := by
  simp only [reduceBlock, eq_ok, Prod.exists] at h
  obtain ⟨_, overlay, hrun, -, -, rfl⟩ := h
  exact ⟨p.describes _ _ _ _ _ _ rested_new hrun, single_intoBatch overlay⟩

theorem Describes.values {mirror : String → Option String} {batch : MutationBatch}
    (h : Describes mirror batch) ⦃kind coll : String⦄ (hkind : mirror kind = some coll)
    (key : Bytes) (value : Option Bytes) : (key, value) ∈ mirrored mirror coll batch.changes ↔
    ((coll, key), value) ∈ entityValues false batch.mutations := by
  rw [h hkind, mem_entityValues]
  constructor
  · rintro ⟨bef, hm⟩; exact ⟨bef, value, hm, rfl⟩
  · rintro ⟨bef, _, hm, rfl⟩; exact ⟨bef, hm⟩

variable {env : Environment}

theorem Mirrors.applies (h : Mirrors p log s) {recov : Bool} {inv : List DomainChange}
    {pruned : PrunedOutput}
    (ha : Applies p.toProcessor env cursor delta true p.descriptor.defaultStreamId recov origin batch inv s s' o pruned) :
    MovesOn p log s s' := by
  obtain ⟨hdescr, hsingle⟩ := p.reduceBlock_describes ha.reduced
  obtain ⟨hout, hprun⟩ := p.prune_eq ha.output
  have hwr := ha.written
  rw [p.retainsOutput] at hwr
  obtain ⟨hents, hjoined⟩ := applyMutations_entities hwr
  have hemits := ha.emits p.descriptor.defaultStreamId
  rw [if_neg (p.not_releasesBelow cursor true), if_neg (p.not_defers cursor true),
    nil_append, ownRows, if_pos p.delivers, emitted_self, h.not_backfill, if_neg Bool.false_ne_true,
    append_nil, admittedChanges, p.delivers, Bool.and_self, if_pos rfl] at hemits
  refine ⟨_, _, rfl, ⟨h.emits hemits, ?_, ?_, ?_⟩, ?_⟩
  · rw [ha.deferred, if_neg (p.not_defers cursor true), if_neg (p.not_releasesBelow cursor true),
      h.deferred]
  · rw [hout]; exact hjoined h.joined
  · intro key _ hrow
    rw [ha.journal] at hrow
    split at hrow
    · exact h.journal hrow
    · rename_i hfin
      rcases insert_cases hrow with ⟨-, hrow⟩ | ⟨-, hrow⟩
      · have hinverse := ha.inverted
        rw [inverseChanges, if_pos ⟨hfin, p.delivers, rfl⟩] at hinverse
        rw [← hrow]
        refine ⟨?_, fun _ _ hkind key value => ?_⟩
        · change Single (batch.mutations ++ pruned.mutations); rw [hprun, append_nil]; exact hsingle
        · change _ ↔ ∃ after, _ ∈ batch.mutations ++ pruned.mutations
          rw [hprun, append_nil]; exact hdescr.inverse hinverse hkind key value
      · exact h.journal hrow
  · rw [← hout] at hents; exact .changes hsingle hents hdescr.values

theorem Mirrors.undoes (h : Mirrors p log s) {num : Nat} {hash : BlockHash} {row : JournalRow}
    (hu : Undoes p.descriptor env chainId num hash row s s' o) : MovesOn p log s s' := by
  have hreverses := h.journal hu.journaled
  have hwr := hu.written
  rw [p.retainsOutput] at hwr
  obtain ⟨hents, hjoined⟩ := applyMutations_entities hwr
  have hout := hu.output
  rw [if_pos p.retainsOutput] at hout
  have hrestored : s'.output.entities = o.entities ∧ (Joined o → Joined s'.output) := by
    rw [hout]; exact restoreEntityMetadata_entities row.images o
  have hemits := hu.emits p.descriptor.defaultStreamId
  rw [undoRows, if_pos ⟨p.delivers, h.parked _⟩, emitted_self] at hemits
  refine ⟨_, _, rfl, ⟨h.emits hemits, ?_, ?_, ?_⟩, ?_⟩
  · rw [hu.deferred, if_pos p.delivers, h.delete_parked]
  · exact hrestored.2 (hjoined h.joined)
  · intro key _ hrow; exact h.journal (hu.journal_iff.1 hrow).2
  · rw [← hrestored.1] at hents
    refine .changes hreverses.single hents fun _ _ hkind key value => ?_
    rw [hreverses.describes hkind, mem_entityValues]
    constructor
    · rintro ⟨after, hm⟩; exact ⟨value, after, hm, rfl⟩
    · rintro ⟨_, after, hm, rfl⟩; exact ⟨after, hm⟩

theorem Mirrors.unmirrored (h : Mirrors p log s) (hemits : Emits p.descriptor.defaultStreamId s s' rows)
    (hrows : ∀ r ∈ rows, p.mirror r.change.kind = none) (hdefer : s'.deferred = ∅)
    (hents : s'.output.entities = s.output.entities) (hjoined : Joined s'.output)
    (hjrnl : ∀ {key : Nat × BlockHash} {row : JournalRow}, s'.journal[key]? = some row →
      ∃ old, s.journal[key]? = some old ∧ old.undo = row.undo) : MovesOn p log s s' := by
  refine ⟨_, _, rfl, ⟨h.emits hemits, hdefer, hjoined, fun hrow => ?_⟩, .unmirrored hents hrows⟩
  obtain ⟨old, hold, hundo⟩ := hjrnl hrow; rw [← hundo]; exact h.journal hold

variable {d : ProcessorDescriptor}

theorem markerRows_kind {sid : String} {thru : Nat} {level : Finality} {marks : Bool}
    {cursor : Option ProcessorCursor} {ctx : Option UndoRecord} {r : ChangeRow}
    (h : r ∈ markerRows sid d now thru level marks cursor ctx) :
    r.change.kind = "system.finality" := by
  unfold markerRows at h
  split at h
  · split at h
    · unfold emitted at h
      split at h
      · obtain ⟨chg, hchg, rfl⟩ := mem_map.1 h; rw [mem_singleton.1 hchg]; rfl
      · cases h
    · cases h
  · cases h

section

variable (h : Mirrors p log s)

include h

theorem Mirrors.raises {now thru : Nat} {level : Finality} {holds marks : Bool}
    (hr : Raises p.descriptor now thru level holds marks s s') : MovesOn p log s s' := by
  refine h.unmirrored (hr.emits p.descriptor.defaultStreamId) ?_ ?_ ?_ ?_ hr.undo_eq
  · intro _ hmem
    rw [parkedThrough, h.parked, releasedRows, flatMap_nil, ite_self, nil_append] at hmem
    rw [markerRows_kind hmem]; exact p.reserved.1
  · rw [hr.deferred, h.delete_parked, h.deferred, ite_self]
  · rw [hr.output]; rfl
  · rw [hr.output]
    intro key
    refine Iff.trans ?_ (h.joined key)
    change key ∈ updateWhere s.output.entityMeta _ _ ↔ _
    rw [← ExtTreeMap.isSome_getElem?_iff_mem, get?_updateWhere, isSome_map,
      ExtTreeMap.isSome_getElem?_iff_mem]

theorem Mirrors.notices {env : Environment} {cid : Nat} {block : BlockRef} {skipped : BlockRange}
    {b : Bool} (hnotice : s.appendLiveGapNotice p.descriptor env cid block skipped =
    .ok (s', b)) : MovesOn p log s s' := by
  obtain ⟨⟨_, hs⟩, hemits⟩ := appendLiveGapNotice_spec p.descriptor.defaultStreamId hnotice
  subst hs
  refine h.unmirrored hemits (fun _ hmem => ?_) h.deferred rfl h.joined fun hrow => ⟨_, hrow, rfl⟩
  unfold noticeRows at hmem
  split at hmem
  · rw [emitted_self, map_singleton, mem_singleton] at hmem; rw [hmem]; exact p.reserved.2
  · cases hmem

theorem Mirrors.frame {streams : Table String Stream} {origins : Table String DeliveryOrigin}
    {log' : Log ChangeRow} {strm : Stream} (hs : streams[p.descriptor.defaultStreamId]? =
    some strm) (hkind : strm.kind = .canonical) (hlog : Holds log' strm) (hhist : log'.history =
    log.history) : MovesOn p log s { s with streams := streams, backfillOrigins := origins } :=
  ⟨[], log', by rw [hhist, append_nil],
    ⟨⟨strm, hs, hkind, hlog⟩, h.deferred, h.joined, h.journal⟩, fun _ _ _ _ hcopy => hcopy⟩

theorem Mirrors.republishes {env : Environment} {cursor : ProcessorCursor}
    {delta : EncodedDelta} {publ : Bool} {strmId : String}
    {bounds : Option Nat × Option Nat} (hne : strmId ≠ p.descriptor.defaultStreamId)
    (hreplay : s.republishBlockLocal p.toProcessor env cursor delta publ strmId =
      .ok (s', bounds)) : MovesOn p log s s' := by
  obtain ⟨⟨_, hs⟩, batch, origin, -, -, hemits⟩ :=
    republishBlockLocal_spec p.descriptor.defaultStreamId hreplay
  subst hs
  have hnil : replayRows p.descriptor.defaultStreamId s env.now strmId origin cursor delta.block
      (if publ then batch.changes else []) = [] := by
    rw [replayRows, emitted, emitted, if_neg hne, if_neg hne, ite_self, append_nil]
  rw [hnil] at hemits
  exact h.unmirrored hemits (fun _ hmem => absurd hmem not_mem_nil) h.deferred rfl h.joined
    fun hrow => ⟨_, hrow, rfl⟩

theorem Mirrors.observes {strmId : String} {event : Event}
    (hquiet : event.Quiet) : MovesOn p log s (s.onStream strmId event) := by
  unfold onStream
  cases hs : s.streams[strmId]? with
  | none => exact h.refl
  | some observed =>
    obtain ⟨strm, hstrm, hkind, hlog⟩ := h.stream
    by_cases hid : p.descriptor.defaultStreamId = strmId
    · subst hid
      rw [hstrm, some.injEq] at hs
      subst hs
      obtain ⟨_, hlog', hhist⟩ := step_holds hlog event
      rw [publishedBy_of_quiet hquiet, append_nil] at hhist
      exact h.frame (getElem?_insert_self ..) ((step_kind strm event).trans hkind) hlog' hhist
    · refine h.frame (Eq.trans ?_ hstrm) hkind hlog rfl
      exact getElem?_insert_of_ne _ _ fun heq => hid heq.symm

theorem Mirrors.subscribes (digest : String) (origin : DeliveryOrigin) :
    MovesOn p log s (s.subscribe p.descriptor digest origin) := by
  obtain ⟨strm, hstrm, hkind, hlog⟩ := h.stream
  unfold subscribe
  split
  · exact h.refl
  · refine h.frame (Eq.trans ?_ hstrm) hkind hlog rfl
    exact getElem?_insert_of_ne _ _ (backfillStreamId_ne p.descriptor digest)

end

/-! ## Historical commits -/

theorem rested_takeBatch (ovl : ReducerOverlay) : ovl.takeBatch.2.Rested := by
  have hsettle : ∀ {κ α : Type} [Ord κ] [TransOrd κ] [LawfulEqOrd κ]
      (t : Table κ (OverlayValue α)) (key : κ) (value : OverlayValue α),
      (Processor.settle t)[key]? = some value → value.before = value.after := by
    intro κ α _ _ _ t key value h
    rw [Processor.settle, ExtTreeMap.getElem?_map] at h
    obtain ⟨_, -, rfl⟩ := map_eq_some_iff.1 h; rfl
  exact ⟨hsettle _, hsettle _, hsettle _, rfl⟩

variable {items : List HistoricalBatchItem}

theorem MirroringProcessor.reduceMaterialized_describes (p : MirroringProcessor) :
    ∀ {ovl ovl' : ReducerOverlay} {seq : Nat} {batches : List MutationBatch}, ovl.Rested →
      s.reduceMaterialized p.toProcessor ovl seq items = .ok (ovl', batches) →
      ∀ batch ∈ batches, Describes p.mirror batch ∧ Single batch.mutations := by
  induction items with
  | nil =>
    intro ovl ovl' seq batches _ h
    rw [reduceMaterialized, ok.injEq, Prod.mk.injEq] at h
    rw [← h.2]; exact fun _ hmem => absurd hmem not_mem_nil
  | cons item items ih =>
    intro ovl ovl' seq batches hrested h
    simp only [reduceMaterialized, reduceItem, eq_ok, Prod.exists, Prod.mk.injEq] at h
    obtain ⟨_, _, ⟨_, _, hrun, -, -, rfl, rfl⟩, _, _, hrest, rfl,
      rfl⟩ := h
    rw [if_pos p.retainsOutput] at hrest
    intro batch hmem
    rcases mem_cons.1 hmem with rfl | hmem
    · exact ⟨p.describes _ _ _ _ _ _ hrested hrun, single_intoBatch _⟩
    · exact ih (rested_takeBatch _) hrest batch hmem

theorem Mirrors.commitMaterialized {st st' : Store.Publishing} (h : Mirrors p log st.store)
    {x : HistoricalBatchItem × MutationBatch} (hpub : x.1.publishChanges = true)
    (hdescr : Describes p.mirror x.2) (hsingle : Single x.2.mutations)
    (hc : commitMaterialized p.descriptor env st x = .ok st') : MovesOn p log st.store st'.store := by
  have hholds : holdsForFinality p.descriptor = false := by
    rw [holdsForFinality, p.firstLevel_eq, decide_eq_false (not_lt_unattested _), Bool.false_and]
  simp only [Store.commitMaterialized, Store.Publishing.append, eq_ok, Prod.exists, p.delivers,
    hholds, hpub, Bool.false_and, if_true, Bool.false_eq_true, if_false, Except.ok.injEq,
    Prod.mk.injEq] at hc
  obtain ⟨_, ho, _, _, hprune, t, hcover, _, _, ⟨rfl, -⟩, _, _, _, happend, rfl⟩ := hc
  obtain ⟨rfl, -⟩ := p.prune_eq hprune
  obtain ⟨-, -, rfl⟩ := coverFinalized_eq_ok hcover
  rw [p.retainsOutput] at ho
  obtain ⟨hents, hjoined⟩ := applyMutations_entities ho
  obtain ⟨⟨_, rfl⟩, hemits⟩ := appendTo_spec p.descriptor.defaultStreamId happend
  rw [emitted_self] at hemits
  have hemits := hemits.congr (t := st.store) rfl rfl
  exact ⟨_, _, rfl, ⟨h.emits hemits, h.deferred, hjoined h.joined, h.journal⟩,
    .changes hsingle hents hdescr.values⟩

theorem Mirrors.materializes (h : Mirrors p log s) {held : EncodedDelta → Bool}
    {limits : HistoricalCommitLimits} {outcome : HistoricalBatchOutcome}
    (hpub : ∀ item ∈ items, item.publishChanges = true)
    (hc : s.commitHistoricalMaterializationMicrobatch p.toProcessor env held items limits = .ok (s', outcome)) :
    MovesOn p log s s' := by
  simp only [commitHistoricalMaterializationMicrobatch, eq_ok, Prod.exists, Prod.mk.injEq] at hc
  obtain ⟨_, -, -, -, -, -, -, -, -, -, -, -, _, _, hreduce, -, -, -, -, -, -, st, hturns,
    -, -, rfl, -⟩ := hc
  have hbatches := p.reduceMaterialized_describes rested_new hreduce
  have hfold : ∀ (xs : List (HistoricalBatchItem × MutationBatch)),
      (∀ x ∈ xs, x.1.publishChanges = true ∧ Describes p.mirror x.2 ∧ Single x.2.mutations) →
      ∀ {log : Log ChangeRow} {st st' : Store.Publishing}, Mirrors p log st.store →
        foldExcept (Store.commitMaterialized p.descriptor env) st xs = .ok st' →
        MovesOn p log st.store st'.store := by
    intro xs
    induction xs with
    | nil =>
      intro _ log st st' hst hturns
      rw [foldExcept_nil, ok.injEq] at hturns; exact hturns ▸ hst.refl
    | cons x xs ih =>
      intro hxs log st st' hst hturns
      rw [foldExcept_cons, bind_eq_ok] at hturns
      obtain ⟨_, hx, hturns⟩ := hturns
      obtain ⟨hp, hd, hs⟩ := hxs x mem_cons_self
      exact (hst.commitMaterialized hp hd hs hx).trans fun hst₁ =>
        ih (forall_mem_cons.1 hxs).2 hst₁ hturns
  have hstart := h
  obtain ⟨rows, log', hhist, hmirrors, htracks⟩ :=
    hfold _ (fun x hx => ⟨hpub _ (of_mem_zip hx).1, hbatches _ (of_mem_zip hx).2⟩) hstart hturns
  exact ⟨rows, log', hhist,
    ⟨hmirrors.stream, hmirrors.deferred, hmirrors.joined, hmirrors.journal⟩, htracks⟩

/-! ## Every transaction -/

theorem Mirrors.applyToStream (h : Mirrors p log s) {recov : Bool} {outcome : Store.ApplyOutcome}
    (hc : s.applyToStream p.toProcessor env cursor delta true p.descriptor.defaultStreamId recov = .ok (s', outcome)) :
    MovesOn p log s s' := by
  rcases applyToStream_spec hc with ⟨-, rfl⟩ | ⟨-, _, _, _, _, _, ha⟩
  · exact h.refl
  · exact h.applies ha

theorem Mirrors.commit (h : Mirrors p log s) {α : Type} {r : Except StoreError (Store × α)}
    (hok : ∀ s' a, r = .ok (s', a) → MovesOn p log s s') : MovesOn p log s (Leani.commit s r) := by
  cases r with
  | error e => exact h.refl
  | ok out => exact hok out.1 out.2 rfl

theorem Mirrors.step (h : Mirrors p log s) (event : Publication p.descriptor) :
    MovesOn p log s (publicationStep p.toProcessor s event) := by
  cases event with
  | operate op published =>
    cases op with
    | apply env cursor delta publish streamId =>
      obtain ⟨rfl, rfl⟩ := published; exact h.commit fun _ _ hout => h.applyToStream hout
    | applyLiveRecovery env cursor delta =>
      refine h.commit fun _ _ hout => ?_
      simp only [applyLiveRecovery, bind_eq_ok] at hout
      obtain ⟨-, -, hout⟩ := hout; exact h.applyToStream hout
    | undo env chainId number hash =>
      refine h.commit fun _ _ hout => ?_
      obtain ⟨_, _, hu⟩ := undo_spec hout; exact h.undoes hu
    | markAttested env through hash =>
      exact h.commit fun _ _ hout => h.raises (markAttested_spec hout)
    | markFinalized env through hash =>
      exact h.commit fun _ _ hout => h.raises (markFinalized_spec hout)
    | appendLiveGapNotice env chainId block skipped =>
      exact h.commit fun _ _ hout => h.notices hout
    | republish env cursor delta publish streamId =>
      exact h.commit fun _ _ hout => h.republishes published hout
    | subscribe digest origin => exact h.subscribes digest origin
    | onStream streamId event quiet => exact h.observes quiet
  | materialize env held items limits published =>
    exact h.commit fun _ _ hout => h.materializes published hout

theorem Mirrors.run (evs : List (Publication p.descriptor)) : ∀ {log : Log ChangeRow}
    {s : Store}, Mirrors p log s → MovesOn p log s (publicationRun p.toProcessor s evs) := by
  induction evs with
  | nil => exact fun h => h.refl
  | cons event evs ih => exact fun h => (h.step event).trans ih

theorem mirrors_registered (p : MirroringProcessor) : Mirrors p .empty (.registered p.descriptor) where
  stream := by
    refine ⟨.new p.descriptor.defaultStreamKind, ?_, ?_, holds_new _⟩
    · change (if p.descriptor.deliveryEnabled = true then _ else _ : Table String Stream)[
        p.descriptor.defaultStreamId]? = _
      rw [if_pos p.delivers, getElem?_insert_self]
    · rw [Stream.new, ProcessorDescriptor.defaultStreamKind, p.canonical]
  deferred := rfl
  joined _ := iff_of_false ExtTreeMap.not_mem_empty ExtTreeMap.not_mem_empty
  journal h := (not_mem_empty h).elim

/-! ## Starting from a snapshot -/

theorem Mirrors.boundary (h : Mirrors p log s) : s.snapshotBoundary p.descriptor = log.head := by
  obtain ⟨strm, hs, -, hlog⟩ := h.stream
  rw [snapshotBoundary, hs, elim_some, hlog.latestSequence, hlog.pruned]
  have := log.pruned_le
  unfold Log.head
  split
  · rw [getD_none]; omega
  · rfl

theorem Mirrors.head_eq (h : Mirrors p log s) : s.head p.descriptor = log.head := by
  obtain ⟨strm, hs, -, hlog⟩ := h.stream
  rw [Store.head, hs, elim_some, hlog.next, Nat.add_sub_cancel]

theorem mem_outputRows (h : Joined o) {coll : String} {key value : Bytes} :
    (∃ ent ∈ outputRows o coll, ent.key = key ∧ ent.value = value) ↔
      o.entities[(coll, key)]? = some value := by
  constructor
  · rintro ⟨ent, hmem, rfl, rfl⟩
    obtain ⟨⟨⟨_, key⟩, value⟩, hrow, hent⟩ := mem_filterMap.1 hmem
    obtain ⟨hrow, hcoll⟩ := mem_rowsWhere.1 hrow
    obtain ⟨entry, -, rfl⟩ := map_eq_some_iff.1 hent; rw [← of_decide_eq_true hcoll]; exact hrow
  · intro hrow
    have hmeta := (h (coll, key)).2 (mem_of_getElem? hrow)
    rw [← ExtTreeMap.isSome_getElem?_iff_mem] at hmeta
    obtain ⟨entry, hentry⟩ := isSome_iff_exists.1 hmeta
    refine ⟨⟨key, value, entry.blockNumber, entry.blockTimestamp, entry.finality⟩, ?_, rfl, rfl⟩
    refine mem_filterMap.2 ⟨((coll, key), value), ?_, ?_⟩
    · exact mem_rowsWhere.2 ⟨hrow, decide_eq_true rfl⟩
    · rw [hentry, map_some]

variable {limits : QuerySnapshotLimits}

theorem createQuerySnapshot_eq_ok {coll : String} {usage : SnapshotUsage} {snap : QuerySnapshot}
    (h : s.createQuerySnapshot d coll limits usage = .ok snap) :
    snap.boundarySequence = s.snapshotBoundary d ∧ snap.entities = outputRows s.output coll := by
  simp only [createQuerySnapshot, eq_ok, u64I64_eq_ok] at h
  obtain ⟨_, -, _, -, _, ⟨-, rfl⟩, _, ⟨hrows, -⟩, _, -, rfl⟩ := h
  refine ⟨rfl, take_of_length_le ?_⟩
  rw [length_take] at hrows; omega

theorem Mirrors.start (h : Mirrors p log s) {coll : String} {usage : SnapshotUsage}
    {snap : QuerySnapshot} (hsnap : s.createQuerySnapshot p.descriptor coll limits usage = .ok snap) :
    (Follower.start snap).after =
    log.head ∧ Copies coll (Follower.start snap).contents s.output.entities := by
  obtain ⟨hboundary, hents⟩ := createQuerySnapshot_eq_ok hsnap
  refine ⟨hboundary.trans h.boundary, fun key => ?_⟩
  have hcontents : (Follower.start snap).contents = writeRows ∅
      (snap.entities.map fun ent => (ent.key, some ent.value)) := by
    rw [Follower.start, insertRows, writeRows, foldl_map, foldl_map]; rfl
  have hmem : ∀ value, (key, value) ∈ snap.entities.map (fun ent =>
      (ent.key, some ent.value)) ↔
        ∃ v, value = some v ∧ s.output.entities[(coll, key)]? = some v := by
    intro value
    rw [List.mem_map, hents]
    constructor
    · rintro ⟨ent, hent, heq⟩
      rw [Prod.mk.injEq] at heq
      exact ⟨ent.value, heq.2.symm, (mem_outputRows h.joined).1 ⟨ent, hent, heq.1, rfl⟩⟩
    · rintro ⟨v, rfl, hrow⟩
      obtain ⟨ent, hent, rfl, rfl⟩ := (mem_outputRows h.joined).2 hrow; exact ⟨ent, hent, rfl⟩
  rw [hcontents]
  cases hrow : s.output.entities[(coll, key)]? with
  | some v =>
    refine get?_writeRows_of_mem ((hmem _).2 ⟨v, rfl, hrow⟩) fun _ hv' => ?_
    obtain ⟨w, rfl, hw⟩ := (hmem _).1 hv'; rw [← hw, hrow]
  | none =>
    rw [get?_writeRows_of_not fun v hv => ?_]
    · rfl
    · obtain ⟨w, -, hw⟩ := (hmem v).1 hv; rw [hrow] at hw; cases hw

/-! ## Following -/

section Reads

variable {stream : Stream} {chainId after limit : Nat}

theorem readChanges_eq_ok (h : Holds log stream) {rows : List (Nat × ChangeRow)}
    (hread : readChanges stream chainId (some after) limit true = .ok rows) :
    rows = numbered (after + 1) ((log.history.drop after).take limit) := by
  simp only [readChanges, eq_ok, u64I64_eq_ok] at hread
  obtain ⟨_, hprun, _, ⟨-, hn⟩, hread⟩ := hread
  have hle := h.pruned ▸ hprun trivial after rfl
  rw [decodeChangeRows_eq_ok hread, hn, getD_some, h.rows_after hle, numbered_take]

theorem readChanges_expired (h : after < stream.prunedThroughSequence) :
    ∃ earliest latest, readChanges stream chainId (some after) limit true =
      .error (.changeCursorExpired earliest latest) := by
  refine ⟨_, _, bind_eq_error.2 (.inl (ensure_eq_error.2 ⟨fun hret => ?_, rfl⟩))⟩
  exact absurd (hret rfl after rfl) (Nat.not_le.2 h)

theorem exists_readChanges (h : stream.prunedThroughSequence ≤ after) (hafter : after ≤ i64Max)
    (hchain : ∀ (seq : Nat) (r : ChangeRow), stream.changeLog[seq]? = some r → r.chainId = chainId) :
    ∃ rows, readChanges stream chainId (some after) limit true = .ok rows := by
  have hfind : ((rowsWhere stream.changeLog fun seq _ => after < seq).take limit).find?
      (fun row => row.2.chainId ≠ chainId) = none := by
    rw [find?_eq_none]
    rintro ⟨seq, r⟩ hmem
    have hrow := (mem_rowsWhere.1 (mem_of_mem_take hmem)).1
    rw [decide_eq_true_eq, not_not]; exact hchain seq r hrow
  refine ⟨(rowsWhere stream.changeLog fun seq _ => after < seq).take limit, ?_⟩
  simp only [readChanges, eq_ok, u64I64_eq_ok]
  refine ⟨(), ?_, after, ⟨hafter, rfl⟩, ?_⟩
  · rintro - _ hseq; rw [← some.inj hseq]; exact h
  · rw [decodeChangeRows, hfind]

end Reads

/-- A consumer that started at `boundary` with `copy`, and the store it follows. -/
structure Follows (p : MirroringProcessor) (collection : String) (boundary : Nat)
    (copy : Table Bytes Bytes) (log : Log ChangeRow) (f : Following) : Prop where
  mirrors : Mirrors p log f.store
  position : boundary ≤ f.follower.after ∧ f.follower.after ≤ log.head
  contents : f.follower.contents =
    ((log.history.drop boundary).take (f.follower.after - boundary)).foldl
      (follow p.mirror collection) copy
  copies : Copies collection ((log.history.drop boundary).foldl (follow p.mirror collection) copy)
    f.store.output.entities

variable {collection : String} {boundary : Nat} {copy : Table Bytes Bytes} {f : Following}

theorem Follows.publishes (h : Follows p collection boundary copy log f)
    (hkind : p.mirror kind = some collection) {s' : Store} (hmoves : MovesOn p log f.store s') :
    ∃ log', log.history <+: log'.history ∧
      Follows p collection boundary copy log' { f with store := s' } := by
  obtain ⟨rows, log', hhist, hmirrors, htracks⟩ := hmoves
  obtain ⟨hboundary, hafter⟩ := h.position
  have hdrop : log'.history.drop boundary = log.history.drop boundary ++ rows := by
    rw [hhist, drop_append_of_le_length (Nat.le_trans hboundary hafter)]
  refine ⟨log', ⟨rows, hhist.symm⟩, hmirrors, ⟨hboundary, ?_⟩, ?_, ?_⟩
  · unfold Log.head; rw [hhist, length_append]; exact Nat.le_add_right_of_le hafter
  · rw [h.contents, hdrop, take_append_of_le_length]
    rw [length_drop]; exact Nat.sub_le_sub_right hafter boundary
  · rw [hdrop, foldl_append]; exact htracks hkind h.copies

theorem foldl_numbered {α : Type} (step : α → ChangeRow → α) (rows : List ChangeRow) (n : Nat)
    (init : α) : (numbered n rows).foldl (fun a row => step a row.2) init = rows.foldl step init := by
  rw [← foldl_map, map_snd_numbered]

theorem Follows.reads (h : Follows p collection boundary copy log f) {limit n : Nat}
    {follower : Follower}
    (hread : f.follower.read p.mirror collection p.descriptor f.store chainId limit = .ok (follower, n)) :
    Follows p collection boundary copy log { f with follower := follower } := by
  simp only [Follower.read, resumableChanges, readChangesInStream, eq_ok, Prod.mk.injEq] at hread
  obtain ⟨rows, ⟨_, -, stream, hs, hrows⟩, rfl, -⟩ := hread
  obtain ⟨_, hs', -, hlog⟩ := h.mirrors.stream
  rw [hs', some.injEq] at hs
  subst hs
  obtain ⟨hboundary, hafter⟩ := h.position
  unfold Log.head at hafter
  have hpage := readChanges_eq_ok hlog hrows
  have hlen : rows.length = min limit (log.history.length - f.follower.after) := by
    rw [hpage, length_numbered, length_take, length_drop]
  -- The position after the page is as many records further.
  have hpos : ((rows.getLast?).map (·.1)).getD f.follower.after = f.follower.after + rows.length := by
    cases hlast : rows.getLast? with
    | none =>
      rw [getLast?_eq_none_iff.1 hlast]; rfl
    | some last =>
      rw [hpage] at hlast
      have hnum := getLast?_numbered hlast
      rw [← length_numbered _ (f.follower.after + 1), ← hpage] at hnum
      rw [map_some, getD_some]; omega
  refine ⟨h.mirrors, ⟨?_, ?_⟩, ?_, h.copies⟩
  · dsimp only; rw [hpos]; omega
  · dsimp only
    unfold Log.head; rw [hpos]; omega
  · have htake : (log.history.drop boundary).take (f.follower.after + rows.length - boundary) =
        (log.history.drop boundary).take (f.follower.after - boundary) ++
          (log.history.drop f.follower.after).take rows.length := by
      have hsum : f.follower.after + rows.length - boundary =
          f.follower.after - boundary + rows.length := by omega
      have hdrop : (log.history.drop boundary).drop (f.follower.after - boundary) =
          log.history.drop f.follower.after := by
        rw [drop_drop, Nat.add_sub_cancel' hboundary]
      rw [hsum, take_add, hdrop]
    have hsame : (log.history.drop f.follower.after).take rows.length =
        (log.history.drop f.follower.after).take limit := by
      rw [hlen, take_eq_take_iff, length_drop]; omega
    rw [hpos, htake, foldl_append, ← h.contents, hsame, hpage]
    exact foldl_numbered (follow p.mirror collection) _ _ _

theorem Follows.step (h : Follows p collection boundary copy log f) {kind : String}
    (hkind : p.mirror kind = some collection) (event : FollowEvent p.descriptor) :
    ∃ log', log.history <+: log'.history ∧ Follows p collection boundary copy log'
      (followStep p.toProcessor p.mirror collection f event) := by
  cases event with
  | publish event => exact h.publishes hkind (h.mirrors.step event)
  | read chainId limit =>
    refine ⟨log, prefix_refl _, ?_⟩
    unfold followStep
    dsimp only
    cases hread : f.follower.read p.mirror collection p.descriptor f.store chainId limit with
    | error e => exact h
    | ok out => exact h.reads hread

theorem Follows.run (hkind : p.mirror kind = some collection)
    (evs : List (FollowEvent p.descriptor)) :
    ∀ {log : Log ChangeRow} {f : Following}, Follows p collection boundary copy log f →
      ∃ log', log.history <+: log'.history ∧ Follows p collection boundary copy log'
        (followRun p.toProcessor p.mirror collection f evs) := by
  induction evs with
  | nil => exact fun h => ⟨_, prefix_refl _, h⟩
  | cons event evs ih =>
    intro log f h
    obtain ⟨_, hpre₁, h₁⟩ := h.step hkind event
    obtain ⟨log₂, hpre₂, h₂⟩ := ih h₁; exact ⟨log₂, hpre₁.trans hpre₂, h₂⟩

/-- What a consumer in the state `u` of a run may rely on, `t` being a state before it. -/
structure FollowsStore (p : MirroringProcessor) (collection : String) (t u : Following) : Prop where
  agrees : u.follower.after = t.store.head p.descriptor →
    ∀ key : Bytes, u.follower.contents[key]? = t.store.output.entities[(collection, key)]?
  position : u.follower.after ≤ u.store.head p.descriptor
  next : ∀ chainId limit rows, u.store.resumableChanges p.descriptor chainId (some u.follower.after)
    limit = .ok rows → rows.map Prod.fst =
    List.range' (u.follower.after + 1) (min limit (u.store.head p.descriptor - u.follower.after))
  expired : ∀ sequence, u.follower.after < sequence → u.store.Pruned p.descriptor sequence →
    ∀ chainId limit, 0 < limit → limit ≤ 10000 → ∃ earliest latest,
      u.store.resumableChanges p.descriptor chainId (some u.follower.after) limit =
        .error (.changeCursorExpired earliest latest)
  served : (∀ sequence, u.follower.after < sequence → ¬ u.store.Pruned p.descriptor sequence) →
    u.follower.after ≤ i64Max → ∀ chainId, (∀ (stream : Stream) (seq : Nat) (r : ChangeRow),
    u.store.streams[p.descriptor.defaultStreamId]? = some stream →
    stream.changeLog[seq]? = some r → r.chainId = chainId) → ∀ limit, 0 < limit → limit ≤ 10000 →
    ∃ rows, u.store.resumableChanges p.descriptor chainId (some u.follower.after) limit = .ok rows

theorem Mirrors.pruned_iff (h : Mirrors p log s) {seq : Nat} :
    s.Pruned p.descriptor seq ↔ 0 < seq ∧ seq ≤ log.pruned := by
  obtain ⟨strm, hs, -, hlog⟩ := h.stream
  have hle := log.pruned_le
  rw [Store.Pruned, h.head_eq]
  refine and_congr_right fun _ => ?_
  constructor
  · rintro ⟨hhead, hnone⟩
    by_contra hkept
    obtain ⟨_, hr⟩ := hlog.exists_row (Nat.lt_of_not_le hkept) hhead
    rw [hnone strm hs] at hr; cases hr
  · intro hprun
    refine ⟨Nat.le_trans hprun hle, fun _ hs' => ?_⟩
    rw [hs, some.injEq] at hs'; rw [← hs', hlog.entries, Log.row?_of_le hprun]

theorem resumableChanges_eq {strm : Stream} {after limit : Nat}
    (hs : s.streams[d.defaultStreamId]? = some strm) (hpos : 0 < limit) (hle : limit ≤ 10000) :
    s.resumableChanges d chainId (some after) limit =
      readChanges strm chainId (some after) limit true := by
  rw [resumableChanges, readChangesInStream, ensure_of _ ⟨hpos, hle⟩, hs]; rfl

theorem Follows.followsStore {t u : Following} {logt logu : Log ChangeRow}
    (ht : Follows p collection boundary copy logt t) (hu : Follows p collection boundary copy logu u)
    (hpre : logt.history <+: logu.history) : FollowsStore p collection t u := by
  obtain ⟨strm, hs, -, hlog⟩ := hu.mirrors.stream
  have hhead := hu.mirrors.head_eq
  refine ⟨fun hafter => ?_, ?_, fun cid limit _ hread => ?_, ?_, ?_⟩
  · obtain ⟨_, hrest⟩ := hpre
    rw [ht.mirrors.head_eq, Log.head] at hafter
    have hboundary := hu.position.1
    have htake : (logu.history.drop boundary).take (u.follower.after - boundary) =
        logt.history.drop boundary := by
      rw [← hrest, drop_append_of_le_length (by omega), take_append_of_le_length, take_of_length_le]
      · rw [length_drop, hafter]
      · rw [length_drop, hafter]
    rw [hu.contents, htake]; exact ht.copies
  · rw [hhead]; exact hu.position.2
  · have hread' := hread
    simp only [resumableChanges, readChangesInStream, eq_ok] at hread'
    obtain ⟨_, -, _, hs', hrows⟩ := hread'
    rw [hs, some.injEq] at hs'
    subst hs'
    rw [readChanges_eq_ok hlog hrows, map_fst_numbered, length_take, length_drop, hhead, Log.head]
  · intro _ hlt hprun cid limit hpos hle
    rw [resumableChanges_eq hs hpos hle]
    apply readChanges_expired
    rw [hlog.pruned]; exact Nat.lt_of_lt_of_le hlt (hu.mirrors.pruned_iff.1 hprun).2
  · intro hkept hmax cid hchain limit hpos hle
    rw [resumableChanges_eq hs hpos hle]
    refine exists_readChanges ?_ hmax fun seq r hr => hchain strm seq r hs hr
    rw [hlog.pruned]
    by_contra hprun
    exact hkept (u.follower.after + 1) (Nat.lt_succ_self _)
      (hu.mirrors.pruned_iff.2 ⟨Nat.succ_pos _, Nat.lt_of_not_le hprun⟩)

/-- Query and follow: whenever a snapshot of a mirrored collection is created, a consumer that starts
from it agrees with the store, however its reads fall between the transactions that follow. -/
def QueryAndFollow (p : MirroringProcessor) : Prop :=
  ∀ ⦃kind collection⦄, p.mirror kind = some collection → ∀ history limits usage snapshot,
    (publicationRun p.toProcessor (.registered p.descriptor) history).createQuerySnapshot
      p.descriptor collection limits usage = .ok snapshot →
    ∀ earlier later,
      let t := followRun p.toProcessor p.mirror collection
        ⟨publicationRun p.toProcessor (.registered p.descriptor) history, .start snapshot⟩ earlier
      FollowsStore p collection t (followRun p.toProcessor p.mirror collection t later)

def echoing (changes : List DomainChange) : List (String × EntityKey × Bytes) → ReducerProgram
  | [] => .done changes
  | (kind, key, value) :: writes =>
    let change : DomainChange := ⟨kind, key.2, .upsert, value⟩
    .put key value (.emit change (echoing (changes ++ [change]) writes))

def ledgerMirror (kind : String) : Option String :=
  if kind = "balance" then some "balances" else if kind = "owner" then some "owners" else none

/-- A processor of balances and owners. Every block writes the balance 1 of account 7; the first
block writes owner 0, every later one owner 1. -/
def ledger : Processor where
  descriptor := {
    id := "ledger"
    inst := "ledger"
    version := "1"
    configHash := 0
    deltaVersion := 1
    mode := .orderedState
    deliveryOrdering := .canonical
    publication := .unattested
    delivery := .untilAcknowledged
    output := ⟨.full, none⟩
    undoMode := .unfinalized
    safetyBlocks := 0 }
  calculateChecksum _ := 0
  reduce _ delta := echoing [] [("balance", ("balances", [7]), [1]),
    ("owner", ("owners", [7]), [if delta.block.number = 1 then 0 else 1])]

def ledgerBlock (number : Nat) : Publication ledger.descriptor :=
  .operate (.apply ⟨0, fun _ => 0, none⟩ ⟨"ledger", "1", 1, number, number, .unattested, number⟩
    ⟨"ledger", "1", 0, 1, 1, ⟨number, number, number - 1, 0⟩, [], 0⟩ true "ledger:canonical")
    ⟨rfl, by decide⟩

def ledgerLimits : QuerySnapshotLimits := ⟨1, 100, 100000, 10, 100000, by decide⟩

/-- Block 2 is applied to the ledger and undone again. -/
theorem restores_ledger : ∃ s, Rewound ledger 1
      (publicationRun ledger (.registered ledger.descriptor) [ledgerBlock 1]) s ∧
    s.applied = (publicationRun ledger (.registered ledger.descriptor) [ledgerBlock 1]).applied := by
  have hburst : Rewound ledger 1
      (publicationRun ledger (.registered ledger.descriptor) [ledgerBlock 1]) _ :=
    .around (by decide) (rfl : Store.applyToStream _ ledger ⟨0, fun _ => 0, none⟩
        ⟨"ledger", "1", 1, 2, 2, .unattested, 2⟩
        ⟨"ledger", "1", 0, 1, 1, ⟨2, 2, 1, 0⟩, [], 0⟩ true "ledger:canonical" false =
      .ok (_, .applied _ _ _)) (.refl _)
      (rfl : Store.undo _ ledger.descriptor ⟨0, fun _ => 0, none⟩ 1 2 2 = .ok (_, _))
  exact ⟨_, hburst, hburst.unchanged.2.1⟩

end Leani.Processor
