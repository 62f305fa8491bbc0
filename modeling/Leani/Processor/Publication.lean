import Leani.Processor.Effects

/-!
# Publication under held-back finality

A processor with canonical ordering whose consumers start above `unattested` parks the changes of
blocks below that level. Three operations publish parked changes: a later block at the level, and
the two that raise finality. Over every run of applies, undos and raised levels, a block's changes
are either still parked or have been published once, at a level consumers accept, and its undo
knows which.
-/

namespace Leani.Processor

open Library Std Delivery List Option Table Store

/-- A processor that publishes in block order and from a level above `unattested` on. -/
structure HoldingProcessor extends Processor where
  canonical : descriptor.deliveryOrdering = .canonical
  holds : .unattested < descriptor.publication.firstLevel

inductive Lifecycle where
  | apply (env : Environment) (cursor : ProcessorCursor) (delta : EncodedDelta)
  | undo (env : Environment) (chainId number : Nat) (hash : BlockHash)
  | markAttested (env : Environment) (through : Nat) (hash : BlockHash)
  | markFinalized (env : Environment) (through : Nat) (hash : BlockHash)

def OfBlock (number : Nat) (hash : BlockHash) (r : ChangeRow) : Prop :=
  r.block.number = number ∧ r.block.hash = hash

instance (number : Nat) (hash : BlockHash) (r : ChangeRow) : Decidable (OfBlock number hash r) := by
  unfold OfBlock
  infer_instance

def appliedRows (d : ProcessorDescriptor) (now chainId : Nat) (block : BlockRef) (level : Finality)
    (changes : List DomainChange) : List ChangeRow :=
  changes.map (changeRow now chainId (.live d.inst) block level .apply)

def undoneRows (d : ProcessorDescriptor) (now chainId : Nat) (block : BlockRef) (level : Finality)
    (inverse : List DomainChange) : List ChangeRow :=
  inverse.map (changeRow now chainId (.live d.inst) block level .undo)

namespace HoldingProcessor

variable (p : HoldingProcessor)

def step (s : Store) : Lifecycle → Store
  | .apply env cursor delta => commit s (s.apply p.toProcessor env cursor delta)
  | .undo env chainId number hash => commit s (s.undo p.descriptor env chainId number hash)
  | .markAttested env through hash => commit s (s.markAttested p.descriptor env through hash)
  | .markFinalized env through hash => commit s (s.markFinalized p.descriptor env through hash)

def run (s : Store) (es : List Lifecycle) : Store := es.foldl p.step s

def records (s : Store) : List ChangeRow :=
  (s.streams[p.descriptor.defaultStreamId]?).elim [] fun stream =>
    stream.changeLog.toList.map Prod.snd

def StaysApplied (s : Store) (number : Nat) (hash : BlockHash) (es : List Lifecycle) : Prop :=
  ∀ n, (number, hash) ∈ (p.run s (es.take n)).applied

/-- What has become of the changes of a block that was applied when the stream held `before`, and
what its undo does about it. -/
structure Accounts (before : List ChangeRow) (chainId : Nat) (block : BlockRef)
    (changes inverse : List DomainChange) (s : Store) : Prop where
  /-- The changes are parked and there is no record of the block, or they are not parked and were
  published, all of them, once, at one level that consumers see. -/
  once : ∃ since, p.records s = before ++ since ∧
    ((∃ key row, s.parkedOf block.number block.hash = [(key, row)] ∧ row.changes = changes ∧
        ∀ r ∈ since, ¬ OfBlock block.number block.hash r) ∨
      s.parkedOf block.number block.hash = [] ∧ ∃ now level,
        p.descriptor.publication.firstLevel ≤ level ∧
        since.filter (fun r => OfBlock block.number block.hash r ∧ r.direction = .apply) =
          appliedRows p.descriptor now chainId block level changes)
  undo : ∀ env chainId s' bounds, s.undo p.descriptor env chainId block.number block.hash =
    .ok (s', bounds) → ∃ now level, p.records s' = p.records s ++
      if s.parkedOf block.number block.hash = [] then
        undoneRows p.descriptor now chainId block level inverse else []

structure PublishesHeld (s : Store) : Prop where
  level : ∀ r ∈ p.records s, r.direction = .apply → p.descriptor.publication.firstLevel ≤ r.finality
  order : ∀ e, ∃ new, p.records (p.step s e) = p.records s ++
    new ∧ ∀ i r, new[i]? = some r → r.direction = .apply → ∀ (key : Nat × Nat) (row : DeferredRow),
    s.deferred[key]? = some row → row.block.number < r.block.number → ∃ now level,
    (appliedRows p.descriptor now row.chainId row.block level row.changes).Sublist (new.take i)
  accounts : ∀ env cursor delta s₁ committed first last,
    s.apply p.toProcessor env cursor delta = .ok (s₁, .applied committed first last) →
    ∃ batch inverse, s.reduceBlock p.toProcessor cursor delta = .ok batch ∧
      Store.inverseChanges p.descriptor cursor true batch = .ok inverse ∧
      ∀ es, p.StaysApplied s₁ cursor.blockNumber cursor.blockHash es →
        p.Accounts (p.records s) cursor.chainId delta.block
          (Store.admittedChanges p.descriptor true batch) inverse (p.run s₁ es)

/-! ## The stream -/

variable {p} {s s' : Store}

def Delivers (p : HoldingProcessor) (s : Store) : Prop :=
  ∀ stream, s.streams[p.descriptor.defaultStreamId]? = some stream →
    stream.kind = .canonical ∧ ∃ log, log.pruned = 0 ∧ Holds log stream

theorem records_of_holds {strm : Stream} {log : Log ChangeRow}
    (hs : s.streams[p.descriptor.defaultStreamId]? = some strm) (hprun : log.pruned = 0)
    (h : Holds log strm) : p.records s = log.history := by
  rw [records, hs, elim_some, h.toList, map_snd_numbered, Log.kept, hprun, drop_zero]

variable {rows : List ChangeRow}

theorem Delivers.emits (h : p.Delivers s) (hemits : Emits p.descriptor.defaultStreamId s s' rows) :
    p.Delivers s' ∧ p.records s' = p.records s ++ rows := by
  cases hs : s.streams[p.descriptor.defaultStreamId]? with
  | none =>
    obtain ⟨hs', rfl⟩ := hemits.absent hs
    refine ⟨fun strm h => ?_, ?_⟩
    · rw [hs'] at h; cases h
    · rw [records, records, hs, hs']; rfl
  | some strm =>
    obtain ⟨hkind, log, hprun, hholds⟩ := h strm hs
    obtain ⟨_, hs', hholds'⟩ := hemits.log strm log hs hholds
    have hk := hemits.kind p.descriptor.defaultStreamId
    rw [hs, hs', map_some, map_some, some.injEq] at hk
    refine ⟨fun _ ht => ?_, ?_⟩
    · rw [hs', some.injEq] at ht
      subst ht; exact ⟨hk.trans hkind, log.append rows, hprun, hholds'⟩
    · rw [@records_of_holds p _ _ (log.append rows) hs' hprun hholds',
        records_of_holds hs hprun hholds]
      rfl

theorem Delivers.not_backfill (h : p.Delivers s) :
    s.isBackfill p.descriptor.defaultStreamId = false := by
  rw [isBackfill]
  cases hs : s.streams[p.descriptor.defaultStreamId]? with
  | none => rfl
  | some stream =>
    rw [any_some, (h stream hs).1]; rfl

theorem delivers_registered : p.Delivers (.registered p.descriptor) := by
  intro _ hs
  rw [registered_stream hs]
  refine ⟨?_, .empty, rfl, holds_new _⟩
  rw [Stream.new, ProcessorDescriptor.defaultStreamKind, p.canonical]

theorem records_registered : p.records (.registered p.descriptor) = [] := by
  cases hs : (registered p.descriptor).streams[p.descriptor.defaultStreamId]? with
  | none => rw [records, hs]; rfl
  | some stream =>
    rw [records_of_holds hs rfl (registered_stream hs ▸ holds_new _)]; rfl

/-! ## What is parked -/

structure ParkedRow (p : HoldingProcessor) (s : Store) (key : Nat × Nat) (row : DeferredRow) :
    Prop where
  key : key.1 = row.block.number
  target : row.streamId = p.descriptor.defaultStreamId
  origin : row.origin = .live p.descriptor.inst
  enabled : p.descriptor.deliveryEnabled = true
  applied : (row.block.number, row.block.hash) ∈ s.applied

structure Held (p : HoldingProcessor) (s : Store) : Prop where
  delivers : p.Delivers s
  parked : ∀ {key : Nat × Nat} {row : DeferredRow}, s.deferred[key]? = some row →
    p.ParkedRow s key row
  once : ∀ {key key' : Nat × Nat} {row row' : DeferredRow}, s.deferred[key]? = some row →
    s.deferred[key']? = some row' → row.block.number = row'.block.number →
    row.block.hash = row'.block.hash → key = key'
  journal : ∀ {number : Nat} {hash : BlockHash} {row : JournalRow},
    s.journal[(number, hash)]? = some row →
    row.undo.block.number = number ∧ row.undo.block.hash = hash ∧ (number, hash) ∈ s.applied

theorem held_registered : p.Held (.registered p.descriptor) where
  delivers := delivers_registered
  parked h := (not_mem_empty h).elim
  once h := (not_mem_empty h).elim
  journal h := (not_mem_empty h).elim

theorem Held.shrink (h : p.Held s) (hemits : Emits p.descriptor.defaultStreamId s s' rows)
    (hdefer : ∀ {key : Nat × Nat} {row : DeferredRow}, s'.deferred[key]? = some row →
      s.deferred[key]? = some row ∧ (row.block.number, row.block.hash) ∈ s'.applied)
    (hjrnl : ∀ {num : Nat} {hash : BlockHash} {row : JournalRow},
      s'.journal[(num, hash)]? = some row →
      row.undo.block.number = num ∧ row.undo.block.hash = hash ∧
        (num, hash) ∈ s'.applied) : p.Held s' where
  delivers := (h.delivers.emits hemits).1
  parked hrow := { h.parked (hdefer hrow).1 with applied := (hdefer hrow).2 }
  once hrow hrow' := h.once (hdefer hrow).1 (hdefer hrow').1
  journal := hjrnl

variable {through : Nat} {key : Nat × Nat} {row : DeferredRow}

theorem Held.mem_parkedThrough (h : p.Held s) : (key, row) ∈ s.parkedThrough through ↔
      s.deferred[key]? = some row ∧ row.block.number ≤ through := by
  rw [parkedThrough, mem_rowsWhere, decide_eq_true_eq]
  exact and_congr_right fun hrow => by rw [(h.parked hrow).key]

variable {number : Nat} {hash : BlockHash}

theorem Held.parkedOf_eq_nil (h : p.Held s) :
    s.parkedOf number hash = [] ↔ ∀ (key : Nat × Nat) (row : DeferredRow),
      s.deferred[key]? = some row → ¬ (row.block.number = number ∧ row.block.hash = hash) := by
  rw [parkedOf, eq_nil_iff_forall_not_mem]
  constructor
  · rintro hnil key row hrow ⟨rfl, rfl⟩
    apply hnil (key, row)
    rw [mem_rowsWhere, (h.parked hrow).key]
    exact ⟨hrow, by rw [decide_eq_true rfl, decide_eq_true rfl]; rfl⟩
  · rintro hnone ⟨key, row⟩ hmem
    obtain ⟨hrow, hp⟩ := mem_rowsWhere.1 hmem
    rw [Bool.and_eq_true, decide_eq_true_eq, decide_eq_true_eq, (h.parked hrow).key] at hp
    exact hnone key row hrow hp

theorem Held.parkedOf_eq_singleton (h : p.Held s) (hrow : s.deferred[key]? = some row) :
    s.parkedOf row.block.number row.block.hash = [(key, row)] := by
  refine rowsWhere_eq (pairwise_singleton ..) fun _ _ => ?_
  rw [mem_singleton, Bool.and_eq_true, decide_eq_true_eq, decide_eq_true_eq]
  constructor
  · intro heq
    obtain ⟨rfl, rfl⟩ := Prod.mk.injEq .. ▸ heq; exact ⟨hrow, (h.parked hrow).key, rfl⟩
  · rintro ⟨hrow', hnum, hhash⟩
    have hkey := h.once hrow' hrow ((h.parked hrow').key.symm.trans hnum) hhash
    subst hkey; rw [hrow, some.injEq] at hrow'; rw [hrow']

/-! ## What one operation can do -/

/-- One operation publishes the parked rows `released`, then `tail`. -/
structure Transition (p : HoldingProcessor) (s s' : Store) (now : Nat) (level : Finality)
    (released : List ((Nat × Nat) × DeferredRow)) (tail : List ChangeRow) : Prop where
  held : p.Held s'
  records : p.records s' = p.records s ++
    (releasedRows p.descriptor.defaultStreamId now level released ++ tail)
  sorted : released.Pairwise fun a b => compare a.1 b.1 = .lt
  parked : ∀ {key : Nat × Nat} {row : DeferredRow}, (key, row) ∈ released →
    s.deferred[key]? = some row ∧ s'.deferred[key]? = none
  level : ∀ x ∈ released, p.descriptor.publication.firstLevel ≤ level
  lower : ∀ {key : Nat × Nat} {row : DeferredRow}, s.deferred[key]? = some row →
    ∀ x ∈ released, row.block.number < x.2.block.number → (key, row) ∈ released
  tailChanges : ∀ r ∈ tail, r.direction = .apply →
    p.descriptor.publication.firstLevel ≤ r.finality ∧ ∀ {key : Nat × Nat} {row : DeferredRow},
    s.deferred[key]? = some row → row.block.number < r.block.number → (key, row) ∈ released
  tailBlock : ∀ r ∈ tail, (r.block.number, r.block.hash) ∈ s.applied →
    (r.block.number, r.block.hash) ∈ s'.applied → r.direction ≠ .apply ∧ ∀ {key : Nat × Nat}
    {row : DeferredRow}, s'.deferred[key]? = some row → ¬ OfBlock row.block.number row.block.hash r
  kept : ∀ {key : Nat × Nat} {row : DeferredRow}, s.deferred[key]? = some row → (row.block.number,
    row.block.hash) ∈ s'.applied → (key, row) ∈ released ∨ s'.deferred[key]? = some row
  fresh : ∀ {key : Nat × Nat} {row : DeferredRow}, s'.deferred[key]? = some row →
    (row.block.number, row.block.hash) ∈ s.applied → s.deferred[key]? = some row
  journal : ∀ {key : Nat × BlockHash} {row : JournalRow}, s'.journal[key]? = some row →
    key ∈ s.applied → ∃ old, s.journal[key]? = some old ∧ old.undo = row.undo

theorem Held.refl (h : p.Held s) : p.Transition s s 0 .finalized [] [] where
  held := h
  records := (append_nil _).symm
  sorted := .nil
  parked hmem := nomatch hmem
  level _ hmem := nomatch hmem
  lower _ _ hmem := nomatch hmem
  tailChanges _ hmem := nomatch hmem
  tailBlock _ hmem := nomatch hmem
  kept hrow _ := .inr hrow
  fresh hrow _ := hrow
  journal hrow _ := ⟨_, hrow, rfl⟩

theorem Held.undoes (h : p.Held s) {env : Environment} {cid : Nat} {row : JournalRow} {o : Output}
    (hu : Undoes p.descriptor env cid number hash row s s' o) : p.Transition s s' 0 .finalized []
    (undoRows p.descriptor.defaultStreamId p.descriptor s env.now cid number hash row.undo) := by
  have hemits := hu.emits p.descriptor.defaultStreamId
  have hdefer : ∀ {key : Nat × Nat} {row : DeferredRow}, s'.deferred[key]? = some row ↔
      s.deferred[key]? = some row ∧ ¬ (row.block.number = number ∧ row.block.hash = hash) := by
    intro key row
    by_cases hrow : s.deferred[key]? = some row
    · have hp := h.parked hrow
      rw [hu.deferred, if_pos hp.enabled, get?_deleteWhere_eq_some, hp.key,
        Bool.and_eq_false_iff, decide_eq_false_iff_not, decide_eq_false_iff_not, not_and_or]
    · rw [hu.deferred]
      split
      · rw [get?_deleteWhere_eq_some]; exact iff_of_false (fun h => hrow h.1) fun h => hrow h.1
      · exact iff_of_false hrow fun h => hrow h.1
  have happlied : ∀ {key : Nat × BlockHash}, key ∈ s'.applied ↔
      key ≠ (number, hash) ∧ key ∈ s.applied := by
    intro key; rw [hu.applied, mem_erase_iff]
  have hjrnl : ∀ {key : Nat × BlockHash} {row : JournalRow}, s'.journal[key]? = some row →
      key ≠ (number, hash) ∧ s.journal[key]? = some row := by
    intro key row hrow
    rw [hu.journal, get?_erase_ite, ite_none_left_eq_some] at hrow; exact hrow
  have hblock := h.journal hu.journaled
  have hrows : ∀ r ∈ undoRows p.descriptor.defaultStreamId p.descriptor s env.now cid number hash
      row.undo, r.direction = .undo ∧ r.block = row.undo.block := by
    intro r hr
    rw [undoRows, emitted_self] at hr
    split at hr
    · obtain ⟨_, -, rfl⟩ := mem_map.1 hr; exact ⟨rfl, rfl⟩
    · cases hr
  exact {
    held := by
      refine h.shrink hemits (fun {key row} hrow => ?_) fun {_ _ _} hrow => ?_
      · obtain ⟨hrow, hne⟩ := hdefer.1 hrow
        refine ⟨hrow, happlied.2 ⟨fun heq => hne ?_, (h.parked hrow).applied⟩⟩
        rwa [Prod.mk.injEq] at heq
      · obtain ⟨hne, hrow⟩ := hjrnl hrow
        obtain ⟨h₁, h₂, h₃⟩ := h.journal hrow; exact ⟨h₁, h₂, happlied.2 ⟨hne, h₃⟩⟩
    records := (h.delivers.emits hemits).2
    sorted := .nil
    parked := nofun
    level := nofun
    lower := fun _ => nofun
    tailChanges := fun r hr hdir => by
      rw [(hrows r hr).1] at hdir; cases hdir
    tailBlock := fun r hr _ happ => by
      rw [(hrows r hr).2] at happ; exact absurd (Prod.ext hblock.1 hblock.2.1) (happlied.1 happ).1
    kept := fun hrow happ => .inr <| hdefer.2 ⟨hrow, fun heq => (happlied.1 happ).1 (by
      rw [heq.1, heq.2])⟩
    fresh := fun hrow _ => (hdefer.1 hrow).1
    journal := fun hrow _ => ⟨_, (hjrnl hrow).2, rfl⟩ }

theorem Held.lower (h : p.Held s) {thru : Nat} {key : Nat × Nat}
    {row : DeferredRow} (hrow : s.deferred[key]? = some row) : ∀ x ∈ s.parkedThrough thru,
    row.block.number < x.2.block.number → (key, row) ∈ s.parkedThrough thru := by
  rintro ⟨_, row'⟩ hmem hlt
  have hle := (h.mem_parkedThrough.1 hmem).2
  change row.block.number < row'.block.number at hlt; exact h.mem_parkedThrough.2 ⟨hrow, by omega⟩

variable {d : ProcessorDescriptor} {now : Nat} {level : Finality} {r : ChangeRow}

theorem markerRows_spec {sid : String} {marks : Bool} {cursor : Option ProcessorCursor}
    {ctx : Option UndoRecord} (hr : r ∈ markerRows sid d now through level marks cursor ctx) :
    marks = true ∧ d.deliveryEnabled =
    true ∧ r.direction = .finalized ∧ ∃ undo, ctx = some undo ∧ r.block = undo.block := by
  unfold markerRows at hr
  split at hr
  · rename_i cursor undo
    split at hr
    · rename_i hmarks
      rw [Bool.and_eq_true] at hmarks
      rw [emitted] at hr
      split at hr
      · rw [map_singleton, mem_singleton] at hr
        subst hr; exact ⟨hmarks.2, hmarks.1, rfl, undo, rfl, rfl⟩
      · cases hr
    · cases hr
  · cases hr

theorem unfinalizedContext_spec {undo : UndoRecord} (h : s.unfinalizedContext through = some undo) :
    ∃ (key : Nat × BlockHash) (row : JournalRow), s.journal[key]? = some row ∧ row.undo = undo ∧ row.finalized = false ∧
      key.1 ≤ through := by
  rw [unfinalizedContext, map_eq_some_iff] at h
  obtain ⟨⟨key, row⟩, hlast, rfl⟩ := h
  obtain ⟨hrow, hp, -⟩ := lastWhere_eq_some hlast
  rw [Bool.and_eq_true, decide_eq_true_eq, Bool.not_eq_true'] at hp
  exact ⟨key, row, hrow, rfl, hp.2, hp.1⟩

theorem Held.raises (h : p.Held s) {holds marks : Bool}
    (hr : Raises p.descriptor now through level holds marks s s')
    (hlevel : holds = true → p.descriptor.publication.firstLevel ≤ level)
    (hmarks : marks = true → holds = true) :
    ∃ released tail, p.Transition s s' now level released tail := by
  have hemits := hr.emits p.descriptor.defaultStreamId
  have hheld : (∀ {key : Nat × Nat} {row : DeferredRow}, s'.deferred[key]? = some row →
      s.deferred[key]? = some row) → p.Held s' := by
    intro hsub
    refine h.shrink hemits (fun {key row} hrow => ⟨hsub hrow, ?_⟩) fun {_ _ row'} hrow => ?_
    · rw [hr.applied]; exact (h.parked (hsub hrow)).applied
    · obtain ⟨_, hold, heq⟩ := hr.undo_eq hrow; rw [hr.applied, ← heq]; exact h.journal hold
  by_cases hrel : (holds && p.descriptor.deliveryEnabled) = true
  · have hdefer := hr.deferred
    rw [if_pos hrel] at hemits hdefer
    have hsub : ∀ {key : Nat × Nat} {row : DeferredRow}, s'.deferred[key]? = some row ↔
        s.deferred[key]? = some row ∧ through < row.block.number := by
      intro key row
      rw [hdefer, get?_deleteWhere_eq_some]
      refine and_congr_right fun hrow => ?_
      rw [decide_eq_false_iff_not, (h.parked hrow).key, Nat.not_le]
    refine ⟨s.parkedThrough through, markerRows p.descriptor.defaultStreamId p.descriptor now through
      level marks s.cursor (s.unfinalizedContext through), ?_⟩
    exact {
      held := hheld fun hrow => (hsub.1 hrow).1
      records := (h.delivers.emits hemits).2
      sorted := sorted_rowsWhere ..
      parked := fun {key row} hmem => by
        obtain ⟨hrow, hle⟩ := h.mem_parkedThrough.1 hmem
        refine ⟨hrow, eq_none_iff_forall_ne_some.2 fun row' hrow' => ?_⟩
        obtain ⟨hrow', hlt⟩ := hsub.1 hrow'
        rw [hrow, some.injEq] at hrow'; rw [← hrow'] at hlt; omega
      level := fun _ _ => hlevel (Bool.and_eq_true .. ▸ hrel).1
      lower := h.lower
      tailChanges := fun r hrow hdir => by
        obtain ⟨-, -, hfin, -⟩ := markerRows_spec hrow; rw [hfin] at hdir; cases hdir
      tailBlock := fun r hrow _ _ => by
        obtain ⟨-, -, hfin, _, hundo, hblock⟩ := markerRows_spec hrow
        obtain ⟨key, row, hkey, rfl, -, hle⟩ := unfinalizedContext_spec hundo
        refine ⟨by rw [hfin]; exact nofun, fun {_ row'} hrow' hof => ?_⟩
        have hlt := (hsub.1 hrow').2
        have hnum := (h.journal hkey).1; rw [OfBlock, hblock] at hof; omega
      kept := fun {key row} hrow _ => by
        rcases Nat.lt_or_ge through row.block.number with hlt | hle
        · exact .inr (hsub.2 ⟨hrow, hlt⟩)
        · exact .inl (h.mem_parkedThrough.2 ⟨hrow, hle⟩)
      fresh := fun hrow _ => (hsub.1 hrow).1
      journal := fun hrow _ => hr.undo_eq hrow }
  · have hdefer := hr.deferred
    rw [if_neg hrel] at hemits hdefer
    have hnone : ∀ r, r ∉ markerRows p.descriptor.defaultStreamId p.descriptor now through level
        marks s.cursor (s.unfinalizedContext through) := by
      intro r hrow
      obtain ⟨hm, hd, -⟩ := markerRows_spec hrow; exact hrel (by rw [hmarks hm, hd]; rfl)
    refine ⟨[], markerRows p.descriptor.defaultStreamId p.descriptor now through level marks s.cursor
      (s.unfinalizedContext through), ?_⟩
    exact {
      held := hheld fun hrow => hdefer ▸ hrow
      records := (h.delivers.emits hemits).2
      sorted := .nil
      parked := nofun
      level := nofun
      lower := fun _ => nofun
      tailChanges := fun r hrow => absurd hrow (hnone r)
      tailBlock := fun r hrow => absurd hrow (hnone r)
      kept := fun hrow _ => .inr (hdefer ▸ hrow)
      fresh := fun hrow _ => hdefer ▸ hrow
      journal := fun hrow _ => hr.undo_eq hrow }

/-! ## Applying a block -/

section Apply

variable {env : Environment} {cursor : ProcessorCursor} {delta : EncodedDelta}
  {origin : DeliveryOrigin} {batch : MutationBatch} {inverse : List DomainChange} {o : Output}
  {pruned : PrunedOutput}

def ownApplied (p : HoldingProcessor) (env : Environment) (cursor : ProcessorCursor)
    (delta : EncodedDelta) (batch : MutationBatch) : List ChangeRow :=
  if Store.Defers p.descriptor cursor true then []
  else appliedRows p.descriptor env.now cursor.chainId delta.block cursor.finality
    (Store.admittedChanges p.descriptor true batch)

def releasedBelow (p : HoldingProcessor) (s : Store) (cursor : ProcessorCursor) :
    List ((Nat × Nat) × DeferredRow) :=
  if Store.ReleasesBelow p.descriptor cursor true then s.parkedThrough (cursor.blockNumber - 1)
  else []

theorem Held.origin_eq (h : p.Held s)
    (horig : s.applyOrigin p.descriptor p.descriptor.defaultStreamId false = .ok origin) :
    origin = .live p.descriptor.inst := by
  rw [applyOrigin, h.delivers.not_backfill, Bool.and_false, if_neg Bool.false_ne_true,
    if_neg Bool.false_ne_true, Except.ok.injEq] at horig
  exact horig.symm

theorem Held.applyEmits (h : p.Held s)
    (ha : Applies p.toProcessor env cursor delta true p.descriptor.defaultStreamId false origin batch
      inverse s s' o pruned) : Emits p.descriptor.defaultStreamId s s'
      (releasedRows p.descriptor.defaultStreamId env.now cursor.finality (p.releasedBelow s cursor) ++
        p.ownApplied env cursor delta batch) := by
  have hemits := ha.emits p.descriptor.defaultStreamId
  have hown : ownRows p.descriptor.defaultStreamId p.descriptor s env.now
      p.descriptor.defaultStreamId origin cursor delta.block
      (if Store.Defers p.descriptor cursor true then []
        else admittedChanges p.descriptor true batch) =
      p.ownApplied env cursor delta batch := by
    rw [ownRows, h.delivers.not_backfill, if_neg Bool.false_ne_true, append_nil, emitted_self,
      h.origin_eq ha.provenance, ownApplied]
    by_cases hd : p.descriptor.deliveryEnabled = true
    · rw [if_pos hd]
      split <;> rfl
    · rw [if_neg hd, admittedChanges, Bool.and_true, if_neg hd, appliedRows, map_nil, ite_self]
  have hreld : (if Store.ReleasesBelow p.descriptor cursor true then
      releasedRows p.descriptor.defaultStreamId env.now cursor.finality
        (s.parkedThrough (cursor.blockNumber - 1)) else []) =
      releasedRows p.descriptor.defaultStreamId env.now cursor.finality (p.releasedBelow s cursor) := by
    rw [releasedBelow]
    split <;> rfl
  rwa [hown, hreld] at hemits

theorem mem_ownApplied {r : ChangeRow} (hr : r ∈ p.ownApplied env cursor delta batch) :
    p.descriptor.publication.firstLevel ≤ cursor.finality ∧ r.finality = cursor.finality ∧
      r.block = delta.block ∧ p.descriptor.deliveryEnabled = true := by
  rw [ownApplied] at hr
  split at hr
  · cases hr
  · rename_i hdefer
    obtain ⟨_, hchg, rfl⟩ := mem_map.1 hr
    have hd : p.descriptor.deliveryEnabled = true := by
      by_contra hd
      rw [admittedChanges, Bool.and_true, if_neg hd] at hchg; cases hchg
    exact ⟨le_of_not_gt fun hlt => hdefer ⟨hlt, hd, rfl⟩, rfl, rfl, hd⟩

def ownParked (p : HoldingProcessor) (cursor : ProcessorCursor) (delta : EncodedDelta)
    (batch : MutationBatch) : DeferredRow where
  streamId := p.descriptor.defaultStreamId
  chainId := cursor.chainId
  block := delta.block
  origin := .live p.descriptor.inst
  changes := batch.changes

variable {key : Nat × Nat} {row : DeferredRow}

theorem mem_releasedBelow
    (h : (key, row) ∈ p.releasedBelow s cursor) : Store.ReleasesBelow p.descriptor cursor true ∧
      (key, row) ∈ s.parkedThrough (cursor.blockNumber - 1) := by
  rw [releasedBelow] at h
  split at h
  · exact ⟨‹_›, h⟩
  · cases h

section

variable (h : p.Held s)
  (ha : Applies p.toProcessor env cursor delta true p.descriptor.defaultStreamId false origin batch inverse s s' o pruned)

include h ha

theorem Held.applyDeferred (hdefer : ¬ Store.Defers p.descriptor cursor true) : s'.deferred[key]? =
 some row ↔ s.deferred[key]? = some row ∧ (key, row) ∉ p.releasedBelow s cursor := by
  rw [ha.deferred, if_neg hdefer, releasedBelow]
  by_cases hrel : Store.ReleasesBelow p.descriptor cursor true
  · rw [if_pos hrel, if_pos hrel, get?_deleteWhere_eq_some]
    refine and_congr_right fun hrow => ?_
    rw [decide_eq_false_iff_not, (h.parked hrow).key, h.mem_parkedThrough, not_and]
    exact ⟨fun hlt _ => hlt, fun hlt => hlt hrow⟩
  · rw [if_neg hrel, if_neg hrel]; exact ⟨fun hrow => ⟨hrow, nofun⟩, fun hrow => hrow.1⟩

theorem Held.applyParks (hdefer : Store.Defers p.descriptor cursor true) :
    ∃ key₀ : Nat × Nat, key₀.1 = delta.block.number ∧ s.deferred[key₀]? = none ∧
      s'.deferred = s.deferred.insert key₀ (p.ownParked cursor delta batch) := by
  have hdeferred := ha.deferred
  rw [if_pos hdefer, h.origin_eq ha.provenance] at hdeferred
  rw [hdeferred]; exact park_spec s (p.ownParked cursor delta batch)

theorem Held.applyHeld : p.Held s' := by
  have happ : ∀ {key : Nat × BlockHash}, key ∈ s.applied → key ∈ s'.applied := by
    intro key hkey; rw [ha.applied, Table.mem_insert_iff]; exact .inr hkey
  have hown : (delta.block.number, delta.block.hash) ∈ s'.applied := by
    rw [ha.applied, Table.mem_insert_iff]; exact .inl rfl
  have hjrnl : ∀ {num : Nat} {hash : BlockHash} {row : JournalRow},
      s'.journal[(num, hash)]? = some row →
      row.undo.block.number = num ∧ row.undo.block.hash = hash ∧ (num, hash) ∈ s'.applied := by
    intro num hash row hrow
    have hold : s.journal[(num, hash)]? = some row →
        row.undo.block.number = num ∧ row.undo.block.hash = hash ∧ (num, hash) ∈ s'.applied :=
      fun hrow => ⟨(h.journal hrow).1, (h.journal hrow).2.1, happ (h.journal hrow).2.2⟩
    rw [ha.journal] at hrow
    split at hrow
    · exact hold hrow
    · rw [get?_insert_ite] at hrow
      split at hrow
      · rename_i hkey
        obtain ⟨rfl, rfl⟩ := hkey; cases hrow; exact ⟨rfl, rfl, hown⟩
      · exact hold hrow
  by_cases hdefer : Store.Defers p.descriptor cursor true
  · obtain ⟨key₀, hkey₀, _, hdeferred⟩ := h.applyParks ha hdefer
    have hcases : ∀ {key : Nat × Nat} {row : DeferredRow}, s'.deferred[key]? = some row →
        key = key₀ ∧ row = p.ownParked cursor delta batch ∨ s.deferred[key]? = some row := by
      intro key row hrow
      rw [hdeferred, get?_insert_ite] at hrow
      split at hrow
      · exact .inl ⟨‹_›, (some.inj hrow).symm⟩
      · exact .inr hrow
    -- The new row is the only one of its block, which was not applied before.
    have hnew : ∀ {key : Nat × Nat} {row : DeferredRow}, s.deferred[key]? = some row →
        row.block.number = delta.block.number → row.block.hash ≠ delta.block.hash := by
      intro key row hrow hnum hhash
      apply ha.fresh
      rw [← hnum, ← hhash]; exact (h.parked hrow).applied
    exact {
      delivers := (h.delivers.emits (h.applyEmits ha)).1
      parked := fun hrow => by
        rcases hcases hrow with ⟨rfl, rfl⟩ | hrow
        · exact ⟨hkey₀, rfl, rfl, hdefer.2.1, hown⟩
        · exact { h.parked hrow with applied := happ (h.parked hrow).applied }
      once := fun hrow hrow' hnum hhash => by
        rcases hcases hrow with ⟨rfl, rfl⟩ | hrow <;> rcases hcases hrow' with ⟨rfl, rfl⟩ | hrow'
        · rfl
        · exact absurd hhash.symm (hnew hrow' hnum.symm)
        · exact absurd hhash (hnew hrow hnum)
        · exact h.once hrow hrow' hnum hhash
      journal := hjrnl }
  · refine h.shrink (h.applyEmits ha) (fun {key row} hrow => ?_) hjrnl
    have hrow := ((h.applyDeferred ha hdefer).1 hrow).1; exact ⟨hrow, happ (h.parked hrow).applied⟩

theorem Held.applies : p.Transition s s' env.now cursor.finality (p.releasedBelow s cursor)
        (p.ownApplied env cursor delta batch) where
  held := h.applyHeld ha
  records := (h.delivers.emits (h.applyEmits ha)).2
  sorted := by
    rw [releasedBelow]
    split
    · exact sorted_rowsWhere ..
    · exact .nil
  parked {key row} hmem := by
    obtain ⟨hrel, hthru⟩ := mem_releasedBelow hmem
    have hdefer : ¬ Store.Defers p.descriptor cursor true := fun hd => not_releasesBelow hd hrel
    have hrow := (h.mem_parkedThrough.1 hthru).1
    refine ⟨hrow, eq_none_iff_forall_ne_some.2 fun _ hrow' => ?_⟩
    obtain ⟨hrow', hnot⟩ := (h.applyDeferred ha hdefer).1 hrow'
    rw [hrow, some.injEq] at hrow'; exact hnot (hrow' ▸ hmem)
  level x hmem := (mem_releasedBelow hmem).1.2.2.2.2.1
  lower {key row} hrow x hmem hlt := by
    obtain ⟨hrel, hthru⟩ := mem_releasedBelow hmem
    rw [releasedBelow, if_pos hrel]; exact h.lower hrow x hthru hlt
  tailChanges r hr _ := by
    obtain ⟨hlevel, hfin, hblock, hd⟩ := mem_ownApplied hr
    refine ⟨hfin ▸ hlevel, fun {key row} hrow hlt => ?_⟩
    rw [hblock, ← ha.block.1] at hlt
    have hrel : Store.ReleasesBelow p.descriptor cursor true :=
      ⟨p.holds, p.canonical, hd, rfl, hlevel, by omega⟩
    rw [releasedBelow, if_pos hrel]; exact h.mem_parkedThrough.2 ⟨hrow, by omega⟩
  tailBlock r hr happ _ := by
    obtain ⟨-, -, hblock, -⟩ := mem_ownApplied hr; rw [hblock] at happ; exact absurd happ ha.fresh
  kept {key row} hrow _ := by
    by_cases hdefer : Store.Defers p.descriptor cursor true
    · obtain ⟨key₀, -, hfresh, hdeferred⟩ := h.applyParks ha hdefer
      refine .inr ?_
      rw [hdeferred, getElem?_insert_of_ne _ _ fun heq => ?_, hrow]
      rw [heq, hrow] at hfresh; cases hfresh
    · by_cases hmem : (key, row) ∈ p.releasedBelow s cursor
      · exact .inl hmem
      · exact .inr ((h.applyDeferred ha hdefer).2 ⟨hrow, hmem⟩)
  fresh {key row} hrow happ := by
    by_cases hdefer : Store.Defers p.descriptor cursor true
    · obtain ⟨key₀, -, -, hdeferred⟩ := h.applyParks ha hdefer
      rw [hdeferred, get?_insert_ite] at hrow
      split at hrow
      · cases hrow; exact absurd happ ha.fresh
      · exact hrow
    · exact ((h.applyDeferred ha hdefer).1 hrow).1
  journal {key row} hrow happ := by
    rw [ha.journal] at hrow
    split at hrow
    · exact ⟨row, hrow, rfl⟩
    · have hne : (delta.block.number, delta.block.hash) ≠ key := by
        rintro rfl; exact ha.fresh happ
      rw [getElem?_insert_of_ne _ _ hne] at hrow; exact ⟨row, hrow, rfl⟩

end

end Apply

/-! ## One operation -/

theorem Held.step (h : p.Held s) (e : Lifecycle) :
    ∃ now level released tail, p.Transition s (p.step s e) now level released tail := by
  cases e with
  | apply env cursor delta =>
    change ∃ now level released tail,
      p.Transition s (commit s (s.apply p.toProcessor env cursor delta)) now level released tail
    cases happly : s.apply p.toProcessor env cursor delta with
    | error err => exact ⟨_, _, _, _, h.refl⟩
    | ok out =>
      rcases applyToStream_spec happly with ⟨-, hs⟩ | ⟨-, _, _, _, o, _, ha⟩
      · rw [commit_ok, hs]; exact ⟨_, _, _, _, h.refl⟩
      · exact ⟨_, _, _, _, h.applies ha⟩
  | undo env chainId number hash =>
    change ∃ now level released tail, p.Transition s
      (commit s (s.undo p.descriptor env chainId number hash)) now level released tail
    cases hundo : s.undo p.descriptor env chainId number hash with
    | error err => exact ⟨_, _, _, _, h.refl⟩
    | ok out =>
      obtain ⟨row, o, hu⟩ := undo_spec hundo; exact ⟨_, _, _, _, h.undoes hu⟩
  | markAttested env through hash =>
    change ∃ now level released tail, p.Transition s
      (commit s (s.markAttested p.descriptor env through hash)) now level released tail
    cases hmark : s.markAttested p.descriptor env through hash with
    | error err => exact ⟨_, _, _, _, h.refl⟩
    | ok out =>
      have hr := markAttested_spec hmark
      have hlevel : decide (p.descriptor.publication = .attested) = true →
          p.descriptor.publication.firstLevel ≤ .attested := by
        intro hatt
        rw [decide_eq_true_eq] at hatt; rw [hatt]; exact le_rfl
      -- Only a processor that holds nothing back publishes this marker.
      have hmarks : (decide (p.descriptor.publication = .unattested) && !(rowsWhere s.coverage
          fun n row => n ≤ through && row.finality = .unattested).isEmpty) = true →
          decide (p.descriptor.publication = .attested) = true := by
        intro hmarks
        rw [Bool.and_eq_true, decide_eq_true_eq] at hmarks
        have hholds := p.holds; rw [hmarks.1] at hholds; exact absurd hholds (lt_irrefl _)
      obtain ⟨released, tail, ht⟩ := h.raises hr hlevel hmarks; exact ⟨_, _, _, _, ht⟩
  | markFinalized env through hash =>
    change ∃ now level released tail, p.Transition s
      (commit s (s.markFinalized p.descriptor env through hash)) now level released tail
    cases hmark : s.markFinalized p.descriptor env through hash with
    | error err => exact ⟨_, _, _, _, h.refl⟩
    | ok out =>
      obtain ⟨released, tail, ht⟩ := h.raises (markFinalized_spec hmark)
        (fun _ => Finality.le_finalized _) fun _ => decide_eq_true p.holds
      exact ⟨_, _, _, _, ht⟩

theorem Held.run (h : p.Held s) (es : List Lifecycle) : p.Held (p.run s es) := by
  induction es generalizing s with
  | nil => exact h
  | cons e es ih =>
    obtain ⟨_, _, _, _, ht⟩ := h.step e; exact ih ht.held

/-! ## Levels and order -/

variable {released : List ((Nat × Nat) × DeferredRow)} {tail : List ChangeRow}

theorem Transition.released_eq (h : p.Held s) (ht : p.Transition s s' now level released tail) :
    releasedRows p.descriptor.defaultStreamId now level released = released.flatMap fun x =>
        appliedRows p.descriptor now x.2.chainId x.2.block level x.2.changes := by
  refine flatMap_congr fun ⟨_, _⟩ hmem => ?_
  have hp := h.parked (ht.parked hmem).1; rw [hp.target, hp.origin, emitted_self]; rfl

theorem mem_appliedRows {cid : Nat} {block : BlockRef} {chgs : List DomainChange}
    (hr : r ∈ appliedRows d now cid block level chgs) :
    r.block = block ∧ r.finality = level ∧ r.direction = .apply := by
  obtain ⟨_, -, rfl⟩ := mem_map.1 hr; exact ⟨rfl, rfl, rfl⟩

theorem exists_of_getElem?_flatMap {α β : Type} {f : α → List β} {as : List α} :
    ∀ {i : Nat} {b : β}, (as.flatMap f)[i]? = some b →
      ∃ bef a after, as = bef ++ a :: after ∧ b ∈ f a ∧ (bef.flatMap f).length ≤ i := by
  induction as with
  | nil => intro i b h; cases h
  | cons a as ih =>
    intro i b h
    rw [flatMap_cons] at h
    rcases Nat.lt_or_ge i (f a).length with hlt | hge
    · rw [getElem?_append_left hlt] at h; exact ⟨[], a, as, rfl, mem_of_getElem? h, Nat.zero_le _⟩
    · rw [getElem?_append_right hge] at h
      obtain ⟨bef, a', after, rfl, hb, _⟩ := ih h
      refine ⟨a :: bef, a', after, rfl, hb, ?_⟩
      rw [flatMap_cons, length_append]; omega

theorem sublist_flatMap {α β : Type} (f : α → List β) {as : List α} {a : α} (h : a ∈ as) :
    (f a).Sublist (as.flatMap f) := by
  obtain ⟨_, _, rfl⟩ := append_of_mem h
  rw [flatMap_append, flatMap_cons]
  exact (sublist_append_left _ _).trans (sublist_append_right _ _)

theorem Transition.order (h : p.Held s)
    (ht : p.Transition s s' now level released tail) : ∃ new, p.records s' = p.records s ++
    new ∧ ∀ i r, new[i]? = some r → r.direction = .apply → ∀ (key : Nat × Nat) (row : DeferredRow),
    s.deferred[key]? = some row → row.block.number < r.block.number → ∃ now level,
    (appliedRows p.descriptor now row.chainId row.block level row.changes).Sublist (new.take i) := by
  refine ⟨_, ht.records, fun i r hr hdir key row hrow hlt => ⟨now, level, ?_⟩⟩
  rw [ht.released_eq h] at hr ⊢
  let f : (Nat × Nat) × DeferredRow → List ChangeRow := fun x =>
    appliedRows p.descriptor now x.2.chainId x.2.block level x.2.changes
  rcases Nat.lt_or_ge i (released.flatMap f).length with hi | hi
  · -- The record is of a released row; the parked row was released before it.
    rw [getElem?_append_left hi] at hr
    obtain ⟨bef, x, _, hsplit, hmem, hle⟩ := exists_of_getElem?_flatMap hr
    have hx : x ∈ released := by
      rw [hsplit]; exact mem_append_right _ mem_cons_self
    rw [(mem_appliedRows hmem).1] at hlt
    have hmem' := ht.lower hrow x hx hlt
    have hbef : (key, row) ∈ bef := by
      have hsort := ht.sorted
      rw [hsplit] at hmem' hsort
      rcases mem_append.1 hmem' with hmem' | hmem'
      · exact hmem'
      · exfalso
        rcases mem_cons.1 hmem' with heq | hmem'
        · rw [← heq] at hlt; exact Nat.lt_irrefl _ hlt
        · have hafter := (pairwise_cons.1 (pairwise_append.1 hsort).2.1).1 _ hmem'
          rw [compare_pair, Ordering.then_eq_lt] at hafter
          have hxkey := (h.parked (ht.parked hx).1).key
          have hkey := (h.parked hrow).key
          rcases hafter with hafter | ⟨hafter, -⟩
          · have hlt' : x.1.1 < key.1 := Nat.compare_eq_lt.1 hafter; omega
          · have heq : x.1.1 = key.1 := Nat.compare_eq_eq.1 hafter; omega
    rw [take_append_of_le_length (Nat.le_of_lt hi), hsplit, flatMap_append]
    refine (sublist_flatMap f hbef).trans ?_
    rw [take_append, take_of_length_le hle]; exact sublist_append_left _ _
  · -- The record is in the tail, behind everything released.
    rw [getElem?_append_right hi] at hr
    have hmem := (ht.tailChanges r (mem_of_getElem? hr) hdir).2 hrow hlt
    refine (sublist_flatMap f hmem).trans ?_
    rw [take_append, take_of_length_le hi]; exact sublist_append_left _ _

def Levelled (p : HoldingProcessor) (s : Store) : Prop :=
  ∀ r ∈ p.records s, r.direction = .apply → p.descriptor.publication.firstLevel ≤ r.finality

theorem Transition.levelled (h : p.Held s)
    (ht : p.Transition s s' now level released tail) (hl : p.Levelled s) : p.Levelled s' := by
  intro r hr hdir
  rw [ht.records, ht.released_eq h, mem_append, mem_append] at hr
  rcases hr with hr | hr | hr
  · exact hl r hr hdir
  · obtain ⟨x, hx, hr⟩ := mem_flatMap.1 hr; rw [(mem_appliedRows hr).2.1]; exact ht.level x hx
  · exact (ht.tailChanges r hr hdir).1

theorem levelled_run (h : p.Held s) (hl : p.Levelled s) (es : List Lifecycle) :
    p.Levelled (p.run s es) := by
  induction es generalizing s with
  | nil => exact hl
  | cons e es ih =>
    obtain ⟨_, _, _, _, ht⟩ := h.step e; exact ih ht.held (ht.levelled h hl)

/-! ## One block -/

structure Lives (p : HoldingProcessor) (before : List ChangeRow) (chainId : Nat) (block : BlockRef)
    (changes inverse : List DomainChange) (s : Store) : Prop where
  held : p.Held s
  account : ∃ since, p.records s = before ++ since ∧
    ((∃ (key : Nat × Nat) (row : DeferredRow), s.deferred[key]? = some row ∧ row.block = block ∧
        row.chainId = chainId ∧ row.changes = changes ∧
        ∀ r ∈ since, ¬ OfBlock block.number block.hash r) ∨
      (∀ (key : Nat × Nat) (row : DeferredRow), s.deferred[key]? = some row →
        ¬ (row.block.number = block.number ∧ row.block.hash = block.hash)) ∧ ∃ now level,
        p.descriptor.publication.firstLevel ≤ level ∧
        since.filter (fun r => OfBlock block.number block.hash r ∧ r.direction = .apply) =
          appliedRows p.descriptor now chainId block level changes)
  journal : ∀ row : JournalRow, s.journal[(block.number, block.hash)]? = some row →
    row.undo.block = block ∧ row.undo.inverseChanges = inverse

variable {before : List ChangeRow} {chainId : Nat} {block : BlockRef}
  {changes inverse : List DomainChange}

theorem Lives.accounts (h : p.Lives before chainId block changes inverse s)
    (hinverse : p.descriptor.deliveryEnabled = false → inverse = []) :
    p.Accounts before chainId block changes inverse s where
  once := by
    obtain ⟨since, hrecords, hcases⟩ := h.account
    refine ⟨since, hrecords, hcases.imp ?_ fun hpub => ?_⟩
    · rintro ⟨key, row, hrow, rfl, -, hchgs, hnone⟩
      exact ⟨key, row, h.held.parkedOf_eq_singleton hrow, hchgs, hnone⟩
    · exact ⟨h.held.parkedOf_eq_nil.2 hpub.1, hpub.2⟩
  undo env chainId s' bounds hundo := by
    obtain ⟨row, _, hu⟩ := undo_spec hundo
    obtain ⟨hblk, hrow⟩ := h.journal row hu.journaled
    refine ⟨env.now, s.undoLevel block.number block.hash row.undo.finality, ?_⟩
    rw [(h.held.delivers.emits (hu.emits _)).2, undoRows, emitted_self, hblk, hrow]
    by_cases hd : p.descriptor.deliveryEnabled = true
    · simp only [hd, true_and]; rfl
    · rw [if_neg fun h => hd h.1, hinverse (Bool.eq_false_iff.2 hd), undoneRows, map_nil, ite_self]

theorem not_ofBlock_released
    (hother : ∀ x ∈ released, ¬ (x.2.block.number = number ∧ x.2.block.hash = hash)) :
    ∀ r ∈ released.flatMap fun x => appliedRows p.descriptor now x.2.chainId x.2.block level
      x.2.changes, ¬ OfBlock number hash r := by
  intro r hr hof
  obtain ⟨x, hx, hr⟩ := mem_flatMap.1 hr
  rw [OfBlock, (mem_appliedRows hr).1] at hof; exact hother x hx hof

theorem filter_of_not (h : ∀ r ∈ rows, ¬ (OfBlock number hash r ∧ r.direction = .apply)) :
    rows.filter (fun r => OfBlock number hash r ∧ r.direction = .apply) = [] := by
  rw [filter_eq_nil_iff]
  intro r hr; rw [decide_eq_true_eq]; exact h r hr

theorem filter_released (h : p.Held s) (hsort : released.Pairwise fun a b => compare a.1 b.1 = .lt)
    (hparked : ∀ x ∈ released, s.deferred[x.1]? = some x.2) (hrow : (key, row) ∈ released) :
    (released.flatMap fun x => appliedRows p.descriptor now x.2.chainId x.2.block level
      x.2.changes).filter (fun r => OfBlock row.block.number row.block.hash r ∧ r.direction = .apply) =
      appliedRows p.descriptor now row.chainId row.block level row.changes := by
  obtain ⟨left, right, rfl⟩ := append_of_mem hrow
  have hother : ∀ x ∈ left ++ (key, row) :: right, compare x.1 key ≠ .eq →
      ¬ (x.2.block.number = row.block.number ∧ x.2.block.hash = row.block.hash) := by
    intro x hx hne hof
    apply hne
    rw [h.once (hparked x hx) (hparked _ hrow) hof.1 hof.2]; exact ReflOrd.compare_self
  rw [pairwise_append, pairwise_cons] at hsort
  have hleft : ∀ x ∈ left, ¬ (x.2.block.number = row.block.number ∧
      x.2.block.hash = row.block.hash) := fun x hx =>
    hother x (mem_append_left _ hx) (by
      rw [hsort.2.2 x hx _ mem_cons_self]; decide)
  have hright : ∀ x ∈ right, ¬ (x.2.block.number = row.block.number ∧
      x.2.block.hash = row.block.hash) := fun x hx =>
    hother x (mem_append_right _ (mem_cons_of_mem _ hx)) (by
      rw [@OrientedCmp.eq_swap _ compare, hsort.2.1.1 x hx]; decide)
  rw [flatMap_append, flatMap_cons, filter_append, filter_append,
    filter_of_not fun r hr hof => not_ofBlock_released hleft r hr hof.1, filter_of_not fun r hr hof =>
    not_ofBlock_released hright r hr hof.1, nil_append, append_nil, filter_eq_self]
  intro r hr
  obtain ⟨hblk, -, hdir⟩ := mem_appliedRows hr
  rw [decide_eq_true_eq, OfBlock, hblk]; exact ⟨⟨rfl, rfl⟩, hdir⟩

theorem Lives.step {now : Nat} {level : Finality} {released : List ((Nat × Nat) × DeferredRow)}
    {tail : List ChangeRow} (h : p.Lives before chainId block changes inverse s)
    (ht : p.Transition s s' now level released tail) (happ : (block.number, block.hash) ∈ s.applied)
    (happ' : (block.number, block.hash) ∈ s'.applied) :
    p.Lives before chainId block changes inverse s' where
  held := ht.held
  account := by
    obtain ⟨since, hrecords, hcases⟩ := h.account
    refine ⟨since ++ (releasedRows p.descriptor.defaultStreamId now level released ++ tail), ?_, ?_⟩
    · rw [ht.records, hrecords, append_assoc]
    · have htail : ∀ r ∈ tail, OfBlock block.number block.hash r → r.direction ≠ .apply ∧
          ∀ {key : Nat × Nat} {row : DeferredRow}, s'.deferred[key]? = some row →
            ¬ (row.block.number = block.number ∧ row.block.hash = block.hash) := by
        intro r hr hof
        rw [← hof.1, ← hof.2] at happ happ' ⊢
        obtain ⟨hdir, hnot⟩ := ht.tailBlock r hr happ happ'
        exact ⟨hdir, fun hrow heq => hnot hrow ⟨heq.1.symm, heq.2.symm⟩⟩
      rw [ht.released_eq h.held]
      rcases hcases with ⟨key, row, hrow, rfl, hchain, hchgs, hnone⟩ | ⟨hnot, now', level', hlevel,
        hfilter⟩
      · rcases ht.kept hrow happ' with hmem | hkept
        · -- The row is released now.
          refine .inr ⟨fun _ _ hrow' heq => ?_, now, level, ht.level _ hmem, ?_⟩
          · have hold := ht.fresh hrow' (by rw [heq.1, heq.2]; exact happ)
            have hkey := h.held.once hold hrow heq.1 heq.2
            rw [hkey, (ht.parked hmem).2] at hrow'; cases hrow'
          · rw [filter_append, filter_append, filter_of_not fun r hr hof => hnone r hr hof.1,
              filter_of_not fun r hr hof => (htail r hr hof.1).1 hof.2,
              filter_released h.held ht.sorted (fun x hx => (ht.parked hx).1) hmem, hchain, hchgs,
              nil_append, append_nil]
        · -- The row stays parked, so that nothing is said about the block.
          refine .inl ⟨key, row, hkept, rfl, hchain, hchgs, fun r hr hof => ?_⟩
          rcases mem_append.1 hr with hr | hr
          · exact hnone r hr hof
          · rcases mem_append.1 hr with hr | hr
            · refine not_ofBlock_released (fun x hx heq => ?_) r hr hof
              have hkey := h.held.once (ht.parked hx).1 hrow heq.1 heq.2
              rw [← hkey, (ht.parked hx).2] at hkept; cases hkept
            · exact (htail r hr hof).2 hkept ⟨rfl, rfl⟩
      · -- The changes were published before; nothing is published again.
        refine .inr ⟨fun key row hrow heq => ?_, now', level', hlevel, ?_⟩
        · exact hnot key row (ht.fresh hrow (by rw [heq.1, heq.2]; exact happ)) heq
        · rw [filter_append, filter_append, hfilter,
            filter_of_not fun r hr hof => (htail r hr hof.1).1 hof.2,
            filter_of_not fun r hr hof => not_ofBlock_released
              (fun x hx => hnot x.1 x.2 (ht.parked hx).1) r hr hof.1,
            append_nil, append_nil]
  journal row hrow := by
    obtain ⟨old, hold, heq⟩ := ht.journal hrow happ; rw [← heq]; exact h.journal old hold

theorem Lives.run (h : p.Lives before chainId block changes inverse s) (es : List Lifecycle)
    (hstays : p.StaysApplied s block.number block.hash es) :
    p.Lives before chainId block changes inverse (p.run s es) := by
  induction es generalizing s with
  | nil => exact h
  | cons e es ih =>
    obtain ⟨_, _, _, _, ht⟩ := h.held.step e
    exact ih (h.step ht (hstays 0) (hstays 1)) fun n => hstays (n + 1)

section Start

variable {env : Environment} {cursor : ProcessorCursor} {delta : EncodedDelta}
  {origin : DeliveryOrigin} {batch : MutationBatch} {o : Output} {pruned : PrunedOutput}

theorem Held.lives (h : p.Held s)
    (ha : Applies p.toProcessor env cursor delta true p.descriptor.defaultStreamId false origin batch
      inverse s s' o pruned) : p.Lives (p.records s) cursor.chainId delta.block
      (admittedChanges p.descriptor true batch) inverse s' := by
  have ht := h.applies ha
  have hother : ∀ {key : Nat × Nat} {row : DeferredRow}, s.deferred[key]? = some row →
      ¬ (row.block.number = delta.block.number ∧ row.block.hash = delta.block.hash) := by
    intro key row hrow heq
    apply ha.fresh
    rw [← heq.1, ← heq.2]; exact (h.parked hrow).applied
  refine ⟨ht.held, ⟨_, ht.records, ?_⟩, fun row hrow => ?_⟩
  · rw [ht.released_eq h]
    by_cases hdefer : Store.Defers p.descriptor cursor true
    · obtain ⟨key₀, -, -, hdeferred⟩ := h.applyParks ha hdefer
      refine .inl ⟨key₀, p.ownParked cursor delta batch, ?_, rfl, rfl, ?_, fun r hr => ?_⟩
      · rw [hdeferred, getElem?_insert_self]
      · rw [admittedChanges, hdefer.2.1, Bool.and_true, if_pos rfl]; rfl
      · rw [ownApplied, if_pos hdefer, append_nil] at hr
        exact not_ofBlock_released (fun x hx => hother (ht.parked hx).1) r hr
    · refine .inr ⟨fun key row hrow => ?_, ?_⟩
      · exact hother ((h.applyDeferred ha hdefer).1 hrow).1
      · have hself : ∀ now level, (appliedRows p.descriptor now cursor.chainId delta.block level
            (admittedChanges p.descriptor true batch)).filter
              (fun r => OfBlock delta.block.number delta.block.hash r ∧ r.direction = .apply) =
            appliedRows p.descriptor now cursor.chainId delta.block level
              (admittedChanges p.descriptor true batch) := by
          intro now level
          rw [filter_eq_self]
          intro r hr
          obtain ⟨hblk, -, hdir⟩ := mem_appliedRows hr
          rw [decide_eq_true_eq, OfBlock, hblk]; exact ⟨⟨rfl, rfl⟩, hdir⟩
        rw [filter_append, filter_of_not fun r hr hof => not_ofBlock_released
            (fun x hx => hother (ht.parked hx).1) r hr hof.1,
          nil_append, ownApplied, if_neg hdefer, hself]
        by_cases hd : p.descriptor.deliveryEnabled = true
        · exact ⟨_, _, le_of_not_gt fun hlt => hdefer ⟨hlt, hd, rfl⟩, rfl⟩
        · refine ⟨env.now, .finalized, Finality.le_finalized _, ?_⟩
          rw [admittedChanges, Bool.and_true, if_neg hd]; rfl
  · rw [ha.journal] at hrow
    split at hrow
    · exact absurd (h.journal hrow).2.2 ha.fresh
    · rw [getElem?_insert_self, some.injEq] at hrow
      subst hrow; exact ⟨rfl, rfl⟩

end Start

/-! ## Every run -/

theorem Held.publishesHeld (h : p.Held s) (hl : p.Levelled s) : p.PublishesHeld s where
  level := hl
  order e := by
    obtain ⟨_, level, _, _, ht⟩ := h.step e; exact ht.order h
  accounts env cursor delta s₁ committed first last happly := by
    rcases applyToStream_spec happly with ⟨hno, -⟩ | ⟨-, _, batch, inverse, _, _, ha⟩
    · cases hno
    · refine ⟨batch, inverse, ha.reduced, ha.inverted, fun es hstays => ?_⟩
      rw [ha.block.1, ha.block.2] at hstays
      refine ((h.lives ha).run es hstays).accounts fun hd => ?_
      have hinverted := ha.inverted
      rw [inverseChanges, hd, if_neg fun h => Bool.false_ne_true h.2.1, Except.ok.injEq] at hinverted
      exact hinverted.symm

/-- After every run of applies, undos and raised levels: consumers have only seen changes from the
first level on, the next operation publishes no change before parked changes of a lower block, and a
block's changes are published at most once while it is applied, and its inverse exactly if they
were. -/
theorem run_publishesHeld (p : HoldingProcessor) (es : List Lifecycle) :
    p.PublishesHeld (p.run (.registered p.descriptor) es) := by
  have hheld := held_registered (p := p)
  refine (hheld.run es).publishesHeld (levelled_run hheld ?_ es)
  intro _ hr; rw [records_registered] at hr; cases hr

end HoldingProcessor

end Leani.Processor
