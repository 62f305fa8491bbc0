import Leani.Delivery.Commits
import Leani.Processor.Runs

/-!
# Commit boundaries of the default stream

Two transactions whose neighbouring records have the same block, finality, direction and origin
publish what a consumer sees as one commit. Applies, undos of what is published and releases never
do that. Notices, markers and replays do it when the stream ends with a record like theirs; a run
without such a step never moves the end of a commit that a consumer was delivered.
-/

namespace Leani.Processor

open Library Std Delivery List Option Table Store

/-! ## Steps that carry on a commit -/

def newest (d : ProcessorDescriptor) (s : Store) : Option ChangeRow :=
  (s.streams[d.defaultStreamId]?).bind fun stream =>
    (Table.lastWhere stream.changeLog fun _ _ => true).map (·.2)

def EndsWith (d : ProcessorDescriptor) (s : Store) (origin : DeliveryOrigin) (block : BlockRef)
    (finality : Finality) (direction : ChangeDirection) : Prop :=
  ∃ last, newest d s = some last ∧ block.number = last.block.number ∧ block.hash = last.block.hash ∧
    finality = last.finality ∧ direction = last.direction ∧ origin = last.origin

instance (d : ProcessorDescriptor) (s : Store) (origin : DeliveryOrigin) (block : BlockRef)
    (finality : Finality) (direction : ChangeDirection) :
    Decidable (EndsWith d s origin block finality direction) :=
  decidable_of_iff ((newest d s).any fun last => block.number = last.block.number ∧
      block.hash = last.block.hash ∧ finality = last.finality ∧ direction = last.direction ∧
      origin = last.origin) (by
    rw [Option.any_eq_true]
    exact exists_congr fun last => and_congr_right fun _ => decide_eq_true_iff)

def MarkSeparate (d : ProcessorDescriptor) (s : Store) (through : Nat) (level : Finality)
    (holds marks : Bool) : Prop :=
  ∀ context, s.cursor.isSome → s.unfinalizedContext through = some context → marks = true →
    -- Changes that are released come between the two.
    (holds = true → ∀ x ∈ s.parkedThrough through, x.2.streamId = d.defaultStreamId →
      x.2.changes = []) →
    ¬ EndsWith d s (.live d.inst) context.block level .finalized

def Operation.Separate (p : Processor) (s : Store) : Operation → Prop
  | .apply .. | .applyLiveRecovery .. | .subscribe .. | .onStream .. => True
  | .undo _ _ number hash => ∀ row, s.journal[(number, hash)]? = some row → s.parkedOf number hash =
    [] → row.undo.inverseChanges ≠ [] → ¬ EndsWith p.descriptor s (.live p.descriptor.inst)
    row.undo.block (s.undoLevel number hash row.undo.finality) .undo
  | .markAttested _ through _ => MarkSeparate p.descriptor s through .attested
    (p.descriptor.publication = .attested)
    (p.descriptor.publication = .unattested && !(Table.rowsWhere s.coverage fun n row =>
      n ≤ through && row.finality = .unattested).isEmpty)
  | .markFinalized _ through _ => MarkSeparate p.descriptor s through .finalized
    (.unattested < p.descriptor.publication.firstLevel)
    (!(Table.rowsWhere s.journal fun key row => key.1 ≤ through && !row.finalized).isEmpty)
  | .appendLiveGapNotice _ _ block skipped =>
    ¬ ((s.streams[p.descriptor.defaultStreamId]?).any fun stream =>
      Store.noticeCovered stream block skipped) →
    ¬ EndsWith p.descriptor s (.live p.descriptor.inst) block .finalized .finalized
  | .republish _ cursor delta publish streamId =>
    ∀ batch, s.reduceBlock p cursor delta = .ok batch → publish = true → batch.changes ≠ [] →
      streamId = p.descriptor.defaultStreamId →
      ¬ EndsWith p.descriptor s ⟨.recompute, p.descriptor.inst, 0⟩ delta.block cursor.finality .apply

def RunSeparate (p : Processor) : Store → List Operation → Prop
  | _, [] => True
  | s, op :: ops => op.Separate p s ∧ RunSeparate p (step p s op) ops

/-! ## What holds between two operations -/

/-- The parked rows and the undo records are those of applied blocks, and whatever was or will be
published for a block can be taken back. -/
structure Coherent (d : ProcessorDescriptor) (s : Store) : Prop where
  parked : ∀ {key : Nat × Nat} {row : DeferredRow}, s.deferred[key]? = some row → key.1 =
    row.block.number ∧ d.deliveryEnabled = true ∧ (row.streamId = d.defaultStreamId → row.origin =
    .live d.inst ∨ row.origin = .liveRecovery d.inst) ∧ (row.block.number, row.block.hash) ∈ s.applied
  once : ∀ {key key' : Nat × Nat} {row row' : DeferredRow}, s.deferred[key]? = some row →
    s.deferred[key']? = some row' → row.block.number = row'.block.number →
    row.block.hash = row'.block.hash → key = key'
  journal : ∀ {number : Nat} {hash : BlockHash} {row : JournalRow},
    s.journal[(number, hash)]? = some row →
    row.undo.block.number = number ∧ row.undo.block.hash = hash ∧ (number, hash) ∈ s.applied
  inverse : ∀ {key : Nat × Nat} {row : DeferredRow} {undo : JournalRow},
    s.deferred[key]? = some row → s.journal[(row.block.number, row.block.hash)]? = some undo →
    undo.undo.inverseChanges = [] → row.changes = []

def Published (d : ProcessorDescriptor) (s : Store) (r : ChangeRow) : Prop :=
  r.direction = .apply → r.origin = .live d.inst ∨ r.origin = .liveRecovery d.inst →
  (r.block.number, r.block.hash) ∈ s.applied ∧
  (∀ {key : Nat × Nat} {row : DeferredRow}, s.deferred[key]? = some row →
    ¬ (row.block.number = r.block.number ∧ row.block.hash = r.block.hash)) ∧
  ∀ row : JournalRow, s.journal[(r.block.number, r.block.hash)]? = some row →
    row.undo.inverseChanges ≠ []

structure Settled (d : ProcessorDescriptor) (s : Store) : Prop where
  coherent : Coherent d s
  stream : ∀ stream, s.streams[d.defaultStreamId]? = some stream →
    stream.kind = d.defaultStreamKind ∧ d.deliveryEnabled = true ∧ ∃ log, Holds log stream
  published : ∀ last, newest d s = some last → Published d s last

structure Advances (d : ProcessorDescriptor) (s s' : Store) : Prop where
  settled : Settled d s'
  stream : ∀ stream log, s.streams[d.defaultStreamId]? = some stream → Holds log stream →
    ∃ stream' log' rows, s'.streams[d.defaultStreamId]? = some stream' ∧ Holds log' stream' ∧
      log'.history = log.history ++ rows ∧ Separated log.history rows

variable {d : ProcessorDescriptor} {s s' : Store} {rows : List ChangeRow}

variable {stream : Stream}

theorem newest_eq {log : Log ChangeRow} (hs : s.streams[d.defaultStreamId]? = some stream)
    (h : Holds log stream) : newest d s = log.history.getLast? := by
  rw [newest, hs, bind_some, h.newest_eq]

def Grows (d : ProcessorDescriptor) (s s' : Store) (rows : List ChangeRow) : Prop :=
  (s.streams[d.defaultStreamId]? = none → s'.streams[d.defaultStreamId]? = none) ∧
  ∀ stream log, s.streams[d.defaultStreamId]? = some stream → Holds log stream →
    ∃ stream' log', s'.streams[d.defaultStreamId]? = some stream' ∧ stream'.kind = stream.kind ∧
      Holds log' stream' ∧ log'.history = log.history ++ rows

theorem Emits.grows (h : Emits d.defaultStreamId s s' rows) : Grows d s s' rows := by
  refine ⟨fun hs => (h.absent hs).1, fun strm log hs hlog => ?_⟩
  obtain ⟨strm', hs', hlog'⟩ := h.log strm log hs hlog
  have hkind := h.kind d.defaultStreamId
  rw [hs, hs', map_some, map_some, some.injEq] at hkind; exact ⟨strm', _, hs', hkind, hlog', rfl⟩

theorem Settled.advance (h : Settled d s) (hcoherent : Coherent d s') (hgrows : Grows d s s' rows)
    (hlast : ∀ last ∈ rows, Published d s' last) (hkept : rows = [] → ∀ last, newest d s = some last →
    Published d s last → Published d s' last) (hsep : ∀ last first, newest d s = some last →
    Published d s last → rows.head? = some first → ¬ last.SameCommit first) : Advances d s s' := by
  refine ⟨⟨hcoherent, fun _ hs' => ?_, fun last hnew => ?_⟩, fun strm log hs hlog => ?_⟩
  · cases hs : s.streams[d.defaultStreamId]? with
    | none =>
      rw [hgrows.1 hs] at hs'; cases hs'
    | some strm =>
      obtain ⟨hkind, hd, log, hlog⟩ := h.stream strm hs
      obtain ⟨t, log', ht, htkind, htlog, -⟩ := hgrows.2 strm log hs hlog
      rw [ht, some.injEq] at hs'
      subst hs'; exact ⟨htkind.trans hkind, hd, log', htlog⟩
  · cases hs : s.streams[d.defaultStreamId]? with
    | none =>
      rw [newest, hgrows.1 hs] at hnew; cases hnew
    | some strm =>
      obtain ⟨-, -, log, hlog⟩ := h.stream strm hs
      obtain ⟨t, log', ht, -, htlog, hhist⟩ := hgrows.2 strm log hs hlog
      rw [newest_eq ht htlog, hhist, getLast?_append] at hnew
      cases hrows : rows.getLast? with
      | none =>
        rw [hrows, none_or] at hnew
        have hold := (newest_eq hs hlog).trans hnew
        exact hkept (getLast?_eq_none_iff.1 hrows) last hold (h.published last hold)
      | some last' =>
        rw [hrows, some_or, some.injEq] at hnew; exact hlast last (hnew ▸ mem_of_getLast? hrows)
  · obtain ⟨t, log', ht, -, htlog, hhist⟩ := hgrows.2 strm log hs hlog
    refine ⟨t, log', rows, ht, htlog, hhist, fun last hl first hf => ?_⟩
    have hold := (newest_eq hs hlog).trans hl; exact hsep last first hold (h.published last hold) hf

variable {r : ChangeRow}

theorem Published.congr (h : Published d s r) (happlied : s'.applied = s.applied)
    (hdefer : ∀ {key : Nat × Nat} {row : DeferredRow}, s'.deferred[key]? = some row →
      s.deferred[key]? = some row)
    (hjrnl : ∀ {key : Nat × BlockHash} {row : JournalRow}, s'.journal[key]? = some row →
      ∃ old, s.journal[key]? = some old ∧ old.undo = row.undo) : Published d s' r := by
  intro hdir horig
  obtain ⟨happ, hnot, hinv⟩ := h hdir horig
  refine ⟨happlied ▸ happ, fun hrow => hnot (hdefer hrow), fun row hrow => ?_⟩
  obtain ⟨old, hold, heq⟩ := hjrnl hrow; rw [← heq]; exact hinv old hold

theorem Coherent.congr (h : Coherent d s) (happ : s'.applied = s.applied)
    (hdefer : ∀ {key : Nat × Nat} {row : DeferredRow}, s'.deferred[key]? = some row →
      s.deferred[key]? = some row)
    (hjrnl : ∀ {key : Nat × BlockHash} {row : JournalRow}, s'.journal[key]? = some row →
      ∃ old, s.journal[key]? = some old ∧ old.undo = row.undo) : Coherent d s' where
  parked hrow := happ ▸ h.parked (hdefer hrow)
  once hrow hrow' := h.once (hdefer hrow) (hdefer hrow')
  journal hrow := by
    obtain ⟨old, hold, heq⟩ := hjrnl hrow; rw [← heq, happ]; exact h.journal hold
  inverse hrow hundo := by
    obtain ⟨old, hold, heq⟩ := hjrnl hundo; rw [← heq]; exact h.inverse (hdefer hrow) hold

theorem published_of_direction (h : r.direction ≠ .apply) : Published d s r :=
  fun hdir => absurd hdir h

theorem Grows.refl (d : ProcessorDescriptor) (s : Store) : Grows d s s [] :=
  ⟨id, fun strm log hs hlog => ⟨strm, log, hs, rfl, hlog, (append_nil _).symm⟩⟩

theorem Settled.frame (h : Settled d s) (hgrows : Grows d s s' []) (happ : s'.applied = s.applied)
    (hdefer : s'.deferred = s.deferred) (hjrnl : s'.journal = s.journal) : Advances d s s' := by
  have hrow : ∀ {key : Nat × Nat} {row : DeferredRow}, s'.deferred[key]? = some row →
      s.deferred[key]? = some row := fun h => hdefer ▸ h
  have hundo : ∀ {key : Nat × BlockHash} {row : JournalRow}, s'.journal[key]? = some row →
      ∃ old, s.journal[key]? = some old ∧ old.undo = row.undo := fun h => ⟨_, hjrnl ▸ h, rfl⟩
  exact h.advance (h.coherent.congr happ hrow hundo) hgrows (fun _ => nofun)
    (fun _ _ _ hp => hp.congr happ hrow hundo) fun _ _ _ _ => nofun

theorem Settled.refl (h : Settled d s) : Advances d s s := h.frame (.refl d s) rfl rfl rfl

theorem Settled.not_backfill (h : Settled d s) : s.isBackfill d.defaultStreamId = false := by
  rw [isBackfill]
  cases hs : s.streams[d.defaultStreamId]? with
  | none => rfl
  | some stream =>
    rw [any_some, (h.stream stream hs).1, ProcessorDescriptor.defaultStreamKind]
    split <;> rfl

/-! ## Released rows -/

variable {now : Nat} {level : Finality} {released : List ((Nat × Nat) × DeferredRow)}

theorem mem_releasedRows {sid : String}
    (h : r ∈ releasedRows sid now level released) : ∃ x ∈ released, x.2.streamId = sid ∧
      x.2.changes ≠ [] ∧ r.block = x.2.block ∧ r.direction = .apply ∧ r.origin = x.2.origin := by
  obtain ⟨x, hx, hr⟩ := mem_flatMap.1 h
  rw [emitted] at hr
  split at hr
  · obtain ⟨_, hchg, rfl⟩ := mem_map.1 hr; exact ⟨x, hx, ‹_›, ne_nil_of_mem hchg, rfl, rfl, rfl⟩
  · cases hr

variable {last : ChangeRow}

theorem Coherent.released_ne (h : Coherent d s) (hparked : ∀ x ∈ released,
      s.deferred[x.1]? = some x.2) (hlast : Published d s last)
    (hr : r ∈ releasedRows d.defaultStreamId now level released) : ¬ last.SameCommit r := by
  rintro ⟨hnum, hhash, -, hdir, horig⟩
  obtain ⟨x, hx, htarget, -, hblock, hrdir, hrorigin⟩ := mem_releasedRows hr
  have hrow := hparked x hx
  obtain ⟨-, -, hlive, -⟩ := h.parked hrow
  refine (hlast (hdir.symm.trans hrdir) ?_).2.1 hrow ⟨?_, ?_⟩
  · rw [← horig, hrorigin]; exact hlive htarget
  · rw [← hblock, hnum]
  · rw [← hblock, hhash]

theorem Coherent.released_published (h : Coherent d s) (hparked : ∀ x ∈ released, s.deferred[x.1]? =
    some x.2 ∧ s'.deferred[x.1]? = none) (happlied : ∀ {key : Nat × BlockHash}, key ∈ s.applied →
    key ∈ s'.applied) (hdefer : ∀ {key : Nat × Nat} {row : DeferredRow}, s'.deferred[key]? =
    some row → (row.block.number, row.block.hash) ∈ s.applied → s.deferred[key]? = some row)
    (hjrnl : ∀ {key : Nat × BlockHash} {row : JournalRow}, key ∈ s.applied →
    s'.journal[key]? = some row → ∃ old, s.journal[key]? = some old ∧ old.undo = row.undo)
    (hr : r ∈ releasedRows d.defaultStreamId now level released) : Published d s' r := by
  obtain ⟨x, hx, _, hchgs, hblock, -, -⟩ := mem_releasedRows hr
  obtain ⟨hrow, hgone⟩ := hparked x hx
  obtain ⟨-, -, -, happ⟩ := h.parked hrow
  intro _ _
  rw [hblock]
  refine ⟨happlied happ, fun {key row} hrow' heq => ?_, fun undo hundo hnil => ?_⟩
  · have hold := hdefer hrow' (by rw [heq.1, heq.2]; exact happ)
    rw [h.once hold hrow heq.1 heq.2, hgone] at hrow'; cases hrow'
  · obtain ⟨old, hold, heq⟩ := hjrnl happ hundo
    rw [← heq] at hnil; exact hchgs (h.inverse hrow hold hnil)

/-! ## Applying -/

section Apply

variable {p : Processor} {env : Environment} {cursor : ProcessorCursor} {delta : EncodedDelta}
  {publish recovery : Bool} {streamId : String} {origin : DeliveryOrigin} {batch : MutationBatch}
  {inverse : List DomainChange} {o : Output} {pruned : PrunedOutput}

theorem length_mapM {ε α β : Type} {f : α → Except ε β} {as : List α} :
    ∀ {bs : List β}, as.mapM f = .ok bs → bs.length = as.length := by
  induction as with
  | nil =>
    intro bs h
    rw [mapM_nil, pure_eq_ok] at h
    subst h; rfl
  | cons a as ih =>
    intro bs h
    simp only [mapM_cons, eq_ok] at h
    obtain ⟨_, -, _, hbs', rfl⟩ := h; rw [length_cons, length_cons, ih hbs']

theorem inverse_ne_nil (hinverse : inverseChanges d cursor publish batch = .ok inverse)
    (hfin : cursor.finality ≠ .finalized) (hd : d.deliveryEnabled = true)
    (hpublish : publish = true) (hnil : inverse = []) : batch.changes = [] := by
  rw [inverseChanges, if_pos ⟨hfin, hd, hpublish⟩] at hinverse
  have hlen := length_mapM hinverse
  rw [hnil, length_reverse] at hlen; exact eq_nil_of_length_eq_zero hlen.symm

theorem applyOrigin_default (h : Settled d s) (horig : s.applyOrigin d d.defaultStreamId recovery =
    .ok origin) : origin = .live d.inst ∨ origin = .liveRecovery d.inst := by
  rw [applyOrigin, h.not_backfill, Bool.and_false, if_neg Bool.false_ne_true] at horig
  split at horig
  · exact .inr (Except.ok.inj horig).symm
  · exact .inl (Except.ok.inj horig).symm

theorem mem_ownRows (h : Settled d s) {now : Nat} {block : BlockRef} {chgs : List DomainChange}
    {r : ChangeRow} (hr : r ∈ ownRows d.defaultStreamId d s now streamId origin cursor block chgs) :
    d.deliveryEnabled = true ∧ streamId = d.defaultStreamId ∧ chgs ≠ [] ∧ r.block = block ∧
      r.origin = origin ∧ r.direction = .apply := by
  rw [ownRows] at hr
  split at hr
  · rename_i hd
    rcases mem_append.1 hr with hr | hr
    · rw [emitted] at hr
      split at hr
      · obtain ⟨_, hchg, rfl⟩ := mem_map.1 hr; exact ⟨hd, ‹_›, ne_nil_of_mem hchg, rfl, rfl, rfl⟩
      · cases hr
    · split at hr
      · rename_i hb
        rw [emitted] at hr
        split at hr
        · rename_i hid; rw [hid, h.not_backfill] at hb; cases hb
        · cases hr
      · cases hr
  · cases hr

variable {key : Nat × BlockHash}

section

variable (ha : Applies p env cursor delta publish streamId recovery origin batch inverse s s' o pruned)

include ha

theorem Applies.undo_eq {row : JournalRow} (hkey : key ∈ s.applied)
    (hrow : s'.journal[key]? = some row) : s.journal[key]? = some row := by
  rw [ha.journal] at hrow
  split at hrow
  · exact hrow
  · have hne : (delta.block.number, delta.block.hash) ≠ key := by
      rintro rfl; exact ha.fresh hkey
    rwa [getElem?_insert_of_ne _ _ hne] at hrow

theorem Applies.applied_mono (hkey : key ∈ s.applied) : key ∈ s'.applied := by
  rw [ha.applied, Table.mem_insert_iff]; exact .inr hkey

theorem Applies.self_applied : (delta.block.number, delta.block.hash) ∈ s'.applied := by
  rw [ha.applied, Table.mem_insert_iff]; exact .inl rfl

theorem Applies.deferred_cases {key : Nat × Nat}
    {row : DeferredRow} (hrow : s'.deferred[key]? = some row) : s.deferred[key]? =
    some row ∨ Store.Defers p.descriptor cursor publish ∧ key.1 = delta.block.number ∧ row =
    ⟨streamId, cursor.chainId, delta.block, origin, batch.changes⟩ ∧ s.deferred[key]? = none := by
  rw [ha.deferred] at hrow
  split at hrow
  · rename_i hdefer
    obtain ⟨_, hkey₀, hfresh, hdeferred⟩ :=
      park_spec s ⟨streamId, cursor.chainId, delta.block, origin, batch.changes⟩
    rw [hdeferred] at hrow
    rcases insert_cases hrow with ⟨hkey, hrow⟩ | ⟨-, hrow⟩
    · exact .inr ⟨hdefer, hkey ▸ hkey₀, hrow.symm, hkey ▸ hfresh⟩
    · exact .inl hrow
  · split at hrow
    · exact .inl (get?_deleteWhere_eq_some.1 hrow).1
    · exact .inl hrow

end

section

variable (h : Settled p.descriptor s)
  (ha : Applies p env cursor delta publish streamId recovery origin batch inverse s s' o pruned)

include h ha

theorem Settled.applyCoherent : Coherent p.descriptor s' where
  parked hrow := by
    rcases ha.deferred_cases hrow with hrow | ⟨hdefer, hkey, rfl, -⟩
    · obtain ⟨hkey, hd, horig, happ⟩ := h.coherent.parked hrow
      exact ⟨hkey, hd, horig, ha.applied_mono happ⟩
    · refine ⟨hkey, hdefer.2.1, fun htarget => ?_, ha.self_applied⟩
      have hprov := ha.provenance
      change streamId = _ at htarget; rw [htarget] at hprov; exact applyOrigin_default h hprov
  once hrow hrow' hnum hhash := by
    have hnew : ∀ {key : Nat × Nat} {row : DeferredRow}, s.deferred[key]? = some row →
        ¬ (row.block.number = delta.block.number ∧ row.block.hash = delta.block.hash) := by
      intro key row hrow heq
      apply ha.fresh
      rw [← heq.1, ← heq.2]; exact (h.coherent.parked hrow).2.2.2
    rcases ha.deferred_cases hrow with hold | ⟨hdefer, -, hself, hnone⟩
    · rcases ha.deferred_cases hrow' with hold' | ⟨-, -, rfl, -⟩
      · exact h.coherent.once hold hold' hnum hhash
      · exact absurd ⟨hnum, hhash⟩ (hnew hold)
    · rcases ha.deferred_cases hrow' with hold' | ⟨-, -, _, hnone'⟩
      · rw [hself] at hnum hhash; exact absurd ⟨hnum.symm, hhash.symm⟩ (hnew hold')
      · -- Only one row is new.
        have hdeferred := ha.deferred
        rw [if_pos hdefer] at hdeferred
        obtain ⟨key₀, -, -, hinsert⟩ :=
          park_spec s ⟨streamId, cursor.chainId, delta.block, origin, batch.changes⟩
        rw [hdeferred, hinsert, get?_insert_ite] at hrow hrow'
        split at hrow
        · split at hrow'
          · exact ‹_ = key₀›.trans ‹_ = key₀›.symm
          · rw [hnone'] at hrow'; cases hrow'
        · rw [hnone] at hrow; cases hrow
  journal {number hash row} hrow := by
    by_cases hkey : (number, hash) ∈ s.applied
    · obtain ⟨hnum, hhash, happ⟩ := h.coherent.journal (ha.undo_eq hkey hrow)
      exact ⟨hnum, hhash, ha.applied_mono happ⟩
    · rw [ha.journal] at hrow
      split at hrow
      · exact absurd (h.coherent.journal hrow).2.2 hkey
      · rw [get?_insert_ite] at hrow
        split at hrow
        · rename_i heq
          rw [Prod.mk.injEq] at heq
          obtain ⟨rfl, rfl⟩ := heq; cases hrow; exact ⟨rfl, rfl, ha.self_applied⟩
        · exact absurd (h.coherent.journal hrow).2.2 hkey
  inverse hrow hundo hnil := by
    rcases ha.deferred_cases hrow with hold | ⟨hdefer, -, rfl, -⟩
    · exact h.coherent.inverse hold (ha.undo_eq (h.coherent.parked hold).2.2.2 hundo) hnil
    · have hfin : cursor.finality ≠ .finalized := fun hf =>
        (hf ▸ hdefer.1).not_ge (Finality.le_finalized _)
      rw [ha.journal, if_neg hfin, getElem?_insert_self, some.injEq] at hundo
      rw [← hundo] at hnil; exact inverse_ne_nil ha.inverted hfin hdefer.2.1 hdefer.2.2 hnil

theorem Settled.applies : Advances p.descriptor s s' := by
  have hreld : ∀ x ∈ (if Store.ReleasesBelow p.descriptor cursor publish then
      s.parkedThrough (cursor.blockNumber - 1) else []),
      s.deferred[x.1]? = some x.2 ∧ s'.deferred[x.1]? = none := by
    intro x hx
    split at hx
    · rename_i hrel
      obtain ⟨hrow, hle⟩ := mem_rowsWhere.1 hx
      refine ⟨hrow, ?_⟩
      rw [ha.deferred, if_neg fun hd => not_releasesBelow hd hrel, if_pos hrel]
      exact get?_deleteWhere_of fun _ _ => hle
    · cases hx
  have hemits := ha.emits p.descriptor.defaultStreamId
  have hsplit : (if Store.ReleasesBelow p.descriptor cursor publish then
      releasedRows p.descriptor.defaultStreamId env.now cursor.finality
        (s.parkedThrough (cursor.blockNumber - 1)) else []) =
      releasedRows p.descriptor.defaultStreamId env.now cursor.finality
        (if Store.ReleasesBelow p.descriptor cursor publish then
          s.parkedThrough (cursor.blockNumber - 1) else []) := by
    split <;> rfl
  rw [hsplit] at hemits
  have hown : ∀ {r : ChangeRow}, r ∈ ownRows p.descriptor.defaultStreamId p.descriptor s env.now
      streamId origin cursor delta.block (if Store.Defers p.descriptor cursor publish then []
        else admittedChanges p.descriptor publish batch) →
      r.block = delta.block ∧ r.direction = .apply ∧ (r.origin = .live p.descriptor.inst ∨
        r.origin = .liveRecovery p.descriptor.inst) ∧
      ¬ Store.Defers p.descriptor cursor publish ∧ p.descriptor.deliveryEnabled = true ∧
      publish = true ∧ batch.changes ≠ [] := by
    intro r hr
    obtain ⟨hd, htarget, hchgs, hblk, horig, hdir⟩ := mem_ownRows h hr
    have hprov := ha.provenance
    rw [htarget] at hprov
    refine ⟨hblk, hdir, horig ▸ applyOrigin_default h hprov, ?_⟩
    split at hchgs
    · exact absurd rfl hchgs
    · rename_i hdefer
      rw [admittedChanges, hd, Bool.true_and] at hchgs
      split at hchgs
      · exact ⟨hdefer, hd, ‹_›, hchgs⟩
      · exact absurd rfl hchgs
  refine h.advance (h.applyCoherent ha) hemits.grows (fun last hlast => ?_)
    (fun _ last _ hp hdir horig => ?_) fun last _ _ hp hfst => ?_
  · rcases mem_append.1 hlast with hlast | hlast
    · refine h.coherent.released_published hreld (fun hkey => ha.applied_mono hkey)
        (fun hrow happ => ?_) (fun hkey hrow => ⟨_, ha.undo_eq hkey hrow, rfl⟩) hlast
      rcases ha.deferred_cases hrow with hrow | ⟨-, -, rfl, -⟩
      · exact hrow
      · exact absurd happ ha.fresh
    · obtain ⟨hblk, -, -, hdefer, hd, hpublish, hchgs⟩ := hown hlast
      intro _ _
      rw [hblk]
      refine ⟨ha.self_applied, fun hrow heq => ?_, fun row hrow hnil => hchgs ?_⟩
      · rcases ha.deferred_cases hrow with hrow | ⟨hdefer', -⟩
        · apply ha.fresh
          rw [← heq.1, ← heq.2]; exact (h.coherent.parked hrow).2.2.2
        · exact hdefer hdefer'
      · rw [ha.journal] at hrow
        split at hrow
        · exact absurd (h.coherent.journal hrow).2.2 ha.fresh
        · rename_i hfin
          rw [getElem?_insert_self, some.injEq] at hrow
          rw [← hrow] at hnil; exact inverse_ne_nil ha.inverted hfin hd hpublish hnil
  · obtain ⟨happ, hnot, hinv⟩ := hp hdir horig
    refine ⟨ha.applied_mono happ, fun hrow heq => ?_, fun row hrow => hinv row (ha.undo_eq happ hrow)⟩
    rcases ha.deferred_cases hrow with hrow | ⟨-, -, rfl, -⟩
    · exact hnot hrow heq
    · apply ha.fresh
      rw [heq.1, heq.2]; exact happ
  · rcases mem_append.1 (mem_of_mem_head? hfst) with hfst | hfst
    · exact h.coherent.released_ne (fun x hx => (hreld x hx).1) hp hfst
    · rintro ⟨hnum, hhash, -, hdir, horig⟩
      obtain ⟨hblk, hfdir, hlive, -⟩ := hown hfst
      apply ha.fresh
      rw [← hblk, hnum, hhash]; exact (hp (hdir.symm.trans hfdir) (horig ▸ hlive)).1

end

end Apply

/-! ## Undoing and raising finality -/

theorem Settled.enabled (h : Settled d s) (hnew : newest d s = some last) :
    d.deliveryEnabled = true := by
  cases hs : s.streams[d.defaultStreamId]? with
  | none =>
    rw [newest, hs] at hnew; cases hnew
  | some stream => exact (h.stream stream hs).2.1

variable {env : Environment}

theorem Settled.undoes (h : Settled d s) {cid num : Nat} {hash : BlockHash}
    {row : JournalRow} {o : Output} (hu : Undoes d env cid num hash row s s' o)
    (hsep : s.parkedOf num hash = [] → row.undo.inverseChanges ≠ [] → ¬ EndsWith d s (.live d.inst) row.undo.block (s.undoLevel num hash row.undo.finality) .undo) :
    Advances d s s' := by
  have happlied : ∀ {key : Nat × BlockHash}, key ∈ s'.applied ↔
      key ≠ (num, hash) ∧ key ∈ s.applied := by
    intro key; rw [hu.applied, mem_erase_iff]
  have hdefer : ∀ {key : Nat × Nat} {row : DeferredRow}, s'.deferred[key]? = some row →
      s.deferred[key]? = some row ∧ ¬ (row.block.number = num ∧ row.block.hash = hash) := by
    intro key row hrow
    rw [hu.deferred] at hrow
    split at hrow
    · obtain ⟨hrow, hp⟩ := get?_deleteWhere_eq_some.1 hrow
      refine ⟨hrow, fun heq => ?_⟩
      rw [(h.coherent.parked hrow).1, heq.1, heq.2, decide_eq_true rfl, decide_eq_true rfl] at hp
      cases hp
    · rename_i hd; exact absurd (h.coherent.parked hrow).2.1 hd
  have hjrnl : ∀ {key : Nat × BlockHash} {row : JournalRow}, s'.journal[key]? = some row →
      key ≠ (num, hash) ∧ s.journal[key]? = some row := by
    intro key row hrow
    rw [hu.journal, get?_erase_ite, ite_none_left_eq_some] at hrow; exact hrow
  have hrows : ∀ {r : ChangeRow}, r ∈ undoRows d.defaultStreamId d s env.now cid num hash
      row.undo → s.parkedOf num hash = [] ∧ row.undo.inverseChanges ≠ [] ∧
      r.direction = .undo ∧ r.block = row.undo.block ∧ r.origin = .live d.inst ∧
      r.finality = s.undoLevel num hash row.undo.finality := by
    intro r hr
    rw [undoRows, emitted_self] at hr
    split at hr
    · rename_i hparked
      obtain ⟨_, hchg, rfl⟩ := mem_map.1 hr
      exact ⟨hparked.2, ne_nil_of_mem hchg, rfl, rfl, rfl, rfl⟩
    · cases hr
  refine h.advance ?_ (hu.emits _).grows (fun last hlast => ?_)
    (fun hnil last hnew hp hdir horig => ?_) fun last _ hnew hp hfst hsame => ?_
  · exact {
      parked := fun {key row} hrow => by
        obtain ⟨hrow, hne⟩ := hdefer hrow
        obtain ⟨hkey, hd, horig, happ⟩ := h.coherent.parked hrow
        exact ⟨hkey, hd, horig, happlied.2 ⟨fun heq => hne (Prod.mk.injEq .. ▸ heq), happ⟩⟩
      once := fun hrow hrow' => h.coherent.once (hdefer hrow).1 (hdefer hrow').1
      journal := fun hrow => by
        obtain ⟨hne, hrow⟩ := hjrnl hrow
        obtain ⟨hnum, hhash, happ⟩ := h.coherent.journal hrow
        exact ⟨hnum, hhash, happlied.2 ⟨hne, happ⟩⟩
      inverse := fun hrow hundo => h.coherent.inverse (hdefer hrow).1 (hjrnl hundo).2 }
  · refine published_of_direction ?_
    rw [(hrows hlast).2.2.1]; exact nofun
  · obtain ⟨happ, hnot, hinv⟩ := hp hdir horig
    refine ⟨happlied.2 ⟨fun heq => ?_, happ⟩, fun hrow => hnot (hdefer hrow).1,
      fun row hrow => hinv row (hjrnl hrow).2⟩
    -- Undoing the block that ends the stream would have appended its inverse.
    rw [Prod.mk.injEq] at heq
    have hinverse := hinv row (by rw [heq.1, heq.2]; exact hu.journaled)
    have hparked : s.parkedOf num hash = [] := by
      rw [parkedOf, eq_nil_iff_forall_not_mem]
      rintro ⟨key, parked⟩ hmem
      obtain ⟨hrow, hp⟩ := mem_rowsWhere.1 hmem
      rw [Bool.and_eq_true, decide_eq_true_eq, decide_eq_true_eq, (h.coherent.parked hrow).1] at hp
      exact hnot hrow ⟨hp.1.trans heq.1.symm, hp.2.trans heq.2.symm⟩
    rw [undoRows, emitted_self, if_pos ⟨h.enabled hnew, hparked⟩, map_eq_nil_iff] at hnil
    exact hinverse hnil
  · obtain ⟨hparked, hinverse, hdir, hblock, horig, hlevel⟩ := hrows (mem_of_mem_head? hfst)
    obtain ⟨hnum, hhash, hfin, hdirection, hsrc⟩ := hsame
    refine hsep hparked hinverse ⟨last, hnew, ?_, ?_, ?_, ?_, ?_⟩
    · rw [← hnum, hblock]
    · rw [← hhash, hblock]
    · rw [← hfin, hlevel]
    · rw [← hdirection, hdir]
    · rw [← hsrc, horig]

variable {through : Nat}

theorem mem_markerRows {marks : Bool} {cursor : Option ProcessorCursor} {ctx : Option UndoRecord}
    (hr : r ∈ markerRows d.defaultStreamId d now through level marks cursor ctx) :
    marks = true ∧ cursor.isSome = true ∧ r.direction = .finalized ∧ r.finality = level ∧
      r.origin = .live d.inst ∧ ∃ undo, ctx = some undo ∧ r.block = undo.block := by
  unfold markerRows at hr
  split at hr
  · rename_i cursor undo
    split at hr
    · rename_i hmarks
      rw [emitted_self, map_singleton, mem_singleton] at hr
      subst hr
      rw [Bool.and_eq_true] at hmarks; exact ⟨hmarks.2, rfl, rfl, rfl, rfl, undo, rfl, rfl⟩
    · cases hr
  · cases hr

theorem Settled.raises (h : Settled d s) {holds marks : Bool}
    (hr : Raises d now through level holds marks s s')
    (hsep : MarkSeparate d s through level holds marks) : Advances d s s' := by
  have hdefer : ∀ {key : Nat × Nat} {row : DeferredRow}, s'.deferred[key]? = some row →
      s.deferred[key]? = some row := by
    intro key row hrow
    rw [hr.deferred] at hrow
    split at hrow
    · exact (get?_deleteWhere_eq_some.1 hrow).1
    · exact hrow
  have hreld : ∀ x ∈ (if holds && d.deliveryEnabled then s.parkedThrough through else []),
      s.deferred[x.1]? = some x.2 ∧ s'.deferred[x.1]? = none := by
    intro x hx
    split at hx
    · rename_i hrel
      obtain ⟨hrow, hle⟩ := mem_rowsWhere.1 hx
      refine ⟨hrow, ?_⟩
      rw [hr.deferred, if_pos hrel]; exact get?_deleteWhere_of fun _ _ => hle
    · cases hx
  have hemits := hr.emits d.defaultStreamId
  have hsplit : (if holds && d.deliveryEnabled then
      releasedRows d.defaultStreamId now level (s.parkedThrough through) else []) =
      releasedRows d.defaultStreamId now level
        (if holds && d.deliveryEnabled then s.parkedThrough through else []) := by
    split <;> rfl
  rw [hsplit] at hemits
  refine h.advance (h.coherent.congr hr.applied hdefer hr.undo_eq) hemits.grows (fun last hlast => ?_)
    (fun _ _ _ hp => hp.congr hr.applied hdefer hr.undo_eq) fun last first hnew hp hfst => ?_
  · rcases mem_append.1 hlast with hlast | hlast
    · exact h.coherent.released_published hreld (fun hkey => hr.applied ▸ hkey)
        (fun hrow _ => hdefer hrow) (fun _ hrow => hr.undo_eq hrow) hlast
    · refine published_of_direction ?_
      rw [(mem_markerRows hlast).2.2.1]; exact nofun
  · rcases mem_append.1 (mem_of_mem_head? hfst) with hmem | hmem
    · exact h.coherent.released_ne (fun x hx => (hreld x hx).1) hp hmem
    · obtain ⟨hmarks, hcur, hdir, hlevel, horig, undo, hundo, hblock⟩ := mem_markerRows hmem
      rintro ⟨hnum, hhash, hfin, hdirection, hsrc⟩
      refine hsep undo hcur hundo hmarks (fun hholds x hx htarget => ?_) ⟨last, hnew, ?_, ?_, ?_,
        ?_, ?_⟩
      · -- The first record is a change if anything is released.
        by_contra hchgs
        rw [hholds, h.enabled hnew, Bool.and_self, if_pos rfl] at hfst
        obtain ⟨chg, hchg⟩ := exists_mem_of_ne_nil _ hchgs
        have hin : changeRow now x.2.chainId x.2.origin x.2.block level .apply chg ∈
            releasedRows d.defaultStreamId now level (s.parkedThrough through) :=
          mem_flatMap.2 ⟨x, hx, by
            rw [emitted, if_pos htarget]; exact mem_map_of_mem hchg⟩
        cases hrel : releasedRows d.defaultStreamId now level (s.parkedThrough through) with
        | nil =>
          rw [hrel] at hin; cases hin
        | cons r rs =>
          rw [hrel, cons_append, head?_cons, some.injEq] at hfst
          have hmem' : r ∈ releasedRows d.defaultStreamId now level (s.parkedThrough through) := by
            rw [hrel]; exact mem_cons_self
          obtain ⟨-, -, -, -, -, happly, -⟩ := mem_releasedRows hmem'
          rw [hfst, hdir] at happly; cases happly
      · rw [← hnum, hblock]
      · rw [← hhash, hblock]
      · rw [← hfin, hlevel]
      · rw [← hdirection, hdir]
      · rw [← hsrc, horig]

/-! ## Notices, replays and what happens to a stream -/

theorem Settled.notices (h : Settled d s) {cid : Nat} {block : BlockRef} {skipped : BlockRange}
    {b : Bool} (hn : s.appendLiveGapNotice d env cid block skipped = .ok (s', b))
    (hsep : ¬ ((s.streams[d.defaultStreamId]?).any fun strm => noticeCovered strm block skipped) →
    ¬ EndsWith d s (.live d.inst) block .finalized .finalized) : Advances d s s' := by
  obtain ⟨⟨strms, rfl⟩, hemits⟩ := appendLiveGapNotice_spec d.defaultStreamId hn
  refine h.advance (h.coherent.congr rfl id fun hrow => ⟨_, hrow, rfl⟩) hemits.grows
    (fun last hlast => ?_) (fun _ _ _ hp => hp.congr rfl id fun hrow => ⟨_, hrow, rfl⟩)
    fun last _ hnew _ hfst hsame => ?_
  · rw [noticeRows, emitted_self] at hlast
    split at hlast
    · rw [map_singleton, mem_singleton] at hlast
      subst hlast; exact published_of_direction nofun
    · cases hlast
  · rw [noticeRows, emitted_self] at hfst
    split at hfst
    · rename_i hcov
      rw [map_singleton, head?_cons, some.injEq] at hfst
      subst hfst; exact hsep hcov.2 ⟨last, hnew, hsame⟩
    · cases hfst

variable {p : Processor}

theorem Settled.republishes (h : Settled p.descriptor s) {cursor : ProcessorCursor}
    {delta : EncodedDelta} {publ : Bool} {strmId : String} {bounds : Option Nat × Option Nat}
    (hr : s.republishBlockLocal p env cursor delta publ strmId = .ok (s', bounds))
    (hsep : ∀ batch, s.reduceBlock p cursor delta = .ok batch → publ = true → batch.changes ≠ [] → strmId = p.descriptor.defaultStreamId → ¬ EndsWith p.descriptor s ⟨.recompute, p.descriptor.inst, 0⟩ delta.block cursor.finality .apply) :
    Advances p.descriptor s s' := by
  obtain ⟨⟨_, rfl⟩, batch, origin, hbatch, horig, hemits⟩ :=
    republishBlockLocal_spec p.descriptor.defaultStreamId hr
  have hrows : ∀ {r : ChangeRow}, r ∈ replayRows p.descriptor.defaultStreamId s env.now strmId
      origin cursor delta.block (if publ then batch.changes else []) →
      strmId = p.descriptor.defaultStreamId ∧ publ = true ∧ batch.changes ≠ [] ∧
      r.block = delta.block ∧ r.finality = cursor.finality ∧ r.direction = .apply ∧
      r.origin = ⟨.recompute, p.descriptor.inst, 0⟩ := by
    intro r hr
    rw [replayRows] at hr
    by_cases htarget : strmId = p.descriptor.defaultStreamId
    · subst htarget
      rw [h.not_backfill, if_neg Bool.false_ne_true, append_nil, emitted_self] at hr
      obtain ⟨_, hchg, rfl⟩ := mem_map.1 hr
      rw [replayOrigin, h.not_backfill, if_neg Bool.false_ne_true, Except.ok.injEq] at horig
      split at hchg
      · exact ⟨rfl, ‹_›, ne_nil_of_mem hchg, rfl, rfl, rfl, horig.symm⟩
      · cases hchg
    · rw [emitted, emitted, if_neg htarget, if_neg htarget, ite_self, append_nil] at hr; cases hr
  refine h.advance (h.coherent.congr rfl id fun hrow => ⟨_, hrow, rfl⟩) hemits.grows
    (fun last hlast => ?_) (fun _ _ _ hp => hp.congr rfl id fun hrow => ⟨_, hrow, rfl⟩)
    fun last _ hnew _ hfst hsame => ?_
  · obtain ⟨-, -, -, -, -, -, hsrc⟩ := hrows hlast
    rintro - (hlive | hlive)
    · rw [hsrc] at hlive; cases hlive
    · rw [hsrc] at hlive; cases hlive
  · obtain ⟨htarget, hpublish, hchgs, hblock, hlevel, hdir, hsrc⟩ :=
      hrows (mem_of_mem_head? hfst)
    obtain ⟨hnum, hhash, hfin, hdirection, hsrc'⟩ := hsame
    refine hsep batch hbatch hpublish hchgs htarget ⟨last, hnew, ?_, ?_, ?_, ?_, ?_⟩
    · rw [← hnum, hblock]
    · rw [← hhash, hblock]
    · rw [← hfin, hlevel]
    · rw [← hdirection, hdir]
    · rw [← hsrc', hsrc]

theorem step_kind (strm : Stream) (event : Event) :
    (Delivery.step strm event).kind = strm.kind := by
  rcases step_cases strm event with ⟨_, _, _, _, _, _, _, _, s', -, happend, hstep, -⟩ |
    ⟨_, _, s', -, hprune, hstep, -⟩ | ⟨⟨consumers, hstep⟩, -⟩
  · rw [hstep, (appendChanges_frame happend).1]
  · rw [hstep]
    simp only [pruneChangesBefore, eq_ok, Prod.mk.injEq] at hprune
    obtain ⟨_, -, _, -, rfl, -⟩ := hprune; rfl
  · rw [hstep]

variable {event : Event}

theorem publishedBy_of_quiet (h : event.Quiet) : publishedBy stream event = [] := by
  cases event with
  | append => exact h.elim
  | _ => rfl

theorem Settled.observes (h : Settled d s) {strmId : String}
    (hquiet : event.Quiet) : Advances d s (s.onStream strmId event) := by
  unfold onStream
  cases hs : s.streams[strmId]? with
  | none => exact h.refl
  | some stream =>
    refine h.frame ⟨fun hnone => ?_, fun stream' log hs' hlog => ?_⟩ rfl rfl rfl
    · rw [getElem?_insert_of_ne _ _ fun heq => ?_, hnone]
      rw [heq, hnone] at hs; cases hs
    · rw [get?_insert_ite]
      split
      · rename_i heq
        rw [heq, hs, some.injEq] at hs'
        subst hs'
        obtain ⟨log', hlog', hhist⟩ := step_holds hlog event
        rw [publishedBy_of_quiet hquiet] at hhist
        exact ⟨_, log', rfl, step_kind stream event, hlog', hhist⟩
      · exact ⟨stream', log, hs', rfl, hlog, (append_nil _).symm⟩

theorem Settled.subscribes (h : Settled d s) (digest : String) (origin : DeliveryOrigin) :
    Advances d s (s.subscribe d digest origin) := by
  unfold subscribe
  split
  · exact h.refl
  · have hsame : (s.streams.insert (d.backfillStreamId digest) (.new .backfill))[d.defaultStreamId]? =
        s.streams[d.defaultStreamId]? :=
      getElem?_insert_of_ne _ _ (backfillStreamId_ne d digest)
    refine h.frame ⟨fun hnone => ?_, fun strm log hs hlog => ?_⟩ rfl rfl rfl
    · exact hsame.trans hnone
    · exact ⟨strm, log, hsame.trans hs, rfl, hlog, (append_nil _).symm⟩

/-! ## Every run -/

theorem settled_step (h : Settled p.descriptor s) {op : Operation} (hsep : op.Separate p s) :
    Advances p.descriptor s (step p s op) := by
  have happly : ∀ {env : Environment} {cursor : ProcessorCursor} {delta : EncodedDelta}
      {publ recov : Bool} {strmId : String} {out : Store × Store.ApplyOutcome},
      s.applyToStream p env cursor delta publ strmId recov = .ok out →
      Advances p.descriptor s out.1 := by
    rintro env cursor delta publ recov strmId ⟨_, _⟩ hout
    rcases applyToStream_spec hout with ⟨-, hs⟩ | ⟨-, _, _, _, _, _, ha⟩
    · rw [hs]; exact h.refl
    · exact h.applies ha
  cases op with
  | apply env cursor delta publ strmId =>
    change Advances p.descriptor s (commit s (s.applyToStream p env cursor delta publ strmId false))
    cases hout : s.applyToStream p env cursor delta publ strmId false with
    | error err => exact h.refl
    | ok out => exact happly hout
  | applyLiveRecovery env cursor delta =>
    change Advances p.descriptor s (commit s (s.applyLiveRecovery p env cursor delta))
    cases hout : s.applyLiveRecovery p env cursor delta with
    | error err => exact h.refl
    | ok out =>
      simp only [applyLiveRecovery, bind_eq_ok] at hout
      obtain ⟨-, -, hout⟩ := hout; exact happly hout
  | undo env chainId number hash =>
    change Advances p.descriptor s (commit s (s.undo p.descriptor env chainId number hash))
    cases hout : s.undo p.descriptor env chainId number hash with
    | error err => exact h.refl
    | ok out =>
      obtain ⟨row, _, hu⟩ := undo_spec hout; exact h.undoes hu (hsep row hu.journaled)
  | markAttested env through hash =>
    change Advances p.descriptor s (commit s (s.markAttested p.descriptor env through hash))
    cases hout : s.markAttested p.descriptor env through hash with
    | error err => exact h.refl
    | ok out => exact h.raises (markAttested_spec hout) hsep
  | markFinalized env through hash =>
    change Advances p.descriptor s (commit s (s.markFinalized p.descriptor env through hash))
    cases hout : s.markFinalized p.descriptor env through hash with
    | error err => exact h.refl
    | ok out => exact h.raises (markFinalized_spec hout) hsep
  | appendLiveGapNotice env chainId block skipped =>
    change Advances p.descriptor s
      (commit s (s.appendLiveGapNotice p.descriptor env chainId block skipped))
    cases hout : s.appendLiveGapNotice p.descriptor env chainId block skipped with
    | error err => exact h.refl
    | ok out => exact h.notices hout hsep
  | republish env cursor delta publ strmId =>
    change Advances p.descriptor s (commit s (s.republishBlockLocal p env cursor delta publ strmId))
    cases hout : s.republishBlockLocal p env cursor delta publ strmId with
    | error err => exact h.refl
    | ok out => exact h.republishes hout hsep
  | subscribe digest origin => exact h.subscribes digest origin
  | onStream strmId event quiet => exact h.observes quiet

theorem settled_registered (d : ProcessorDescriptor) : Settled d (.registered d) := by
  refine ⟨⟨fun h => (not_mem_empty h).elim, fun h => (not_mem_empty h).elim,
    fun h => (not_mem_empty h).elim, fun h => (not_mem_empty h).elim⟩,
    fun strm hs => ?_, fun _ hnew => ?_⟩
  · obtain rfl := registered_stream hs
    refine ⟨rfl, ?_, _, holds_new _⟩
    by_contra hd
    change (if d.deliveryEnabled = true then _ else _ : Table String Stream)[_]? = _ at hs
    rw [if_neg hd] at hs; exact not_mem_empty hs
  · cases hs : (registered d).streams[d.defaultStreamId]? with
    | none =>
      rw [newest, hs] at hnew; cases hnew
    | some strm =>
      obtain rfl := registered_stream hs; rw [newest_eq hs (holds_new _)] at hnew; cases hnew

variable {ops : List Operation}

theorem settled_run (h : Settled p.descriptor s) (hsep : RunSeparate p s ops) :
    Settled p.descriptor (run p s ops) := by
  induction ops generalizing s with
  | nil => exact h
  | cons op ops ih => exact ih (settled_step h hsep.1).settled hsep.2

theorem runSeparate_append {ops' : List Operation} :
    RunSeparate p s (ops ++ ops') ↔ RunSeparate p s ops ∧ RunSeparate p (run p s ops) ops' := by
  induction ops generalizing s with
  | nil => exact (true_and _).symm ▸ Iff.rfl
  | cons op ops ih =>
    change _ ∧ RunSeparate p _ (ops ++ ops') ↔ (_ ∧ RunSeparate p _ ops) ∧ _
    rw [ih, and_assoc]; rfl

theorem settled_endsCommit {seq : Nat} : ∀ {s : Store} {strm : Stream} {log : Log ChangeRow},
    Settled p.descriptor s → RunSeparate p s ops → s.streams[p.descriptor.defaultStreamId]? =
    some strm → Holds log strm → 0 < seq → seq ≤ log.head → EndsCommit log.history seq →
    ∃ strm' log', (run p s ops).streams[p.descriptor.defaultStreamId]? =
    some strm' ∧ Holds log' strm' ∧ EndsCommit log'.history seq := by
  induction ops with
  | nil =>
    intro s strm log _ _ hs hlog _ _ hends; exact ⟨strm, log, hs, hlog, hends⟩
  | cons op ops ih =>
    intro s strm log h hsep hs hlog hpos hle hends
    have hadvs := settled_step h hsep.1
    obtain ⟨_, log₁, rows, hs₁, hlog₁, hhist, hseparated⟩ := hadvs.stream strm log hs hlog
    refine ih hadvs.settled hsep.2 hs₁ hlog₁ hpos ?_ ?_
    · have hlen : log₁.head = log.head + rows.length := by
        rw [Log.head, hhist, length_append]; rfl
      omega
    · rw [hhist]; exact hends.append hpos hle hseparated

/-- In every run none of whose steps carries on a commit, a record that ended its commit when it
was delivered is never refused as the middle of a block afterwards. -/
theorem run_boundaries (p : Processor) (ops ops' : List Operation) (stream stream' : Stream)
    (seq : Nat) (r : ChangeRow)
    (hsep : RunSeparate p (.registered p.descriptor) (ops ++ ops'))
    (hs : (run p (.registered p.descriptor) ops).streams[p.descriptor.defaultStreamId]? = some stream)
    (hs' : (run p (.registered p.descriptor) (ops ++ ops')).streams[p.descriptor.defaultStreamId]? =
      some stream')
    (hr : stream.changeLog[seq]? = some r) (hlast : liveCommitContinuesAfter stream seq = none)
    (now : Nat) (consumerId : String) (session : Option Nat) (sequence block : Nat) :
    acknowledgeConsumer stream' now consumerId session seq ≠
      .error (.acknowledgementMidBlock sequence block) := by
  intro hack
  have hcontinues := acknowledgeConsumer_midBlock hack
  rw [runSeparate_append] at hsep
  have hsettled := settled_run (settled_registered p.descriptor) hsep.1
  obtain ⟨-, -, _, hlog⟩ := hsettled.stream stream hs
  have hb := hlog.bounds hr
  obtain ⟨_, _, ht, hlog', hends⟩ :=
    settled_endsCommit hsettled hsep.2 hs hlog (by omega) hb.2 (hlog.endsCommit hr hlast)
  rw [run_append, ht, some.injEq] at hs'
  subst hs'
  obtain ⟨-, x, y, hx, hy, hsame, -⟩ := hlog'.continues_iff.1 hcontinues
  exact hends x y hx hy hsame

/-! ## A notice and the marker after it -/

def silent : Processor where
  descriptor := {
    id := "silent"
    inst := "silent"
    version := "1"
    configHash := 0
    deltaVersion := 1
    mode := .blockLocal
    deliveryOrdering := .blockVersionedIdempotent
    publication := .unattested
    delivery := .untilAcknowledged
    output := ⟨.none, none⟩
    undoMode := .unfinalized
    safetyBlocks := 0 }
  calculateChecksum _ := 0
  reduce _ _ := .done []

def noticed : List Operation :=
  let env : Environment := ⟨0, fun _ => 0, none⟩
  let block : BlockRef := ⟨5, 5, 4, 0⟩
  let consumer : Consumer := ⟨.required, .active, 0, 0, 0, 0, 0, 0⟩
  [.apply env ⟨"silent", "1", 1, 5, 5, .unattested, 0⟩ ⟨"silent", "1", 0, 1, 1, block, [], 0⟩ true
      "silent:live",
    .onStream "silent:live" (.manage ((∅ : Table String Consumer).insert "reader" consumer)) trivial,
    .appendLiveGapNotice env 1 block ⟨1, 4, by decide, by decide⟩,
    .onStream "silent:live" (.recordDelivery 0 "reader" none 1) trivial]

def failure {α : Type} (r : Except StoreError α) : Option StoreError :=
  match r with
  | .error e => some e
  | .ok _ => none

theorem failure_eq_some {α : Type} {r : Except StoreError α} {e : StoreError} :
    failure r = some e ↔ r = .error e := by
  cases r <;> simp [failure]

/-- Finality then reaches block 5, and its marker joins the notice's commit: the consumer can no
longer acknowledge the notice it was delivered. -/
theorem run_boundaries_noticeThenMarker :
    ∃ stream r stream',
      (run silent (.registered silent.descriptor) noticed).streams[
        silent.descriptor.defaultStreamId]? = some stream ∧
      (run silent (.registered silent.descriptor)
        (noticed ++ [.markFinalized ⟨0, fun _ => 0, none⟩ 5 5])).streams[
        silent.descriptor.defaultStreamId]? = some stream' ∧
      stream.changeLog[1]? = some r ∧ liveCommitContinuesAfter stream 1 = none ∧
      acknowledgeConsumer stream' 0 "reader" none 1 = .error (.acknowledgementMidBlock 1 5) := by
  have hbefore : ((run silent (.registered silent.descriptor) noticed).streams[
      silent.descriptor.defaultStreamId]?).map (fun stream =>
        (stream.changeLog[1]?.isSome, liveCommitContinuesAfter stream 1)) = some (true, none) := by
    decide +kernel
  have hafter : ((run silent (.registered silent.descriptor)
      (noticed ++ [.markFinalized ⟨0, fun _ => 0, none⟩ 5 5])).streams[
      silent.descriptor.defaultStreamId]?).bind (fun stream =>
        failure (acknowledgeConsumer stream 0 "reader" none 1)) =
      some (.acknowledgementMidBlock 1 5) := by decide +kernel
  obtain ⟨stream, hs, hbefore⟩ := map_eq_some_iff.1 hbefore
  obtain ⟨stream', hs', hafter⟩ := bind_eq_some_iff.1 hafter
  rw [Prod.mk.injEq] at hbefore
  obtain ⟨r, hr⟩ := isSome_iff_exists.1 hbefore.1
  exact ⟨stream, r, stream', hs, hs', hr, hbefore.2, failure_eq_some.1 hafter⟩

/-- The announcement before another block is a commit of its own. -/
theorem run_boundaries_twoNotices :
    ∃ stream stream',
      (run silent (.registered silent.descriptor) noticed).streams[
        silent.descriptor.defaultStreamId]? = some stream ∧
      (run silent (.registered silent.descriptor) (noticed ++
        [.appendLiveGapNotice ⟨0, fun _ => 0, none⟩ 1 ⟨8, 8, 7, 0⟩ ⟨6, 7, by decide, by decide⟩])).streams[
        silent.descriptor.defaultStreamId]? = some stream' ∧
      acknowledgeConsumer stream' 0 "reader" none 1 ≠ .error (.acknowledgementMidBlock 1 5) := by
  have hbefore : ((run silent (.registered silent.descriptor) noticed).streams[
      silent.descriptor.defaultStreamId]?).map (fun stream =>
        (stream.changeLog[1]?.isSome, liveCommitContinuesAfter stream 1)) = some (true, none) := by
    decide +kernel
  have hafter : ((run silent (.registered silent.descriptor) (noticed ++
      [.appendLiveGapNotice ⟨0, fun _ => 0, none⟩ 1 ⟨8, 8, 7, 0⟩ ⟨6, 7, by decide, by decide⟩])).streams[
      silent.descriptor.defaultStreamId]?).isSome = true := by decide +kernel
  obtain ⟨stream, hs, hbefore⟩ := map_eq_some_iff.1 hbefore
  obtain ⟨stream', hs'⟩ := isSome_iff_exists.1 hafter
  rw [Prod.mk.injEq] at hbefore
  obtain ⟨r, hr⟩ := isSome_iff_exists.1 hbefore.1
  refine ⟨stream, stream', hs, hs', run_boundaries silent noticed _ stream stream' 1 r ?_ hs hs' hr
    hbefore.2 0 "reader" none 1 5⟩
  refine ⟨trivial, trivial, ?_, trivial, ?_, trivial⟩
  · change ¬ _ → ¬ _; decide +kernel
  · change ¬ _ → ¬ _; decide +kernel

end Leani.Processor
