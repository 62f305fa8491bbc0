import Leani.Delivery.Model
import Leani.Library.Log

/-!
# Retention of a delivery stream

Pruning and reading a stream, and what any interleaving of publications, acknowledgements and
pruning passes leaves in it. A stream holds a log: the records published so far, less a prefix that
ends where a block ends and that every active required consumer has acknowledged.
-/

namespace Leani.Delivery

open Library Std List Table ChangeRow Stream

def protectedSequence (s : Stream) : Option Nat :=
  ((Table.rowsWhere s.consumers fun _ consumer =>
      consumer.role = .required && consumer.state = .active).map fun row =>
    if row.2.acknowledgedSequence = i64Max then row.2.acknowledgedSequence
    else row.2.acknowledgedSequence + 1).min?

def retentionBound (s : Stream) (requestedBefore : Nat) : Nat :=
  let effective := (protectedSequence s).elim requestedBefore (min requestedBefore)
  (latestSequence s).elim effective (min effective)

/-- Move a boundary inside a block's records back to the first of them. A block's first and last
record are looked up by its number, so records of other blocks may stand between them. -/
def wholeBlockBoundary (s : Stream) (effective : Nat) : Nat :=
  match Table.lastWhere s.changeLog fun seq _ => seq < effective with
  | none => effective
  | some (_, trailing) =>
    match Table.firstWhere s.changeLog fun _ r => r.block.number = trailing.block.number,
      Table.lastWhere s.changeLog fun _ r => r.block.number = trailing.block.number with
    | some (blockFirst, _), some (blockLast, _) =>
      if effective ≤ blockLast then min effective blockFirst else effective
    | _, _ => effective

structure ChangePruneOutcome where
  requestedBefore : Nat
  effectiveBefore : Nat
  deleted : Nat
  deriving DecidableEq

def pruneChangesBefore (s : Stream) (requestedBefore : Nat) :
    Except StoreError (Stream × ChangePruneOutcome) := do
  let bound ← u64I64 (retentionBound s requestedBefore) "effective prune sequence"
  -- The boundary only moves down from here, so binding it again does not fail.
  let effective := if 0 < bound then wholeBlockBoundary s bound else bound
  let deletedThrough := (Table.lastWhere s.changeLog fun seq _ => seq < effective).map (·.1)
  let deleted := Table.rowsWhere s.changeLog fun seq _ => seq < effective
  let prunedBytes : Nat := (deleted.map fun row => row.2.bytes).sum
  let pruned : Stream := { s with
    changeLog := Table.deleteWhere s.changeLog fun seq _ => seq < effective
    prunedThroughSequence :=
      deletedThrough.elim s.prunedThroughSequence (max s.prunedThroughSequence)
    liveBytes := s.liveBytes - prunedBytes }
  ensure (0 ≤ pruned.liveBytes) (.numeric "delivery live bytes")
  pure (pruned, ⟨requestedBefore, effective, deleted.length⟩)

def consumerReadIsRetained (s : Stream) (consumerId : String) (after : Nat) :
    Except StoreError Bool := do
  let consumer ← required s.consumers[consumerId]? (.consumerNotFound consumerId)
  ensure (consumer.state = .active) (.consumerInactive consumerId consumer.state)
  ensure (consumer.acknowledgedSequence ≤ after)
    (.acknowledgementBackwards after consumer.acknowledgedSequence)
  pure (decide (s.prunedThroughSequence ≤ consumer.acknowledgedSequence))

/-- `decode_change_rows`: the rows have to belong to the chain the reader asks for. -/
def decodeChangeRows (chainId : Nat) (rows : List (Nat × ChangeRow)) :
    Except StoreError (List (Nat × ChangeRow)) :=
  match rows.find? fun row => row.2.chainId ≠ chainId with
  | some row => .error (.invariant
      ("processor change belongs to chain " ++ toString row.2.chainId ++ ", requested " ++
        toString chainId))
  | none => .ok rows

/-- The read transaction of `consumer_changes_after_in_stream`; `none` when pruning overtook the
acknowledgement, after which the loop marks the consumer and, if that no longer applies, reads
again. -/
def readPage (s : Stream) (consumerId : String) (chainId after limit : Nat) :
    Except StoreError (Option (List (Nat × ChangeRow))) := do
  let retained ← consumerReadIsRetained s consumerId after
  if retained then do
    ensure (0 < limit ∧ limit ≤ 10000) (.invalidConfig "change limit must be in 1..=10000")
    let after ← u64I64 after "sequence"
    let rows := (Table.rowsWhere s.changeLog fun seq _ => after < seq).take limit
    some <$> decodeChangeRows chainId rows
  else pure none

/-- The write of the same loop: a consumer that is still active and still behind needs a reset. The
error is what the reader gets. -/
def markResetRequired (s : Stream) (consumerId : String) : Stream × Option StoreError :=
  match s.consumers[consumerId]? with
  | none => (s, none)
  | some consumer =>
    if consumer.state = .active ∧ consumer.acknowledgedSequence < s.prunedThroughSequence then
      let marked := { consumer with state := .resetRequired }
      ({ s with consumers := s.consumers.insert consumerId marked },
        some (.consumerResetRequired ((Table.firstWhere s.changeLog fun _ _ => true).map (·.1))
          (latestSequence s)))
    else (s, none)

inductive Event where
  | append (now chainId : Nat) (origin : DeliveryOrigin) (block : BlockRef) (finality : Finality)
      (direction : ChangeDirection) (changes : List DomainChange)
  | acknowledge (now : Nat) (consumerId : String) (session : Option Nat) (sequence : Nat)
  | prune (requestedBefore : Nat)
  | recordDelivery (now : Nat) (consumerId : String) (session : Option Nat) (sequence : Nat)
  | markReset (consumerId : String)
  /-- Registration, sessions, revocation, expiry: whatever else rewrites `durable_consumers`. -/
  | manage (consumers : Table String Consumer)

def step (s : Stream) : Event → Stream
  | .append now chainId origin block finality direction changes =>
    commit s (appendChanges s now chainId origin block finality direction changes)
  | .acknowledge now consumerId session sequence =>
    commit s (acknowledgeConsumer s now consumerId session sequence)
  | .prune requestedBefore => commit s (pruneChangesBefore s requestedBefore)
  | .recordDelivery now consumerId session sequence =>
    commit s (recordConsumerDelivery s now consumerId session sequence)
  | .markReset consumerId => (markResetRequired s consumerId).1
  | .manage consumers => { s with consumers := consumers }

def publishedBy (s : Stream) : Event → List ChangeRow
  | .append now chainId origin block finality direction changes =>
    match appendChanges s now chainId origin block finality direction changes with
    | .ok _ => changes.map (changeRow now chainId origin block finality direction)
    | .error _ => []
  | _ => []

def run (s : Stream) (es : List Event) : Stream := es.foldl step s

def published : Stream → List Event → List ChangeRow
  | _, [] => []
  | s, e :: es => publishedBy s e ++ published (step s e) es

/-- What a stream keeps of the records `all` that were ever published on it. -/
structure Retains (s : Stream) (all : List ChangeRow) : Prop where
  dense : ∀ seq, (s.changeLog[seq]?).isSome ↔
    s.prunedThroughSequence + 1 ≤ seq ∧ seq ≤ s.nextSequence - 1
  faithful : ∀ seq r, s.changeLog[seq]? = some r → all[seq - 1]? = some r
  next : s.nextSequence = all.length + 1
  newest : 0 < all.length → s.changeLog[all.length]? = all[all.length - 1]?
  liveBytes : s.liveBytes = ((s.changeLog.toList.map fun row => row.2.bytes).sum : Nat)
  commits : ∀ first last,
    0 < first → (∀ seq, first ≤ seq → seq < last → ∃ r r', all[seq - 1]? = some r ∧ all[seq]? =
    some r' ∧ r.SameCommit r') → last ≤ s.prunedThroughSequence ∨ s.prunedThroughSequence < first

structure Holds (log : Log ChangeRow) (s : Stream) : Prop where
  next : s.nextSequence = log.head + 1
  pruned : s.prunedThroughSequence = log.pruned
  entries : ∀ seq, s.changeLog[seq]? = log.row? seq
  liveBytes : s.liveBytes = ((log.kept.map ChangeRow.bytes).sum : Nat)
  newest : 0 < log.head → log.pruned < log.head
  whole : log.Whole ChangeRow.SameCommit

variable {log : Log ChangeRow} {s s' : Stream}

theorem holds_new (kind : DeliveryStreamKind) : Holds Log.empty (new kind) where
  next := rfl
  pruned := rfl
  entries seq := by
    change (∅ : Table Nat ChangeRow)[seq]? = _
    rw [ExtTreeMap.getElem?_empty, Log.row?]
    split <;> rfl
  liveBytes := rfl
  newest h := absurd h (Nat.lt_irrefl 0)
  whole := Log.whole_empty

theorem Holds.withConsumers (h : Holds log s) (consumers : Table String Consumer) :
    Holds log { s with consumers := consumers } :=
  ⟨h.next, h.pruned, h.entries, h.liveBytes, h.newest, h.whole⟩

theorem numbered_ordered (a : Nat) (rs : List ChangeRow) :
    (numbered a rs).Pairwise fun x y => compare x.1 y.1 = .lt :=
  (numbered_sorted rs a).imp Nat.compare_eq_lt.2

theorem Holds.rows_after (h : Holds log s) {n : Nat} (hn : log.pruned ≤ n) :
    (rowsWhere s.changeLog fun seq _ => n < seq) = numbered (n + 1) (log.history.drop n) := by
  refine rowsWhere_eq (numbered_ordered ..) fun _ _ => ?_
  rw [Log.mem_numbered_drop hn, h.entries, decide_eq_true_eq]

theorem Holds.rows_below (h : Holds log s) (e : Nat) : (rowsWhere s.changeLog fun seq _ => seq < e) =
      numbered (log.pruned + 1) (log.kept.take (e - 1 - log.pruned)) := by
  refine rowsWhere_eq (numbered_ordered ..) fun _ _ => ?_
  rw [mem_numbered, h.entries, decide_eq_true_eq, getElem?_take]
  constructor
  · rintro ⟨hk, hr⟩
    rw [Option.ite_none_right_eq_some] at hr
    obtain ⟨hlt, hr⟩ := hr
    exact ⟨((Log.mem_numbered_drop le_rfl).1 (mem_numbered.2 ⟨hk, hr⟩)).1, by omega⟩
  · rintro ⟨hr, hlt⟩
    have hk := (Log.row?_eq_some hr).1
    have hmem := mem_numbered.1 ((Log.mem_numbered_drop le_rfl).2 ⟨hr, hk⟩)
    exact ⟨hmem.1, by rw [if_pos (by omega)]; exact hmem.2⟩

theorem Holds.toList (h : Holds log s) : s.changeLog.toList = numbered (log.pruned + 1) log.kept := by
  have hall : (rowsWhere s.changeLog fun _ _ => true) = s.changeLog.toList :=
    filter_eq_self.2 fun _ _ => rfl
  rw [← hall]
  refine rowsWhere_eq (numbered_ordered ..) fun _ _ => ?_
  rw [Log.kept, Log.mem_numbered_drop le_rfl, h.entries]
  exact and_congr_right fun hr => ⟨fun _ => rfl, fun _ => (Log.row?_eq_some hr).1⟩

theorem sum_bytes_numbered (a : Nat) (rs : List ChangeRow) :
    ((numbered a rs).map fun row => row.2.bytes).sum = (rs.map bytes).sum := by
  have e := congrArg (map bytes) (map_snd_numbered rs a)
  rw [map_map] at e; exact congrArg List.sum e

theorem appendRow_eq_ok {st st' : Appending} {row : ChangeRow} (h : appendRow st row = .ok st') :
    st' = {
      changeLog := st.changeLog.insert st.nextSequence row
      nextSequence := st.nextSequence + 1
      appendedBytes := st.appendedBytes + row.bytes
      first := st.first.or (some st.nextSequence)
      last := some st.nextSequence } := by
  simp only [appendRow, eq_ok, u64I64_eq_ok] at h
  obtain ⟨_, -, _, -, _, -, _, -, _, -, _, -, _, -, _, -, _, -, rfl⟩ := h; rfl

structure AppendingHolds (log : Log ChangeRow) (bytes : Nat) (st : Appending) : Prop where
  next : st.nextSequence = log.head + 1
  entries : ∀ seq, st.changeLog[seq]? = log.row? seq
  appendedBytes : st.appendedBytes = bytes

theorem AppendingHolds.appendRow {bytes : Nat} {st st' : Appending} {row : ChangeRow}
    (h : AppendingHolds log bytes st) (hrow : appendRow st row = .ok st') :
    AppendingHolds (log.append [row]) (bytes + row.bytes) st' := by
  rw [appendRow_eq_ok hrow]
  refine ⟨?_, fun _ => ?_, ?_⟩
  · rw [Log.head_append, h.next]; rfl
  · rw [get?_insert_ite, Log.row?_append, h.next, h.entries]
  · rw [h.appendedBytes]

theorem AppendingHolds.rows {rows : List ChangeRow} : ∀ {log : Log ChangeRow} {bytes : Nat}
    {st st' : Appending}, AppendingHolds log bytes st → foldExcept Delivery.appendRow st rows =
    .ok st' → AppendingHolds (log.append rows) (bytes + (rows.map ChangeRow.bytes).sum) st' := by
  induction rows with
  | nil =>
    intro log bytes st st' h hrows
    rw [foldExcept_nil, Except.ok.injEq] at hrows
    subst hrows; rw [Log.append_nil]; exact h
  | cons row rows ih =>
    intro log bytes st st' h hrows
    rw [foldExcept_cons, bind_eq_ok] at hrows
    obtain ⟨_, hrow, hrows⟩ := hrows
    have := ih (h.appendRow hrow) hrows
    rw [Log.append_append, singleton_append] at this
    rw [map_cons, sum_cons, ← Nat.add_assoc]; exact this

variable {now chainId : Nat}

theorem appendChanges_frame {origin : DeliveryOrigin} {block : BlockRef} {fin : Finality}
    {dir : ChangeDirection} {chgs : List DomainChange} {bounds : Option Nat × Option Nat}
    (happend : appendChanges s now chainId origin block fin dir chgs = .ok (s', bounds)) :
    s'.kind = s.kind ∧ s'.consumers = s.consumers := by
  simp only [appendChanges, eq_ok, Prod.mk.injEq] at happend
  obtain ⟨_, -, _, -, rfl, -⟩ := happend; exact ⟨rfl, rfl⟩

theorem appendChanges_holds {origin : DeliveryOrigin} {block : BlockRef} {fin : Finality}
    {dir : ChangeDirection} {chgs : List DomainChange} {bounds : Option Nat × Option Nat}
    (h : Holds log s)
    (happend : appendChanges s now chainId origin block fin dir chgs = .ok (s', bounds)) :
    Holds (log.append (chgs.map (changeRow now chainId origin block fin dir))) s' := by
  simp only [appendChanges, eq_ok, Prod.mk.injEq] at happend
  obtain ⟨_, hst, appendedBytes, hbytes, rfl, -⟩ := happend
  obtain ⟨-, rfl⟩ := u64I64_eq_ok.1 hbytes
  have hrows := AppendingHolds.rows ⟨h.next, h.entries, rfl⟩ hst
  refine ⟨hrows.next, h.pruned, hrows.entries, ?_, fun hhead => ?_, ?_⟩
  · have hlive := h.liveBytes
    have happended := hrows.appendedBytes
    rw [Log.kept_append, map_append, sum_append, hlive, happended]
    push_cast
    omega
  · rw [Log.head_append] at hhead ⊢
    change log.pruned < _
    have := h.newest
    have : log.pruned ≤ log.head := log.pruned_le; omega
  · apply h.whole.append
    have : log.pruned ≤ log.head := log.pruned_le
    have := h.newest; omega

variable {seq : Nat}

theorem Holds.exists_row (h : Holds log s) (hp : log.pruned < seq) (hh : seq ≤ log.head) :
    ∃ r, s.changeLog[seq]? = some r := by
  rw [h.entries]; exact Option.isSome_iff_exists.1 (Log.row?_isSome_iff.2 ⟨hp, hh⟩)

variable {r : ChangeRow}

theorem Holds.bounds (h : Holds log s) (hr : s.changeLog[seq]? = some r) :
    log.pruned < seq ∧ seq ≤ log.head := by
  rw [h.entries] at hr; exact Log.row?_eq_some hr

theorem le_of_eq_or_compare {a b : Nat} (h : a = b ∨ compare a b = .lt) : a ≤ b := by
  rcases h with rfl | h
  · exact le_rfl
  · exact Nat.le_of_lt (Nat.compare_eq_lt.1 h)

theorem Holds.latestSequence (h : Holds log s) :
    latestSequence s = if log.head = 0 then none else some log.head := by
  unfold Delivery.latestSequence
  by_cases h0 : log.head = 0
  · rw [if_pos h0, Option.map_eq_none_iff, lastWhere_eq_none]
    intro _ r hr _
    have := h.bounds hr; omega
  · rw [if_neg h0]
    obtain ⟨r, hr⟩ := h.exists_row (h.newest (Nat.pos_of_ne_zero h0)) le_rfl
    cases hlast : lastWhere s.changeLog fun _ _ => true with
    | none => exact absurd rfl (lastWhere_eq_none.1 hlast _ _ hr)
    | some row =>
      obtain ⟨hrow, -, hmax⟩ := lastWhere_eq_some hlast
      have h₁ := (h.bounds hrow).2
      have h₂ := le_of_eq_or_compare (hmax _ _ hr rfl); rw [Option.map_some, Nat.le_antisymm h₁ h₂]

theorem Holds.deletedThrough (h : Holds log s) (e : Nat) :
    ((lastWhere s.changeLog fun seq _ => seq < e).map (·.1)).elim s.prunedThroughSequence
      (max s.prunedThroughSequence) = max log.pruned (min (e - 1) log.head) := by
  rw [h.pruned]
  cases hlast : lastWhere s.changeLog fun seq _ => seq < e with
  | none =>
    have hnone := lastWhere_eq_none.1 hlast
    change log.pruned = _
    rcases Nat.lt_or_ge log.pruned (min (e - 1) log.head) with hlt | _
    · obtain ⟨r, hr⟩ := h.exists_row hlt (Nat.min_le_right ..)
      exact absurd (decide_eq_true (by omega)) (hnone _ _ hr)
    · omega
  | some row =>
    obtain ⟨hrow, hlt, hmax⟩ := lastWhere_eq_some hlast
    rw [decide_eq_true_eq] at hlt
    have hb := h.bounds hrow
    change max log.pruned row.1 = _
    obtain ⟨r, hr⟩ := h.exists_row (show log.pruned < min (e - 1) log.head by omega)
      (Nat.min_le_right ..)
    have hle := le_of_eq_or_compare (hmax _ _ hr (decide_eq_true (by omega))); omega

theorem wholeBlockBoundary_le (s : Stream) (e : Nat) : wholeBlockBoundary s e ≤ e := by
  unfold wholeBlockBoundary
  split
  · exact le_rfl
  · split
    · split
      · exact Nat.min_le_left ..
      · exact le_rfl
    · exact le_rfl

theorem wholeBlockBoundary_eq {e : Nat} {trailing blockFirst blockLast : Nat × ChangeRow}
    (htrailing : (lastWhere s.changeLog fun seq _ => seq < e) = some trailing)
    (hfst : (firstWhere s.changeLog fun _ r =>
      r.block.number = trailing.2.block.number) = some blockFirst)
    (hlast : (lastWhere s.changeLog fun _ r =>
      r.block.number = trailing.2.block.number) = some blockLast) :
    wholeBlockBoundary s e = if e ≤ blockLast.1 then min e blockFirst.1 else e := by
  simp only [wholeBlockBoundary, htrailing, hfst, hlast]

theorem Holds.wholeBlockBoundary (h : Holds log s) {e : Nat} (he : e ≤ log.head) {r' : ChangeRow}
    (hr : s.changeLog[wholeBlockBoundary s e - 1]? = some r)
    (hr' : s.changeLog[wholeBlockBoundary s e]? = some r') : r.block.number ≠ r'.block.number := by
  have hb := h.bounds hr
  have hle := wholeBlockBoundary_le s e
  obtain ⟨_, hx⟩ := h.exists_row (show log.pruned < e - 1 by omega) (by omega)
  obtain ⟨trailing, htrailing⟩ :=
    exists_lastWhere (p := fun seq _ => seq < e) hx (decide_eq_true (by omega))
  obtain ⟨hrow, hlt, hmax⟩ := lastWhere_eq_some htrailing
  obtain ⟨blockFirst, hfirst⟩ := exists_firstWhere
    (p := fun _ r => r.block.number = trailing.2.block.number) hrow (decide_eq_true rfl)
  obtain ⟨_, hlast⟩ := exists_lastWhere
    (p := fun _ r => r.block.number = trailing.2.block.number) hrow (decide_eq_true rfl)
  obtain ⟨hf, hfn, hmin⟩ := firstWhere_eq_some hfirst
  obtain ⟨_, -, hmax'⟩ := lastWhere_eq_some hlast
  rw [decide_eq_true_eq] at hlt hfn
  have htop := le_of_eq_or_compare (hmax _ _ hx (decide_eq_true (by omega)))
  have htop : e - 1 = trailing.1 := by omega
  have hfirst_le := le_of_eq_or_compare ((hmin _ _ hrow (decide_eq_true rfl)).imp_left Eq.symm)
  rw [wholeBlockBoundary_eq htrailing hfirst hlast] at hr hr' hb
  intro hsame
  split at hr
  · rename_i hinside
    -- The boundary is the block's first record, yet the one before it is of that block too.
    have e₁ : min e blockFirst.1 = blockFirst.1 := by omega
    rw [if_pos hinside, e₁, hf, Option.some.injEq] at hr'
    rw [if_pos hinside, e₁] at hb
    rw [e₁] at hr
    subst hr'
    have := le_of_eq_or_compare ((hmin _ _ hr (decide_eq_true (hsame.trans hfn))).imp_left Eq.symm)
    omega
  · rename_i hbehind
    -- The boundary is behind the block's last record, yet the one at it is of that block too.
    rw [if_neg hbehind] at hr'
    rw [htop, hrow, Option.some.injEq] at hr
    subst hr
    have := le_of_eq_or_compare (hmax' _ _ hr' (decide_eq_true hsame.symm)); omega

variable {id : String} {consumer : Consumer}

theorem le_acknowledged_of_lt_retentionBound {reqBefore : Nat}
    (hseq : seq < retentionBound s reqBefore) (hc : s.consumers[id]? = some consumer)
    (hrole : consumer.role = .required) (hst : consumer.state = .active) :
    seq ≤ consumer.acknowledgedSequence := by
  have hmem : (id, consumer) ∈ rowsWhere s.consumers fun _ consumer =>
      consumer.role = .required && consumer.state = .active := by
    rw [mem_rowsWhere]; exact ⟨hc, by rw [hrole, hst]; rfl⟩
  have hle : retentionBound s reqBefore ≤ (protectedSequence s).elim reqBefore (min reqBefore) := by
    unfold retentionBound
    cases latestSequence s with
    | none => exact le_rfl
    | some latest => exact Nat.min_le_left ..
  cases hp : protectedSequence s with
  | none =>
    rw [protectedSequence, min?_eq_none_iff, map_eq_nil_iff] at hp; rw [hp] at hmem; cases hmem
  | some p =>
    have hmin := (min?_eq_some_iff.1 hp).2 _ (mem_map_of_mem hmem)
    rw [hp] at hle
    change retentionBound s reqBefore ≤ min reqBefore p at hle
    dsimp only at hmin
    split at hmin <;> omega

theorem pruneChangesBefore_holds {reqBefore : Nat} {outcome : ChangePruneOutcome}
    (h : Holds log s) (hprune : pruneChangesBefore s reqBefore = .ok (s', outcome)) :
    outcome.effectiveBefore ≤ retentionBound s reqBefore ∧
    (∀ seq, s'.changeLog[seq]? = if seq < outcome.effectiveBefore then none else s.changeLog[seq]?) ∧
    Holds (log.cut (min (outcome.effectiveBefore - 1) log.head) (Nat.min_le_right ..)) s' := by
  simp only [pruneChangesBefore, eq_ok, u64I64_eq_ok, Prod.mk.injEq] at hprune
  obtain ⟨bound, ⟨-, rfl⟩, _, -, rfl, rfl⟩ := hprune
  have hlatest : retentionBound s reqBefore ≤ log.head ∨ log.head = 0 := by
    unfold retentionBound
    rw [h.latestSequence]
    split
    · exact .inr ‹_›
    · exact .inl (Nat.min_le_right ..)
  generalize hbound : retentionBound s reqBefore = bound at hlatest ⊢
  have hle : (if 0 < bound then wholeBlockBoundary s bound else bound) ≤ bound := by
    split
    · exact wholeBlockBoundary_le ..
    · exact le_rfl
  have hparted : ∀ r r', s.changeLog[(if 0 < bound then wholeBlockBoundary s bound else bound) - 1]? =
      some r → s.changeLog[if 0 < bound then wholeBlockBoundary s bound else bound]? = some r' →
      r.block.number ≠ r'.block.number := by
    intro r r' hr hr'
    have hb := h.bounds hr
    have hpos : 0 < bound := by omega
    rw [if_pos hpos] at hr hr' hb
    have := h.bounds hr'; exact h.wholeBlockBoundary (by omega) hr hr'
  generalize (if 0 < bound then wholeBlockBoundary s bound else bound) = e at hle hparted ⊢
  have hcut : ∀ seq, (if seq < e then none else s.changeLog[seq]?) =
      (log.cut (min (e - 1) log.head) (Nat.min_le_right ..)).row? seq := by
    intro seq
    rw [Log.row?_cut, h.entries]
    by_cases hseq : seq < e
    · rw [if_pos hseq]
      split
      · -- Only an empty log has a boundary above its head.
        cases hentry : log.row? seq with
        | none => rfl
        | some r =>
          have := Log.row?_eq_some hentry; omega
      · rfl
    · rw [if_neg hseq]
      split
      · rfl
      · have hseq0 : log.row? seq = none := Log.row?_of_le (by omega); exact hseq0
  have hdelete : ∀ seq, (deleteWhere s.changeLog fun seq _ => seq < e)[seq]? =
      if seq < e then none else s.changeLog[seq]? := by
    intro seq
    split
    · exact get?_deleteWhere_of fun _ _ => decide_eq_true ‹_›
    · exact get?_deleteWhere_of_not fun _ _ h => ‹¬ _› (of_decide_eq_true h)
  refine ⟨hle, hdelete, ⟨h.next, h.deletedThrough e, fun seq => ?_, ?_, ?_, ?_⟩⟩
  · rw [← hcut]; exact hdelete seq
  · have hlive := h.liveBytes
    have hdrop : log.kept.drop (min (e - 1) log.head - log.pruned) =
        log.kept.drop (e - 1 - log.pruned) := by
      rcases Nat.le_total (e - 1) log.head with hle' | _
      · rw [Nat.min_eq_left hle']
      · have hlen : log.kept.length = log.head - log.pruned := length_drop
        rw [drop_eq_nil_of_le (by omega), drop_eq_nil_of_le (by omega)]
    have hsplit : (log.kept.map bytes).sum = ((log.kept.take (e - 1 - log.pruned)).map bytes).sum +
          ((log.kept.drop (e - 1 - log.pruned)).map bytes).sum := by
      rw [← sum_append, ← map_append, take_append_drop]
    rw [h.rows_below, sum_bytes_numbered, Log.kept_cut, hdrop, hlive, hsplit]
    push_cast
    omega
  · intro hhead
    have := h.newest hhead
    have hhead' := Nat.ne_of_gt hhead
    change max log.pruned (min (e - 1) log.head) < log.head; omega
  · apply h.whole.cut
    rintro hlt ⟨r, r', hr, hr', hsame⟩
    have hle' : min (e - 1) log.head = e - 1 := by omega
    rw [hle'] at hlt hr hr'
    refine hparted r r' ?_ ?_ hsame.1.symm
    · rw [h.entries, Log.row?_of_lt hlt, hr]
    · rw [h.entries, Log.row?_of_lt (by omega), hr']

variable {session : Option Nat} {sequence : Nat}

theorem advanceAcknowledgement_eq_ok {updated : Consumer}
    (h : advanceAcknowledgement s now id consumer session sequence = .ok (s', updated)) :
    s' = { s with consumers := s.consumers.insert id updated } := by
  simp only [advanceAcknowledgement, eq_ok, Prod.mk.injEq] at h
  obtain ⟨_, -, _, -, _, -, _, -, _, -, _, -, _, -, hs, hupdated⟩ := h; rw [← hs, ← hupdated]

theorem acknowledgeConsumer_consumers (h : acknowledgeConsumer s now id session sequence =
    .ok (s', consumer)) : ∃ consumers, s' = { s with consumers := consumers } := by
  simp only [acknowledgeConsumer, eq_ok] at h
  obtain ⟨_, -, _, -, h⟩ := h
  split at h
  · exact ⟨_, advanceAcknowledgement_eq_ok h⟩
  · simp only [eq_ok, Prod.mk.injEq] at h
    obtain ⟨_, -, rfl, -⟩ := h; exact ⟨s.consumers, rfl⟩

theorem recordConsumerDelivery_consumers {recorded : Bool}
    (h : recordConsumerDelivery s now id session sequence = .ok (s', recorded)) :
    ∃ consumers, s' = { s with consumers := consumers } := by
  simp only [recordConsumerDelivery, bind_eq_ok, u64I64_eq_ok] at h
  obtain ⟨_, -, h⟩ := h
  split at h
  · rw [pure_eq_ok, Prod.mk.injEq] at h; exact ⟨s.consumers, h.1.symm⟩
  · split at h
    · rw [pure_eq_ok, Prod.mk.injEq] at h; exact ⟨_, h.1.symm⟩
    · rw [pure_eq_ok, Prod.mk.injEq] at h; exact ⟨s.consumers, h.1.symm⟩

theorem markResetRequired_consumers (s : Stream) (id : String) :
    ∃ consumers, (markResetRequired s id).1 = { s with consumers := consumers } := by
  unfold markResetRequired
  split
  · exact ⟨s.consumers, rfl⟩
  · split
    · exact ⟨_, rfl⟩
    · exact ⟨s.consumers, rfl⟩

theorem commit_consumers {α : Type} {r : Except StoreError (Stream × α)}
    (h : ∀ s' a, r = .ok (s', a) → ∃ consumers, s' = { s with consumers := consumers }) :
    ∃ consumers, commit s r = { s with consumers := consumers } := by
  cases r with
  | error e => exact ⟨s.consumers, rfl⟩
  | ok out => exact h out.1 out.2 rfl

theorem step_cases (s : Stream) (e : Event) :
    (∃ now chainId origin block finality direction changes bounds s',
      e = .append now chainId origin block finality direction changes ∧
      appendChanges s now chainId origin block finality direction changes = .ok (s', bounds) ∧
      step s e = s' ∧
      publishedBy s e = changes.map (changeRow now chainId origin block finality direction)) ∨
    (∃ requestedBefore outcome s', e = .prune requestedBefore ∧
      pruneChangesBefore s requestedBefore = .ok (s', outcome) ∧ step s e = s' ∧
      publishedBy s e = []) ∨
    ((∃ consumers, step s e = { s with consumers := consumers }) ∧ publishedBy s e = []) := by
  cases e with
  | append now chainId origin block finality direction changes =>
    cases happend : appendChanges s now chainId origin block finality direction changes with
    | error err =>
      refine .inr (.inr ⟨⟨s.consumers, ?_⟩, ?_⟩)
      · rw [step, happend]; rfl
      · simp only [publishedBy, happend]
    | ok out =>
      refine .inl ⟨now, chainId, origin, block, finality, direction, changes, out.2, out.1, rfl,
        happend, ?_, ?_⟩
      · rw [step, happend]; rfl
      · simp only [publishedBy, happend]
  | prune requestedBefore =>
    cases hprune : pruneChangesBefore s requestedBefore with
    | error err =>
      refine .inr (.inr ⟨⟨s.consumers, ?_⟩, rfl⟩)
      rw [step, hprune]; rfl
    | ok out =>
      refine .inr (.inl ⟨requestedBefore, out.2, out.1, rfl, hprune, ?_, rfl⟩)
      rw [step, hprune]; rfl
  | acknowledge now id session sequence =>
    exact .inr (.inr ⟨commit_consumers fun _ _ h => acknowledgeConsumer_consumers h, rfl⟩)
  | recordDelivery now id session sequence =>
    exact .inr (.inr ⟨commit_consumers fun _ _ h => recordConsumerDelivery_consumers h, rfl⟩)
  | markReset id => exact .inr (.inr ⟨markResetRequired_consumers s id, rfl⟩)
  | manage consumers => exact .inr (.inr ⟨⟨consumers, rfl⟩, rfl⟩)

theorem step_holds (h : Holds log s) (e : Event) :
    ∃ log', Holds log' (step s e) ∧ log'.history = log.history ++ publishedBy s e := by
  rcases step_cases s e with ⟨_, _, _, _, _, _, _, _, s', -, happend, hstep, hpub⟩ |
    ⟨_, _, s', -, hprune, hstep, hpub⟩ | ⟨⟨consumers, hstep⟩, hpub⟩
  · exact ⟨_, hstep ▸ appendChanges_holds h happend, by rw [hpub]; rfl⟩
  · exact ⟨_, hstep ▸ (pruneChangesBefore_holds h hprune).2.2, by
      rw [hpub, append_nil]; rfl⟩
  · exact ⟨log, hstep ▸ h.withConsumers consumers, by rw [hpub, append_nil]⟩

theorem run_holds (es : List Event) : ∀ {log : Log ChangeRow} {s : Stream}, Holds log s →
      ∃ log', Holds log' (run s es) ∧ log'.history = log.history ++ published s es := by
  induction es with
  | nil => intro log s h; exact ⟨log, h, (append_nil _).symm⟩
  | cons e es ih =>
    intro log s h
    obtain ⟨_, h₁, hhist₁⟩ := step_holds h e
    obtain ⟨log₂, h₂, hhist₂⟩ := ih h₁
    refine ⟨log₂, h₂, ?_⟩
    rw [hhist₂, hhist₁, append_assoc]; rfl

theorem Holds.retains (h : Holds log s) : Retains s log.history where
  dense seq := by
    rw [h.entries, Log.row?_isSome_iff, h.pruned, h.next]; omega
  faithful seq r hr := by
    rw [← Log.row?_of_lt (h.bounds hr).1, ← h.entries, hr]
  next := h.next
  newest hpos := by
    rw [h.entries]; exact Log.row?_of_lt (h.newest hpos)
  liveBytes := by
    rw [h.liveBytes, h.toList, sum_bytes_numbered]
  commits first last hfirst hgroup := by
    rw [h.pruned]; exact h.whole.group hfirst hgroup

theorem Holds.acknowledged_of_deleted (h : Holds log s) {e : Event}
    (hr : s.changeLog[seq]? = some r) (hgone : (step s e).changeLog[seq]? = none)
    (hc : s.consumers[id]? = some consumer) (hrole : consumer.role = .required)
    (hst : consumer.state = .active) : seq ≤ consumer.acknowledgedSequence := by
  rcases step_cases s e with ⟨_, _, _, _, _, _, _, _, s', -, happend, hstep, -⟩ |
    ⟨_, _, s', -, hprune, hstep, -⟩ | ⟨⟨consumers, hstep⟩, -⟩
  · exfalso
    rw [hstep, (appendChanges_holds h happend).entries] at hgone
    have hb := h.bounds hr
    refine absurd hgone (Option.isSome_iff_ne_none.1 (Log.row?_isSome_iff.2 ⟨hb.1, ?_⟩))
    rw [Log.head_append]; exact Nat.le_add_right_of_le hb.2
  · obtain ⟨hle, hrows, -⟩ := pruneChangesBefore_holds h hprune
    rw [hstep, hrows] at hgone
    split at hgone
    · exact le_acknowledged_of_lt_retentionBound (Nat.lt_of_lt_of_le ‹_› hle) hc hrole hst
    · rw [hr] at hgone; cases hgone
  · rw [hstep] at hgone; rw [hr] at hgone; cases hgone

theorem decodeChangeRows_eq_ok {rows rows' : List (Nat × ChangeRow)}
    (h : decodeChangeRows chainId rows = .ok rows') : rows' = rows := by
  unfold decodeChangeRows at h
  split at h
  · cases h
  · exact (Except.ok.inj h).symm

theorem Holds.readPage (h : Holds log s)
    {consumerId : String} {after limit : Nat} {rows : List (Nat × ChangeRow)}
    (hread : readPage s consumerId chainId after limit = .ok (some rows)) : s.prunedThroughSequence ≤
    after ∧ rows = numbered (after + 1) ((log.history.drop after).take limit) := by
  simp only [Delivery.readPage, consumerReadIsRetained, eq_ok] at hread
  obtain ⟨_, ⟨_, -, _, -, _, hafter, hret⟩, hread⟩ := hread
  split at hread
  · rename_i hret'
    rw [← hret, decide_eq_true_eq, h.pruned] at hret'
    simp only [eq_ok, map_eq_ok, u64I64_eq_ok, Option.some.injEq] at hread
    obtain ⟨_, -, _, ⟨-, hafter'⟩, _, hpage, hread⟩ := hread
    subst hafter'
    subst hread
    have hn := Nat.le_trans hret' hafter
    refine ⟨h.pruned ▸ hn, ?_⟩
    rw [decodeChangeRows_eq_ok hpage, h.rows_after hn, numbered_take]
  · rw [pure_eq_ok] at hread; cases hread

/-- The retention guarantees of a delivery stream, after any interleaving of publications,
acknowledgements, delivery records, pruning passes and whatever else rewrites the consumers. -/
theorem run_retains (kind : DeliveryStreamKind) (es : List Event) :
    Retains (run (Stream.new kind) es) (published (Stream.new kind) es) ∧
    (∀ e seq r, (run (Stream.new kind) es).changeLog[seq]? = some r →
      (step (run (Stream.new kind) es) e).changeLog[seq]? = none →
      ∀ (id : String) (consumer : Consumer),
        (run (Stream.new kind) es).consumers[id]? = some consumer →
        consumer.role = .required → consumer.state = .active →
        seq ≤ consumer.acknowledgedSequence) ∧
    ∀ consumerId chainId after limit rows,
      readPage (run (Stream.new kind) es) consumerId chainId after limit = .ok (some rows) →
      (run (Stream.new kind) es).prunedThroughSequence ≤ after ∧
      rows = numbered (after + 1) (((published (Stream.new kind) es).drop after).take limit) := by
  obtain ⟨log, h, hhistory⟩ := run_holds es (holds_new kind)
  have hhistory : log.history = published (new kind) es := hhistory
  rw [← hhistory]
  exact ⟨h.retains, fun _ _ _ hr hgone _ _ hc hrole hstate =>
    h.acknowledged_of_deleted hr hgone hc hrole hstate, fun _ _ _ _ _ hread => h.readPage hread⟩

end Leani.Delivery
