import Leani.Delivery.Sessions

/-!
# Sessions and acknowledgements

What any interleaving of registrations, sessions, deliveries, acknowledgements and pruning leaves of
a consumer: its generations rise, a replaced one reaches nothing, its acknowledgement follows what
was delivered and never moves back, and its work counter is the sum of the progress it acknowledged,
kept or pruned.
-/

namespace Leani.Delivery

open Library Std List Option Table Prod

/-- `new` acknowledges what `old` had acknowledged and the records behind it. -/
structure Acknowledges (s : Stream) (old new : Consumer) : Prop where
  active : old.state = .active
  forward : old.acknowledgedSequence ≤ new.acknowledgedSequence
  head : new.acknowledgedSequence = old.acknowledgedSequence ∨
    new.acknowledgedSequence ≤ (latestSequence s).getD 0
  work : ∃ work, newlyAcknowledgedWork s old.acknowledgedSequence new.acknowledgedSequence = .ok work ∧
    new.acknowledgedWorkBlocks = old.acknowledgedWorkBlocks + work

structure Follows (s : Stream) (old new : Consumer) : Prop where
  role : new.role = old.role
  ttl : new.leaseTtl = old.leaseTtl
  state : new.state = .active → old.state = .active
  generation : old.leaseGeneration ≤ new.leaseGeneration
  delivered : old.deliveredSequence ≤ new.deliveredSequence
  ordered : old.acknowledgedSequence ≤ old.deliveredSequence →
    new.acknowledgedSequence ≤ new.deliveredSequence
  acknowledged : new.acknowledgedSequence = old.acknowledgedSequence ∧
      new.acknowledgedWorkBlocks = old.acknowledgedWorkBlocks ∨ Acknowledges s old new

variable {s s' : Stream} {old new consumer : Consumer} {id : String} {now generation sequence : Nat}

theorem Follows.refl (s : Stream) (consumer : Consumer) : Follows s consumer consumer :=
  ⟨rfl, rfl, fun h => h, le_rfl, le_rfl, fun h => h, .inl ⟨rfl, rfl⟩⟩

theorem Follows.lease {expires : Nat} (h : consumer.leaseGeneration ≤ generation) :
    Follows s consumer { consumer with leaseGeneration := generation, leaseExpiresAt := expires } :=
  ⟨rfl, rfl, fun h => h, h, le_rfl, fun h => h, .inl ⟨rfl, rfl⟩⟩

variable {state : ConsumerState}

theorem Follows.retire (h : state ≠ .active) : Follows s consumer { consumer with state := state } :=
  ⟨rfl, rfl, fun hst => absurd hst h, le_rfl, le_rfl, fun h => h, .inl ⟨rfl, rfl⟩⟩

theorem Follows.forward (h : Follows s old new) :
    old.acknowledgedSequence ≤ new.acknowledgedSequence := by
  rcases h.acknowledged with ⟨h, -⟩ | h
  · exact h.ge
  · exact h.forward

/-- What an event at a clock reading may do to the lease of the consumer `id`. -/
inductive Leases (now : Nat) (id : String) (event : SessionEvent) (old new : Consumer) : Prop where
  | kept (generation : new.leaseGeneration = old.leaseGeneration)
      (expires : new.leaseExpiresAt = old.leaseExpiresAt)
  | extended (generation : new.leaseGeneration = old.leaseGeneration)
      (expires : new.leaseExpiresAt = now + old.leaseTtl)
  | released (release : event = .release id old.leaseGeneration)
  | acquired (free : ¬ (0 < old.leaseGeneration ∧ now < old.leaseExpiresAt))

theorem rel_cases {α β : Type} {r : α → β → Prop} {a : Option α} {b : Option β}
    (h : Option.Rel r a b) : a = none ∧ b = none ∨ ∃ x y, a = some x ∧ b = some y ∧ r x y := by
  cases h with
  | none => exact .inl ⟨rfl, rfl⟩
  | some h => exact .inr ⟨_, _, rfl, rfl, h⟩

structure Moves (now : Nat) (event : SessionEvent) (s s' : Stream) : Prop where
  rows : ∃ consumers, s' = { s with consumers := consumers }
  follows : ∀ id : String, Option.Rel (fun old new => Follows s old new ∧ Leases now id event old new)
    s.consumers[id]? s'.consumers[id]?

variable {event : SessionEvent}

theorem Moves.refl (s : Stream) : Moves now event s s where
  rows := ⟨s.consumers, rfl⟩
  follows id := by
    cases s.consumers[id]? with
    | none => exact .none
    | some consumer => exact .some ⟨.refl s consumer, .kept rfl rfl⟩

theorem Moves.put (hc : s.consumers[id]? = some old) (h : Follows s old new)
    (hlease : Leases now id event old new) : Moves now event s (s.putConsumer id new) where
  rows := ⟨_, rfl⟩
  follows id' := by
    rw [Stream.putConsumer, get?_insert_ite]
    split
    · next hid =>
      rw [hid, hc]; exact .some ⟨h, hlease⟩
    · exact (Moves.refl s).follows id'

theorem Moves.commit {α : Type} {r : Except StoreError (Stream × α)} (h : ∀ {s' : Stream} {a : α},
    r = .ok (s', a) → Moves now event s s') : Moves now event s (commit s r) := by
  cases r with
  | error e => exact .refl s
  | ok out => exact h rfl

variable {lease : ConsumerSessionLease}

theorem acquireConsumerSession_eq_ok : acquireConsumerSession s now id = .ok (s', lease) ↔ ∃ consumer,
      s.consumers[id]? = some consumer ∧ consumer.state = .active ∧ ¬ (0 < consumer.leaseGeneration ∧
      now < consumer.leaseExpiresAt) ∧ consumer.leaseGeneration + 1 ≤
      i64Max ∧ now + consumer.leaseTtl ≤ i64Max ∧ s' = s.putConsumer id { consumer with
        leaseGeneration := consumer.leaseGeneration + 1
        leaseExpiresAt := now + consumer.leaseTtl } ∧
      lease = ⟨consumer.leaseGeneration + 1, now + consumer.leaseTtl⟩ := by
  simp only [acquireConsumerSession, eq_ok, u64I64_eq_ok, mk.injEq]
  constructor
  · rintro ⟨consumer, hc, _, hstate, _, hfree, _, -, _, hexpiry, _, ⟨hgen, rfl⟩, rfl, rfl⟩
    exact ⟨consumer, hc, hstate, hfree, hgen, hexpiry, rfl, rfl⟩
  · rintro ⟨consumer, hc, hstate, hfree, hgen, hexpiry, rfl, rfl⟩
    refine ⟨consumer, hc, (), hstate, (), hfree, (), ?_, (), hexpiry, _, ⟨hgen, rfl⟩, rfl, rfl⟩
    exact hgen.trans (by decide)

theorem acquireConsumerSession_moves
    (h : acquireConsumerSession s now id = .ok (s', lease)) : Moves now event s s' := by
  obtain ⟨_, hc, -, hfree, -, -, rfl, -⟩ := acquireConsumerSession_eq_ok.1 h
  exact .put hc (.lease (Nat.le_succ _)) (.acquired hfree)

theorem renewConsumer_moves (h : renewConsumer s now id = .ok (s', new)) : Moves now event s s' := by
  simp only [renewConsumer, eq_ok, mk.injEq] at h
  obtain ⟨_, hc, _, -, _, -, rfl, -⟩ := h; exact .put hc (.lease le_rfl) (.extended rfl rfl)

theorem renewConsumerSession_eq_ok (h : renewConsumerSession s now id generation = .ok (s', lease)) :
    ∃ consumer, s.consumers[id]? = some consumer ∧ consumer.leaseGeneration = generation ∧
    s' = s.putConsumer id { consumer with leaseExpiresAt := now + consumer.leaseTtl } := by
  simp only [renewConsumerSession, eq_ok, u64I64_eq_ok, mk.injEq] at h
  obtain ⟨_, ⟨-, rfl⟩, _, hcurr, consumer, hc, _, -, rfl, -⟩ := h
  rw [consumerSessionIsCurrent, hc, any_some] at hcurr
  simp only [Bool.and_eq_true, decide_eq_true_eq] at hcurr; exact ⟨consumer, hc, hcurr.1.2, rfl⟩

theorem releaseConsumerSession_eq_ok {released : Bool}
    (h : releaseConsumerSession s now id generation = .ok (s', released)) :
    s' = s ∨ ∃ consumer, s.consumers[id]? = some consumer ∧ consumer.leaseGeneration = generation ∧
      s' = s.putConsumer id { consumer with leaseExpiresAt := now } := by
  simp only [releaseConsumerSession, bind_eq_ok, u64I64_eq_ok] at h
  obtain ⟨_, ⟨-, rfl⟩, h⟩ := h
  cases hc : s.consumers[id]? with
  | none =>
    rw [hc] at h; exact .inl (mk.inj (pure_eq_ok.1 h)).1.symm
  | some consumer =>
    rw [hc] at h
    dsimp only at h
    split at h
    · exact .inr ⟨consumer, rfl, ‹_›, (mk.inj (pure_eq_ok.1 h)).1.symm⟩
    · exact .inl (mk.inj (pure_eq_ok.1 h)).1.symm

variable {session : Option Nat}

theorem recordConsumerDelivery_eq_ok {recorded : Bool}
    (h : recordConsumerDelivery s now id session sequence = .ok (s', recorded)) : s' = s ∧ recorded =
    false ∨ recorded = true ∧ ∃ consumer, s.consumers[id]? = some consumer ∧ consumer.state =
    .active ∧ consumer.SessionCurrent now session ∧ s' = s.putConsumer id { consumer with
        deliveredSequence := max consumer.deliveredSequence sequence } := by
  simp only [recordConsumerDelivery, bind_eq_ok, u64I64_eq_ok] at h
  obtain ⟨_, ⟨-, rfl⟩, h⟩ := h
  cases hc : s.consumers[id]? with
  | none =>
    rw [hc] at h
    obtain ⟨rfl, rfl⟩ := mk.inj (pure_eq_ok.1 h); exact .inl ⟨rfl, rfl⟩
  | some consumer =>
    rw [hc] at h
    dsimp only at h
    split at h
    · next hcurr =>
      obtain ⟨rfl, rfl⟩ := mk.inj (pure_eq_ok.1 h)
      exact .inr ⟨rfl, consumer, rfl, hcurr.1, hcurr.2, rfl⟩
    · obtain ⟨rfl, rfl⟩ := mk.inj (pure_eq_ok.1 h); exact .inl ⟨rfl, rfl⟩

theorem acknowledgeConsumer_eq_ok (h : acknowledgeConsumer s now id session sequence =
    .ok (s', new)) : ∃ consumer, s.consumers[id]? =
    some consumer ∧ consumer.state = .active ∧ (consumer.SessionCurrent now session ∧
    s' = s.putConsumer id new ∧ new.acknowledgedSequence = sequence ∧ Follows s consumer new ∧
    (∀ {event}, Leases now id event consumer new) ∨ session = some consumer.leaseGeneration ∧
    sequence = consumer.acknowledgedSequence ∧ s' = s ∧ new = consumer) := by
  simp only [acknowledgeConsumer, eq_ok] at h
  obtain ⟨consumer, hc, _, hstate, h⟩ := h
  refine ⟨consumer, hc, hstate, ?_⟩
  split at h
  · next hcurr =>
    left
    simp only [advanceAcknowledgement, eq_ok, u64I64_eq_ok, mk.injEq] at h
    obtain ⟨_, hforward, _, hadv, work, hwork, _, -, _, ⟨-, rfl⟩, _, ⟨-, rfl⟩, _, -, hs, hnew⟩ := h
    subst hnew
    refine ⟨hcurr, hs.symm, rfl, ⟨rfl, rfl, fun h => h, le_rfl, le_max_left ..,
      fun _ => le_max_right .., .inr ⟨hstate, hforward, ?_, work, hwork, rfl⟩⟩, ?_⟩
    · unfold validateAdvance at hadv
      split at hadv
      · simp only [eq_ok] at hadv
        obtain ⟨_, hhead, -⟩ := hadv; exact .inr hhead
      · exact .inl (Nat.le_antisymm (Nat.not_lt.1 ‹_›) hforward)
    · intro event
      cases session with
      | none => exact .kept rfl rfl
      | some generation => exact .extended rfl rfl
  · simp only [eq_ok, mk.injEq] at h
    obtain ⟨_, ⟨hsess, hseq⟩, rfl, rfl⟩ := h; exact .inr ⟨hsess, hseq, rfl, rfl⟩

theorem transitionConsumer_moves (hst : state ≠ .active)
    (h : transitionConsumer s id state = .ok (s', new)) : Moves now event s s' := by
  simp only [transitionConsumer, eq_ok, mk.injEq] at h
  obtain ⟨_, hc, rfl, -⟩ := h; exact .put hc (.retire hst) (.kept rfl rfl)

theorem markResetRequired_moves (s : Stream) (id : String) :
    Moves now event s (markResetRequired s id).1 := by
  unfold markResetRequired
  cases hc : s.consumers[id]? with
  | none => exact .refl s
  | some consumer =>
    dsimp only
    split
    · exact .put hc (.retire (by decide)) (.kept rfl rfl)
    · exact .refl s

theorem expireRequired_moves (s : Stream) : Moves now event s (expireRequired s) where
  rows := ⟨_, rfl⟩
  follows id := by
    rw [expireRequired, get?_updateWhere]
    cases s.consumers[id]? with
    | none => exact .none
    | some consumer =>
      refine .some ?_
      dsimp only
      split
      · exact ⟨.retire (by decide), .kept rfl rfl⟩
      · exact ⟨.refl s consumer, .kept rfl rfl⟩

theorem createConsumer_eq_ok {reg : Registration}
    (h : createConsumer s now reg = .ok (s', consumer)) : s.consumers[reg.consumerId]? =
    none ∧ s' = s.putConsumer reg.consumerId consumer ∧ consumer.role = reg.role ∧
    consumer.deliveredSequence = consumer.acknowledgedSequence ∧ consumer.acknowledgedWorkBlocks = 0 ∧
    consumer.leaseGeneration = 0 ∧ startSequence s reg.start = .ok consumer.acknowledgedSequence := by
  simp only [createConsumer, eq_ok, u64I64_eq_ok, mk.injEq] at h
  obtain ⟨_, -, _, -, _, hfresh, _, -, _, -, start, hstart, _, -, _, ⟨-, rfl⟩, _, -, rfl, rfl⟩ := h
  exact ⟨hfresh, rfl, rfl, rfl, rfl, rfl, hstart⟩

inductive Steps (s : Stream) (now : Nat) : SessionEvent → Stream → Prop where
  | publish {chainId origin block finality direction changes bounds s'}
      (h : appendChanges s now chainId origin block finality direction changes = .ok (s', bounds)) :
      Steps s now (.publish chainId origin block finality direction changes) s'
  | prune {requestedBefore outcome s'} (h : pruneChangesBefore s requestedBefore =
      .ok (s', outcome)) : Steps s now (.prune requestedBefore) s'
  | create {registration consumer s'} (h : createConsumer s now registration = .ok (s', consumer)) :
      Steps s now (.create registration) s'
  | move {event : SessionEvent} {s' : Stream} (h : Moves now event s s')
      (records : recordsOf s now event = []) (started : ∀ id, startedBy s now id event = none) :
      Steps s now event s'

theorem sessionStep_steps (s : Stream) (now : Nat) (event : SessionEvent) :
    Steps s now event (sessionStep s now event) := by
  cases event with
  | publish chainId origin block finality direction changes =>
    rw [sessionStep]
    cases h : appendChanges s now chainId origin block finality direction changes with
    | error e => exact .move (.refl s) (by simp only [recordsOf, publishedBy, h]) fun _ => rfl
    | ok out => exact .publish h
  | prune requestedBefore =>
    rw [sessionStep]
    cases h : pruneChangesBefore s requestedBefore with
    | error e => exact .move (.refl s) rfl fun _ => rfl
    | ok out => exact .prune h
  | create registration =>
    rw [sessionStep]
    cases h : createConsumer s now registration with
    | error e =>
      refine .move (.refl s) rfl fun id => ?_
      rw [startedBy, h]
      split <;> rfl
    | ok out => exact .create h
  | acquire id => exact .move (.commit acquireConsumerSession_moves) rfl fun _ => rfl
  | renew id => exact .move (.commit renewConsumer_moves) rfl fun _ => rfl
  | renewSession id generation =>
    refine .move (.commit fun h => ?_) rfl fun _ => rfl
    obtain ⟨consumer, hc, -, rfl⟩ := renewConsumerSession_eq_ok h
    exact .put hc (.lease le_rfl) (.extended rfl rfl)
  | release id generation =>
    refine .move (.commit fun h => ?_) rfl fun _ => rfl
    rcases releaseConsumerSession_eq_ok h with rfl | ⟨consumer, hc, rfl, rfl⟩
    · exact .refl _
    · exact .put hc (.lease le_rfl) (.released rfl)
  | deliver id session sequence =>
    refine .move (.commit fun h => ?_) rfl fun _ => rfl
    rcases recordConsumerDelivery_eq_ok h with ⟨rfl, -⟩ | ⟨-, consumer, hc, -, -, rfl⟩
    · exact .refl _
    · exact .put hc ⟨rfl, rfl, fun h => h, le_rfl, le_max_left .., fun h => h.trans (le_max_left ..),
        .inl ⟨rfl, rfl⟩⟩ (.kept rfl rfl)
  | acknowledge id session sequence =>
    refine .move (.commit fun h => ?_) rfl fun _ => rfl
    obtain ⟨consumer, hc, -, ⟨-, rfl, -, hfol, hlease⟩ | ⟨-, -, rfl, -⟩⟩ :=
      acknowledgeConsumer_eq_ok h
    · exact .put hc hfol hlease
    · exact .refl _
  | revoke id => exact .move (.commit (transitionConsumer_moves (by decide))) rfl fun _ => rfl
  | resetRequired id => exact .move (.commit (transitionConsumer_moves (by decide))) rfl fun _ => rfl
  | markReset id => exact .move (markResetRequired_moves s id) rfl fun _ => rfl
  | expireRequired => exact .move (expireRequired_moves s) rfl fun _ => rfl

theorem rows_between {log : Log ChangeRow} (h : Holds log s) {a b : Nat} (ha : log.pruned ≤ a) :
    (rowsWhere s.changeLog fun seq _ => a < seq && seq ≤ b) =
      numbered (a + 1) ((log.history.drop a).take (b - a)) := by
  refine rowsWhere_eq (numbered_ordered ..) fun k r => ?_
  rw [mem_numbered, getElem?_take, ite_none_right_eq_some, h.entries, Bool.and_eq_true,
    decide_eq_true_eq, decide_eq_true_eq]
  have hentry := Log.mem_numbered_drop (k := k) (r := r) ha
  rw [mem_numbered] at hentry
  constructor
  · rintro ⟨hk, _, hr⟩
    obtain ⟨hr, hk⟩ := hentry.1 ⟨hk, hr⟩; exact ⟨hr, hk, by omega⟩
  · rintro ⟨hr, hk, _⟩
    obtain ⟨hk, hr⟩ := hentry.2 ⟨hr, hk⟩; exact ⟨hk, by omega, hr⟩

theorem sum_reports {rows : List (Nat × ChangeRow)} : ∀ {total total' : Nat},
    foldExcept (fun total row => do
      let blocks ← backfillProgressBlocks row.2.change.payload
      ensure (total + blocks ≤ u64Max) (.numeric "newly acknowledged work blocks")
      pure (total + blocks)) total rows = .ok total' →
    ∃ reports, (rows.map snd).mapM (fun row => backfillProgressBlocks row.change.payload) =
      .ok reports ∧ total' = total + reports.sum := by
  induction rows with
  | nil =>
    intro total total' h; exact ⟨[], rfl, (Except.ok.inj h).symm⟩
  | cons row rows ih =>
    intro total total' h
    rw [foldExcept_cons, bind_eq_ok] at h
    obtain ⟨_, hrow, h⟩ := h
    simp only [eq_ok] at hrow
    obtain ⟨blocks, hblocks, _, -, rfl⟩ := hrow
    obtain ⟨reports, hreports, rfl⟩ := ih h
    refine ⟨blocks :: reports, ?_, by rw [sum_cons, Nat.add_assoc]⟩
    rw [map_cons, mapM_cons, hblocks, hreports]; rfl

theorem Holds.newlyAcknowledgedWork {log : Log ChangeRow} (h : Holds log s) {a b work : Nat}
    (ha : log.pruned ≤ a) (hwork : newlyAcknowledgedWork s a b = .ok work) : ∃ reports,
    progressBlocks ((log.history.drop a).take (b - a)) = .ok reports ∧ work = reports.sum := by
  have hrows : (Table.rowsWhere s.changeLog fun seq row =>
      a < seq && seq ≤ b && row.change.kind = "system.backfill_progress") =
      (numbered (a + 1) ((log.history.drop a).take (b - a))).filter fun row =>
        row.2.change.kind = "system.backfill_progress" := by
    rw [← rows_between h ha, Table.rowsWhere, Table.rowsWhere, List.filter_filter]
    refine List.filter_congr fun row _ => ?_
    rw [Bool.and_comm]
  rw [Delivery.newlyAcknowledgedWork, hrows] at hwork
  obtain ⟨reports, hreports, _⟩ := sum_reports hwork
  refine ⟨reports, ?_, by omega⟩
  rw [progressBlocks, ← hreports]
  congr 1
  rw [← map_snd_numbered ((log.history.drop a).take (b - a)) (a + 1), List.filter_map, map_snd_numbered]
  rfl

theorem progressBlocks_append {as bs : List ChangeRow} {reports reports' : List Nat}
    (h : progressBlocks as = .ok reports) (h' : progressBlocks bs = .ok reports') :
    progressBlocks (as ++ bs) = .ok (reports ++ reports') := by
  rw [progressBlocks] at h h'; rw [progressBlocks, filter_append, mapM_append, h, h']; rfl

/-- Where a consumer that started at `start` stands among the records published so far. -/
structure Tracks (history : List ChangeRow) (pruned start : Nat) (consumer : Consumer) : Prop where
  started : start ≤ consumer.acknowledgedSequence
  ordered : consumer.acknowledgedSequence ≤ consumer.deliveredSequence
  reached : consumer.acknowledgedSequence ≤ history.length
  kept : consumer.role = .required → consumer.state = .active → pruned ≤ consumer.acknowledgedSequence
  work : consumer.role = .required → ∃ reports,
    progressBlocks ((history.drop start).take (consumer.acknowledgedSequence - start)) = .ok reports ∧
      consumer.acknowledgedWorkBlocks = reports.sum

/-- The stream keeps what is left of `log`, and each consumer has its place in it. -/
structure Follow (log : Log ChangeRow) (starts : String → Option Nat) (s : Stream) : Prop where
  holds : Holds log s
  tracks : ∀ id : String, Option.Rel (Tracks log.history s.prunedThroughSequence) (starts id)
    s.consumers[id]?

variable {log : Log ChangeRow} {starts : String → Option Nat}

theorem Tracks.append {hist : List ChangeRow} {pruned start : Nat}
    (h : Tracks hist pruned start consumer) (rows : List ChangeRow) :
    Tracks (hist ++ rows) pruned start consumer where
  started := h.started
  ordered := h.ordered
  reached := by
    rw [length_append]; exact h.reached.trans (Nat.le_add_right ..)
  kept := h.kept
  work hrole := by
    have hreach := h.reached
    have hbegun := h.started
    rw [drop_append_of_le_length (by omega), take_append_of_le_length]
    · exact h.work hrole
    · rw [length_drop]; omega

theorem Tracks.moves {start : Nat} (hlog : Holds log s)
    (h : Tracks log.history s.prunedThroughSequence start old) (hmove : Follows s old new) :
    Tracks log.history s.prunedThroughSequence start new where
  started := h.started.trans hmove.forward
  ordered := hmove.ordered h.ordered
  reached := by
    rcases hmove.acknowledged with ⟨hsame, -⟩ | hack
    · exact hsame ▸ h.reached
    · rcases hack.head with hsame | hhead
      · exact hsame ▸ h.reached
      · refine hhead.trans ?_
        rw [hlog.latestSequence]
        split
        · exact Nat.zero_le _
        · exact le_rfl
  kept hrole hstate :=
    (h.kept (hmove.role ▸ hrole) (hmove.state hstate)).trans hmove.forward
  work hrole := by
    obtain ⟨reports, hreports, hsum⟩ := h.work (hmove.role ▸ hrole)
    rcases hmove.acknowledged with ⟨hsame, hwork⟩ | hack
    · exact ⟨reports, hsame ▸ hreports, hwork.trans hsum⟩
    · obtain ⟨work, hwork, hnew⟩ := hack.work
      have hkept := h.kept (hmove.role ▸ hrole) hack.active
      rw [hlog.pruned] at hkept
      obtain ⟨reports', hreports', rfl⟩ := hlog.newlyAcknowledgedWork hkept hwork
      refine ⟨reports ++ reports', ?_, by rw [hnew, hsum, sum_append]⟩
      have hbegun := h.started
      have hforward := hack.forward
      have hsplit : new.acknowledgedSequence - start = (old.acknowledgedSequence - start) +
          (new.acknowledgedSequence - old.acknowledgedSequence) := by omega
      have hrest : start + (old.acknowledgedSequence - start) = old.acknowledgedSequence := by omega
      rw [hsplit, take_add, drop_drop, hrest]; exact progressBlocks_append hreports hreports'

theorem Tracks.prune {hist : List ChangeRow} {pruned pruned' start : Nat}
    (h : Tracks hist pruned start consumer) (hkept : consumer.role = .required → consumer.state =
    .active → pruned' ≤ consumer.acknowledgedSequence) : Tracks hist pruned' start consumer :=
  ⟨h.started, h.ordered, h.reached, hkept, h.work⟩

theorem startSequence_tracks (hlog : Holds log s) {start : ConsumerStartPosition}
    (h : startSequence s start = .ok sequence) :
    s.prunedThroughSequence ≤ sequence ∧ sequence ≤ log.head := by
  have hprun := hlog.pruned
  have hle := log.pruned_le
  have hhead : s.prunedThroughSequence ≤ (latestSequence s).getD s.prunedThroughSequence ∧
      (latestSequence s).getD s.prunedThroughSequence ≤ log.head := by
    rw [hlog.latestSequence]
    split
    · exact ⟨le_rfl, by rw [hprun]; exact hle⟩
    · exact ⟨by rw [hprun]; exact hle, le_rfl⟩
  cases start with
  | earliestRetained =>
    rw [startSequence, Except.ok.injEq] at h
    cases hfirst : firstWhere s.changeLog fun _ _ => true with
    | none =>
      rw [hfirst] at h
      have h : s.prunedThroughSequence = sequence := h; omega
    | some row =>
      rw [hfirst] at h
      have h : row.1 - 1 = sequence := h
      have hb := hlog.bounds (firstWhere_eq_some hfirst).1; omega
  | currentHead =>
    rw [startSequence, Except.ok.injEq] at h; exact h ▸ hhead
  | after start =>
    simp only [startSequence, eq_ok] at h
    obtain ⟨_, hlow, _, hhigh, rfl⟩ := h; exact ⟨hlow, hhigh.trans hhead.2⟩

theorem follow_new (kind : DeliveryStreamKind) : Follow Log.empty (fun _ => none) (Stream.new kind) where
  holds := holds_new kind
  tracks id := by
    change Option.Rel _ none (∅ : Table String Consumer)[id]?
    rw [ExtTreeMap.getElem?_empty]; exact .none

theorem Follow.settled_step (h : Follow log starts s) (now : Nat) (event : SessionEvent) :
    ∃ log', Follow log' (fun id => (startedBy s now id event).or (starts id))
        (sessionStep s now event) ∧ log'.history = log.history ++ recordsOf s now event := by
  generalize hs' : sessionStep s now event = s'
  have hsteps := hs' ▸ sessionStep_steps s now event
  cases hsteps with
  | publish happend =>
    refine ⟨_, ⟨appendChanges_holds h.holds happend, fun id => ?_⟩, ?_⟩
    · obtain ⟨-, hconsms⟩ := appendChanges_frame happend
      have hprun : s'.prunedThroughSequence = s.prunedThroughSequence := by
        rw [(appendChanges_holds h.holds happend).pruned, h.holds.pruned]; rfl
      rw [hconsms, hprun]
      rcases rel_cases (h.tracks id) with ⟨hstart, hc⟩ | ⟨start, consumer, hstart, hc, htracks⟩
      · rw [hc, hstart]; exact .none
      · rw [hc, hstart]; exact .some (htracks.append _)
    · simp only [recordsOf, publishedBy, happend]; rfl
  | @prune requestedBefore outcome s' hprune =>
    obtain ⟨hbound, -, hlog⟩ := pruneChangesBefore_holds h.holds hprune
    refine ⟨_, ⟨hlog, fun id => ?_⟩, (append_nil _).symm⟩
    have hconsms : s'.consumers = s.consumers := by
      simp only [pruneChangesBefore, eq_ok, mk.injEq] at hprune
      obtain ⟨_, -, _, -, rfl, -⟩ := hprune; rfl
    rw [hconsms]
    rcases rel_cases (h.tracks id) with ⟨hstart, hc⟩ | ⟨start, consumer, hstart, hc, htracks⟩
    · rw [hc, hstart]; exact .none
    · rw [hc, hstart]
      refine .some (htracks.prune fun hrole hst => ?_)
      -- What is deleted lies below the bound that the consumer's acknowledgement sets.
      have hkept := htracks.kept hrole hst
      have hprun := hlog.pruned
      have hprun' := h.holds.pruned
      change s'.prunedThroughSequence = max log.pruned _ at hprun
      rcases Nat.eq_zero_or_pos (retentionBound s requestedBefore) with hzero | hpos
      · rw [hzero] at hbound; omega
      · have hle := le_acknowledged_of_lt_retentionBound (Nat.sub_one_lt_of_lt hpos) hc hrole hst
        omega
  | @create registration consumer s' hcreate =>
    obtain ⟨_, rfl, -, hdelivered, hwork, -, hstart⟩ := createConsumer_eq_ok hcreate
    obtain ⟨hlow, hhigh⟩ := startSequence_tracks h.holds hstart
    refine ⟨log, ⟨h.holds.withConsumers _, fun id => ?_⟩, (append_nil _).symm⟩
    rw [Stream.putConsumer, get?_insert_ite, startedBy, hcreate]
    by_cases hid : id = registration.consumerId
    · rw [if_pos hid, if_pos hid.symm]
      refine .some ⟨le_rfl, hdelivered.ge, hhigh, fun _ _ => hlow, fun _ => ⟨[], ?_, hwork⟩⟩
      rw [Nat.sub_self, take_zero]; rfl
    · rw [if_neg hid, if_neg (Ne.symm hid)]; exact h.tracks id
  | move hmoves hrecords hbegun =>
    refine ⟨log, ?_, by rw [hrecords, append_nil]⟩
    obtain ⟨consumers, hs'⟩ := hmoves.rows
    have hprun : s'.prunedThroughSequence = s.prunedThroughSequence := by rw [hs']
    refine ⟨hs' ▸ h.holds.withConsumers consumers, fun id => ?_⟩
    rw [hbegun id, hprun]
    rcases rel_cases (h.tracks id) with ⟨hstart, hc⟩ | ⟨start, consumer, hstart, hc, htracks⟩ <;>
      rcases rel_cases (hmoves.follows id) with ⟨hc', hnew⟩ | ⟨_, _, hc', hnew, hfol⟩
    · rw [hstart, hnew]; exact .none
    · cases hc.symm.trans hc'
    · cases hc.symm.trans hc'
    · obtain rfl := some.inj (hc.symm.trans hc')
      rw [hstart, hnew]; exact .some (htracks.moves h.holds hfol.1)

theorem sessionRun_follow (events : List (Nat × SessionEvent)) :
    ∀ {log : Log ChangeRow} {starts : String → Option Nat} {s : Stream}, Follow log starts s →
      ∃ log', Follow log' (fun id => (started id s events).or (starts id)) (sessionRun s events) ∧
        log'.history = log.history ++ sessionPublished s events := by
  induction events with
  | nil => exact fun h => ⟨_, h, (append_nil _).symm⟩
  | cons event events ih =>
    intro log starts s h
    obtain ⟨_, h₁, hhist₁⟩ := h.settled_step event.1 event.2
    obtain ⟨log₂, h₂, hhist₂⟩ := ih h₁
    refine ⟨log₂, ?_, ?_⟩
    · simp only [started, Option.or_assoc]; exact h₂
    · rw [hhist₂, hhist₁, List.append_assoc]; rfl

structure Advances (old new : Consumer) : Prop where
  role : new.role = old.role
  generation : old.leaseGeneration ≤ new.leaseGeneration
  delivered : old.deliveredSequence ≤ new.deliveredSequence
  acknowledged : old.acknowledgedSequence ≤ new.acknowledgedSequence

theorem sessionStep_advances (hc : s.consumers[id]? = some old) (now : Nat) (event : SessionEvent) :
    ∃ new, (sessionStep s now event).consumers[id]? = some new ∧ Advances old new := by
  generalize hs' : sessionStep s now event = s'
  have hsteps := hs' ▸ sessionStep_steps s now event
  have hstays : s'.consumers = s.consumers → ∃ new, s'.consumers[id]? = some new ∧ Advances old new :=
    fun h => ⟨old, h ▸ hc, rfl, le_rfl, le_rfl, le_rfl⟩
  cases hsteps with
  | publish happend => exact hstays (appendChanges_frame happend).2
  | prune hprune =>
    simp only [pruneChangesBefore, eq_ok, mk.injEq] at hprune
    obtain ⟨_, -, _, -, rfl, -⟩ := hprune; exact hstays rfl
  | @create registration consumer s' hcreate =>
    obtain ⟨hfresh, rfl, -⟩ := createConsumer_eq_ok hcreate
    refine ⟨old, ?_, rfl, le_rfl, le_rfl, le_rfl⟩
    rw [Stream.putConsumer, getElem?_insert_of_ne _ _ fun hid => ?_, hc]
    rw [hid, hc] at hfresh; cases hfresh
  | move hmoves _ _ =>
    rcases rel_cases (hmoves.follows id) with ⟨hnone, -⟩ | ⟨_, new, hold, hnew, hfol, -⟩
    · cases hc.symm.trans hnone
    · obtain rfl := some.inj (hc.symm.trans hold)
      exact ⟨new, hnew, hfol.role, hfol.generation, hfol.delivered, hfol.forward⟩

theorem sessionRun_advances (events : List (Nat × SessionEvent)) :
    ∀ {s : Stream} {old : Consumer}, s.consumers[id]? = some old →
      ∃ new, (sessionRun s events).consumers[id]? = some new ∧ Advances old new := by
  induction events with
  | nil => exact fun hc => ⟨_, hc, rfl, le_rfl, le_rfl, le_rfl⟩
  | cons event events ih =>
    intro s old hc
    obtain ⟨_, hmid, h⟩ := sessionStep_advances hc event.1 event.2
    obtain ⟨new, hnew, h'⟩ := ih hmid
    exact ⟨new, hnew, h'.role.trans h.role, h.generation.trans h'.generation,
      h.delivered.trans h'.delivered, h.acknowledged.trans h'.acknowledged⟩

theorem mem_acquiredBy (h : generation ∈ acquiredBy s now id event) : acquiredBy s now id event =
    [generation] ∧ ∃ old new, s.consumers[id]? = some old ∧ old.leaseGeneration < generation ∧
    (sessionStep s now event).consumers[id]? = some new ∧ new.leaseGeneration = generation := by
  cases event with
  | acquire named =>
    rw [acquiredBy] at h ⊢
    split at h
    · next hid =>
      subst hid
      rw [if_pos rfl]
      cases hacquire : acquireConsumerSession s now named with
      | error e =>
        rw [hacquire] at h; cases h
      | ok out =>
        rw [hacquire] at h
        obtain rfl := mem_singleton.1 h
        refine ⟨rfl, ?_⟩
        obtain ⟨old, hold, -, -, -, -, hs', hlease⟩ := acquireConsumerSession_eq_ok.1 hacquire
        rw [hlease]
        refine ⟨old, { old with
          leaseGeneration := old.leaseGeneration + 1
          leaseExpiresAt := now + old.leaseTtl }, hold, Nat.lt_succ_self _, ?_, rfl⟩
        rw [sessionStep, hacquire, commit, hs', Stream.putConsumer, getElem?_insert_self]
    · cases h
  | _ => cases h

theorem acquired_rises (events : List (Nat × SessionEvent)) :
    ∀ s : Stream, (acquired id s events).Pairwise (· < ·) ∧ ∀ gen ∈ acquired id s events,
    (∀ consumer, s.consumers[id]? = some consumer → consumer.leaseGeneration < gen) ∧ ∃ consumer,
    (sessionRun s events).consumers[id]? = some consumer ∧ gen ≤ consumer.leaseGeneration := by
  induction events with
  | nil => exact fun _ => ⟨.nil, nofun⟩
  | cons event events ih =>
    intro s
    obtain ⟨hsort, hrises⟩ := ih (sessionStep s event.1 event.2)
    refine ⟨pairwise_append.2 ⟨?_, hsort, fun _ ha b hb => ?_⟩, fun gen hg => ?_⟩
    · cases h : acquiredBy s event.1 id event.2 with
      | nil => exact .nil
      | cons gen rest =>
        have hone := (mem_acquiredBy (h ▸ mem_cons_self : gen ∈ _)).1
        rw [← h, hone]; exact pairwise_singleton ..
    · obtain ⟨-, _, new, -, -, hnew, rfl⟩ := mem_acquiredBy ha; exact (hrises b hb).1 new hnew
    · rcases mem_append.1 hg with hg | hg
      · obtain ⟨-, _, new, hold, hlt, hnew, rfl⟩ := mem_acquiredBy hg
        refine ⟨fun consumer hc => ?_, ?_⟩
        · obtain rfl := some.inj (hold.symm.trans hc); exact hlt
        · obtain ⟨last, hlast, h⟩ := sessionRun_advances events hnew
          exact ⟨last, hlast, h.generation⟩
      · refine ⟨fun consumer hc => ?_, (hrises gen hg).2⟩
        obtain ⟨new, hnew, h⟩ := sessionStep_advances hc event.1 event.2
        exact h.generation.trans_lt ((hrises gen hg).1 new hnew)

theorem sessionStep_stale (hc : s.consumers[id]? = some consumer)
    (hstale : consumer.leaseGeneration ≠ generation) (hnames : event.Names id generation) :
    sessionStep s now event = s := by
  have hcurr : ¬ consumer.SessionCurrent now (some generation) :=
    fun h => hstale (h generation rfl).1
  cases event with
  | renewSession named generation' =>
    obtain ⟨rfl, rfl⟩ := hnames
    rw [sessionStep]
    cases h : renewConsumerSession s now named generation' with
    | error e => rfl
    | ok out =>
      obtain ⟨consumer', hc', hgen, -⟩ := renewConsumerSession_eq_ok h
      obtain rfl := some.inj (hc.symm.trans hc'); exact absurd hgen hstale
  | release named generation' =>
    obtain ⟨rfl, rfl⟩ := hnames
    rw [sessionStep]
    cases h : releaseConsumerSession s now named generation' with
    | error e => rfl
    | ok out =>
      rcases releaseConsumerSession_eq_ok h with hs | ⟨consumer', hc', hgen, -⟩
      · exact hs
      · obtain rfl := some.inj (hc.symm.trans hc'); exact absurd hgen hstale
  | deliver named session sequence =>
    obtain ⟨rfl, rfl⟩ := hnames
    rw [sessionStep]
    cases h : recordConsumerDelivery s now named (some generation) sequence with
    | error e => rfl
    | ok out =>
      rcases recordConsumerDelivery_eq_ok h with ⟨hs, -⟩ | ⟨-, consumer', hc', -, hsess, -⟩
      · exact hs
      · obtain rfl := some.inj (hc.symm.trans hc'); exact absurd hsess hcurr
  | acknowledge named session sequence =>
    obtain ⟨rfl, rfl⟩ := hnames
    rw [sessionStep]
    cases h : acknowledgeConsumer s now named (some generation) sequence with
    | error e => rfl
    | ok out =>
      obtain ⟨consumer', hc', -, h⟩ := acknowledgeConsumer_eq_ok h
      obtain rfl := some.inj (hc.symm.trans hc')
      rcases h with ⟨hsess, -⟩ | ⟨hsess, -⟩
      · exact absurd hsess hcurr
      · exact absurd (some.inj hsess).symm hstale
  | _ => exact hnames.elim

/-- A session holds the consumer: it is the current generation, and expires at `expires` or later. -/
structure HoldsLease (id : String) (generation ttl expires : Nat) (s : Stream) : Prop where
  row : ∃ consumer, s.consumers[id]? = some consumer ∧ consumer.leaseGeneration = generation ∧
    consumer.leaseTtl = ttl ∧ expires ≤ consumer.leaseExpiresAt

variable {ttl expires : Nat}

theorem HoldsLease.settled_step (h : HoldsLease id generation ttl expires s) (hpos : 0 < generation)
    (hlow : expires ≤ now + ttl) (hhigh : now < expires) (hkeep : event ≠ .release id generation) :
    HoldsLease id generation ttl expires (sessionStep s now event) := by
  obtain ⟨old, hc, hgen, httl, hexpires⟩ := h.row
  generalize hs' : sessionStep s now event = s'
  have hsteps := hs' ▸ sessionStep_steps s now event
  have hstays : s'.consumers = s.consumers → HoldsLease id generation ttl expires s' :=
    fun h => ⟨⟨old, h ▸ hc, hgen, httl, hexpires⟩⟩
  cases hsteps with
  | publish happend => exact hstays (appendChanges_frame happend).2
  | prune hprune =>
    simp only [pruneChangesBefore, eq_ok, mk.injEq] at hprune
    obtain ⟨_, -, _, -, rfl, -⟩ := hprune; exact hstays rfl
  | @create registration consumer s' hcreate =>
    obtain ⟨hfresh, rfl, -⟩ := createConsumer_eq_ok hcreate
    refine ⟨⟨old, ?_, hgen, httl, hexpires⟩⟩
    rw [Stream.putConsumer, getElem?_insert_of_ne _ _ fun hid => ?_, hc]
    rw [hid, hc] at hfresh; cases hfresh
  | move hmoves _ _ =>
    rcases rel_cases (hmoves.follows id) with ⟨hnone, -⟩ | ⟨_, new, hold, hnew, hfol, hlease⟩
    · cases hc.symm.trans hnone
    · obtain rfl := some.inj (hc.symm.trans hold)
      refine ⟨⟨new, hnew, ?_⟩⟩
      cases hlease with
      | kept hg he =>
        exact ⟨hg.trans hgen, hfol.ttl.trans httl, he ▸ hexpires⟩
      | extended hg he =>
        refine ⟨hg.trans hgen, hfol.ttl.trans httl, ?_⟩
        rw [he, httl]; exact hlow
      | released hrel => exact absurd (hgen ▸ hrel) hkeep
      | acquired hfree =>
        exact absurd ⟨by omega, by omega⟩ hfree

theorem sessionRun_holdsLease (events : List (Nat × SessionEvent)) (hpos : 0 < generation) :
    ∀ {s : Stream}, HoldsLease id generation ttl expires s → (∀ event ∈ events,
    expires ≤ event.1 + ttl ∧ event.1 < expires ∧ event.2 ≠ .release id generation) →
    HoldsLease id generation ttl expires (sessionRun s events) := by
  induction events with
  | nil => exact fun h _ => h
  | cons event events ih =>
    intro s h hevs
    obtain ⟨hlow, hhigh, hkeep⟩ := hevs event mem_cons_self
    exact ih (h.settled_step hpos hlow hhigh hkeep) (forall_mem_cons.1 hevs).2

theorem acquire_exclusive {since : Nat}
    {later : List (Nat × SessionEvent)} (hacquire : acquireConsumerSession s since id = .ok (s', lease))
    (hclock : (since :: (later.map fst ++ [now])).Pairwise (· ≤ ·))
    (hkeep : ∀ event ∈ later, event.2 ≠ .release id lease.generation)
    (hexpires : now < lease.expiresAt) (out : Stream × ConsumerSessionLease) :
    acquireConsumerSession (sessionRun s' later) now id ≠ .ok out := by
  obtain ⟨consumer, _, -, -, -, -, rfl, rfl⟩ := acquireConsumerSession_eq_ok.1 hacquire
  rw [pairwise_cons, pairwise_append] at hclock
  obtain ⟨hsince, -, -, hlast⟩ := hclock
  have hbef : ∀ event ∈ later, event.1 ≤ now := fun event he =>
    hlast _ (mem_map_of_mem he) _ mem_cons_self
  have hheld : HoldsLease id (consumer.leaseGeneration + 1) consumer.leaseTtl
      (since + consumer.leaseTtl) (s.putConsumer id { consumer with
        leaseGeneration := consumer.leaseGeneration + 1
        leaseExpiresAt := since + consumer.leaseTtl }) :=
    ⟨⟨_, getElem?_insert_self .., rfl, rfl, le_rfl⟩⟩
  obtain ⟨_, hrow, _, -, hheldExpires⟩ :=
    (sessionRun_holdsLease later (Nat.succ_pos _) hheld fun event he => by
      have := hsince event.1 (mem_append_left _ (mem_map_of_mem he))
      have := hbef event he; exact ⟨by omega, hexpires.trans_le' this, hkeep event he⟩).row
  intro hagain
  obtain ⟨_, hc', -, hfree, -⟩ := acquireConsumerSession_eq_ok.1 hagain
  obtain rfl := some.inj (hrow.symm.trans hc')
  exact hfree ⟨by omega, hexpires.trans_le hheldExpires⟩

theorem checkConsumerDelivery_sound {answer : Bool}
    (h : checkConsumerDelivery s now id session sequence = some answer) (hseq : sequence ≤ i64Max) :
    recordConsumerDelivery s now id session sequence = .ok (s, answer) := by
  have hbind : u64I64 sequence "delivered sequence" = .ok sequence :=
    u64I64_eq_ok.2 ⟨hseq, rfl⟩
  rw [recordConsumerDelivery, hbind, ok_bind]
  cases hc : s.consumers[id]? with
  | none =>
    simp only [checkConsumerDelivery, hc] at h; cases h; rfl
  | some consumer =>
    simp only [checkConsumerDelivery, hc] at h
    dsimp only
    split at h
    · next hcurr =>
      split at h
      · next hle =>
        cases h
        have hsame : s.consumers.insert id consumer = s.consumers := by
          refine ext fun _ => ?_
          rw [get?_insert_ite]
          split
          · next hid => rw [hid, hc]
          · rfl
        rw [if_pos hcurr, max_eq_left hle, hsame]; rfl
      · cases h
    · next hcurr =>
      cases h; rw [if_neg hcurr]; rfl

structure Fenced (kind : DeliveryStreamKind) (events : List (Nat × SessionEvent)) : Prop where
  generations : ∀ id, (acquired id (Stream.new kind) events).Pairwise (· < ·)
  oneCurrent : ∀ {now id generation generation'},
    consumerSessionIsCurrent (sessionRun (Stream.new kind) events) now id generation = true →
    consumerSessionIsCurrent (sessionRun (Stream.new kind) events) now id generation' = true →
    generation = generation'
  exclusive : ∀ {since id s' lease later now},
    acquireConsumerSession (sessionRun (Stream.new kind) events) since id = .ok (s', lease) →
    (since :: (later.map Prod.fst ++ [now])).Pairwise (· ≤ ·) →
    (∀ event ∈ later, event.2 ≠ .release id lease.generation) → now < lease.expiresAt →
    ∀ out, acquireConsumerSession (sessionRun s' later) now id ≠ .ok out
  replaced : ∀ {id generation generation' now event}, generation' ∈ acquired id (Stream.new kind)
    events → generation < generation' → event.Names id generation →
    sessionStep (sessionRun (Stream.new kind) events) now event = sessionRun (Stream.new kind) events
  ordered : ∀ {id : String} {consumer : Consumer},
    (sessionRun (Stream.new kind) events).consumers[id]? = some consumer →
    consumer.acknowledgedSequence ≤ consumer.deliveredSequence
  advances : ∀ {id : String} {old : Consumer} (later),
    (sessionRun (Stream.new kind) events).consumers[id]? = some old →
    ∃ new, (sessionRun (sessionRun (Stream.new kind) events) later).consumers[id]? = some new ∧
      Advances old new
  acknowledges : ∀ {now id generation sequence s' consumer},
    acknowledgeConsumer (sessionRun (Stream.new kind) events) now id (some generation)
    sequence = .ok (s', consumer) → consumerSessionIsCurrent (sessionRun (Stream.new kind) events)
    now id generation = true ∨ s' = sessionRun (Stream.new kind)
    events ∧ consumer.leaseGeneration = generation ∧ consumer.acknowledgedSequence = sequence
  checked : ∀ {now id session sequence answer}, sequence ≤
    i64Max → checkConsumerDelivery (sessionRun (Stream.new kind) events) now id session sequence =
    some answer → recordConsumerDelivery (sessionRun (Stream.new kind) events)
    now id session sequence = .ok (sessionRun (Stream.new kind) events, answer)
  /-- A required consumer's work counter is the sum of what the progress records after its start and
  through its acknowledgement report, kept or pruned. -/
  work : ∀ {id : String} {consumer : Consumer},
    (sessionRun (Stream.new kind) events).consumers[id]? = some consumer →
    consumer.role = .required → ∃ start reports,
      started id (Stream.new kind) events = some start ∧ start ≤ consumer.acknowledgedSequence ∧
      consumer.acknowledgedSequence ≤ (sessionPublished (Stream.new kind) events).length ∧
      progressBlocks (((sessionPublished (Stream.new kind) events).drop start).take
        (consumer.acknowledgedSequence - start)) = .ok reports ∧
      consumer.acknowledgedWorkBlocks = reports.sum

theorem consumerSessionIsCurrent_iff : consumerSessionIsCurrent s now id generation = true ↔
    ∃ consumer, s.consumers[id]? = some consumer ∧ consumer.state = .active ∧
      consumer.leaseGeneration = generation ∧ now < consumer.leaseExpiresAt := by
  rw [consumerSessionIsCurrent]
  cases s.consumers[id]? with
  | none => exact iff_of_false nofun fun ⟨_, h, _⟩ => nomatch h
  | some consumer => simp [and_assoc]

/-- The fencing guarantees of a stream's consumers, after any interleaving of registrations,
sessions, deliveries, acknowledgements, revocations, resets, publications and pruning passes. -/
theorem sessionRun_fenced (kind : DeliveryStreamKind) (events : List (Nat × SessionEvent)) :
    Fenced kind events := by
  obtain ⟨log, h, hhistory⟩ := sessionRun_follow events (follow_new kind)
  have hhistory : log.history = sessionPublished (Stream.new kind) events := hhistory
  have htracks : ∀ {id : String} {consumer : Consumer},
      (sessionRun (Stream.new kind) events).consumers[id]? = some consumer →
      ∃ start, started id (Stream.new kind) events = some start ∧
        Tracks log.history (sessionRun (Stream.new kind) events).prunedThroughSequence start
          consumer := by
    intro id consumer hc
    rcases rel_cases (h.tracks id) with ⟨-, hnone⟩ | ⟨start, consumer', hstart, hc', htracks⟩
    · cases hc.symm.trans hnone
    · obtain rfl := some.inj (hc.symm.trans hc')
      rw [or_none] at hstart; exact ⟨start, hstart, htracks⟩
  exact {
    generations id := (acquired_rises events _).1
    oneCurrent hcurrent hcurrent' := by
      obtain ⟨consumer, hc, -, rfl, -⟩ := consumerSessionIsCurrent_iff.1 hcurrent
      obtain ⟨consumer', hc', -, rfl, -⟩ := consumerSessionIsCurrent_iff.1 hcurrent'
      rw [some.inj (hc.symm.trans hc')]
    exclusive := acquire_exclusive
    replaced hg' hlt hnames := by
      obtain ⟨-, consumer, hc, _⟩ := (acquired_rises events _).2 _ hg'
      exact sessionStep_stale hc (by omega) hnames
    ordered hc := by
      obtain ⟨_, -, h⟩ := htracks hc; exact h.ordered
    advances later hc := sessionRun_advances later hc
    acknowledges hack := by
      obtain ⟨consumer, hc, hactive, h⟩ := acknowledgeConsumer_eq_ok hack
      rcases h with ⟨hsession, -⟩ | ⟨hsession, rfl, rfl, rfl⟩
      · obtain ⟨hgeneration, hexpires⟩ := hsession _ rfl
        exact .inl (consumerSessionIsCurrent_iff.2 ⟨consumer, hc, hactive, hgeneration, hexpires⟩)
      · exact .inr ⟨rfl, (some.inj hsession).symm, rfl⟩
    checked hsequence hchecked := checkConsumerDelivery_sound hchecked hsequence
    work hc hrole := by
      obtain ⟨start, hstart, h⟩ := htracks hc
      obtain ⟨reports, hreports, hsum⟩ := h.work hrole
      rw [← hhistory]; exact ⟨start, reports, hstart, h.started, h.reached, hreports, hsum⟩ }

example : acquired "c" (Stream.new .backfill)
    [(0, .create ⟨"c", .required, .currentHead, 5000000, none, true⟩), (1, .acquire "c"),
      (2, .acquire "c"), (6, .acquire "c")] = [1, 2] := by
  decide +kernel

end Leani.Delivery
