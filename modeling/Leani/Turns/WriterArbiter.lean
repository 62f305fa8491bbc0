import Leani.Library.Waiters
import Leani.Primitives
import Mathlib.Data.Multiset.AddSub

/-!
# The writer arbiter

One writer at a time: live requests go first, history requests wait for their ticket. Granting,
releasing and dropping a request each run under the arbiter's lock; the notifications a release or
a dropped request sends arrive later.
-/

namespace Leani.Turns

open Library Std List Option Table ExtTreeMap Waiters

inductive WriterPriority where
  | live
  | history
  deriving DecidableEq

structure WriterArbiterState where
  active : Bool
  liveWaiters : Nat
  historyWaiters : Nat
  nextHistoryTicket : Nat
  historyQueue : List Nat
  deriving DecidableEq

structure WriterWaitRegistration where
  priority : WriterPriority
  historyTicket : Option Nat
  deriving DecidableEq

namespace WriterArbiterState

def new : WriterArbiterState := ⟨false, 0, 0, 0, []⟩

variable (state : WriterArbiterState)

def register : WriterPriority → WriterArbiterState × WriterWaitRegistration
  | .live => ({ state with liveWaiters := satAdd state.liveWaiters 1 }, ⟨.live, none⟩)
  | .history =>
    let ticket := state.nextHistoryTicket
    ({ state with
        historyWaiters := satAdd state.historyWaiters 1
        nextHistoryTicket := satAdd state.nextHistoryTicket 1
        historyQueue := state.historyQueue ++ [ticket] }, ⟨.history, some ticket⟩)

def eligible (registration : WriterWaitRegistration) : Bool :=
  !state.active &&
    match registration.priority with
    | .live => true
    | .history =>
      state.liveWaiters = 0 && state.historyQueue.head? = registration.historyTicket

def handOver (registration : WriterWaitRegistration) : WriterArbiterState :=
  match registration.priority with
  | .live => { state with active := true, liveWaiters := state.liveWaiters - 1 }
  | .history =>
    { state with
      active := true
      historyWaiters := state.historyWaiters - 1
      historyQueue := state.historyQueue.tail }

/-- `WriterWaitRegistration::drop` of a request that still waits. -/
def forget (registration : WriterWaitRegistration) : WriterArbiterState :=
  match registration.priority with
  | .live => { state with liveWaiters := state.liveWaiters - 1 }
  | .history =>
    { state with
      historyWaiters := state.historyWaiters - 1
      historyQueue := registration.historyTicket.elim state.historyQueue state.historyQueue.erase }

end WriterArbiterState

structure WriterArbiter where
  state : WriterArbiterState
  waiters : Waiters Nat
  registrations : Table Nat WriterWaitRegistration
  permits : List Nat

def WriterArbiter.new : WriterArbiter := ⟨.new, .none, ∅, []⟩

inductive WriterEvent where
  | request (id : Nat) (priority : WriterPriority)
  | listen (id : Nat)
  | check (id : Nat)
  | cancel (id : Nat)
  | release (id : Nat)
  | deliver
  deriving DecidableEq

def WriterEvent.Internal : WriterEvent → Prop
  | listen _ | check _ | deliver => True
  | request .. | cancel _ | release _ => False

def WriterArbiter.step (s : WriterArbiter) : WriterEvent → Option WriterArbiter
  | .request id priority =>
    if id ∈ s.registrations ∨ id ∈ s.permits ∨ u64Max ≤ s.registrations.size then none
    else
      let (state, registration) := s.state.register priority
      some { s with
        state
        waiters := s.waiters.enter id
        registrations := s.registrations.insert id registration }
  | .listen id =>
    if s.waiters.table[id]? = some .polling then some { s with waiters := s.waiters.listen id }
    else none
  | .check id =>
    match s.waiters.table[id]?, s.registrations[id]? with
    | some (.checking notified), some registration =>
      if s.state.eligible registration then
        some
          { state := s.state.handOver registration
            waiters := s.waiters.leave id
            registrations := s.registrations.erase id
            permits := id :: s.permits }
      else some { s with waiters := s.waiters.sleep id (.checking notified) }
    | _, _ => none
  | .cancel id =>
    match s.waiters.table[id]?, s.registrations[id]? with
    -- Nothing is awaited between subscribing and the check, so no drop happens there.
    | some .polling, some registration | some .asleep, some registration =>
      some { s with
        state := s.state.forget registration
        waiters := (s.waiters.leave id).notify
        registrations := s.registrations.erase id }
    | _, _ => none
  | .release id =>
    if id ∈ s.permits then
      some { s with
        state := { s.state with active := false }
        waiters := s.waiters.notify
        permits := s.permits.erase id }
    else none
  | .deliver =>
    if 0 < s.waiters.pending then some { s with waiters := s.waiters.deliver } else none

def WriterArbiter.run (s : WriterArbiter) (events : List WriterEvent) : WriterArbiter :=
  events.foldl (fun s event => (s.step event).getD s) s

namespace WriterWaitRegistration

def WellFormed (registration : WriterWaitRegistration) : Prop :=
  registration.priority = .history ↔ registration.historyTicket.isSome

def liveCount (registration : WriterWaitRegistration) : Nat :=
  match registration.priority with
  | .live => 1
  | .history => 0

def historyCount (registration : WriterWaitRegistration) : Nat :=
  match registration.priority with
  | .live => 0
  | .history => 1

def tickets (registration : WriterWaitRegistration) : Multiset Nat :=
  registration.historyTicket.elim 0 ({·})

theorem liveCount_le (reg : WriterWaitRegistration) : reg.liveCount ≤ 1 := by
  unfold liveCount
  split <;> decide

theorem historyCount_le (reg : WriterWaitRegistration) : reg.historyCount ≤ 1 := by
  unfold historyCount
  split <;> decide

end WriterWaitRegistration

structure WriterArbiterState.Counts (state : WriterArbiterState)
    (registrations : Table Nat WriterWaitRegistration) : Prop where
  live : state.liveWaiters = Table.sum registrations fun _ r => r.liveCount
  history : state.historyWaiters = Table.sum registrations fun _ r => r.historyCount
  queue : (state.historyQueue : Multiset Nat) = Table.sum registrations fun _ r => r.tickets

namespace WriterArbiterState.Counts

variable {state : WriterArbiterState} {registrations : Table Nat WriterWaitRegistration}
  {id : Nat} {registration : WriterWaitRegistration}

theorem register (h : state.Counts registrations) (hid : registrations[id]? = none)
    (hsize : registrations.size < u64Max) (prio : WriterPriority) :
    (state.register prio).1.Counts (registrations.insert id (state.register prio).2) := by
  have hlive : state.liveWaiters < u64Max := by
    rw [h.live]; exact Nat.lt_of_le_of_lt (sum_le_size fun _ r => r.liveCount_le) hsize
  have hhist : state.historyWaiters < u64Max := by
    rw [h.history]; exact Nat.lt_of_le_of_lt (sum_le_size fun _ r => r.historyCount_le) hsize
  have herase := erase_of_get?_eq_none hid
  cases prio with
  | live =>
    constructor
    · rw [sum_insert, herase, ← h.live, Nat.add_comm]; exact satAdd_eq hlive
    · rw [sum_insert, herase, ← h.history]; exact (Nat.zero_add _).symm
    · rw [sum_insert, herase, ← h.queue]; exact (zero_add _).symm
  | history =>
    constructor
    · rw [sum_insert, herase, ← h.live]; exact (Nat.zero_add _).symm
    · rw [sum_insert, herase, ← h.history, Nat.add_comm]; exact satAdd_eq hhist
    · rw [sum_insert, herase, ← h.queue, add_comm]; rfl

theorem erase_queue {t : Nat} {queue : List Nat} (h : state.Counts registrations)
    (hid : registrations[id]? = some registration) (hticket : registration.historyTicket = some t)
    (hqueue : state.historyQueue.Perm (t :: queue)) :
    (queue : Multiset Nat) = sum (registrations.erase id) fun _ r => r.tickets := by
  have hsum := h.queue
  rw [Multiset.coe_eq_coe.2 hqueue, sum_of_get? _ hid,
    WriterWaitRegistration.tickets, hticket, ← Multiset.cons_coe, ← Multiset.singleton_add] at hsum
  exact add_left_cancel hsum

theorem leave {state' : WriterArbiterState} (h : state.Counts registrations)
    (hid : registrations[id]? = some registration) (hwf : registration.WellFormed)
    (hlive : registration.priority = .live → state'.liveWaiters = state.liveWaiters - 1 ∧
      state'.historyWaiters = state.historyWaiters ∧ state'.historyQueue = state.historyQueue)
    (hhist : ∀ t, registration.historyTicket = some t → state'.liveWaiters = state.liveWaiters ∧
      state'.historyWaiters = state.historyWaiters - 1 ∧
      state.historyQueue.Perm (t :: state'.historyQueue)) :
    state'.Counts (registrations.erase id) := by
  have hsum := h.live
  have hsum' := h.history
  have hqueue := h.queue
  rw [sum_of_get? _ hid] at hsum hsum' hqueue
  obtain ⟨prio, ticket⟩ := registration
  cases prio with
  | live =>
    obtain ⟨h₁, h₂, h₃⟩ := hlive rfl
    cases ticket with
    | some t => cases hwf.2 rfl
    | none =>
      constructor
      · rw [h₁, hsum]; exact Nat.add_sub_cancel_left ..
      · rw [h₂, hsum']; exact Nat.zero_add _
      · rw [h₃, hqueue]; exact zero_add _
  | history =>
    cases ticket with
    | none => cases hwf.1 rfl
    | some t =>
      obtain ⟨h₁, h₂, h₃⟩ := hhist t rfl
      constructor
      · rw [h₁, hsum]; exact Nat.zero_add _
      · rw [h₂, hsum']; exact Nat.add_sub_cancel_left ..
      · exact h.erase_queue hid rfl h₃

end WriterArbiterState.Counts

namespace WriterArbiter

def MayPass (s : WriterArbiter) (id : Nat) : Prop :=
  ∃ registration, s.registrations[id]? = some registration ∧ s.state.eligible registration = true

structure Inv (s : WriterArbiter) : Prop where
  keys : ∀ id : Nat, id ∈ s.registrations ↔ id ∈ s.waiters.table
  permits : s.permits.length = if s.state.active then 1 else 0
  size : s.registrations.size ≤ u64Max
  wellFormed : ∀ (id : Nat) (registration : WriterWaitRegistration),
    s.registrations[id]? = some registration → registration.WellFormed
  counts : s.state.Counts s.registrations
  sorted : s.state.historyQueue.Pairwise (· ≤ ·)
  issued : ∀ ticket ∈ s.state.historyQueue, ticket ≤ s.state.nextHistoryTicket
  ticketBound : s.state.nextHistoryTicket ≤ u64Max
  watched : s.waiters.Watched s.MayPass

variable {s s' : WriterArbiter} {id : Nat} {registration : WriterWaitRegistration}

theorem inv_new : Inv WriterArbiter.new where
  keys _ := iff_of_false not_mem_empty not_mem_empty
  permits := rfl
  size := Nat.zero_le _
  wellFormed _ _ h := (not_mem_empty h).elim
  counts := ⟨rfl, rfl, rfl⟩
  sorted := List.Pairwise.nil
  issued _ h := nomatch h
  ticketBound := Nat.zero_le _
  watched := watched_none

variable {ticket : Nat}

theorem Inv.ticket_mem (h : s.Inv) (hid : s.registrations[id]? = some registration)
    (hticket : registration.historyTicket = some ticket) : ticket ∈ s.state.historyQueue := by
  have hmem : ticket ∈ sum s.registrations fun _ r => r.tickets := by
    rw [sum_of_get? _ hid, WriterWaitRegistration.tickets, hticket]
    exact Multiset.mem_add.2 (.inl (Multiset.mem_singleton_self _))
  rw [← h.counts.queue] at hmem; exact hmem

theorem Inv.exists_mayPass (h : s.Inv) (hact : s.state.active = false)
    (hid : s.registrations[id]? = some registration) : ∃ id, s.MayPass id := by
  by_cases hlive : s.state.liveWaiters = 0
  · -- Only history requests wait, and the first ticket of the queue is one of theirs.
    have hle := le_sum_of_get? (f := fun _ r => r.liveCount) hid
    rw [← h.counts.live, hlive] at hle
    have hhist : registration.priority = .history := by
      cases hp : registration.priority with
      | history => rfl
      | live => rw [WriterWaitRegistration.liveCount, hp] at hle; cases hle
    obtain ⟨ticket, hticket⟩ := isSome_iff_exists.1 ((h.wellFormed id _ hid).1 hhist)
    obtain ⟨first, queue, hqueue⟩ :=
      exists_cons_of_ne_nil (ne_nil_of_mem (h.ticket_mem hid hticket))
    have hin : first ∈ sum s.registrations fun _ r => r.tickets := by
      rw [← h.counts.queue, hqueue]; exact mem_cons_self
    obtain ⟨id', r, hr, hfirst⟩ := exists_of_mem_sum hin
    have hr' : r.historyTicket = some first := by
      unfold WriterWaitRegistration.tickets at hfirst
      cases ht : r.historyTicket with
      | none => rw [ht] at hfirst; cases Multiset.notMem_zero _ hfirst
      | some t => rw [ht] at hfirst; rw [Multiset.mem_singleton.1 hfirst]
    have hp := (h.wellFormed id' r hr).2 (by rw [hr']; rfl)
    refine ⟨id', r, hr, ?_⟩
    rw [WriterArbiterState.eligible, hact, hp, hlive, hqueue, hr']; simp
  · -- A live request is counted.
    have hex : ∃ (id' : Nat) (r : WriterWaitRegistration), s.registrations[id']? = some r ∧
        r.liveCount ≠ 0 := by
      by_contra hno
      push Not at hno
      exact hlive (h.counts.live.trans (sum_eq_zero hno))
    obtain ⟨id', r, hr, hcount⟩ := hex
    have hp : r.priority = .live := by
      cases hp : r.priority with
      | live => rfl
      | history => rw [WriterWaitRegistration.liveCount, hp] at hcount; cases hcount rfl
    refine ⟨id', r, hr, ?_⟩
    rw [WriterArbiterState.eligible, hact, hp]; rfl

theorem eligible_history {state : WriterArbiterState} (he : state.eligible registration = true)
    (hticket : registration.historyTicket = some ticket) (hwf : registration.WellFormed) :
    state.liveWaiters = 0 ∧ ∃ queue, state.historyQueue = ticket :: queue := by
  have hp := hwf.2 (by rw [hticket]; rfl)
  rw [WriterArbiterState.eligible, hp, hticket] at he
  simp only [Bool.and_eq_true, decide_eq_true_iff] at he; exact ⟨he.2.1, head?_eq_some_iff.1 he.2.2⟩

variable {priority : WriterPriority}

theorem Inv.eligible_of_register (h : s.Inv) (hid : s.registrations[id]? = some registration)
    (he : (s.state.register priority).1.eligible registration = true) :
    s.state.eligible registration = true := by
  cases hp : registration.priority with
  | live =>
    rw [WriterArbiterState.eligible, hp] at he ⊢
    cases priority <;> exact he
  | history =>
    obtain ⟨_, hticket⟩ := isSome_iff_exists.1 ((h.wellFormed id _ hid).1 hp)
    obtain ⟨_, _, hqueue⟩ :=
      exists_cons_of_ne_nil (ne_nil_of_mem (h.ticket_mem hid hticket))
    rw [WriterArbiterState.eligible, hp] at he ⊢
    cases priority with
    | live =>
      -- A live request waits, so no history request may pass.
      have hone : satAdd s.state.liveWaiters 1 ≠ 0 := by
        unfold satAdd u64Max; omega
      simp [WriterArbiterState.register, hone] at he
    | history =>
      simp only [WriterArbiterState.register, hqueue, cons_append, head?_cons] at he ⊢; exact he

theorem Inv.request (h : s.Inv) (hid : id ∉ s.registrations) (hsize : s.registrations.size < u64Max) :
    Inv { s with
      state := (s.state.register priority).1
      waiters := s.waiters.enter id
      registrations := s.registrations.insert id (s.state.register priority).2 } where
  keys a := by
    dsimp only [enter]; rw [Table.mem_insert_iff, Table.mem_insert_iff, h.keys]
  permits := by
    have hact : (s.state.register priority).1.active = s.state.active := by
      cases priority <;> rfl
    rw [hact]; exact h.permits
  size := by
    have := size_insert_le (t := s.registrations) (k := id) (v := (s.state.register priority).2)
    exact Nat.le_trans this hsize
  wellFormed a r hr := by
    rcases insert_cases hr with ⟨-, rfl⟩ | ⟨-, hr⟩
    · cases priority <;> simp [WriterWaitRegistration.WellFormed, WriterArbiterState.register]
    · exact h.wellFormed a r hr
  counts := h.counts.register (getElem?_eq_none hid) hsize priority
  sorted := by
    cases priority with
    | live => exact h.sorted
    | history =>
      refine List.pairwise_append.2 ⟨h.sorted, List.pairwise_singleton _ _, fun a ha _ hb => ?_⟩
      rw [List.mem_singleton.1 hb]; exact h.issued a ha
  issued ticket hticket := by
    cases priority with
    | live => exact h.issued ticket hticket
    | history =>
      have hnext := Nat.le_min.2 ⟨Nat.le_succ _, h.ticketBound⟩
      rcases List.mem_append.1 hticket with hold | hnew
      · exact Nat.le_trans (h.issued ticket hold) hnext
      · rw [List.mem_singleton.1 hnew]; exact hnext
  ticketBound := by
    cases priority with
    | live => exact h.ticketBound
    | history => exact Nat.min_le_right _ _
  watched := by
    refine h.watched.enter fun a hne => ?_
    rintro ⟨r, hr, he⟩
    rw [Table.getElem?_insert_of_ne _ _ (Ne.symm hne)] at hr
    exact ⟨r, hr, h.eligible_of_register hr he⟩

variable {waiters : Waiters Nat}

theorem Inv.withWaiters (h : s.Inv) (hkeys : ∀ id : Nat, id ∈ waiters.table ↔ id ∈ s.waiters.table)
    (hwatched : waiters.Watched s.MayPass) : Inv { s with waiters } where
  keys a := (h.keys a).trans (hkeys a).symm
  permits := h.permits
  size := h.size
  wellFormed := h.wellFormed
  counts := h.counts
  sorted := h.sorted
  issued := h.issued
  ticketBound := h.ticketBound
  watched := hwatched

theorem mem_insert_of_get? {stage stage' : Wait} (h : waiters.table[id]? = some stage) (a : Nat) :
    a ∈ waiters.table.insert id stage' ↔ a ∈ waiters.table := by
  rw [Table.mem_insert_iff]; exact or_iff_right_of_imp fun ha => ha ▸ Table.mem_of_getElem? h

theorem Inv.leave {state : WriterArbiterState} {permits : List Nat}
    (h : s.Inv) (hkeys : waiters.table = s.waiters.table.erase id)
    (hpermits : permits.length = if state.active then 1 else 0)
    (hcounts : state.Counts (s.registrations.erase id))
    (hsub : state.historyQueue.Sublist s.state.historyQueue)
    (hnext : state.nextHistoryTicket = s.state.nextHistoryTicket) (hwatched : waiters.Watched
      (WriterArbiter.mk state waiters (s.registrations.erase id) permits).MayPass) :
    Inv ⟨state, waiters, s.registrations.erase id, permits⟩ where
  keys a := by
    rw [hkeys, mem_erase_iff, mem_erase_iff, h.keys]
  permits := hpermits
  size := Nat.le_trans size_erase_le h.size
  wellFormed a r hr := by
    obtain ⟨-, hr⟩ := erase_cases hr; exact h.wellFormed a r hr
  counts := hcounts
  sorted := h.sorted.sublist hsub
  issued ticket hticket := by
    rw [hnext]; exact h.issued ticket (hsub.subset hticket)
  ticketBound := hnext ▸ h.ticketBound
  watched := hwatched

theorem Inv.handOver (h : s.Inv) (hid : s.registrations[id]? = some registration)
    (he : s.state.eligible registration = true) : Inv ⟨s.state.handOver registration,
    s.waiters.leave id, s.registrations.erase id, id :: s.permits⟩ := by
  have hwf := h.wellFormed id _ hid
  have hinactive : s.state.active = false := by
    rw [WriterArbiterState.eligible, Bool.and_eq_true] at he; exact (Bool.not_eq_eq_eq_not).1 he.1
  have hact : (s.state.handOver registration).active = true := by
    unfold WriterArbiterState.handOver
    split <;> rfl
  refine h.leave rfl ?_ ?_ ?_ ?_ ?_
  · rw [length_cons, h.permits, hinactive, hact]; rfl
  · refine h.counts.leave hid hwf (fun hp => ?_) fun _ hticket => ?_
    · rw [WriterArbiterState.handOver, hp]; exact ⟨rfl, rfl, rfl⟩
    · have hp := hwf.2 (by rw [hticket]; rfl)
      obtain ⟨-, _, hqueue⟩ := eligible_history he hticket hwf
      rw [WriterArbiterState.handOver, hp]
      refine ⟨rfl, rfl, ?_⟩
      rw [hqueue, tail_cons]
  · unfold WriterArbiterState.handOver
    split
    · exact List.Sublist.refl _
    · exact tail_sublist _
  · unfold WriterArbiterState.handOver
    split <;> rfl
  · refine h.watched.leave fun _ _ => ?_
    -- Nobody may pass while the permit is out.
    rintro ⟨_, -, hr⟩; rw [WriterArbiterState.eligible, hact] at hr; cases hr

theorem Inv.cancel (h : s.Inv) (hid : s.registrations[id]? = some registration) :
    Inv ⟨s.state.forget registration, (s.waiters.leave id).notify, s.registrations.erase id,
      s.permits⟩ := by
  have hwf := h.wellFormed id _ hid
  have hact : (s.state.forget registration).active = s.state.active := by
    unfold WriterArbiterState.forget
    split <;> rfl
  refine h.leave rfl (by rw [hact]; exact h.permits) ?_ ?_ ?_ watched_notify
  · refine h.counts.leave hid hwf (fun hp => ?_) fun ticket hticket => ?_
    · rw [WriterArbiterState.forget, hp]; exact ⟨rfl, rfl, rfl⟩
    · have hp := hwf.2 (by rw [hticket]; rfl)
      rw [WriterArbiterState.forget, hp, hticket]
      exact ⟨rfl, rfl, perm_cons_erase (h.ticket_mem hid hticket)⟩
  · unfold WriterArbiterState.forget
    split
    · exact List.Sublist.refl _
    · cases registration.historyTicket with
      | none => exact List.Sublist.refl _
      | some ticket => exact erase_sublist
  · unfold WriterArbiterState.forget
    split <;> rfl

theorem Inv.release (h : s.Inv) (hid : id ∈ s.permits) : Inv { s with
      state := { s.state with active := false }
      waiters := s.waiters.notify
      permits := s.permits.erase id } where
  keys := h.keys
  permits := by
    have hpos := length_pos_of_mem hid
    have hlen := h.permits
    rw [length_erase_of_mem hid]
    split at hlen <;> simp <;> omega
  size := h.size
  wellFormed := h.wellFormed
  counts := ⟨h.counts.live, h.counts.history, h.counts.queue⟩
  sorted := h.sorted
  issued := h.issued
  ticketBound := h.ticketBound
  watched := watched_notify

theorem Inv.step (h : s.Inv) {event : WriterEvent} (hs : s.step event = some s') : s'.Inv := by
  cases event with
  | request id priority =>
    simp only [WriterArbiter.step] at hs
    split at hs
    · cases hs
    · rename_i hguard
      rw [not_or, not_or, Nat.not_le] at hguard; cases hs; exact h.request hguard.1 hguard.2.2
  | listen id =>
    simp only [WriterArbiter.step] at hs
    split at hs
    · rename_i hstg
      cases hs; exact h.withWaiters (mem_insert_of_get? hstg) h.watched.listen
    · cases hs
  | check id =>
    simp only [WriterArbiter.step] at hs
    split at hs
    · rename_i notif reg hstg hid
      split at hs
      · rename_i he; cases hs; exact h.handOver hid he
      · rename_i he
        cases hs
        refine h.withWaiters (mem_insert_of_get? hstg) (h.watched.sleep ?_)
        rintro ⟨_, hr, hpass⟩; rw [hid, some.injEq] at hr; exact he (hr ▸ hpass)
    · cases hs
  | cancel id =>
    simp only [WriterArbiter.step] at hs
    split at hs
    · cases hs; exact h.cancel ‹_›
    · cases hs; exact h.cancel ‹_›
    · cases hs
  | release id =>
    simp only [WriterArbiter.step] at hs
    split at hs
    · cases hs; exact h.release ‹_›
    · cases hs
  | deliver =>
    simp only [WriterArbiter.step] at hs
    split at hs
    · cases hs
      refine h.withWaiters (fun _ => ?_) watched_deliver
      exact mem_map
    · cases hs

theorem inv_run {evs : List WriterEvent} : ∀ {s : WriterArbiter}, s.Inv → (s.run evs).Inv := by
  induction evs with
  | nil => exact fun h => h
  | cons event evs ih =>
    intro s h
    have hstep : ((s.step event).getD s).Inv := by
      cases hs : s.step event with
      | none => exact h
      | some s' => exact h.step hs
    exact ih hstep

def Next (s s' : WriterArbiter) : Prop :=
  ∃ event : WriterEvent, event.Internal ∧ s.step event = some s'

theorem Inv.active_eq_false (h : s.Inv) (hp : s.permits = []) : s.state.active = false := by
  have hlen := h.permits
  rw [hp] at hlen
  cases hact : s.state.active with
  | false => rfl
  | true => rw [hact] at hlen; cases hlen

theorem Inv.exists_next (h : s.Inv) (hp : s.permits = [])
    (hid : s.registrations[id]? = some registration) : ∃ s', Next s s' := by
  obtain ⟨first, hpass⟩ := h.exists_mayPass (h.active_eq_false hp) hid
  obtain ⟨r, hr, he⟩ := hpass
  obtain ⟨stage, hstage⟩ := isSome_iff_exists.1
    (mem_iff_isSome_getElem?.1 ((h.keys first).1 (mem_of_getElem? hr)))
  by_cases hpend : 0 < s.waiters.pending
  · exact ⟨_, .deliver, trivial, if_pos hpend⟩
  · have hawake := (h.watched.progress hstage ⟨r, hr, he⟩).resolve_left hpend
    cases stage with
    | asleep => exact absurd rfl hawake
    | polling => exact ⟨_, .listen first, trivial, if_pos hstage⟩
    | checking notified =>
      have hcheck : s.step (.check first) = some ⟨s.state.handOver r, s.waiters.leave first,
          s.registrations.erase first, first :: s.permits⟩ := by
        simp only [WriterArbiter.step, hstage, hr, he, if_true]
      exact ⟨_, .check first, trivial, hcheck⟩

theorem work_lt_of_next (hs : Next s s') : s'.permits ≠ [] ∨
      (s'.registrations = s.registrations ∧ s'.waiters.work < s.waiters.work) := by
  obtain ⟨event, hinternal, hs⟩ := hs
  cases event with
  | request | cancel | release => cases hinternal
  | listen id =>
    simp only [step] at hs
    split at hs
    · rename_i hstg; cases hs; exact .inr ⟨rfl, work_listen_lt hstg⟩
    · cases hs
  | check id =>
    simp only [step] at hs
    split at hs
    · rename_i notif reg hstg hid
      split at hs
      · cases hs; exact .inl (cons_ne_nil _ _)
      · cases hs; exact .inr ⟨rfl, work_sleep_lt hstg⟩
    · cases hs
  | deliver =>
    simp only [step] at hs
    split at hs
    · rename_i hpend; cases hs; exact .inr ⟨rfl, work_deliver_lt hpend⟩
    · cases hs

theorem Inv.inevitably_granted (h : s.Inv) (hid : s.registrations[id]? = some registration) :
    Inevitably Next (fun s => s.permits ≠ []) s := by
  refine Inevitably.of_measure
    (P := fun s => s.Inv ∧ s.registrations[id]? = some registration) (fun s => s.waiters.work)
    (fun s hP hgoal => hP.1.exists_next (not_not.1 hgoal) hP.2) (fun s _ hP _ hs => ?_) ⟨h, hid⟩
  rcases work_lt_of_next hs with hgranted | ⟨hsame, hlt⟩
  · exact .inl hgranted
  · obtain ⟨_, -, hevent⟩ := hs; exact .inr ⟨⟨hP.1.step hevent, hsame ▸ hP.2⟩, hlt⟩

/-- What a request that is granted had before it: no permit is out, and where it is a history
request all that wait are history requests whose tickets do not come before its own. -/
structure Granted (s : WriterArbiter) (id : Nat) : Prop where
  noPermit : s.permits = []
  inTurn : ∀ registration, s.registrations[id]? = some registration →
    registration.priority = .history → ∃ ticket, registration.historyTicket = some ticket ∧
      ∀ (id' : Nat) (other : WriterWaitRegistration), s.registrations[id']? = some other →
        other.priority = .history ∧ ∃ ticket', other.historyTicket = some ticket' ∧ ticket ≤ ticket'

theorem Inv.granted (h : s.Inv) {event : WriterEvent} (hs : s.step event = some s')
    (hnew : id ∈ s'.permits) (hold : id ∉ s.permits) : id ∈ s.registrations ∧ Granted s id := by
  have hcheck : event = .check id ∧ ∃ reg, s.registrations[id]? = some reg ∧
      s.state.eligible reg = true := by
    cases event with
    | request a priority =>
      simp only [WriterArbiter.step] at hs
      split at hs
      · cases hs
      · cases hs; exact absurd hnew hold
    | listen a =>
      simp only [WriterArbiter.step] at hs
      split at hs
      · cases hs; exact absurd hnew hold
      · cases hs
    | check a =>
      simp only [WriterArbiter.step] at hs
      split at hs
      · rename_i notif reg hstg hid
        split at hs
        · rename_i he
          cases hs
          rcases mem_cons.1 hnew with rfl | hmem
          · exact ⟨rfl, reg, hid, he⟩
          · exact absurd hmem hold
        · cases hs; exact absurd hnew hold
      · cases hs
    | cancel a =>
      simp only [WriterArbiter.step] at hs
      split at hs
      · cases hs; exact absurd hnew hold
      · cases hs; exact absurd hnew hold
      · cases hs
    | release a =>
      simp only [WriterArbiter.step] at hs
      split at hs
      · cases hs; exact absurd (mem_of_mem_erase hnew) hold
      · cases hs
    | deliver =>
      simp only [WriterArbiter.step] at hs
      split at hs
      · cases hs; exact absurd hnew hold
      · cases hs
  obtain ⟨-, reg, hid, he⟩ := hcheck
  have hinactive : s.state.active = false := by
    rw [WriterArbiterState.eligible, Bool.and_eq_true] at he; exact (Bool.not_eq_eq_eq_not).1 he.1
  refine ⟨mem_of_getElem? hid, ?_, fun r hr hhist => ?_⟩
  · have hlen := h.permits; rw [hinactive] at hlen; exact length_eq_zero_iff.1 hlen
  · rw [hid, some.injEq] at hr
    subst hr
    have hwf := h.wellFormed id _ hid
    obtain ⟨ticket, hticket⟩ := isSome_iff_exists.1 (hwf.1 hhist)
    obtain ⟨hlive, _, hqueue⟩ := eligible_history he hticket hwf
    refine ⟨ticket, hticket, fun id' other hother => ?_⟩
    have hhist' : other.priority = .history := by
      have hle := le_sum_of_get? (f := fun _ r => r.liveCount) hother
      rw [← h.counts.live, hlive] at hle
      cases hp : other.priority with
      | history => rfl
      | live => rw [WriterWaitRegistration.liveCount, hp] at hle; cases hle
    obtain ⟨ticket', hticket'⟩ :=
      isSome_iff_exists.1 ((h.wellFormed id' _ hother).1 hhist')
    refine ⟨hhist', ticket', hticket', ?_⟩
    have hmem := h.ticket_mem hother hticket'
    have hsort := h.sorted
    rw [hqueue, pairwise_cons] at hsort
    rw [hqueue, mem_cons] at hmem
    rcases hmem with heq | hmem
    · exact Nat.le_of_eq heq.symm
    · exact hsort.1 ticket' hmem

structure Arbitrated (s : WriterArbiter) : Prop where
  onePermit : s.permits.length ≤ 1
  active : s.state.active = true ↔ s.permits ≠ []
  counts : s.state.Counts s.registrations
  granted : ∀ (event : WriterEvent) (s' : WriterArbiter) (id : Nat), s.step event = some s' →
    id ∈ s'.permits → id ∉ s.permits → id ∈ s.registrations ∧ Granted s id
  cancelled : ∀ (id : Nat) (s' : WriterArbiter), s.step (.cancel id) = some s' →
    s'.registrations = s.registrations.erase id ∧ s'.permits = s.permits
  progress : ∀ id ∈ s.registrations, Inevitably Next (fun s => s.permits ≠ []) s

theorem Inv.arbitrated (h : s.Inv) : s.Arbitrated where
  onePermit := by
    rw [h.permits]
    split <;> decide
  active := by
    have hlen := h.permits
    cases hact : s.state.active with
    | false =>
      rw [hact] at hlen; exact iff_of_false nofun fun hp => hp (length_eq_zero_iff.1 hlen)
    | true =>
      rw [hact] at hlen
      refine iff_of_true rfl fun hp => ?_
      rw [hp] at hlen; cases hlen
  counts := h.counts
  granted _ _ _ hs hnew hold := h.granted hs hnew hold
  cancelled id s' hs := by
    simp only [WriterArbiter.step] at hs
    split at hs
    · cases hs; exact ⟨rfl, rfl⟩
    · cases hs; exact ⟨rfl, rfl⟩
    · cases hs
  progress id hid := by
    obtain ⟨_, hr⟩ :=
      isSome_iff_exists.1 (mem_iff_isSome_getElem?.1 hid)
    exact h.inevitably_granted hr

/-- However requests, grants, releases and dropped requests interleave. -/
theorem run_arbitrated (events : List WriterEvent) : (WriterArbiter.new.run events).Arbitrated :=
  (inv_run inv_new).arbitrated

end WriterArbiter

end Leani.Turns
