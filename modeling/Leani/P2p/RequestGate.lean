import Leani.Library.Waiters
import Leani.Primitives

/-!
# The material request gate

One limit for the material requests of every lane, with slots reserved for live requests. A request
that gets no slot waits for a notification, which it registered for before it tried. Trying,
releasing a slot and registering a waiting live request are one step each.
-/

namespace Leani.P2p.RequestGate

open Library Std Option Table ExtTreeMap

inductive Priority where
  | normal
  | high
  deriving DecidableEq

def reservedLiveMaterialRequests : Nat := 4

def materialRequestCapacity (limit : Nat) (priority : Priority) : Nat :=
  let limit := max limit 1
  match priority with
  | .high => limit
  | .normal => limit - min reservedLiveMaterialRequests (limit / 2)

structure MaterialRequestGate where
  limit : Nat
  inFlight : Nat
  highPriorityWaiters : Nat
  deriving DecidableEq

namespace MaterialRequestGate

def new (limit : Nat) : MaterialRequestGate := ⟨max limit 1, 0, 0⟩

def tryAcquire (gate : MaterialRequestGate) (priority : Priority) : Option MaterialRequestGate :=
  if priority = .normal ∧ gate.highPriorityWaiters ≠ 0 then none
  else if gate.inFlight < materialRequestCapacity gate.limit priority then
    some { gate with inFlight := satAdd gate.inFlight 1 }
  else none

end MaterialRequestGate

/-- The gate with the requests that wait for a slot, each under the number of its call, the live
requests whose waiter is still to be dropped, and the calls that hold a permit. -/
structure Requests where
  gate : MaterialRequestGate
  waiters : Waiters Nat
  waiting : Table Nat Priority
  leaving : List Nat
  permits : Table Nat Priority

inductive GateEvent where
  | register (id : Nat) (priority : Priority)
  | listen (id : Nat)
  | attempt (id : Nat)
  | cancel (id : Nat)
  /-- `HighPriorityWaiter::drop`, once the request has its slot or is cancelled. -/
  | unregister (id : Nat)
  | release (id : Nat)
  deriving DecidableEq

namespace Requests

def new (limit : Nat) : Requests := ⟨.new limit, .none, ∅, [], ∅⟩

/-- `notify_waiters` reaches every request that registered for it. -/
def notifyWaiters (waiters : Waiters Nat) : Waiters Nat := waiters.notify.deliver

/-- The calls that are somewhere between `acquire` and the end of their permit. -/
def Knows (s : Requests) (id : Nat) : Prop := id ∈ s.waiting ∨ id ∈ s.leaving ∨ id ∈ s.permits

instance (s : Requests) (id : Nat) : Decidable (s.Knows id) :=
  inferInstanceAs (Decidable (_ ∨ _ ∨ _))

def step (s : Requests) : GateEvent → Option Requests
  | .register id priority =>
    if s.Knows id ∨ u64Max ≤ s.waiting.size + s.leaving.length then none
    else
      some { s with
        gate := match priority with
          | .high => { s.gate with highPriorityWaiters := s.gate.highPriorityWaiters + 1 }
          | .normal => s.gate
        waiters := s.waiters.enter id
        waiting := s.waiting.insert id priority }
  | .listen id =>
    if s.waiters.table[id]? = some .polling then some { s with waiters := s.waiters.listen id }
    else none
  | .attempt id =>
    match s.waiters.table[id]?, s.waiting[id]? with
    | some (.checking notified), some priority =>
      match s.gate.tryAcquire priority with
      | some gate =>
        some
          { gate
            waiters := s.waiters.leave id
            waiting := s.waiting.erase id
            leaving := if priority = .high then id :: s.leaving else s.leaving
            permits := s.permits.insert id priority }
      | none => some { s with waiters := s.waiters.sleep id (.checking notified) }
    | _, _ => none
  | .cancel id =>
    match s.waiters.table[id]?, s.waiting[id]? with
    -- Nothing is awaited between registering for a notification and the attempt.
    | some .polling, some priority | some .asleep, some priority =>
      some { s with
        waiters := s.waiters.leave id
        waiting := s.waiting.erase id
        leaving := if priority = .high then id :: s.leaving else s.leaving }
    | _, _ => none
  | .unregister id =>
    if id ∈ s.leaving then
      some { s with
        gate := { s.gate with highPriorityWaiters := s.gate.highPriorityWaiters - 1 }
        waiters := notifyWaiters s.waiters
        leaving := s.leaving.erase id }
    else none
  | .release id =>
    if id ∈ s.permits ∧ id ∉ s.leaving then
      some { s with
        gate := { s.gate with inFlight := s.gate.inFlight - 1 }
        waiters := notifyWaiters s.waiters
        permits := s.permits.erase id }
    else none

def run (s : Requests) : List GateEvent → Option Requests
  | [] => some s
  | event :: events => (s.step event).bind fun s' => run s' events

end Requests

def countOf (priority : Priority) (_ : Nat) (priority' : Priority) : Nat :=
  if priority' = priority then 1 else 0

namespace Requests

def MayPass (s : Requests) (id : Nat) : Prop :=
  ∃ priority, s.waiting[id]? = some priority ∧ s.gate.tryAcquire priority ≠ none

structure Inv (limit : Nat) (s : Requests) : Prop where
  limit_le : limit ≤ u64Max
  limit_eq : s.gate.limit = max limit 1
  apart : ∀ id : Nat, id ∈ s.waiting → id ∉ s.permits
  keys : ∀ id : Nat, id ∈ s.waiting ↔ id ∈ s.waiters.table
  pending : s.waiters.pending = 0
  counted : s.gate.highPriorityWaiters = Table.sum s.waiting (countOf .high) + s.leaving.length
  inFlight : s.gate.inFlight = s.permits.size
  running : s.permits.size ≤ materialRequestCapacity limit .high
  normal : Table.sum s.permits (countOf .normal) ≤ materialRequestCapacity limit .normal
  watched : s.waiters.Watched s.MayPass

variable {limit : Nat} {s s' : Requests} {id : Nat} {priority : Priority}

theorem inv_new (hlimit : limit ≤ u64Max) : Inv limit (new limit) where
  limit_le := hlimit
  limit_eq := rfl
  apart _ h := (not_mem_empty h).elim
  keys _ := iff_of_false not_mem_empty not_mem_empty
  pending := rfl
  counted := rfl
  inFlight := rfl
  running := Nat.zero_le _
  normal := Nat.zero_le _
  watched := Waiters.watched_none

theorem capacity_max (limit : Nat) (prio : Priority) :
    materialRequestCapacity (max limit 1) prio = materialRequestCapacity limit prio := by
  cases prio <;> simp [materialRequestCapacity]

theorem capacity_normal_le (limit : Nat) :
    materialRequestCapacity limit .normal ≤ materialRequestCapacity limit .high :=
  Nat.sub_le ..

variable {gate : MaterialRequestGate}

theorem tryAcquire_eq_some {gate' : MaterialRequestGate} : gate.tryAcquire priority = some gate' ↔
      (priority = .normal → gate.highPriorityWaiters = 0) ∧
        gate.inFlight < materialRequestCapacity gate.limit priority ∧
        gate' = { gate with inFlight := satAdd gate.inFlight 1 } := by
  rw [MaterialRequestGate.tryAcquire]
  split
  · simp_all
  · split
    · simp_all [eq_comm]
    · simp_all

theorem tryAcquire_ne_none : gate.tryAcquire priority ≠ none ↔
      (priority = .normal → gate.highPriorityWaiters = 0) ∧
        gate.inFlight < materialRequestCapacity gate.limit priority := by
  rw [ne_none_iff_exists']; simp [tryAcquire_eq_some]

theorem countOf_le (k : Nat) (priority' : Priority) : countOf priority k priority' ≤ 1 := by
  rw [countOf]
  split <;> decide

theorem MayPass.mono {a : Nat} (h : s'.MayPass a) (hwait : s'.waiting[a]? = s.waiting[a]?)
    (hlimit : s'.gate.limit = s.gate.limit) (hinFlight : s.gate.inFlight ≤ s'.gate.inFlight)
    (hwaiters : s.gate.highPriorityWaiters ≤ s'.gate.highPriorityWaiters) : s.MayPass a := by
  obtain ⟨prio, hpriority, hpass⟩ := h
  rw [tryAcquire_ne_none] at hpass
  refine ⟨prio, hwait ▸ hpriority, tryAcquire_ne_none.2 ⟨fun hnormal => ?_, ?_⟩⟩
  · have := hpass.1 hnormal; omega
  · have := hpass.2; rw [hlimit] at this; omega

variable {waiters : Waiters Nat}

theorem watched_notifyWaiters {MayPass : Nat → Prop} : (notifyWaiters waiters).Watched MayPass :=
  Waiters.watched_deliver

theorem mem_notifyWaiters {a : Nat} : a ∈ (notifyWaiters waiters).table ↔ a ∈ waiters.table :=
  mem_map

section

variable (h : s.Inv limit)

include h

theorem Inv.register (hid : ¬ s.Knows id) : Inv limit { s with
      gate := match priority with
        | .high => { s.gate with highPriorityWaiters := s.gate.highPriorityWaiters + 1 }
        | .normal => s.gate
      waiters := s.waiters.enter id
      waiting := s.waiting.insert id priority } := by
  have hnone : s.waiting[id]? = none := by
    cases hcase : s.waiting[id]? with
    | none => rfl
    | some priority' => exact absurd (.inl (mem_of_getElem? hcase)) hid
  have herase := erase_of_get?_eq_none hnone
  have hother : ∀ a, a ≠ id → (s.waiting.insert id priority)[a]? = s.waiting[a]? := by
    intro a ha; rw [get?_insert_ite, if_neg ha]
  have hcnt := h.counted
  have hkeys : ∀ a : Nat, a ∈ s.waiting.insert id priority ↔
      a ∈ s.waiters.table.insert id .polling := by
    intro a; rw [mem_insert_iff, mem_insert_iff, h.keys]
  have hapart : ∀ a : Nat, a ∈ s.waiting.insert id priority → a ∉ s.permits := by
    intro a ha
    rcases mem_insert_iff.1 ha with rfl | ha
    · exact fun hmem => hid (.inr (.inr hmem))
    · exact h.apart a ha
  cases priority with
  | high =>
    refine ⟨h.limit_le, h.limit_eq, hapart, hkeys, h.pending, ?_, h.inFlight, h.running, h.normal, ?_⟩
    · rw [sum_insert, herase, countOf, if_pos rfl]
      dsimp only; omega
    · exact h.watched.enter fun a ha hpass => hpass.mono (hother a ha) rfl le_rfl (Nat.le_succ _)
  | normal =>
    refine ⟨h.limit_le, h.limit_eq, hapart, hkeys, h.pending, ?_, h.inFlight, h.running, h.normal, ?_⟩
    · rw [sum_insert, herase, countOf, if_neg (by decide)]
      dsimp only; omega
    · exact h.watched.enter fun a ha hpass => hpass.mono (hother a ha) rfl le_rfl le_rfl

theorem Inv.listen (hid : s.waiters.table[id]? = some .polling) :
    Inv limit { s with waiters := s.waiters.listen id } := by
  refine { h with keys := fun _ => ?_, pending := h.pending, watched := h.watched.listen }
  dsimp only [Waiters.listen]
  rw [mem_insert_iff, h.keys]
  constructor
  · exact .inr
  · rintro (rfl | ha)
    · exact mem_of_getElem? hid
    · exact ha

theorem Inv.counted_leave (hid : s.waiting[id]? = some priority) :
    s.gate.highPriorityWaiters = sum (s.waiting.erase id) (countOf .high) +
      (if priority = .high then id :: s.leaving else s.leaving).length := by
  have hcnt := h.counted
  rw [sum_of_get? _ hid, countOf] at hcnt
  split
  · rename_i hhigh
    rw [if_pos hhigh] at hcnt; rw [List.length_cons]; omega
  · rename_i hhigh; rw [if_neg hhigh] at hcnt; omega

theorem Inv.keys_leave (a : Nat) : a ∈ s.waiting.erase id ↔ a ∈ s.waiters.table.erase id := by
  rw [mem_erase_iff, mem_erase_iff, h.keys]

theorem Inv.grant
    (hid : s.waiting[id]? = some priority) (hgate : s.gate.tryAcquire priority = some gate) :
    Inv limit
      { gate
        waiters := s.waiters.leave id
        waiting := s.waiting.erase id
        leaving := if priority = .high then id :: s.leaving else s.leaving
        permits := s.permits.insert id priority } := by
  obtain ⟨-, hroom, rfl⟩ := tryAcquire_eq_some.1 hgate
  rw [h.limit_eq, capacity_max, h.inFlight] at hroom
  have hnew := h.apart id (mem_of_getElem? hid)
  have hnone := getElem?_eq_none hnew
  have hsize : (s.permits.insert id priority).size = s.permits.size + 1 := by
    rw [size_insert, if_neg (fun hmem => hnew (contains_iff_mem.1 hmem))]
  have hhigh : materialRequestCapacity limit priority ≤ materialRequestCapacity limit .high := by
    cases priority with
    | normal => exact capacity_normal_le limit
    | high => exact le_rfl
  refine ⟨h.limit_le, h.limit_eq, fun a ha hmem => ?_, h.keys_leave, h.pending,
    h.counted_leave hid, ?_, ?_, ?_, ?_⟩
  · rw [mem_erase_iff] at ha
    rcases mem_insert_iff.1 hmem with rfl | hmem
    · exact ha.1 rfl
    · exact h.apart a ha.2 hmem
  · have hlimit : materialRequestCapacity limit .high ≤ u64Max := by
      have hmax : (1 : Nat) ≤ u64Max := by decide
      exact max_le h.limit_le hmax
    rw [hsize, ← h.inFlight]
    refine satAdd_eq ?_
    rw [h.inFlight]; omega
  · dsimp only; omega
  · have hnormal := h.normal
    have hle := sum_le_size (t := s.permits) (@countOf_le .normal)
    rw [sum_insert, erase_of_get?_eq_none hnone, countOf]
    split
    · rename_i heq; rw [heq] at hroom; omega
    · omega
  · refine h.watched.leave fun a ha hpass => hpass.mono ?_ rfl ?_ le_rfl
    · rw [get?_erase_ite, if_neg ha]
    · rw [satAdd_eq]
      · exact Nat.le_succ _
      · have hmax : materialRequestCapacity limit .high ≤ u64Max :=
          max_le h.limit_le (by decide)
        rw [h.inFlight]; omega

theorem Inv.fail {notif : Bool} (htable : s.waiters.table[id]? = some (.checking notif))
    (hid : s.waiting[id]? = some priority) (hgate : s.gate.tryAcquire priority = none) :
    Inv limit { s with waiters := s.waiters.sleep id (.checking notif) } := by
  refine { h with keys := fun _ => ?_, pending := h.pending, watched := h.watched.sleep ?_ }
  · dsimp only [Waiters.sleep]
    rw [mem_insert_iff, h.keys]
    constructor
    · exact .inr
    · rintro (rfl | ha)
      · exact mem_of_getElem? htable
      · exact ha
  · rintro ⟨_, hpriority, hpass⟩
    obtain rfl := some.inj (hid.symm.trans hpriority); exact hpass hgate

theorem Inv.cancel (hid : s.waiting[id]? = some priority) : Inv limit { s with
      waiters := s.waiters.leave id
      waiting := s.waiting.erase id
      leaving := if priority = .high then id :: s.leaving else s.leaving } := by
  have hapart : ∀ a : Nat, a ∈ s.waiting.erase id → a ∉ s.permits :=
    fun a ha => h.apart a (mem_erase_iff.1 ha).2
  refine { h with
    apart := hapart, keys := h.keys_leave, counted := h.counted_leave hid, watched := ?_ }
  refine h.watched.leave fun a ha hpass => hpass.mono ?_ rfl le_rfl le_rfl
  rw [get?_erase_ite, if_neg ha]

theorem Inv.unregister (hid : id ∈ s.leaving) : Inv limit { s with
      gate := { s.gate with highPriorityWaiters := s.gate.highPriorityWaiters - 1 }
      waiters := notifyWaiters s.waiters
      leaving := s.leaving.erase id } := by
  refine ⟨h.limit_le, h.limit_eq, h.apart, fun a => ?_, h.pending, ?_, h.inFlight, h.running,
    h.normal, watched_notifyWaiters⟩
  · rw [mem_notifyWaiters]; exact h.keys a
  · have hcnt := h.counted
    have hlen := List.length_pos_of_mem hid
    rw [List.length_erase_of_mem hid]
    dsimp only; omega

theorem Inv.release (hid : id ∈ s.permits) : Inv limit { s with
      gate := { s.gate with inFlight := s.gate.inFlight - 1 }
      waiters := notifyWaiters s.waiters
      permits := s.permits.erase id } := by
  obtain ⟨_, hpriority⟩ :=
    isSome_iff_exists.1 (isSome_getElem?_iff_mem.2 hid)
  have hsize := size_of_get? hpriority
  have hsum := sum_of_get? (countOf .normal) hpriority
  have hinFlight := h.inFlight
  have hrunning := h.running
  have hnormal := h.normal
  refine ⟨h.limit_le, h.limit_eq, fun a ha hmem => ?_, fun a => ?_, h.pending, h.counted, ?_, ?_,
    ?_, watched_notifyWaiters⟩
  · exact h.apart a ha (mem_erase_iff.1 hmem).2
  · rw [mem_notifyWaiters]; exact h.keys a
  · dsimp only; omega
  · dsimp only; omega
  · dsimp only; omega

end

theorem step_attempt_eq_some (hstep : s.step (.attempt id) = some s') :
    ∃ notif prio, s.waiters.table[id]? = some (.checking notif) ∧ s.waiting[id]? = some prio ∧
      ((∃ gate, s.gate.tryAcquire prio = some gate ∧ s' =
          { gate
            waiters := s.waiters.leave id
            waiting := s.waiting.erase id
            leaving := if prio = .high then id :: s.leaving else s.leaving
            permits := s.permits.insert id prio }) ∨
      s.gate.tryAcquire prio = none ∧
        s' = { s with waiters := s.waiters.sleep id (.checking notif) }) := by
  simp only [step] at hstep
  split at hstep
  · rename_i notif prio htable hid
    refine ⟨notif, prio, htable, hid, ?_⟩
    split at hstep
    · rename_i gate hgate; exact .inl ⟨gate, hgate, (some.inj hstep).symm⟩
    · rename_i hgate; exact .inr ⟨hgate, (some.inj hstep).symm⟩
  · cases hstep

theorem Inv.step {event : GateEvent} (h : s.Inv limit) (hstep : s.step event = some s') :
    s'.Inv limit := by
  cases event with
  | register id prio =>
    simp only [Requests.step] at hstep
    split at hstep
    · cases hstep
    · rename_i hfree; cases hstep; exact h.register (fun hknows => hfree (.inl hknows))
  | listen id =>
    simp only [Requests.step] at hstep
    split at hstep
    · rename_i hpolling; cases hstep; exact h.listen hpolling
    · cases hstep
  | attempt id =>
    obtain ⟨_, prio, htable, hid, hcases⟩ := step_attempt_eq_some hstep
    rcases hcases with ⟨_, hgate, rfl⟩ | ⟨hgate, rfl⟩
    · exact h.grant hid hgate
    · exact h.fail htable hid hgate
  | cancel id =>
    simp only [Requests.step] at hstep
    split at hstep
    · rename_i prio _ hid; cases hstep; exact h.cancel hid
    · rename_i prio _ hid; cases hstep; exact h.cancel hid
    · cases hstep
  | unregister id =>
    simp only [Requests.step] at hstep
    split at hstep
    · rename_i hid; cases hstep; exact h.unregister hid
    · cases hstep
  | release id =>
    simp only [Requests.step] at hstep
    split at hstep
    · rename_i hid; cases hstep; exact h.release hid.1
    · cases hstep

variable {events : List GateEvent}

theorem Inv.run : ∀ {s : Requests}, s.Inv limit → s.run events = some s' → s'.Inv limit := by
  induction events with
  | nil =>
    intro s h hrun; cases hrun; exact h
  | cons event events ih =>
    intro s h hrun
    rw [Requests.run, bind_eq_some_iff] at hrun
    obtain ⟨_, hstep, hrun⟩ := hrun; exact ih (h.step hstep) hrun

theorem Inv.no_live_waiter (h : s.Inv limit) (hzero : s.gate.highPriorityWaiters = 0) (other : Nat) :
    s.waiting[other]? ≠ some .high := by
  intro hother
  have hcnt := h.counted; rw [hzero, sum_of_get? _ hother, countOf, if_pos rfl] at hcnt; omega

/-- However requests wait, are granted, finish and are cancelled: never more run than the limit, and
never more normal ones than leave the reserved slots free; a normal request is granted no reserved
slot, and none while a live request waits; and a request that could be granted a slot has been
notified since its last failed attempt, or is about to try. -/
theorem run_safe (hlimit : limit ≤ u64Max) (hrun : (new limit).run events = some s) :
    (s.gate.inFlight = s.permits.size ∧ s.permits.size ≤ max limit 1) ∧
      Table.sum s.permits (countOf .normal) ≤ materialRequestCapacity limit .normal ∧
      (∀ (id : Nat) s', s.waiting[id]? = some .normal → s.step (.attempt id) = some s' →
        id ∈ s'.permits → s'.permits.size ≤ materialRequestCapacity limit .normal ∧
          ∀ other : Nat, s.waiting[other]? ≠ some .high) ∧
      ∀ (id : Nat) priority, s.waiting[id]? = some priority → s.gate.tryAcquire priority ≠ none →
        s.waiters.table[id]? ≠ some .asleep := by
  have h := (inv_new hlimit).run hrun
  refine ⟨⟨h.inFlight, h.running⟩, h.normal, ?_, ?_⟩
  · intro id s' hid hstep hgranted
    obtain ⟨_, priority, -, hid', hcases⟩ := step_attempt_eq_some hstep
    obtain rfl := some.inj (hid.symm.trans hid')
    have hnew := h.apart id (mem_of_getElem? hid)
    rcases hcases with ⟨gate, hgate, rfl⟩ | ⟨-, rfl⟩
    · obtain ⟨hzero, hroom, -⟩ := tryAcquire_eq_some.1 hgate
      rw [h.limit_eq, capacity_max, h.inFlight] at hroom
      refine ⟨?_, h.no_live_waiter (hzero rfl)⟩
      rw [size_insert, if_neg fun hmem => hnew (contains_iff_mem.1 hmem)]
      exact hroom
    · exact absurd hgranted hnew
  · intro id priority hid hpass hasleep; exact h.watched h.pending id hasleep ⟨priority, hid, hpass⟩

/-- With one slot, a live request waits behind a normal one and is notified by its release. -/
theorem run_safe_handover :
    ∃ s, (new 1).run [.register 0 .normal, .listen 0, .attempt 0, .register 1 .high, .listen 1,
        .attempt 1, .register 2 .normal, .listen 2, .attempt 2, .release 0] = some s ∧
      s.gate.tryAcquire .high ≠ none ∧ s.waiting[(1 : Nat)]? = some .high ∧
      s.waiters.table[(1 : Nat)]? ≠ some .asleep := by
  have hsome : ((new 1).run [.register 0 .normal, .listen 0, .attempt 0, .register 1 .high,
      .listen 1, .attempt 1, .register 2 .normal, .listen 2, .attempt 2, .release 0]).map
        (fun s => (s.gate, s.waiting[(1 : Nat)]?)) = some (⟨1, 0, 1⟩, some .high) := by
    decide +kernel
  obtain ⟨s, hrun, hs⟩ := map_eq_some_iff.1 hsome
  simp only [Prod.mk.injEq] at hs
  have hpass : s.gate.tryAcquire .high ≠ none := by
    rw [hs.1]; decide
  exact ⟨s, hrun, hpass, hs.2, (run_safe (by decide) hrun).2.2.2 1 .high hs.2 hpass⟩

end Requests

end Leani.P2p.RequestGate
