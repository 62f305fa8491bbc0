import Leani.Library.Sums
import Leani.Primitives
import Mathlib.Algebra.Order.BigOperators.Group.List
import Mathlib.Algebra.Order.Group.Nat

/-!
# Notification budgets

WebSocket connections queue the notifications of chain events within a limit of their own and a
budget they share. Room is taken from the connection's semaphore, then from the shared one, and both
are given back when a message has been sent or its queue is dropped.
-/

namespace Leani.Rpc

open Library Std List Option Table

structure RpcConfig where
  maxSubscriptionEventBytes : Nat
  maxOutboundBytes : Nat
  valid : maxSubscriptionEventBytes ≤ maxOutboundBytes ∧ maxOutboundBytes ≤ 4294967295

def maxPermits : Nat := 2305843009213693951

namespace RpcConfig

def capacity (config : RpcConfig) : Nat := min config.maxSubscriptionEventBytes maxPermits

def budget (config : RpcConfig) : Nat := min config.maxOutboundBytes maxPermits

end RpcConfig

def notificationOpen : String :=
  "\x7b\"jsonrpc\":\"2.0\",\"method\":\"eth_subscription\",\"params\":\x7b\"subscription\":\""

def notificationMiddle : String := "\",\"result\":"

def notificationClose : String := "\x7d\x7d"

def notificationLen (subscription result : String) : Nat :=
  notificationOpen.utf8ByteSize + notificationMiddle.utf8ByteSize +
    notificationClose.utf8ByteSize + subscription.utf8ByteSize + result.utf8ByteSize

def notificationText (subscription result : String) : String :=
  notificationOpen ++ subscription ++ notificationMiddle ++ result ++ notificationClose

theorem utf8ByteSize_notificationText (sub res : String) :
    (notificationText sub res).utf8ByteSize = notificationLen sub res := by
  simp only [notificationText, notificationLen, String.utf8ByteSize_append]; omega

inductive Outgoing where
  | response (text : String)
  | notification (subscription result : String)

namespace Outgoing

def room : Outgoing → Nat
  | .response _ => 0
  | .notification subscription result => notificationLen subscription result

def slots : Outgoing → Nat
  | .response _ => 1
  | .notification _ _ => 0

end Outgoing

inductive Phase where
  | serving
  | ended
  | closed
  deriving DecidableEq

inductive Notifying where
  | idle
  /-- It holds the connection's room, and waits for the shared one, `assigned` of it so far. -/
  | waiting (subscription result : String) (assigned : Nat)

structure Connection where
  queue : List Outgoing
  sending : Option Outgoing
  room : Nat
  responses : Nat
  reading : Bool
  notifying : Notifying
  eventBytes : Nat
  eventTotal : Nat
  backlogSince : Option Nat
  evicted : Bool
  phase : Phase

namespace Connection

def start (config : RpcConfig) : Connection where
  queue := []
  sending := none
  room := config.capacity
  responses := 1
  reading := false
  notifying := .idle
  eventBytes := 0
  eventTotal := 0
  backlogSince := none
  evicted := false
  phase := .serving

def queued (config : RpcConfig) (connection : Connection) : Nat :=
  config.capacity - connection.room

def queuedBytes (connection : Connection) : Nat := (connection.queue.map Outgoing.room).sum

def queuedResponses (connection : Connection) : Nat := (connection.queue.map Outgoing.slots).sum

def sendingBytes (connection : Connection) : Nat := (connection.sending.map Outgoing.room).getD 0

def sendingResponses (connection : Connection) : Nat :=
  (connection.sending.map Outgoing.slots).getD 0

def reserve (connection : Connection) : Nat :=
  match connection.notifying with
  | .idle => 0
  | .waiting subscription result _ => notificationLen subscription result

def assigned (connection : Connection) : Nat :=
  match connection.notifying with
  | .idle => 0
  | .waiting _ _ assigned => assigned

def shared (connection : Connection) : Nat :=
  connection.queuedBytes + connection.sendingBytes + connection.assigned

def endSession (connection : Connection) : Connection :=
  { connection with
    sending := none
    room := connection.room + connection.reserve + connection.sendingBytes
    responses := connection.responses + connection.reading.toNat + connection.sendingResponses
    reading := false
    notifying := .idle
    phase := .ended }

def endReleases (connection : Connection) : Nat := connection.assigned + connection.sendingBytes

def dropQueue (connection : Connection) : Connection :=
  { connection with
    queue := []
    room := connection.room + connection.queuedBytes
    responses := connection.responses + connection.queuedResponses
    phase := .closed }

/-- `check_backlog`, in seconds: when the backlog began, `none` to close the connection. -/
def checkBacklog (config : RpcConfig) (connection : Connection) (now : Nat) : Option (Option Nat) :=
  if connection.queued config ≤ config.capacity / 4 then some none
  else if 30 < now - connection.backlogSince.getD now then none
  else some (some (connection.backlogSince.getD now))

end Connection

structure Eviction where
  needy : Connection
  evicted : Connection

structure State where
  available : Nat
  connections : Table Nat Connection
  next : Nat
  evictions : List Eviction

inductive Moment where
  | connect
  | read (id : Nat)
  | unread (id : Nat)
  | respond (id : Nat) (text : String)
  | event (id : Nat)
  | notify (id : Nat) (subscription result : String) (now : Nat)
  | assign (id permits : Nat)
  | granted (id : Nat)
  | timeout (id : Nat)
  | send (id : Nat)
  | sent (id : Nat)
  | endSession (id : Nat)
  | dropQueue (id : Nat)

namespace State

def start (config : RpcConfig) : State := ⟨config.budget, ∅, 0, []⟩

def put (state : State) (id : Nat) (connection : Connection) (available : Nat) : State :=
  { state with connections := state.connections.insert id connection, available }

def change (state : State) (id : Nat) (f : Connection → Option (Connection × Nat)) : Option State :=
  (state.connections[id]?).bind fun connection =>
    (f connection).map fun changed => state.put id changed.1 changed.2

def mostQueued (config : RpcConfig) : List (Nat × Connection) → Option (Nat × Connection)
  | [] => none
  | row :: rest =>
    match mostQueued config rest with
    | none => some row
    | some most => if row.2.queued config ≤ most.2.queued config then some most else some row

def laggard (config : RpcConfig) (state : State) : Option (Nat × Connection) :=
  mostQueued config (state.connections.toList.filter fun row => row.2.phase == .serving)

def close (state : State) (id : Nat) (connection : Connection) : State :=
  state.put id connection.endSession (state.available + connection.endReleases)

def globalRoom (config : RpcConfig) (state : State) (id : Nat) (before reserved : Connection)
    (subscription result : String) : State :=
  let bytes := notificationLen subscription result
  if bytes ≤ state.available then
    state.put id { reserved with queue := reserved.queue ++ [.notification subscription result] }
      (state.available - bytes)
  else
    match laggard config (state.put id reserved state.available) with
    | some (other, most) =>
      if other ≠ id then
        let evicting := state.put other { most with evicted := true } state.available
        { evicting.put id { reserved with notifying := .waiting subscription result 0 }
            state.available with
          evictions := ⟨reserved, most⟩ :: state.evictions }
      else state.close id before
    | none => state.close id before

def notify (config : RpcConfig) (state : State) (id : Nat) (connection : Connection)
    (subscription result : String) (now : Nat) : State :=
  let bytes := notificationLen subscription result
  let counted := { connection with
    eventBytes := satAdd connection.eventBytes bytes
    eventTotal := connection.eventTotal + bytes }
  if config.maxSubscriptionEventBytes < counted.eventBytes then state.close id counted
  else if 4294967295 < bytes then state.close id counted
  else if counted.room < bytes then state.close id counted
  else
    match Connection.checkBacklog config { counted with room := counted.room - bytes } now with
    | none => state.close id counted
    | some backlogSince =>
      globalRoom config state id counted { counted with room := counted.room - bytes, backlogSince }
        subscription result

def step (config : RpcConfig) (state : State) : Moment → Option State
  | .connect =>
    some { state.put state.next (.start config) state.available with next := state.next + 1 }
  | .read id => state.change id fun connection =>
    match connection.phase, connection.notifying with
    | .serving, .idle =>
      if connection.reading = false ∧ connection.responses = 1 then
        some ({ connection with reading := true, responses := 0 }, state.available)
      else none
    | _, _ => none
  | .unread id => state.change id fun connection =>
    if connection.reading then
      some ({ connection with reading := false, responses := connection.responses + 1 },
        state.available)
    else none
  | .respond id text => state.change id fun connection =>
    if connection.reading then
      some ({ connection with reading := false, queue := connection.queue ++ [.response text] },
        state.available)
    else none
  | .event id => state.change id fun connection =>
    match connection.phase, connection.notifying with
    | .serving, .idle =>
      some ({ connection with
        reading := false
        responses := connection.responses + connection.reading.toNat
        eventBytes := 0
        eventTotal := 0 }, state.available)
    | _, _ => none
  | .notify id subscription result now =>
    (state.connections[id]?).bind fun connection =>
      match connection.phase, connection.notifying with
      | .serving, .idle => some (notify config state id connection subscription result now)
      | _, _ => none
  | .assign id permits => state.change id fun connection =>
    match connection.notifying with
    | .idle => none
    | .waiting subscription result assigned =>
      if permits ≤ state.available ∧ assigned + permits ≤ notificationLen subscription result then
        some ({ connection with notifying := .waiting subscription result (assigned + permits) },
          state.available - permits)
      else none
  | .granted id => state.change id fun connection =>
    match connection.notifying with
    | .idle => none
    | .waiting subscription result assigned =>
      if assigned = notificationLen subscription result then
        some ({ connection with
          notifying := .idle
          queue := connection.queue ++ [.notification subscription result] }, state.available)
      else none
  | .timeout id => state.change id fun connection =>
    match connection.notifying with
    | .idle => none
    | .waiting _ _ _ =>
      some (connection.endSession, state.available + connection.endReleases)
  | .send id => state.change id fun connection =>
    match connection.phase, connection.sending, connection.queue with
    | .serving, none, message :: rest =>
      some ({ connection with sending := some message, queue := rest }, state.available)
    | _, _, _ => none
  | .sent id => state.change id fun connection =>
    match connection.sending with
    | some message =>
      some ({ connection with
        sending := none
        room := connection.room + message.room
        responses := connection.responses + message.slots }, state.available + message.room)
    | none => none
  | .endSession id => state.change id fun connection =>
    if connection.phase = .serving then
      some (connection.endSession, state.available + connection.endReleases)
    else none
  | .dropQueue id => state.change id fun connection =>
    if connection.phase = .ended then
      some (connection.dropQueue, state.available + connection.queuedBytes)
    else none

def run (config : RpcConfig) (state : State) (moments : List Moment) : Option State :=
  moments.foldlM (step config) state

end State

/-- A connection's room: every message that is queued or being sent holds its own, and so does the
notification that waits for shared room. -/
structure Connection.Kept (config : RpcConfig) (connection : Connection) : Prop where
  room : connection.room + connection.queuedBytes + connection.sendingBytes + connection.reserve =
    config.capacity
  responses : connection.responses + connection.reading.toNat + connection.queuedResponses +
    connection.sendingResponses = 1
  event : connection.phase = .serving → connection.eventTotal ≤ config.maxSubscriptionEventBytes ∧
    connection.eventBytes = connection.eventTotal

structure State.Kept (config : RpcConfig) (state : State) : Prop where
  connections : ∀ (id : Nat) connection, state.connections[id]? = some connection →
    connection.Kept config ∧ id < state.next
  shared : state.available + Table.sum state.connections (fun _ => Connection.shared) = config.budget
  evictions : ∀ eviction ∈ state.evictions,
    eviction.needy.queued config ≤ eviction.evicted.queued config

section

variable {config : RpcConfig} {state next : State} {id : Nat} {connection changed : Connection}
  {available : Nat}

theorem State.Kept.put (h : state.Kept config) (hconn : state.connections[id]? = some connection)
    (hkept : changed.Kept config) (hshared : available + changed.shared =
    state.available + connection.shared) : (state.put id changed available).Kept config where
  connections other connection' hother := by
    rcases insert_cases hother with ⟨heq, rfl⟩ | ⟨-, hother⟩
    · exact ⟨hkept, heq ▸ (h.connections id connection hconn).2⟩
    · exact h.connections other connection' hother
  shared := by
    have hsum := h.shared
    rw [sum_of_get? _ hconn] at hsum
    change available + sum (state.connections.insert id changed) _ = _; rw [sum_insert]; omega
  evictions := h.evictions

theorem Connection.Kept.endSession
    (hroom : connection.room + connection.queuedBytes + connection.sendingBytes +
      connection.reserve = config.capacity)
    (hresponses : connection.responses + connection.reading.toNat + connection.queuedResponses +
      connection.sendingResponses = 1) : connection.endSession.Kept config ∧
      connection.endReleases + connection.endSession.shared = connection.shared := by
  refine ⟨⟨?_, ?_, fun hphase => by cases hphase⟩, ?_⟩
  · simp only [Connection.endSession, queuedBytes, sendingBytes, reserve, map_none, getD_none] at *
    omega
  · simp only [Connection.endSession, queuedResponses, sendingResponses, map_none,
      getD_none, Bool.toNat_false] at *
    omega
  · simp only [Connection.endSession, shared, endReleases, queuedBytes, sendingBytes, assigned,
      map_none, getD_none]
    omega

theorem State.Kept.close (h : state.Kept config)
    (hconn : state.connections[id]? = some connection) (bytes total : Nat) :
    (state.close id { connection with eventBytes := bytes, eventTotal := total }).Kept config := by
  obtain ⟨hkept, -⟩ := h.connections id connection hconn
  obtain ⟨hended, hreleases⟩ := @Connection.Kept.endSession config
    { connection with eventBytes := bytes, eventTotal := total } hkept.room hkept.responses
  refine h.put hconn hended ?_
  change state.available + connection.endReleases + _ = _
  change connection.endReleases + _ = connection.shared at hreleases; omega

theorem mem_of_mostQueued {rows : List (Nat × Connection)} {most : Nat × Connection}
    (h : State.mostQueued config rows = some most) :
    most ∈ rows ∧ ∀ row ∈ rows, row.2.queued config ≤ most.2.queued config := by
  induction rows generalizing most with
  | nil => cases h
  | cons row rest ih =>
    rw [State.mostQueued] at h
    cases hrest : State.mostQueued config rest with
    | none =>
      rw [hrest] at h
      cases h
      have hnil : rest = [] := by
        cases rest with
        | nil => rfl
        | cons other rest =>
          rw [State.mostQueued] at hrest
          split at hrest
          · cases hrest
          · split at hrest <;> cases hrest
      subst hnil; simp
    | some best =>
      rw [hrest] at h
      obtain ⟨hmem, hmost⟩ := ih hrest
      dsimp only at h
      split at h
      · rename_i hle
        cases h
        refine ⟨mem_cons_of_mem _ hmem, ?_⟩
        intro row' hrow'
        rcases mem_cons.1 hrow' with rfl | hrow'
        · exact hle
        · exact hmost row' hrow'
      · cases h
        refine ⟨mem_cons_self, ?_⟩
        intro row' hrow'
        rcases mem_cons.1 hrow' with rfl | hrow'
        · exact le_rfl
        · exact Nat.le_trans (hmost row' hrow') (by omega)

theorem laggard_eq_some {other : Nat} {most : Connection}
    (h : State.laggard config state = some (other, most)) :
    state.connections[other]? = some most ∧ ∀ (id : Nat) conn,
      state.connections[id]? = some conn → conn.phase = .serving →
        conn.queued config ≤ most.queued config := by
  obtain ⟨hmem, hmost⟩ := mem_of_mostQueued h
  refine ⟨mem_toList.1 (mem_filter.1 hmem).1, ?_⟩
  intro id conn hconn hphase
  refine hmost (id, conn) (mem_filter.2 ⟨mem_toList.2 hconn, ?_⟩)
  simp [hphase]

/-- The connection with `bytes` more of the event counted and reserved. -/
def Connection.reserving (connection : Connection) (bytes : Nat) (backlogSince : Option Nat) :
    Connection :=
  { connection with
    eventBytes := satAdd connection.eventBytes bytes
    eventTotal := connection.eventTotal + bytes
    room := connection.room - bytes
    backlogSince }

theorem Connection.Kept.counted (hkept : connection.Kept config)
    (hphase : connection.phase = .serving) {bytes : Nat}
    (hlimit : satAdd connection.eventBytes bytes ≤ config.maxSubscriptionEventBytes) :
    connection.eventTotal + bytes ≤ config.maxSubscriptionEventBytes ∧
      satAdd connection.eventBytes bytes = connection.eventTotal + bytes := by
  have hvalid := config.valid
  have hexact : satAdd connection.eventBytes bytes = connection.eventBytes + bytes := by
    refine satAdd_of_lt ?_
    have hmax : (4294967295 : Nat) < u64Max := by decide
    omega
  rw [hexact] at hlimit ⊢; rw [(hkept.event hphase).2] at hlimit ⊢; exact ⟨hlimit, rfl⟩

theorem Connection.Kept.queue (hkept : connection.Kept config)
    (hphase : connection.phase = .serving) (hidle : connection.notifying = .idle)
    {sub res : String} {backlogSince : Option Nat}
    (hlimit : satAdd connection.eventBytes (notificationLen sub res) ≤
      config.maxSubscriptionEventBytes) (hroom : notificationLen sub res ≤ connection.room) :
    ({ connection.reserving (notificationLen sub res) backlogSince with
      queue := connection.queue ++ [.notification sub res] } : Connection).Kept config where
  room := by
    have hold := hkept.room
    simp only [reserving, queuedBytes, map_append, sum_append, map_cons,
      map_nil, sum_cons, sum_nil, Outgoing.room, sendingBytes, reserve, hidle] at *
    omega
  responses := by
    have hold := hkept.responses
    simp only [reserving, queuedResponses, map_append, sum_append, map_cons,
      map_nil, sum_cons, sum_nil, Outgoing.slots, sendingResponses] at *
    omega
  event _ := hkept.counted hphase hlimit

theorem Connection.Kept.wait (hkept : connection.Kept config)
    (hphase : connection.phase = .serving) (hidle : connection.notifying = .idle)
    {sub res : String} {backlogSince : Option Nat}
    (hlimit : satAdd connection.eventBytes (notificationLen sub res) ≤
      config.maxSubscriptionEventBytes) (hroom : notificationLen sub res ≤ connection.room) :
    ({ connection.reserving (notificationLen sub res) backlogSince with
      notifying := .waiting sub res 0 } : Connection).Kept config where
  room := by
    have hold := hkept.room
    simp only [reserving, queuedBytes, sendingBytes, reserve, hidle] at *; omega
  responses := hkept.responses
  event _ := hkept.counted hphase hlimit

section

variable (h : state.Kept config) (hconnection : state.connections[id]? = some connection)
  (hphase : connection.phase = .serving) (hidle : connection.notifying = .idle)

include h hconnection hphase hidle

theorem globalRoom_kept {sub res : String} {backlogSince : Option Nat}
    (hlimit : satAdd connection.eventBytes (notificationLen sub res) ≤
      config.maxSubscriptionEventBytes) (hroom : notificationLen sub res ≤ connection.room) :
    (State.globalRoom config state id { connection with
        eventBytes := satAdd connection.eventBytes (notificationLen sub res)
        eventTotal := connection.eventTotal + notificationLen sub res }
      (connection.reserving (notificationLen sub res) backlogSince) sub
      res).Kept config := by
  obtain ⟨hkept, -⟩ := h.connections id connection hconnection
  unfold State.globalRoom
  dsimp only
  split
  · rename_i havailable
    refine h.put hconnection (hkept.queue hphase hidle hlimit hroom) ?_
    simp only [Connection.shared, Connection.reserving, Connection.queuedBytes, map_append,
      sum_append, map_cons, map_nil, sum_cons, sum_nil, Outgoing.room,
      Connection.sendingBytes, Connection.assigned]
    omega
  · split
    · rename_i other most hlaggard
      split
      · rename_i hne
        obtain ⟨hmost, hall⟩ := laggard_eq_some hlaggard
        have hmost : state.connections[other]? = some most := by
          change (state.connections.insert id _)[other]? = _ at hmost
          rwa [get?_insert_ite, if_neg hne] at hmost
        have hmostKept := (h.connections other most hmost).1
        have hevicting : (state.put other { most with evicted := true } state.available).Kept
            config := h.put hmost ⟨hmostKept.room, hmostKept.responses, hmostKept.event⟩ rfl
        have hid : (state.put other { most with evicted := true }
            state.available).connections[id]? = some connection := by
          change (state.connections.insert other _)[id]? = _
          rw [get?_insert_ite, if_neg (Ne.symm hne)]; exact hconnection
        have hwait := @State.Kept.put config _ id connection _ state.available hevicting hid
          (@Connection.Kept.wait config connection hkept hphase hidle sub res
            backlogSince hlimit hroom) (by
              simp only [Connection.shared, Connection.reserving, Connection.queuedBytes,
                Connection.sendingBytes, Connection.assigned, hidle]
              rfl)
        refine ⟨hwait.connections, hwait.shared, ?_⟩
        intro eviction hmem
        rcases mem_cons.1 hmem with rfl | hmem
        · exact hall id _ (getElem?_insert_self _ _ _) hphase
        · exact h.evictions eviction hmem
      · exact h.close hconnection _ _
    · exact h.close hconnection _ _

theorem notify_kept (sub res : String) (now : Nat) :
    (State.notify config state id connection sub res now).Kept config := by
  unfold State.notify
  dsimp only
  split
  · exact h.close hconnection _ _
  · rename_i hlimit
    split
    · exact h.close hconnection _ _
    · split
      · exact h.close hconnection _ _
      · rename_i hroom
        split
        · exact h.close hconnection _ _
        · exact globalRoom_kept h hconnection hphase hidle (Nat.le_of_not_lt hlimit)
            (Nat.le_of_not_lt hroom)

end

theorem change_kept {f : Connection → Option (Connection × Nat)}
    (h : state.Kept config) (hstep : state.change id f = some next)
    (hf : ∀ conn changed available, conn.Kept config → f conn = some (changed, available) →
    changed.Kept config ∧ available + changed.shared = state.available + conn.shared) :
    next.Kept config := by
  obtain ⟨conn, hconnection, hmap⟩ := bind_eq_some_iff.1 hstep
  obtain ⟨⟨changed, available⟩, hchanged, rfl⟩ := map_eq_some_iff.1 hmap
  obtain ⟨hkept, hshared⟩ :=
    hf conn changed available (h.connections id conn hconnection).1 hchanged
  exact h.put hconnection hkept hshared

theorem start_kept (config : RpcConfig) : (Connection.start config).Kept config where
  room := rfl
  responses := rfl
  event _ := ⟨Nat.zero_le _, rfl⟩

theorem step_kept {moment : Moment} (h : state.Kept config)
    (hstep : state.step config moment = some next) : next.Kept config := by
  cases moment with
  | connect =>
    cases hstep
    have hnone : state.connections[state.next]? = none := by
      cases hold : state.connections[state.next]? with
      | none => rfl
      | some conn => exact absurd (h.connections _ _ hold).2 (Nat.lt_irrefl _)
    refine ⟨?_, ?_, h.evictions⟩
    · intro other conn hother
      rcases insert_cases hother with ⟨heq, rfl⟩ | ⟨-, hother⟩
      · exact ⟨start_kept config, by rw [heq]; exact Nat.lt_succ_self _⟩
      · obtain ⟨hkept, hlt⟩ := h.connections other conn hother
        exact ⟨hkept, Nat.lt_succ_of_lt hlt⟩
    · change state.available + sum (state.connections.insert state.next _) _ = _
      rw [sum_insert, erase_of_get?_eq_none hnone]
      have hnothing : (Connection.start config).shared = 0 := rfl
      rw [hnothing, Nat.zero_add]; exact h.shared
  | read id =>
    refine change_kept h hstep ?_
    intro conn changed avail hkept hf
    split at hf
    · split at hf
      · rename_i hfree
        cases hf
        refine ⟨⟨hkept.room, ?_, hkept.event⟩, rfl⟩
        have hold := hkept.responses
        rw [hfree.1, hfree.2] at hold
        simpa [Connection.queuedResponses, Connection.sendingResponses] using hold
      · cases hf
    · cases hf
  | unread id =>
    refine change_kept h hstep ?_
    intro conn changed avail hkept hf
    split at hf
    · rename_i hreading
      cases hf
      refine ⟨⟨hkept.room, ?_, hkept.event⟩, rfl⟩
      have hold := hkept.responses; rw [hreading] at hold; exact hold
    · cases hf
  | respond id text =>
    refine change_kept h hstep ?_
    intro conn changed avail hkept hf
    split at hf
    · rename_i hreading
      cases hf
      refine ⟨⟨?_, ?_, hkept.event⟩, ?_⟩
      · have hold := hkept.room
        simpa [Connection.queuedBytes, Outgoing.room, Connection.sendingBytes,
          Connection.reserve] using hold
      · have hold := hkept.responses
        rw [hreading] at hold
        simp only [Connection.queuedResponses, map_append, sum_append, map_cons,
          map_nil, sum_cons, sum_nil, Outgoing.slots, Connection.sendingResponses,
          Bool.toNat_false, Bool.toNat_true] at *
        omega
      · simp [Connection.shared, Connection.queuedBytes, Outgoing.room, Connection.sendingBytes,
          Connection.assigned]
    · cases hf
  | event id =>
    refine change_kept h hstep ?_
    intro conn changed avail hkept hf
    split at hf
    · cases hf
      refine ⟨⟨hkept.room, ?_, fun _ => ⟨Nat.zero_le _, rfl⟩⟩, rfl⟩
      exact hkept.responses
    · cases hf
  | notify id sub res now =>
    obtain ⟨conn, hconnection, hnotify⟩ := bind_eq_some_iff.1 hstep
    split at hnotify
    · rename_i hphase hidle
      cases hnotify; exact notify_kept h hconnection hphase hidle sub res now
    · cases hnotify
  | assign id permits =>
    refine change_kept h hstep ?_
    intro conn changed avail hkept hf
    split at hf
    · cases hf
    · rename_i sub res assigned hwait
      split at hf
      · rename_i hpermits
        cases hf
        refine ⟨⟨?_, hkept.responses, hkept.event⟩, ?_⟩
        · have hold := hkept.room; simp only [Connection.reserve, hwait] at hold; exact hold
        · simp only [Connection.shared, Connection.queuedBytes, Connection.sendingBytes,
            Connection.assigned, hwait]
          omega
      · cases hf
  | granted id =>
    refine change_kept h hstep ?_
    intro conn changed avail hkept hf
    split at hf
    · cases hf
    · rename_i sub res assigned hwait
      split at hf
      · rename_i hall
        cases hf
        refine ⟨⟨?_, ?_, hkept.event⟩, ?_⟩
        · have hold := hkept.room
          simp only [Connection.queuedBytes, map_append, sum_append, map_cons, map_nil,
            sum_cons, sum_nil, Outgoing.room, Connection.sendingBytes, Connection.reserve, hwait] at *
          omega
        · have hold := hkept.responses
          simpa [Connection.queuedResponses, Outgoing.slots, Connection.sendingResponses] using hold
        · simp only [Connection.shared, Connection.queuedBytes, map_append, sum_append,
            map_cons, map_nil, sum_cons, sum_nil, Outgoing.room,
            Connection.sendingBytes, Connection.assigned, hwait]
          omega
      · cases hf
  | timeout id =>
    refine change_kept h hstep ?_
    intro conn changed avail hkept hf
    split at hf
    · cases hf
    · cases hf
      obtain ⟨hended, hreleases⟩ :=
        @Connection.Kept.endSession config conn hkept.room hkept.responses
      exact ⟨hended, by omega⟩
  | send id =>
    refine change_kept h hstep ?_
    intro conn changed avail hkept hf
    split at hf
    · rename_i msg rest hphase hsending hqueue
      cases hf
      refine ⟨⟨?_, ?_, hkept.event⟩, ?_⟩
      · have hold := hkept.room
        simp only [Connection.queuedBytes, hqueue, map_cons, sum_cons, Connection.sendingBytes,
          hsending, map_none, map_some, getD_none, getD_some, Connection.reserve] at *
        omega
      · have hold := hkept.responses
        simp only [Connection.queuedResponses, hqueue, map_cons, sum_cons,
          Connection.sendingResponses, hsending, map_none, map_some, getD_none, getD_some] at *
        omega
      · simp only [Connection.shared, Connection.queuedBytes, hqueue, map_cons, sum_cons,
          Connection.sendingBytes, hsending, map_none, map_some, getD_none,
          getD_some, Connection.assigned]
        omega
    · cases hf
  | sent id =>
    refine change_kept h hstep ?_
    intro conn changed avail hkept hf
    split at hf
    · rename_i msg hsending
      cases hf
      refine ⟨⟨?_, ?_, hkept.event⟩, ?_⟩
      · have hold := hkept.room
        simp only [Connection.queuedBytes, Connection.sendingBytes, hsending, map_none,
          map_some, getD_none, getD_some, Connection.reserve] at *
        omega
      · have hold := hkept.responses
        simp only [Connection.queuedResponses, Connection.sendingResponses, hsending,
          map_none, map_some, getD_none, getD_some] at *
        omega
      · simp only [Connection.shared, Connection.queuedBytes, Connection.sendingBytes,
          hsending, map_none, map_some, getD_none, getD_some, Connection.assigned]
        omega
    · cases hf
  | endSession id =>
    refine change_kept h hstep ?_
    intro conn changed avail hkept hf
    split at hf
    · cases hf
      obtain ⟨hended, hreleases⟩ :=
        @Connection.Kept.endSession config conn hkept.room hkept.responses
      exact ⟨hended, by omega⟩
    · cases hf
  | dropQueue id =>
    refine change_kept h hstep ?_
    intro conn changed avail hkept hf
    split at hf
    · cases hf
      refine ⟨⟨?_, ?_, fun hphase => by cases hphase⟩, ?_⟩
      · have hold := hkept.room
        simp only [Connection.dropQueue, Connection.queuedBytes, map_nil, sum_nil,
          Connection.sendingBytes, Connection.reserve] at *
        omega
      · have hold := hkept.responses
        simp only [Connection.dropQueue, Connection.queuedResponses, map_nil, sum_nil,
          Connection.sendingResponses] at *
        omega
      · simp only [Connection.dropQueue, Connection.shared, Connection.queuedBytes, map_nil,
          sum_nil, Connection.sendingBytes, Connection.assigned]
        omega
    · cases hf

variable {moments : List Moment}

theorem run_kept (h : state.Kept config)
    (hrun : state.run config moments = some next) : next.Kept config := by
  induction moments generalizing state with
  | nil =>
    cases hrun; exact h
  | cons moment rest ih =>
    rw [State.run, foldlM_cons] at hrun
    obtain ⟨_, hstep, hrest⟩ := bind_eq_some_iff.1 hrun; exact ih (step_kept h hstep) hrest

theorem start_state_kept (config : RpcConfig) : (State.start config).Kept config where
  connections _ _ h := (not_mem_empty h).elim
  shared := by
    change config.budget + sum ∅ _ = _; rw [sum_empty]; rfl
  evictions _ h := by cases h

end

def longResult (length : Nat) : String := String.ofList (List.replicate length 'a')

def narrowConfig : RpcConfig := ⟨400, 400, by decide⟩

/-- Connection 2 queues a short notification, and connection 1 a long one. Connection 0 reserves
room for a long one and waits, since connection 1 holds the shared room; connection 1 is evicted and
its session ends. Connection 2 then needs room again. -/
def waitingRun : List Moment :=
  [.connect, .connect, .connect, .event 2, .notify 2 "0x1" "" 0, .event 1,
    .notify 1 "0x1" (longResult 200) 0, .event 0, .notify 0 "0x1" (longResult 200) 0,
    .endSession 1, .notify 2 "0x1" "" 0]

def newestEviction (state : State) : Option (Nat × Nat) :=
  state.evictions.head?.map fun eviction =>
    (eviction.needy.queuedBytes, eviction.evicted.queuedBytes)

end Leani.Rpc
