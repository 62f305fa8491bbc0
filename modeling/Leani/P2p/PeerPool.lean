import Leani.Library.Sums
import Leani.P2p.Headers
import Mathlib.Data.Finset.Insert
import Mathlib.Data.Finset.Erase
import Mathlib.Data.List.Lex
import Mathlib.Data.List.MinMax

/-!
# The pool of direct peers

The sessions of the execution network that requests are sent to. The pool learns of sessions from
the network's events, which arrive late or not at all, and from snapshots of the open sessions;
requests take leases of its entries, which outlive the entry they were taken on.
-/

namespace Leani.P2p.PeerPool

open Library Std Headers List Option Table

inductive PeerMaterialKind where
  | header
  | body
  | receipts
  deriving DecidableEq

/-- `PeerRequestSender`: the channel of a session, or, for a session found in a snapshot, a route
through the network manager. -/
inductive Sender where
  | channel (session : Nat)
  | routed (session : Nat)
  deriving DecidableEq

def Sender.session : Sender → Nat
  | channel session => session
  | routed session => session

structure DirectPeer where
  peerId : PeerId
  messages : Sender
  deriving DecidableEq

structure PeerServiceState where
  verified : Bool
  failures : Nat
  retryAt : Nat
  deriving DecidableEq

structure DirectPeerState where
  peer : DirectPeer
  connectionId : Nat
  inFlight : Nat
  header : PeerServiceState
  body : PeerServiceState
  receipts : PeerServiceState
  withheldStrikes : Nat
  withheldUntil : Nat
  deriving DecidableEq

def satSucc32 (n : Nat) : Nat := min (n + 1) (2 ^ 32 - 1)

def peerCooldown (failures : Nat) : Nat := min (250 * 2 ^ min (failures - 1) 7) 30000

namespace DirectPeerState

def new (peer : DirectPeer) (connectionId now : Nat) : DirectPeerState :=
  let service : PeerServiceState := ⟨false, 0, now⟩
  ⟨peer, connectionId, 0, service, service, service, 0, now⟩

variable (state : DirectPeerState)

def service : PeerMaterialKind → PeerServiceState
  | .header => state.header
  | .body => state.body
  | .receipts => state.receipts

def withService (kind : PeerMaterialKind) (service : PeerServiceState) : DirectPeerState :=
  match kind with
  | .header => { state with header := service }
  | .body => { state with body := service }
  | .receipts => { state with receipts := service }

def availableAt : PeerMaterialKind → Nat
  | .header => max state.header.retryAt state.withheldUntil
  | kind => (state.service kind).retryAt

def struck (kind : PeerMaterialKind) : Bool := kind = .header && 0 < state.withheldStrikes

def cool (kind : PeerMaterialKind) (now : Nat) : DirectPeerState :=
  let failures := satSucc32 (state.service kind).failures
  state.withService kind { state.service kind with failures, retryAt := now + peerCooldown failures }

def verify (kind : PeerMaterialKind) (now : Nat) : DirectPeerState :=
  state.withService kind ⟨true, 0, now⟩

end DirectPeerState

inductive DirectPeerOutcome where
  | neutral
  | success
  | failure
  deriving DecidableEq

structure DirectPeerLease where
  peer : DirectPeer
  connectionId : Nat
  kind : PeerMaterialKind
  outcome : DirectPeerOutcome
  deriving DecidableEq

structure PooledPeerSession where
  peerId : PeerId
  connectionId : Nat
  senderOpen : Bool
  deriving DecidableEq

structure DirectPeerPool where
  peers : List DirectPeerState
  invalidated : Finset PeerId
  cursor : Nat
  nextConnectionId : Nat

namespace DirectPeerPool

def new : DirectPeerPool := ⟨[], ∅, 0, 1⟩

variable (pool : DirectPeerPool)

def update (wanted : DirectPeerState → Bool) (f : DirectPeerState → DirectPeerState) :
    DirectPeerPool :=
  { pool with peers := pool.peers.modify (pool.peers.findIdx wanted) f }

def insert (peer : DirectPeer) (now : Nat) : DirectPeerPool :=
  let state := DirectPeerState.new peer pool.nextConnectionId now
  { pool with
    peers :=
      if pool.peers.any (·.peer.peerId = peer.peerId) then
        pool.peers.modify (pool.peers.findIdx (·.peer.peerId = peer.peerId)) fun _ => state
      else pool.peers ++ [state]
    invalidated := pool.invalidated.erase peer.peerId
    nextConnectionId := pool.nextConnectionId + 1 }

def remove (peerId : PeerId) : DirectPeerPool :=
  { pool with peers := pool.peers.filter (·.peer.peerId ≠ peerId) }

def without (peerId : PeerId) (connectionId : Nat) : List DirectPeerState :=
  pool.peers.filter fun state => state.peer.peerId ≠ peerId ∨ state.connectionId ≠ connectionId

def invalidate (peerId : PeerId) (connectionId : Nat) : DirectPeerPool × Bool :=
  let removed : Bool := (pool.without peerId connectionId).length ≠ pool.peers.length
  ({ pool with
      peers := pool.without peerId connectionId
      invalidated := if removed then Insert.insert peerId pool.invalidated
        else pool.invalidated }, removed)

def sessionClosed (peerId : PeerId) : DirectPeerPool :=
  { pool with invalidated := pool.invalidated.erase peerId }.remove peerId

def removeConnection (peerId : PeerId) (connectionId : Nat) : DirectPeerPool :=
  { pool with peers := pool.without peerId connectionId }

def insertMissing (peer : DirectPeer) (now : Nat) : DirectPeerPool :=
  if peer.peerId ∈ pool.invalidated then pool
  else if pool.peers.any (·.peer.peerId = peer.peerId) then
    { pool with nextConnectionId := pool.nextConnectionId + 1 }
  else
    { pool with
      peers := pool.peers ++ [DirectPeerState.new peer pool.nextConnectionId now]
      nextConnectionId := pool.nextConnectionId + 1 }

/-- The order in which leases are given: the least entry is leased, the first one of several.
`reverseRank` is the peer's place in `Reverse(quality.rank(..))`. -/
def leaseKey (reverseRank : PeerId → Nat) (kind : PeerMaterialKind) (preferred : Option PeerId)
    (state : DirectPeerState) : List Nat :=
  [(some state.peer.peerId ≠ preferred : Bool).toNat, (state.struck kind).toNat,
    (!(state.service kind).verified).toNat, reverseRank state.peer.peerId,
    (state.service kind).failures, state.inFlight]

/-- `try_acquire_excluding`. The count is below a `usize`, so adding one does not saturate. -/
def tryAcquireExcluding (reverseRank : PeerId → Nat) (kind : PeerMaterialKind)
    (perPeerLimit : Nat) (excluded : Finset PeerId) (preferred : Option PeerId) (now : Nat) :
    DirectPeerPool × Option DirectPeerLease :=
  let perPeerLimit := max perPeerLimit 1
  let pool' := { pool with cursor := (pool.cursor + 1) % 2 ^ 64 }
  let candidates := (List.range pool.peers.length).filterMap fun offset =>
    let index := (pool.cursor + offset) % 2 ^ 64 % pool.peers.length
    match pool.peers[index]? with
    | some state =>
      if state.peer.peerId ∉ excluded ∧ state.inFlight < perPeerLimit ∧
          state.availableAt kind ≤ now then some (index, state)
      else none
    | none => none
  match candidates.argmin fun candidate => leaseKey reverseRank kind preferred candidate.2 with
  | none => (pool', none)
  | some (index, state) =>
    ({ pool' with
        peers := pool.peers.modify index fun state =>
          { state with inFlight := state.inFlight + 1 } },
      some ⟨state.peer, state.connectionId, kind, .neutral⟩)

def giveBack (lease : DirectPeerLease) (now : Nat) : DirectPeerPool :=
  pool.update (fun entry : DirectPeerState => entry.peer.peerId = lease.peer.peerId ∧
      entry.connectionId = lease.connectionId) fun state =>
    let state := { state with inFlight := state.inFlight - 1 }
    match lease.outcome with
    | .success => state.verify lease.kind now
    | .failure => state.cool lease.kind now
    | .neutral => state

/-- `set_qualification`, where the probe got a header, or a body too. -/
def setQualification (peerId : PeerId) (servedHeader servedBody : Bool) (now : Nat) :
    DirectPeerPool :=
  pool.update (·.peer.peerId = peerId) fun state =>
    let state := if servedHeader then state.verify .header now else state
    if servedBody then state.verify .body now else state

def recordMaterialFailure (peerId : PeerId) (kind : PeerMaterialKind) (now : Nat) :
    DirectPeerPool :=
  pool.update (·.peer.peerId = peerId) (·.cool kind now)

def strikeWithheldHeader (peerId : PeerId) (now : Nat) : DirectPeerPool :=
  pool.update (·.peer.peerId = peerId) fun state =>
    let strikes := satSucc32 state.withheldStrikes
    { state with withheldStrikes := strikes, withheldUntil := now + peerCooldown strikes }

def clearWithheldHeader (peerId : PeerId) (now : Nat) : DirectPeerPool :=
  pool.update (fun entry : DirectPeerState => entry.peer.peerId = peerId ∧ 0 < entry.withheldStrikes) fun state =>
    { state with withheldStrikes := 0, withheldUntil := now }

end DirectPeerPool

structure DirectPeerReconciliation where
  stale : List (PeerId × Nat)
  missing : List PeerId
  adopt : List PeerId

def reconcileDirectPeers (pooled : List PooledPeerSession) (active : List PeerId)
    (snapshotConnectionId : Nat) (missingBefore : List PeerId) (invalidated : Finset PeerId) :
    DirectPeerReconciliation :=
  let stale := (pooled.filter fun session => !session.senderOpen ||
    (session.connectionId < snapshotConnectionId && session.peerId ∉ active)).map
      fun session => (session.peerId, session.connectionId)
  let opened := (pooled.filter (·.senderOpen)).map (·.peerId)
  let missing := (active.dedup.filter fun peerId => peerId ∉ opened ∧ peerId ∉ invalidated).mergeSort
    fun a b => a.bytes.toList ≤ b.bytes.toList
  ⟨stale, missing, missing.filter (· ∈ missingBefore)⟩

inductive NetworkEvent where
  | activePeerSession (peerId : PeerId) (session : Nat)
  | sessionClosed (peerId : PeerId)
  deriving DecidableEq

def NetworkEvent.peerId : NetworkEvent → PeerId
  | activePeerSession peerId _ => peerId
  | sessionClosed peerId => peerId

inductive Reconciler where
  | waiting
  | asking (snapshotConnectionId : Nat)
  | answered (snapshotConnectionId : Nat) (sessions : List (PeerId × Nat))
  | looked (snapshotConnectionId : Nat) (sessions : List (PeerId × Nat))
      (pooled : List PooledPeerSession)
  | acting (snapshotConnectionId : Nat) (stale : List (PeerId × Nat)) (adopt : List (PeerId × Nat))

structure Peering where
  pool : DirectPeerPool
  leases : Table Nat DirectPeerLease
  openSession : PeerId → Option Nat
  nextSession : Nat
  closed : Finset Nat
  events : List NetworkEvent
  reconciler : Reconciler
  missingBefore : List PeerId
  invalidatedOn : List (PeerId × Nat)

inductive Event where
  | opens (peerId : PeerId)
  | closes (peerId : PeerId)
  | hangUp (session : Nat)
  | handle (now : Nat)
  | lose
  | tick
  | snapshot (sessions : Option (List (PeerId × Nat)))
  | look
  | compare
  | act (now : Nat)
  | acquire (lease : Nat) (kind : PeerMaterialKind) (perPeerLimit : Nat)
      (excluded : Finset PeerId) (preferred : Option PeerId) (now : Nat)
  | settle (lease : Nat) (outcome : DirectPeerOutcome)
  | giveBack (lease : Nat) (now : Nat)
  | invalidate (peerId : PeerId) (connectionId : Nat)
  | setQualification (peerId : PeerId) (servedHeader servedBody : Bool) (now : Nat)
  | recordMaterialFailure (peerId : PeerId) (kind : PeerMaterialKind) (now : Nat)
  | strikeWithheldHeader (peerId : PeerId) (now : Nat)
  | clearWithheldHeader (peerId : PeerId) (now : Nat)

namespace Peering

def new : Peering := ⟨.new, ∅, fun _ => none, 0, ∅, [], .waiting, [], []⟩

variable (s : Peering)

def senderOpen (peer : DirectPeer) : Bool :=
  match peer.messages with
  | .channel session => session ∉ s.closed
  | .routed _ => true

def sessions : List PooledPeerSession :=
  s.pool.peers.map fun state =>
    ⟨state.peer.peerId, state.connectionId, s.senderOpen state.peer⟩

def handleEvent (pool : DirectPeerPool) (event : NetworkEvent) (now : Nat) : DirectPeerPool :=
  match event with
  | .activePeerSession peerId session => pool.insert ⟨peerId, .channel session⟩ now
  | .sessionClosed peerId => pool.sessionClosed peerId

def invalidate (peerId : PeerId) (connectionId : Nat) : Peering :=
  { s with
    pool := (s.pool.invalidate peerId connectionId).1
    invalidatedOn := ((s.pool.peers.filter fun state =>
      state.peer.peerId = peerId ∧ state.connectionId = connectionId).map fun state =>
        (peerId, state.peer.messages.session)) ++ s.invalidatedOn }

def step (reverseRank : PeerId → Nat) : Event → Option Peering
  | .opens peerId =>
    some { s with
      openSession := Function.update s.openSession peerId (some s.nextSession)
      nextSession := s.nextSession + 1
      events := s.events ++ [.activePeerSession peerId s.nextSession] }
  | .closes peerId =>
    some { s with
      openSession := Function.update s.openSession peerId none
      events := s.events ++ [.sessionClosed peerId] }
  | .hangUp session => some { s with closed := Insert.insert session s.closed }
  | .handle now =>
    match s.events with
    | [] => none
    | event :: events => some { s with pool := handleEvent s.pool event now, events }
  | .lose =>
    match s.events with
    | [] => none
    | _ :: events => some { s with events }
  | .tick =>
    match s.reconciler with
    | .waiting => some { s with reconciler := .asking s.pool.nextConnectionId }
    | _ => none
  | .snapshot answer =>
    match s.reconciler with
    | .asking snapshotConnectionId =>
      match answer with
      | none => some { s with reconciler := .waiting }
      | some sessions =>
        if ∀ row ∈ sessions, s.openSession row.1 = some row.2 then
          some { s with reconciler := .answered snapshotConnectionId sessions }
        else none
    | _ => none
  | .look =>
    match s.reconciler with
    | .answered snapshotConnectionId sessions =>
      some { s with reconciler := .looked snapshotConnectionId sessions s.sessions }
    | _ => none
  | .compare =>
    match s.reconciler with
    | .looked snapshotConnectionId sessions pooled =>
      let reconciliation := reconcileDirectPeers pooled (sessions.map (·.1)) snapshotConnectionId
        s.missingBefore s.pool.invalidated
      some { s with
        reconciler := .acting snapshotConnectionId reconciliation.stale
          (sessions.filter (·.1 ∈ reconciliation.adopt))
        missingBefore := reconciliation.missing }
    | _ => none
  | .act now =>
    match s.reconciler with
    | .acting snapshotConnectionId ((peerId, connectionId) :: stale) adopt =>
      some { s with
        pool := s.pool.removeConnection peerId connectionId
        reconciler := .acting snapshotConnectionId stale adopt }
    | .acting snapshotConnectionId [] ((peerId, session) :: adopt) =>
      some { s with
        pool := s.pool.insertMissing ⟨peerId, .routed session⟩ now
        reconciler := .acting snapshotConnectionId [] adopt }
    | .acting _ [] [] => some { s with reconciler := .waiting }
    | _ => none
  | .acquire id kind perPeerLimit excluded preferred now =>
    if id ∈ s.leases then none
    else
      let (pool, lease) :=
        s.pool.tryAcquireExcluding reverseRank kind perPeerLimit excluded preferred now
      some { s with pool, leases := lease.elim s.leases (s.leases.insert id ·) }
  | .settle id outcome =>
    match s.leases[id]? with
    | some lease => some { s with leases := s.leases.insert id { lease with outcome } }
    | none => none
  | .giveBack id now =>
    match s.leases[id]? with
    | some lease =>
      some { s with pool := s.pool.giveBack lease now, leases := s.leases.erase id }
    | none => none
  | .invalidate peerId connectionId => some (s.invalidate peerId connectionId)
  | .setQualification peerId servedHeader servedBody now =>
    some { s with pool := s.pool.setQualification peerId servedHeader servedBody now }
  | .recordMaterialFailure peerId kind now =>
    some { s with pool := s.pool.recordMaterialFailure peerId kind now }
  | .strikeWithheldHeader peerId now =>
    some { s with pool := s.pool.strikeWithheldHeader peerId now }
  | .clearWithheldHeader peerId now =>
    some { s with pool := s.pool.clearWithheldHeader peerId now }

def run (reverseRank : PeerId → Nat) (s : Peering) : List Event → Option Peering
  | [] => some s
  | event :: events => (s.step reverseRank event).bind fun s' => run reverseRank s' events

end Peering

section Entries

variable {l : List DirectPeerState} {f : DirectPeerState → DirectPeerState}
  {wanted : DirectPeerState → Bool} {i : Nat}

theorem map_modify {β : Type} {g : DirectPeerState → β} (h : ∀ entry, g (f entry) = g entry) :
    (l.modify i f).map g = l.map g := by
  refine ext_getElem? fun j => ?_
  rw [getElem?_map, getElem?_map, getElem?_modify]
  cases l[j]? with
  | none => rfl
  | some entry =>
    by_cases hij : i = j
    · simp [hij, h]
    · simp [hij]

theorem mem_modify {entry x : DirectPeerState}
    (hnodup : (l.map (·.peer.peerId)).Nodup) (hentry : l[i]? = some entry) :
    x ∈ l.modify i f ↔ x = f entry ∨ x ∈ l ∧ x.peer.peerId ≠ entry.peer.peerId := by
  have hinj : ∀ {j : Nat} {y : DirectPeerState}, l[j]? = some y →
      y.peer.peerId = entry.peer.peerId → j = i := by
    intro j y hj hy
    obtain ⟨hjlt, -⟩ := List.getElem?_eq_some_iff.1 hj
    refine (List.getElem?_inj (by rw [List.length_map]; exact hjlt) hnodup).1 ?_
    rw [getElem?_map, getElem?_map, hj, hentry, map_some, map_some, hy]
  rw [mem_iff_getElem?]
  constructor
  · rintro ⟨j, hj⟩
    rw [getElem?_modify] at hj
    obtain ⟨y, hy, rfl⟩ := map_eq_some_iff.1 hj
    by_cases hij : i = j
    · subst hij
      rw [hentry] at hy
      cases hy; rw [if_pos rfl]; exact .inl rfl
    · rw [if_neg hij]
      refine .inr ⟨mem_of_getElem? hy, fun heq => hij (hinj hy heq).symm⟩
  · rintro (rfl | ⟨hx, hne⟩)
    · exact ⟨i, by simp [hentry]⟩
    · obtain ⟨j, hj⟩ := mem_iff_getElem?.1 hx
      refine ⟨j, ?_⟩
      have hij : i ≠ j := by
        rintro rfl; rw [hentry] at hj; exact hne (by rw [some.inj hj])
      simp [hj, hij]

theorem findIdx_cases (l : List DirectPeerState) (wanted : DirectPeerState → Bool) :
    (∃ entry ∈ l, wanted entry = true ∧ l[l.findIdx wanted]? = some entry) ∨
      (∀ entry ∈ l, wanted entry = false) ∧ ∀ f, l.modify (l.findIdx wanted) f = l := by
  by_cases h : ∃ entry ∈ l, wanted entry = true
  · obtain ⟨entry, hmem, hentry⟩ := h
    have hlt := findIdx_lt_length_of_exists ⟨entry, hmem, hentry⟩
    refine .inl ⟨l[l.findIdx wanted], getElem_mem hlt, findIdx_getElem, ?_⟩
    exact getElem?_eq_getElem hlt
  · push Not at h
    refine .inr ⟨fun entry hentry => Bool.eq_false_iff.2 (h entry hentry), fun f => ?_⟩
    rw [modify_eq_self]
    rw [findIdx_eq_length.2 fun entry hentry => Bool.eq_false_iff.2 (h entry hentry)]

end Entries

/-- Each entry is one of before, as far as `Same` compares, or belongs to a connection made since,
and no lease of it is counted. -/
structure Reshaped (Same : DirectPeerState → DirectPeerState → Prop)
    (pool pool' : DirectPeerPool) : Prop where
  unique : (pool.peers.map (·.peer.peerId)).Nodup → (pool'.peers.map (·.peer.peerId)).Nodup
  next : pool.nextConnectionId ≤ pool'.nextConnectionId
  entries : ∀ entry ∈ pool'.peers, (∃ old ∈ pool.peers, Same old entry) ∨ pool.nextConnectionId ≤
    entry.connectionId ∧ entry.connectionId < pool'.nextConnectionId ∧ entry.inFlight = 0

def Connected (old entry : DirectPeerState) : Prop :=
  entry.peer = old.peer ∧ entry.connectionId = old.connectionId

def Unleased (old entry : DirectPeerState) : Prop :=
  Connected old entry ∧ entry.inFlight = old.inFlight

theorem Reshaped.mono {Same Same' : DirectPeerState → DirectPeerState → Prop}
    {pool pool' : DirectPeerPool} (h : Reshaped Same pool pool')
    (himp : ∀ {old entry}, Same old entry → Same' old entry) : Reshaped Same' pool pool' where
  unique := h.unique
  next := h.next
  entries entry hentry := by
    rcases h.entries entry hentry with ⟨old, hold, hsame⟩ | hnew
    · exact .inl ⟨old, hold, himp hsame⟩
    · exact .inr hnew

namespace DirectPeerPool

variable {pool : DirectPeerPool} {peerId : PeerId} {connectionId now : Nat}

theorem reshaped_filter (keep : DirectPeerState → Bool) (invalidated : Finset PeerId) :
    Reshaped Unleased pool { pool with peers := pool.peers.filter keep, invalidated } where
  unique h := h.sublist (filter_sublist.map _)
  next := le_rfl
  entries entry hentry := .inl ⟨entry, (mem_filter.1 hentry).1, ⟨rfl, rfl⟩, rfl⟩

variable {f : DirectPeerState → DirectPeerState}

theorem reshaped_modify {i : Nat} {Same : DirectPeerState → DirectPeerState → Prop} (hrefl : ∀ entry,
    Same entry entry) (hpeer : ∀ entry, (f entry).peer.peerId = entry.peer.peerId) (hsame : ∀ entry,
    Same entry (f entry)) : Reshaped Same pool { pool with peers := pool.peers.modify i f } where
  unique h := by
    rw [map_modify hpeer]; exact h
  next := le_rfl
  entries x hx := by
    obtain ⟨_, hj⟩ := mem_iff_getElem?.1 hx
    rw [getElem?_modify] at hj
    obtain ⟨entry, hentry, rfl⟩ := map_eq_some_iff.1 hj
    refine .inl ⟨entry, mem_of_getElem? hentry, ?_⟩
    split
    · exact hsame entry
    · exact hrefl entry

theorem unleased_refl (entry : DirectPeerState) : Unleased entry entry := ⟨⟨rfl, rfl⟩, rfl⟩

theorem reshaped_update {wanted : DirectPeerState → Bool}
    (hsame : ∀ entry, Unleased entry (f entry)) : Reshaped Unleased pool (pool.update wanted f) :=
  reshaped_modify unleased_refl (fun entry => by rw [(hsame entry).1.1]) hsame

variable {peer : DirectPeer}

theorem reshaped_push (hnew : ∀ entry ∈ pool.peers, entry.peer.peerId ≠ peer.peerId)
    (invalidated : Finset PeerId) : Reshaped Unleased pool { pool with
        peers := pool.peers ++ [DirectPeerState.new peer pool.nextConnectionId now]
        invalidated
        nextConnectionId := pool.nextConnectionId + 1 } where
  unique h := by
    rw [map_append, nodup_append]
    refine ⟨h, by simp, ?_⟩
    intro _ ha _ hb
    obtain ⟨entry, hentry, rfl⟩ := mem_map.1 ha
    rw [map_singleton, mem_singleton] at hb; rw [hb]; exact hnew entry hentry
  next := Nat.le_succ _
  entries entry hentry := by
    rcases mem_append.1 hentry with hold | hnew
    · exact .inl ⟨entry, hold, unleased_refl entry⟩
    · rw [mem_singleton.1 hnew]; exact .inr ⟨le_rfl, Nat.lt_succ_self _, rfl⟩

theorem reshaped_insert : Reshaped Unleased pool (pool.insert peer now) := by
  rw [insert]
  split
  · rename_i hany
    have hidx : ∃ entry, pool.peers[pool.peers.findIdx (·.peer.peerId = peer.peerId)]? =
        some entry ∧ entry.peer.peerId = peer.peerId := by
      rcases findIdx_cases pool.peers (·.peer.peerId = peer.peerId) with
        ⟨entry, -, hentry, hget⟩ | ⟨hnone, -⟩
      · exact ⟨entry, hget, of_decide_eq_true hentry⟩
      · obtain ⟨entry, hmem, hentry⟩ := any_eq_true.1 hany
        rw [hnone entry hmem] at hentry; cases hentry
    obtain ⟨_, hget, hold⟩ := hidx
    refine ⟨fun h => ?_, Nat.le_succ _, fun entry hentry => ?_⟩
    · have heq : (pool.peers.modify (pool.peers.findIdx (·.peer.peerId = peer.peerId)) fun _ =>
          DirectPeerState.new peer pool.nextConnectionId now).map (·.peer.peerId) =
            pool.peers.map (·.peer.peerId) := by
        refine ext_getElem? fun j => ?_
        rw [getElem?_map, getElem?_map, getElem?_modify]
        by_cases hij : pool.peers.findIdx (·.peer.peerId = peer.peerId) = j
        · subst hij; simp [hget, hold, DirectPeerState.new]
        · cases pool.peers[j]? <;> simp [hij]
      rw [heq]; exact h
    · obtain ⟨j, hj⟩ := mem_iff_getElem?.1 hentry
      rw [getElem?_modify] at hj
      obtain ⟨old', hold', rfl⟩ := map_eq_some_iff.1 hj
      split
      · exact .inr ⟨le_rfl, Nat.lt_succ_self _, rfl⟩
      · exact .inl ⟨old', mem_of_getElem? hold', unleased_refl old'⟩
  · rename_i hany
    refine reshaped_push (fun entry hentry heq => hany ?_) _
    exact any_eq_true.2 ⟨entry, hentry, decide_eq_true heq⟩

theorem reshaped_insertMissing : Reshaped Unleased pool (pool.insertMissing peer now) := by
  rw [insertMissing]
  split
  · exact ⟨id, le_rfl, fun entry hentry => .inl ⟨entry, hentry, unleased_refl entry⟩⟩
  split
  · exact ⟨id, Nat.le_succ _, fun entry hentry => .inl ⟨entry, hentry, unleased_refl entry⟩⟩
  · rename_i hany
    refine reshaped_push (fun entry hentry heq => hany ?_) pool.invalidated
    exact any_eq_true.2 ⟨entry, hentry, decide_eq_true heq⟩

theorem withService_same (state : DirectPeerState) (kind : PeerMaterialKind)
    (service : PeerServiceState) : Unleased state (state.withService kind service) := by
  cases kind <;> exact unleased_refl state

theorem connected_giveBack (lease : DirectPeerLease) (entry : DirectPeerState) :
    ∀ outcome : DirectPeerOutcome, Connected entry (match outcome with
            | .success => { entry with inFlight := entry.inFlight - 1 }.verify lease.kind now
            | .failure => { entry with inFlight := entry.inFlight - 1 }.cool lease.kind now
            | .neutral => { entry with inFlight := entry.inFlight - 1 }) ∧
        (match outcome with
          | .success => { entry with inFlight := entry.inFlight - 1 }.verify lease.kind now
          | .failure => { entry with inFlight := entry.inFlight - 1 }.cool lease.kind now
          | .neutral => { entry with inFlight := entry.inFlight - 1 }).inFlight =
            entry.inFlight - 1 := by
  have hservice : ∀ service, Connected entry
      ({ entry with inFlight := entry.inFlight - 1 }.withService lease.kind service) ∧
        ({ entry with inFlight := entry.inFlight - 1 }.withService lease.kind service).inFlight =
          entry.inFlight - 1 := fun service => withService_same _ lease.kind service
  intro outcome
  cases outcome with
  | success => exact hservice _
  | failure => exact hservice _
  | neutral => exact ⟨⟨rfl, rfl⟩, rfl⟩

variable {lease : DirectPeerLease}

theorem mem_giveBack {x : DirectPeerState}
    (hunique : (pool.peers.map (·.peer.peerId)).Nodup) (hx : x ∈ (pool.giveBack lease now).peers) :
    (∃ old ∈ pool.peers, Connected old x ∧ old.peer.peerId = lease.peer.peerId ∧
      old.connectionId = lease.connectionId ∧ x.inFlight = old.inFlight - 1) ∨
    x ∈ pool.peers ∧ ¬ (x.peer.peerId = lease.peer.peerId ∧ x.connectionId = lease.connectionId) := by
  rw [giveBack, update] at hx
  rcases findIdx_cases pool.peers (fun entry : DirectPeerState =>
      entry.peer.peerId = lease.peer.peerId ∧ entry.connectionId = lease.connectionId) with
    ⟨old, hold, hmatch, hget⟩ | ⟨hnone, hsame⟩
  · obtain ⟨hpeer, hconn⟩ := of_decide_eq_true hmatch
    rcases (mem_modify hunique hget).1 hx with rfl | ⟨hmem, hne⟩
    · obtain ⟨hconnected, hcount⟩ := connected_giveBack lease old lease.outcome
      exact .inl ⟨old, hold, hconnected, hpeer, hconn, hcount⟩
    · exact .inr ⟨hmem, fun hboth => hne (hboth.1.trans hpeer.symm)⟩
  · rw [hsame] at hx; exact .inr ⟨hx, of_decide_eq_false (hnone x hx)⟩

theorem reshaped_giveBack : Reshaped Connected pool (pool.giveBack lease now) :=
  reshaped_modify (fun _ => ⟨rfl, rfl⟩)
    (fun entry => by rw [(connected_giveBack lease entry lease.outcome).1.1])
    fun entry => (connected_giveBack lease entry lease.outcome).1

theorem tryAcquireExcluding_eq {reverseRank : PeerId → Nat} {kind : PeerMaterialKind}
    {peerLimit : Nat} {excluded : Finset PeerId} {preferred : Option PeerId}
    {pool' : DirectPeerPool} {lease : Option DirectPeerLease}
    (h : pool.tryAcquireExcluding reverseRank kind peerLimit excluded preferred now =
      (pool', lease)) :
    pool'.invalidated = pool.invalidated ∧ pool'.nextConnectionId = pool.nextConnectionId ∧
      (lease = none ∧ pool'.peers = pool.peers ∨
        ∃ i entry, pool.peers[i]? = some entry ∧ entry.inFlight < max peerLimit 1 ∧
          lease = some ⟨entry.peer, entry.connectionId, kind, .neutral⟩ ∧
          pool'.peers = pool.peers.modify i fun state =>
            { state with inFlight := state.inFlight + 1 }) := by
  rw [tryAcquireExcluding] at h
  dsimp only at h
  split at h
  · cases h; exact ⟨rfl, rfl, .inl ⟨rfl, rfl⟩⟩
  · rename_i index state hmin
    cases h
    refine ⟨rfl, rfl, .inr ⟨index, state, ?_⟩⟩
    obtain ⟨_, -, hcand⟩ := mem_filterMap.1 (argmin_mem hmin)
    split at hcand
    · rename_i entry hentry
      split at hcand
      · rename_i hfree; cases hcand; exact ⟨hentry, hfree.2.1, rfl, rfl⟩
      · cases hcand
    · cases hcand

theorem invalidate_eq (pool : DirectPeerPool) (pid : PeerId) (connId : Nat) :
    (pool.invalidate pid connId).1 = { pool with
        peers := pool.without pid connId
        invalidated :=
          if ∃ entry ∈ pool.peers, entry.peer.peerId = pid ∧ entry.connectionId = connId then
            Insert.insert pid pool.invalidated
          else pool.invalidated } := by
  have hremoved : (pool.without pid connId).length ≠ pool.peers.length ↔
      ∃ entry ∈ pool.peers, entry.peer.peerId = pid ∧ entry.connectionId = connId := by
    rw [without, ne_eq, length_filter_eq_length_iff]
    simp only [decide_eq_true_eq]
    push Not
    rfl
  rw [invalidate]
  congr 1
  by_cases h : ∃ entry ∈ pool.peers, entry.peer.peerId = pid ∧ entry.connectionId = connId
  · rw [if_pos h, if_pos (decide_eq_true (hremoved.2 h))]
  · rw [if_neg h, if_neg]; simpa using fun hne => h (hremoved.1 hne)

end DirectPeerPool

def held (leases : Table Nat DirectPeerLease) (peerId : PeerId) (connectionId : Nat) : Nat :=
  Table.sum leases fun _ lease =>
    if lease.peer.peerId = peerId ∧ lease.connectionId = connectionId then 1 else 0

structure Counted (s : Peering) : Prop where
  unique : (s.pool.peers.map (·.peer.peerId)).Nodup
  fresh : ∀ entry ∈ s.pool.peers, entry.connectionId < s.pool.nextConnectionId
  leased : ∀ {id : Nat} {lease}, s.leases[id]? = some lease →
    lease.connectionId < s.pool.nextConnectionId
  counted : ∀ entry ∈ s.pool.peers,
    entry.inFlight = held s.leases entry.peer.peerId entry.connectionId

section Steps

variable {reverseRank : PeerId → Nat} {s s' : Peering} {event : Event}

theorem unleased_setQualification (entry : DirectPeerState) (servedHeader servedBody : Bool)
    (now : Nat) : Unleased entry (let state := if servedHeader then entry.verify .header now else entry
        if servedBody then state.verify .body now else state) := by
  cases servedHeader <;> cases servedBody <;> exact DirectPeerPool.unleased_refl entry

theorem step_cases (h : s.step reverseRank event = some s') : (s'.leases = s.leases ∧
    Reshaped Unleased s.pool s'.pool) ∨ (∃ id lease outcome, s.leases[id]? = some lease ∧ s'.pool =
    s.pool ∧ s'.leases = s.leases.insert id { lease with outcome }) ∨ (∃ id i entry kind peerLimit,
    id ∉ s.leases ∧ s.pool.peers[i]? = some entry ∧ entry.inFlight < max peerLimit 1 ∧
    (∃ excluded preferred now, event = .acquire id kind peerLimit excluded preferred now) ∧
    s'.pool.nextConnectionId =
    s.pool.nextConnectionId ∧ (s'.pool.peers = s.pool.peers.modify i fun state =>
        { state with inFlight := state.inFlight + 1 }) ∧
      s'.leases = s.leases.insert id ⟨entry.peer, entry.connectionId, kind, .neutral⟩) ∨
    ∃ id lease now, event = .giveBack id now ∧ s.leases[id]? = some lease ∧
      s'.pool = s.pool.giveBack lease now ∧ s'.leases = s.leases.erase id := by
  have hsame : ∀ {t : Peering}, t.leases = s.leases → t.pool = s.pool →
      t.leases = s.leases ∧ Reshaped Unleased s.pool t.pool := by
    intro t hleases hpool
    rw [hpool]
    exact ⟨hleases, id, le_rfl,
      fun entry hentry => .inl ⟨entry, hentry, DirectPeerPool.unleased_refl entry⟩⟩
  cases event with
  | opens peerId =>
    cases h; exact .inl (hsame rfl rfl)
  | closes peerId =>
    cases h; exact .inl (hsame rfl rfl)
  | hangUp session =>
    cases h; exact .inl (hsame rfl rfl)
  | handle now =>
    simp only [Peering.step] at h
    split at h
    · cases h
    · rename_i event evs hevs
      cases h
      refine .inl ⟨rfl, ?_⟩
      cases event with
      | activePeerSession peerId session => exact DirectPeerPool.reshaped_insert
      | sessionClosed peerId => exact DirectPeerPool.reshaped_filter _ _
  | lose =>
    simp only [Peering.step] at h
    split at h
    · cases h
    · cases h; exact .inl (hsame rfl rfl)
  | tick =>
    simp only [Peering.step] at h
    split at h
    · cases h; exact .inl (hsame rfl rfl)
    · cases h
  | snapshot answer =>
    simp only [Peering.step] at h
    split at h
    · split at h
      · cases h; exact .inl (hsame rfl rfl)
      · split at h
        · cases h; exact .inl (hsame rfl rfl)
        · cases h
    · cases h
  | look =>
    simp only [Peering.step] at h
    split at h
    · cases h; exact .inl (hsame rfl rfl)
    · cases h
  | compare =>
    simp only [Peering.step] at h
    split at h
    · cases h; exact .inl (hsame rfl rfl)
    · cases h
  | act now =>
    simp only [Peering.step] at h
    split at h
    · cases h; exact .inl ⟨rfl, DirectPeerPool.reshaped_filter _ _⟩
    · cases h; exact .inl ⟨rfl, DirectPeerPool.reshaped_insertMissing⟩
    · cases h; exact .inl (hsame rfl rfl)
    · cases h
  | acquire id kind peerLimit excluded preferred now =>
    simp only [Peering.step] at h
    split at h
    · cases h
    · rename_i hid
      cases h
      cases hacquire : s.pool.tryAcquireExcluding reverseRank kind peerLimit excluded preferred
        now with
      | mk pool lease =>
        obtain ⟨-, hnext, ⟨rfl, hpeers⟩ | ⟨i, entry, hentry, hroom, rfl, hpeers⟩⟩ :=
          DirectPeerPool.tryAcquireExcluding_eq hacquire
        · refine .inl ⟨rfl, fun hunique => ?_, hnext.ge, fun entry hentry => .inl ⟨entry, ?_, ?_⟩⟩
          · rw [hpeers]; exact hunique
          · rw [← hpeers]; exact hentry
          · exact DirectPeerPool.unleased_refl entry
        · exact .inr (.inr (.inl ⟨id, i, entry, kind, peerLimit, hid, hentry, hroom,
            ⟨excluded, preferred, now, rfl⟩, hnext, hpeers, rfl⟩))
  | settle id outcome =>
    simp only [Peering.step] at h
    split at h
    · rename_i lease hlease; cases h; exact .inr (.inl ⟨id, lease, outcome, hlease, rfl, rfl⟩)
    · cases h
  | giveBack id now =>
    simp only [Peering.step] at h
    split at h
    · rename_i lease hlease
      cases h; exact .inr (.inr (.inr ⟨id, lease, now, rfl, hlease, rfl, rfl⟩))
    · cases h
  | invalidate peerId connectionId =>
    cases h
    refine .inl ⟨rfl, ?_⟩
    rw [Peering.invalidate, DirectPeerPool.invalidate_eq]; exact DirectPeerPool.reshaped_filter _ _
  | setQualification peerId servedHeader servedBody now =>
    cases h
    exact .inl ⟨rfl, DirectPeerPool.reshaped_update fun entry =>
      unleased_setQualification entry servedHeader servedBody now⟩
  | recordMaterialFailure peerId kind now =>
    cases h
    exact .inl ⟨rfl, DirectPeerPool.reshaped_update fun entry =>
      DirectPeerPool.withService_same entry kind _⟩
  | strikeWithheldHeader peerId now =>
    cases h; exact .inl ⟨rfl, DirectPeerPool.reshaped_update fun _ => ⟨⟨rfl, rfl⟩, rfl⟩⟩
  | clearWithheldHeader peerId now =>
    cases h; exact .inl ⟨rfl, DirectPeerPool.reshaped_update fun _ => ⟨⟨rfl, rfl⟩, rfl⟩⟩

theorem reshaped_step (h : s.step reverseRank event = some s') : Reshaped Connected s.pool s'.pool := by
  rcases step_cases h with ⟨-, hpool⟩ | ⟨_, _, _, -, hpool, -⟩ |
    ⟨_, i, entry, _, _, -, hentry, -, -, hnext, hpeers, -⟩ | ⟨_, lease, now, -, -, hpool, -⟩
  · exact hpool.mono fun hsame => hsame.1
  · rw [hpool]; exact ⟨id, le_rfl, fun entry hentry => .inl ⟨entry, hentry, rfl, rfl⟩⟩
  · have hmodify : Reshaped Connected s.pool { s.pool with
          peers := s.pool.peers.modify i fun state => { state with inFlight := state.inFlight + 1 } } :=
      DirectPeerPool.reshaped_modify (fun _ => ⟨rfl, rfl⟩) (fun _ => rfl) fun _ => ⟨rfl, rfl⟩
    refine ⟨fun hunique => ?_, hnext.ge, fun entry hentry => ?_⟩
    · rw [hpeers]; exact hmodify.unique hunique
    · rw [hpeers] at hentry; rw [hnext]; exact hmodify.entries entry hentry
  · rw [hpool]; exact DirectPeerPool.reshaped_giveBack

variable {leases : Table Nat DirectPeerLease} {id : Nat} {lease : DirectPeerLease}

theorem held_insert (hid : id ∉ leases) (pid : PeerId)
    (connId : Nat) : held (leases.insert id lease) pid connId = (if lease.peer.peerId =
    pid ∧ lease.connectionId = connId then 1 else 0) + held leases pid connId := by
  rw [held, sum_insert, erase_of_get?_eq_none (ExtTreeMap.getElem?_eq_none hid)]; rfl

theorem held_erase (hid : leases[id]? = some lease)
    (pid : PeerId) (connId : Nat) : held leases pid connId = (if lease.peer.peerId =
    pid ∧ lease.connectionId = connId then 1 else 0) + held (leases.erase id) pid connId := by
  rw [held, sum_of_get? _ hid]; rfl

theorem held_eq_zero {pid : PeerId} {connId : Nat} (h : ∀ {id : Nat} {lease},
    leases[id]? = some lease → lease.connectionId < connId) : held leases pid connId = 0 := by
  refine sum_eq_zero fun id lease hlease => if_neg fun _ => ?_
  have := h hlease; omega

theorem Counted.step (h : Counted s) (hstep : s.step reverseRank event = some s') : Counted s' := by
  have hshape := reshaped_step hstep
  have hunique := hshape.unique h.unique
  have hfresh : ∀ entry ∈ s'.pool.peers, entry.connectionId < s'.pool.nextConnectionId := by
    intro entry hentry
    rcases hshape.entries entry hentry with ⟨old, hold, hsame⟩ | hnew
    · rw [hsame.2]; exact Nat.lt_of_lt_of_le (h.fresh old hold) hshape.next
    · exact hnew.2.1
  rcases step_cases hstep with ⟨hleases, hpool⟩ | ⟨id, lease, _, hlease, hpool, hleases⟩ |
    ⟨id, i, entry, kind, perPeerLimit, hid, hentry, -, -, hnext, hpeers, hleases⟩ |
    ⟨id, lease, now, -, hlease, hpool, hleases⟩
  · refine ⟨hunique, hfresh, fun hlease => ?_, fun entry hentry => ?_⟩
    · rw [hleases] at hlease; exact Nat.lt_of_lt_of_le (h.leased hlease) hpool.next
    · rw [hleases]
      rcases hpool.entries entry hentry with ⟨old, hold, ⟨hpeer, hconn⟩, hcount⟩ | hnew
      · rw [hcount, h.counted old hold, hpeer, hconn]
      · rw [hnew.2.2, held_eq_zero]; exact fun hlease => Nat.lt_of_lt_of_le (h.leased hlease) hnew.1
  · have hheld : ∀ pid connId, held s'.leases pid connId = held s.leases pid connId := by
      intro pid connId; rw [hleases, held, held, sum_insert, sum_of_get? _ hlease]
    refine ⟨hunique, hfresh, fun {id'} {lease'} hlease' => ?_, fun entry hentry => ?_⟩
    · rw [hleases, get?_insert_ite] at hlease'
      rw [hpool]
      split at hlease'
      · cases hlease'
        change lease.connectionId < _; exact h.leased hlease
      · exact h.leased hlease'
    · rw [hpool] at hentry; rw [hheld]; exact h.counted entry hentry
  · refine ⟨hunique, hfresh, fun {id'} {lease'} hlease' => ?_, fun x hx => ?_⟩
    · rw [hleases, get?_insert_ite] at hlease'
      rw [hnext]
      split at hlease'
      · cases hlease'; exact h.fresh entry (mem_of_getElem? hentry)
      · exact h.leased hlease'
    · rw [hpeers] at hx
      rw [hleases, held_insert hid]
      rcases (mem_modify h.unique hentry).1 hx with rfl | ⟨hmem, hne⟩
      · have hcount := h.counted entry (mem_of_getElem? hentry)
        rw [if_pos ⟨rfl, rfl⟩]
        dsimp only; omega
      · rw [if_neg fun hboth => hne hboth.1.symm, h.counted x hmem, Nat.zero_add]
  · refine ⟨hunique, hfresh, fun {id'} {lease'} hlease' => ?_, fun x hx => ?_⟩
    · rw [hleases] at hlease'
      obtain ⟨-, hlease'⟩ := erase_cases hlease'
      exact Nat.lt_of_lt_of_le (h.leased hlease') hshape.next
    · rw [hpool] at hx
      rw [hleases]
      rcases DirectPeerPool.mem_giveBack h.unique hx with
        ⟨old, hold, ⟨hpeer, hconn⟩, hpeerId, hid, hcount⟩ | ⟨hmem, hne⟩
      · have hheld := held_erase hlease old.peer.peerId old.connectionId
        rw [if_pos ⟨hpeerId.symm, hid.symm⟩] at hheld
        rw [hcount, h.counted old hold, hheld, hpeer, hconn]; omega
      · have hheld := held_erase hlease x.peer.peerId x.connectionId
        rw [if_neg fun hboth => hne ⟨hboth.1.symm, hboth.2.symm⟩, Nat.zero_add] at hheld
        rw [h.counted x hmem, hheld]

def Gone (s : Peering) (peerId : PeerId) (connectionId : Nat) : Prop :=
  connectionId < s.pool.nextConnectionId ∧ ∀ entry ∈ s.pool.peers,
    entry.peer.peerId = peerId → entry.connectionId = connectionId → s.senderOpen entry.peer = false

structure Judged (s : Peering) : Prop where
  looked : ∀ {snapshotConnectionId sessions pooled},
    s.reconciler = .looked snapshotConnectionId sessions pooled →
      ∀ row ∈ pooled, row.senderOpen = false → Gone s row.peerId row.connectionId
  acting : ∀ {snapshotConnectionId stale adopt},
    s.reconciler = .acting snapshotConnectionId stale adopt →
      ∀ row ∈ stale, row.2 < snapshotConnectionId ∨ Gone s row.1 row.2

theorem closed_step (hstep : s.step reverseRank event = some s') : s.closed ⊆ s'.closed := by
  cases event <;> simp only [Peering.step] at hstep
  case hangUp session =>
    cases hstep; exact Finset.subset_insert _ _
  all_goals
    repeat' split at hstep
    all_goals first
      | cases hstep
        done
      | (cases hstep
         exact Finset.Subset.refl _)

theorem Gone.step {pid : PeerId} {connId : Nat} (h : Gone s pid connId)
    (hstep : s.step reverseRank event = some s') : Gone s' pid connId := by
  have hshape := reshaped_step hstep
  have hclosed := closed_step hstep
  refine ⟨Nat.lt_of_lt_of_le h.1 hshape.next, fun entry hentry hpeer hconn => ?_⟩
  rcases hshape.entries entry hentry with ⟨old, hold, hsame⟩ | _
  · have hgone := h.2 old hold (hsame.1 ▸ hpeer) (hsame.2 ▸ hconn)
    rw [hsame.1]
    rw [Peering.senderOpen] at hgone ⊢
    split at hgone
    · exact decide_eq_false (not_not.2 (hclosed (not_not.1 (of_decide_eq_false hgone))))
    · cases hgone
  · have := h.1; omega

variable {snapshotConnectionId : Nat}

theorem mem_stale {pooled : List PooledPeerSession} {active missingBefore : List PeerId}
 {invalidated : Finset PeerId} {row : PeerId × Nat}
    (h : row ∈ (reconcileDirectPeers pooled active snapshotConnectionId missingBefore
      invalidated).stale) : ∃ sess ∈ pooled, (sess.peerId, sess.connectionId) = row ∧
      (sess.senderOpen = false ∨ sess.connectionId < snapshotConnectionId) := by
  obtain ⟨sess, hsess, hrow⟩ := mem_map.1 h
  obtain ⟨hmem, hstale⟩ := mem_filter.1 hsess
  rw [Bool.or_eq_true, Bool.not_eq_true', Bool.and_eq_true, decide_eq_true_iff] at hstale
  exact ⟨sess, hmem, hrow, hstale.imp_right (·.1)⟩

theorem Judged.keep (h : Judged s) (hstep : s.step reverseRank event = some s')
    (hsame : s'.reconciler = s.reconciler) : Judged s' where
  looked heq row hrow hclosed := (h.looked (hsame ▸ heq) row hrow hclosed).step hstep
  acting heq row hrow := (h.acting (hsame ▸ heq) row hrow).imp_right fun hgone => hgone.step hstep

theorem Judged.step (hcnt : Counted s) (h : Judged s)
    (hstep : s.step reverseRank event = some s') : Judged s' := by
  have hall := hstep
  cases event with
  | tick =>
    simp only [Peering.step] at hstep
    split at hstep
    · cases hstep; exact ⟨nofun, nofun⟩
    · cases hstep
  | snapshot answer =>
    simp only [Peering.step] at hstep
    split at hstep
    · split at hstep
      · cases hstep; exact ⟨nofun, nofun⟩
      · split at hstep
        · cases hstep; exact ⟨nofun, nofun⟩
        · cases hstep
    · cases hstep
  | look =>
    simp only [Peering.step] at hstep
    split at hstep
    · cases hstep
      refine ⟨fun heq row hrow hclosed => ?_, nofun⟩
      obtain ⟨-, -, rfl⟩ := Reconciler.looked.inj heq
      obtain ⟨entry, hentry, rfl⟩ := mem_map.1 hrow
      refine ⟨hcnt.fresh entry hentry, fun _ hentry' hpeer _ => ?_⟩
      -- The pool has one entry for the peer, so it is the one that was read.
      obtain rfl := inj_on_of_nodup_map hcnt.unique hentry' hentry hpeer; exact hclosed
    · cases hstep
  | compare =>
    simp only [Peering.step] at hstep
    split at hstep
    · rename_i snapshotConnectionId sessions pooled hlooked
      cases hstep
      refine ⟨nofun, fun heq row hrow => ?_⟩
      obtain ⟨rfl, rfl, -⟩ := Reconciler.acting.inj heq
      obtain ⟨sess, hsess, rfl, hclosed | hlt⟩ := mem_stale hrow
      · exact .inr (h.looked hlooked sess hsess hclosed)
      · exact .inl hlt
    · cases hstep
  | act now =>
    simp only [Peering.step] at hstep
    split at hstep
    · rename_i snapshotConnectionId pid connId stale adopt hacting
      cases hstep
      refine ⟨nofun, fun heq row hrow => ?_⟩
      obtain ⟨rfl, rfl, -⟩ := Reconciler.acting.inj heq
      exact (h.acting hacting row (mem_cons_of_mem _ hrow)).imp_right fun hgone => hgone.step hall
    · cases hstep
      refine ⟨nofun, fun heq row hrow => ?_⟩
      obtain ⟨-, rfl, -⟩ := Reconciler.acting.inj heq; cases hrow
    · cases hstep; exact ⟨nofun, nofun⟩
    · cases hstep
  | handle now =>
    simp only [Peering.step] at hstep
    split at hstep
    · cases hstep
    · cases hstep; exact h.keep hall rfl
  | lose =>
    simp only [Peering.step] at hstep
    split at hstep
    · cases hstep
    · cases hstep; exact h.keep hall rfl
  | acquire id kind perPeerLimit excluded preferred now =>
    simp only [Peering.step] at hstep
    split at hstep
    · cases hstep
    · cases hstep; exact h.keep hall rfl
  | settle id outcome =>
    simp only [Peering.step] at hstep
    split at hstep
    · cases hstep; exact h.keep hall rfl
    · cases hstep
  | giveBack id now =>
    simp only [Peering.step] at hstep
    split at hstep
    · cases hstep; exact h.keep hall rfl
    · cases hstep
  | opens pid | closes pid | hangUp sess | invalidate pid connId
  | setQualification pid servedHeader servedBody now | recordMaterialFailure pid kind now
  | strikeWithheldHeader pid now | clearWithheldHeader pid now =>
    cases hstep; exact h.keep hall rfl

variable {entry : DirectPeerState}

variable {now : Nat}

theorem Judged.removal (h : Judged s) {stale adopt : List (PeerId × Nat)} (hacting : s.reconciler =
    .acting snapshotConnectionId stale adopt) (hstep : s.step reverseRank (.act now) = some s')
    (hentry : entry ∈ s.pool.peers) (hremoved : entry ∉ s'.pool.peers) :
    entry.connectionId < snapshotConnectionId ∨ s.senderOpen entry.peer = false := by
  simp only [Peering.step, hacting] at hstep
  split at hstep
  · rename_i _ pid connId stale' adopt' heq
    obtain ⟨rfl, rfl, rfl⟩ := Reconciler.acting.inj heq
    cases hstep
    have hboth : entry.peer.peerId = pid ∧ entry.connectionId = connId := by
      by_contra hne
      refine hremoved (mem_filter.2 ⟨hentry, decide_eq_true ?_⟩)
      tauto
    rcases h.acting hacting _ mem_cons_self with hlt | hgone
    · exact .inl (hboth.2 ▸ hlt)
    · exact .inr (hgone.2 entry hentry hboth.1 hboth.2)
  · cases hstep
    refine absurd ?_ hremoved
    rw [DirectPeerPool.insertMissing]
    split
    · exact hentry
    split
    · exact hentry
    · exact mem_append_left _ hentry
  · cases hstep; exact absurd hentry hremoved
  · cases hstep

def Reconciler.sessions : Reconciler → List (PeerId × Nat)
  | .waiting | .asking _ => []
  | .answered _ sessions | .looked _ sessions _ => sessions
  | .acting _ _ adopt => adopt

structure Known (s : Peering) : Prop where
  opened : ∀ {peerId session}, s.openSession peerId = some session → session < s.nextSession
  queued : ∀ {peerId session}, NetworkEvent.activePeerSession peerId session ∈ s.events →
    session < s.nextSession
  listed : ∀ row ∈ s.reconciler.sessions, row.2 < s.nextSession
  pooled : ∀ entry ∈ s.pool.peers, entry.peer.messages.session < s.nextSession
  dropped : ∀ row ∈ s.invalidatedOn, row.2 < s.nextSession

def KeptOut (s : Peering) : Prop :=
  ∀ row ∈ s.invalidatedOn, s.openSession row.1 = some row.2 →
    row.1 ∈ s.pool.invalidated ∧ ∀ entry ∈ s.pool.peers, entry.peer.peerId ≠ row.1

/-- An event of a session is handled before its peer is dropped on the session it has open: no open
event of that session, and no event of an earlier one, comes after that. -/
def Timely (s : Peering) : Event → Prop
  | .handle _ => ∀ event ∈ s.events.head?, ∀ session,
      s.openSession event.peerId = some session → (event.peerId, session) ∉ s.invalidatedOn
  | _ => True

structure Orderly (s : Peering) : Prop where
  known : Known s
  keptOut : KeptOut s

variable {peer : DirectPeer}

variable {pool : DirectPeerPool}

theorem DirectPeerPool.mem_insert (h : entry ∈ (pool.insert peer now).peers) :
    entry ∈ pool.peers ∨ entry.peer = peer := by
  rw [insert] at h
  split at h
  · obtain ⟨_, hj⟩ := mem_iff_getElem?.1 h
    rw [getElem?_modify] at hj
    obtain ⟨_, hold, rfl⟩ := map_eq_some_iff.1 hj
    split
    · exact .inr rfl
    · exact .inl (mem_of_getElem? hold)
  · rcases mem_append.1 h with hold | hnew
    · exact .inl hold
    · rw [mem_singleton.1 hnew]; exact .inr rfl

theorem DirectPeerPool.mem_insertMissing (h : entry ∈ (pool.insertMissing peer now).peers) :
    entry ∈ pool.peers ∨ entry.peer = peer ∧ peer.peerId ∉ pool.invalidated := by
  rw [insertMissing] at h
  split at h
  · exact .inl h
  · rename_i hmark
    split at h
    · exact .inl h
    · rcases mem_append.1 h with hold | hnew
      · exact .inl hold
      · rw [mem_singleton.1 hnew]; exact .inr ⟨rfl, hmark⟩

theorem DirectPeerPool.insertMissing_invalidated (pool : DirectPeerPool) (peer : DirectPeer)
    (now : Nat) : (pool.insertMissing peer now).invalidated = pool.invalidated := by
  rw [insertMissing]
  split
  · rfl
  split <;> rfl

theorem Orderly.inert (h : Orderly s) (hopen : s'.openSession = s.openSession)
    (hnext : s'.nextSession = s.nextSession) (hevs : ∀ event ∈ s'.events, event ∈ s.events)
    (hlisted : ∀ row ∈ s'.reconciler.sessions, row.2 < s.nextSession)
    (hmarks : s'.pool.invalidated = s.pool.invalidated)
    (hdropped : s'.invalidatedOn = s.invalidatedOn)
    (hentries : ∀ entry ∈ s'.pool.peers, ∃ old ∈ s.pool.peers, entry.peer = old.peer) :
    Orderly s' where
  known :=
    { opened := fun hsess => by
        rw [hopen] at hsess; rw [hnext]; exact h.known.opened hsess
      queued := fun hev => by
        rw [hnext]; exact h.known.queued (hevs _ hev)
      listed := fun row hrow => by
        rw [hnext]; exact hlisted row hrow
      pooled := fun entry hentry => by
        obtain ⟨old, hold, heq⟩ := hentries entry hentry
        rw [hnext, heq]; exact h.known.pooled old hold
      dropped := fun row hrow => by
        rw [hdropped] at hrow; rw [hnext]; exact h.known.dropped row hrow }
  keptOut row hrow hsess := by
    rw [hdropped] at hrow
    rw [hopen] at hsess
    obtain ⟨hmark, hout⟩ := h.keptOut row hrow hsess
    refine ⟨hmarks ▸ hmark, fun entry hentry => ?_⟩
    obtain ⟨old, hold, heq⟩ := hentries entry hentry; rw [heq]; exact hout old hold

theorem Reshaped.old {pool' : DirectPeerPool} (h : Reshaped Connected pool pool')
    (hnext : pool'.nextConnectionId = pool.nextConnectionId) {entry : DirectPeerState}
    (hentry : entry ∈ pool'.peers) : ∃ old ∈ pool.peers, entry.peer = old.peer := by
  rcases h.entries entry hentry with ⟨old, hold, hsame⟩ | _
  · exact ⟨old, hold, hsame.1⟩
  · omega

theorem Orderly.handle {event : NetworkEvent} {events : List NetworkEvent} (h : Orderly s)
    (hevs : s.events = event :: events) (htimely : Timely s (.handle now)) :
    Orderly { s with pool := Peering.handleEvent s.pool event now, events } := by
  have hin : ∀ other ∈ events, other ∈ s.events := by
    intro other hother; rw [hevs]; exact mem_cons_of_mem _ hother
  have hhead := htimely event (by rw [hevs]; rfl)
  -- What is dropped on its open session is another peer than the event's.
  have hother : ∀ row ∈ s.invalidatedOn, s.openSession row.1 = some row.2 → row.1 ≠ event.peerId := by
    rintro ⟨peerId, session⟩ hrow hsess rfl; exact hhead session hsess hrow
  cases event with
  | activePeerSession peerId session =>
    refine ⟨⟨h.known.opened, fun hev => h.known.queued (hin _ hev), h.known.listed,
      fun entry hentry => ?_, h.known.dropped⟩, fun row hrow hsess => ?_⟩
    · rcases DirectPeerPool.mem_insert hentry with hold | hpeer
      · exact h.known.pooled entry hold
      · rw [hpeer]
        have hmem : NetworkEvent.activePeerSession peerId session ∈ s.events := by
          rw [hevs]; exact mem_cons_self
        exact h.known.queued hmem
    · have hne := hother row hrow hsess
      obtain ⟨hmark, hout⟩ := h.keptOut row hrow hsess
      refine ⟨Finset.mem_erase.2 ⟨hne, hmark⟩, fun entry hentry => ?_⟩
      rcases DirectPeerPool.mem_insert hentry with hold | hpeer
      · exact hout entry hold
      · rw [hpeer]; exact hne.symm
  | sessionClosed peerId =>
    refine ⟨⟨h.known.opened, fun hev => h.known.queued (hin _ hev), h.known.listed,
      fun entry hentry => h.known.pooled entry (mem_filter.1 hentry).1, h.known.dropped⟩,
      fun row hrow hsess => ?_⟩
    have hne := hother row hrow hsess
    obtain ⟨hmark, hout⟩ := h.keptOut row hrow hsess
    exact ⟨Finset.mem_erase.2 ⟨hne, hmark⟩, fun entry hentry => hout entry (mem_filter.1 hentry).1⟩

theorem Orderly.invalidate (hcnt : Counted s) (h : Orderly s) (pid : PeerId)
    (connId : Nat) : Orderly (s.invalidate pid connId) := by
  have hpool := DirectPeerPool.invalidate_eq s.pool pid connId
  have hrows : ∀ row ∈ (s.invalidate pid connId).invalidatedOn,
      (∃ entry ∈ s.pool.peers, entry.peer.peerId = pid ∧ entry.connectionId = connId ∧
        row = (pid, entry.peer.messages.session)) ∨ row ∈ s.invalidatedOn := by
    intro row hrow
    rcases mem_append.1 hrow with hnew | hold
    · obtain ⟨entry, hentry, rfl⟩ := mem_map.1 hnew
      obtain ⟨hmem, hboth⟩ := mem_filter.1 hentry
      obtain ⟨hpeer, hconn⟩ := of_decide_eq_true hboth; exact .inl ⟨entry, hmem, hpeer, hconn, rfl⟩
    · exact .inr hold
  have hpeers : (s.invalidate pid connId).pool.peers = s.pool.without pid connId := by
    rw [Peering.invalidate, hpool]
  refine ⟨⟨h.known.opened, h.known.queued, h.known.listed, fun entry hentry => ?_,
    fun row hrow => ?_⟩, fun row hrow hsess => ?_⟩
  · exact h.known.pooled entry (mem_filter.1 hentry).1
  · rcases hrows row hrow with ⟨entry, hentry, -, -, rfl⟩ | hold
    · exact h.known.pooled entry hentry
    · exact h.known.dropped row hold
  · rw [hpeers]
    rcases hrows row hrow with ⟨entry, hentry, hpeer, hconn, rfl⟩ | hold
    · refine ⟨?_, fun _ hother => ?_⟩
      · rw [Peering.invalidate, hpool]
        rw [if_pos ⟨entry, hentry, hpeer, hconn⟩]; exact Finset.mem_insert_self _ _
      · -- The pool had one entry for the peer, and it is gone.
        obtain ⟨hmem, hkeep⟩ := mem_filter.1 hother
        rintro heq
        obtain rfl := inj_on_of_nodup_map hcnt.unique hmem hentry (heq.trans hpeer.symm)
        rcases of_decide_eq_true hkeep with hne | hne
        · exact hne hpeer
        · exact hne hconn
    · obtain ⟨hmark, hout⟩ := h.keptOut row hold hsess
      refine ⟨?_, fun entry hentry => hout entry (mem_filter.1 hentry).1⟩
      rw [Peering.invalidate, hpool]
      split
      · exact Finset.mem_insert_of_mem hmark
      · exact hmark

theorem Orderly.step (hcnt : Counted s) (h : Orderly s) (htimely : Timely s event)
    (hstep : s.step reverseRank event = some s') : Orderly s' := by
  have hshape := reshaped_step hstep
  have hsame : ∀ entry ∈ s.pool.peers, ∃ old ∈ s.pool.peers, entry.peer = old.peer :=
    fun entry hentry => ⟨entry, hentry, rfl⟩
  cases event with
  | opens peerId =>
    cases hstep
    refine ⟨⟨fun {other} {sess} hsess => ?_, fun {other} {sess} hev => ?_,
      fun row hrow => Nat.lt_succ_of_lt (h.known.listed row hrow),
      fun entry hentry => Nat.lt_succ_of_lt (h.known.pooled entry hentry),
      fun row hrow => Nat.lt_succ_of_lt (h.known.dropped row hrow)⟩, fun row hrow hsess => ?_⟩
    · dsimp only at hsess
      rw [Function.update_apply] at hsess
      split at hsess
      · cases hsess; exact Nat.lt_succ_self _
      · exact Nat.lt_succ_of_lt (h.known.opened hsess)
    · rcases mem_append.1 hev with hold | hnew
      · exact Nat.lt_succ_of_lt (h.known.queued hold)
      · obtain ⟨-, rfl⟩ := NetworkEvent.activePeerSession.inj (mem_singleton.1 hnew)
        exact Nat.lt_succ_self _
    · -- Nobody was dropped on the new session.
      dsimp only at hsess
      rw [Function.update_apply] at hsess
      split at hsess
      · have := h.known.dropped row hrow
        have := some.inj hsess; omega
      · exact h.keptOut row hrow hsess
  | closes peerId =>
    cases hstep
    refine ⟨⟨fun {other} {sess} hsess => ?_, fun {other} {sess} hev => ?_,
      h.known.listed, h.known.pooled, h.known.dropped⟩, fun row hrow hsess => ?_⟩
    · dsimp only at hsess
      rw [Function.update_apply] at hsess
      split at hsess
      · cases hsess
      · exact h.known.opened hsess
    · rcases mem_append.1 hev with hold | hnew
      · exact h.known.queued hold
      · cases mem_singleton.1 hnew
    · dsimp only at hsess
      rw [Function.update_apply] at hsess
      split at hsess
      · cases hsess
      · exact h.keptOut row hrow hsess
  | hangUp sess =>
    cases hstep; exact h.inert rfl rfl (fun _ hev => hev) h.known.listed rfl rfl hsame
  | handle now =>
    simp only [Peering.step] at hstep
    split at hstep
    · cases hstep
    · rename_i event events hevs; cases hstep; exact h.handle hevs htimely
  | lose =>
    simp only [Peering.step] at hstep
    split at hstep
    · cases hstep
    · rename_i event events hevs
      cases hstep
      refine h.inert rfl rfl (fun other hother => ?_) h.known.listed rfl rfl hsame
      rw [hevs]; exact mem_cons_of_mem _ hother
  | tick =>
    simp only [Peering.step] at hstep
    split at hstep
    · cases hstep; exact h.inert rfl rfl (fun _ hev => hev) nofun rfl rfl hsame
    · cases hstep
  | snapshot answer =>
    simp only [Peering.step] at hstep
    split at hstep
    · split at hstep
      · cases hstep; exact h.inert rfl rfl (fun _ hev => hev) nofun rfl rfl hsame
      · split at hstep
        · rename_i hlist
          cases hstep
          exact h.inert rfl rfl (fun _ hev => hev)
            (fun row hrow => h.known.opened (hlist row hrow)) rfl rfl hsame
        · cases hstep
    · cases hstep
  | look =>
    simp only [Peering.step] at hstep
    split at hstep
    · rename_i hanswered
      cases hstep
      refine h.inert rfl rfl (fun _ hev => hev) (fun row hrow => ?_) rfl rfl hsame
      exact h.known.listed row (by rw [hanswered]; exact hrow)
    · cases hstep
  | compare =>
    simp only [Peering.step] at hstep
    split at hstep
    · rename_i hlooked
      cases hstep
      refine h.inert rfl rfl (fun _ hev => hev) (fun row hrow => ?_) rfl rfl hsame
      exact h.known.listed row (by rw [hlooked]; exact (mem_filter.1 hrow).1)
    · cases hstep
  | act now =>
    simp only [Peering.step] at hstep
    split at hstep
    · rename_i hacting
      cases hstep
      refine h.inert rfl rfl (fun _ hev => hev) (fun row hrow => ?_) rfl rfl
        fun entry hentry => hsame entry (mem_filter.1 hentry).1
      exact h.known.listed row (by rw [hacting]; exact hrow)
    · rename_i snapshotConnectionId peerId sess adopt hacting
      cases hstep
      have hlisted : (peerId, sess) ∈ s.reconciler.sessions := by
        rw [hacting]; exact mem_cons_self
      refine ⟨⟨h.known.opened, h.known.queued, fun row hrow => h.known.listed row ?_,
        fun entry hentry => ?_, h.known.dropped⟩, fun row hrow hsess => ?_⟩
      · rw [hacting]; exact mem_cons_of_mem _ hrow
      · rcases DirectPeerPool.mem_insertMissing hentry with hold | ⟨hpeer, -⟩
        · exact h.known.pooled entry hold
        · rw [hpeer]; exact h.known.listed _ hlisted
      · obtain ⟨hmark, hout⟩ := h.keptOut row hrow hsess
        refine ⟨?_, fun entry hentry => ?_⟩
        · rw [DirectPeerPool.insertMissing_invalidated]; exact hmark
        · rcases DirectPeerPool.mem_insertMissing hentry with hold | ⟨hpeer, hunmarked⟩
          · exact hout entry hold
          · rintro heq; rw [hpeer] at heq; exact hunmarked (heq ▸ hmark)
    · cases hstep; exact h.inert rfl rfl (fun _ hev => hev) nofun rfl rfl hsame
    · cases hstep
  | acquire id kind perPeerLimit excluded preferred now =>
    simp only [Peering.step] at hstep
    split at hstep
    · cases hstep
    · cases hstep
      obtain ⟨hmarks, hnext, -⟩ := DirectPeerPool.tryAcquireExcluding_eq
        (show s.pool.tryAcquireExcluding reverseRank kind perPeerLimit excluded preferred now =
          (_, _) from rfl)
      exact h.inert rfl rfl (fun _ hev => hev) h.known.listed hmarks rfl
        fun entry hentry => hshape.old hnext hentry
  | settle id outcome =>
    simp only [Peering.step] at hstep
    split at hstep
    · cases hstep; exact h.inert rfl rfl (fun _ hev => hev) h.known.listed rfl rfl hsame
    · cases hstep
  | giveBack id now =>
    simp only [Peering.step] at hstep
    split at hstep
    · cases hstep
      exact h.inert rfl rfl (fun _ hev => hev) h.known.listed rfl rfl
        fun entry hentry => hshape.old rfl hentry
    · cases hstep
  | invalidate peerId connectionId =>
    cases hstep; exact h.invalidate hcnt peerId connectionId
  | setQualification peerId servedHeader servedBody now | recordMaterialFailure peerId kind now
  | strikeWithheldHeader peerId now | clearWithheldHeader peerId now =>
    cases hstep
    exact h.inert rfl rfl (fun _ hev => hev) h.known.listed rfl rfl
      fun entry hentry => hshape.old rfl hentry

def TimelyRun (reverseRank : PeerId → Nat) : Peering → List Event → Prop
  | _, [] => True
  | s, event :: events =>
    Timely s event ∧ ∀ s', s.step reverseRank event = some s' → TimelyRun reverseRank s' events

theorem counted_new : Counted .new where
  unique := nodup_nil
  fresh _ h := nomatch h
  leased h := (not_mem_empty h).elim
  counted _ h := nomatch h

theorem judged_new : Judged .new := ⟨nofun, nofun⟩

theorem orderly_new : Orderly .new :=
  ⟨⟨nofun, nofun, nofun, nofun, nofun⟩, nofun⟩

variable {events : List Event}

theorem run_invariants : ∀ {s : Peering}, Counted s → Judged s → s.run reverseRank events = some s' →
      Counted s' ∧ Judged s' := by
  induction events with
  | nil =>
    intro s hcnt hjudged hrun; cases hrun; exact ⟨hcnt, hjudged⟩
  | cons event events ih =>
    intro s hcnt hjudged hrun
    rw [Peering.run, bind_eq_some_iff] at hrun
    obtain ⟨_, hstep, hrun⟩ := hrun; exact ih (hcnt.step hstep) (hjudged.step hcnt hstep) hrun

theorem run_orderly : ∀ {s : Peering}, Counted s → Orderly s → TimelyRun reverseRank s events →
      s.run reverseRank events = some s' → Orderly s' := by
  induction events with
  | nil =>
    intro s _ h _ hrun; cases hrun; exact h
  | cons event events ih =>
    intro s hcnt h htimely hrun
    rw [Peering.run, bind_eq_some_iff] at hrun
    obtain ⟨next, hstep, hrun⟩ := hrun
    exact ih (hcnt.step hstep) (h.step hcnt htimely.1 hstep) (htimely.2 next hstep) hrun

theorem Counted.acquire {kind : PeerMaterialKind} {peerLimit : Nat} {excluded : Finset PeerId}
    {preferred : Option PeerId} (h : Counted s)
    (hstep : s.step reverseRank (.acquire id kind peerLimit excluded preferred now) = some s')
    (hlease : s'.leases[id]? = some lease) :
    held s'.leases lease.peer.peerId lease.connectionId ≤ max peerLimit 1 := by
  have hid : id ∉ s.leases := by
    intro hmem; simp [Peering.step, hmem] at hstep
  rcases step_cases hstep with ⟨hleases, -⟩ | ⟨id', _, _, hlease', _, hleases⟩ | ⟨id',
    i, entry, kind', limit, hid', hentry, hroom, ⟨_, _, _, heq⟩, -, -, hleases⟩ | ⟨_, _, _, heq, -⟩
  · rw [hleases] at hlease; exact absurd (mem_of_getElem? hlease) hid
  · rw [hleases] at hlease
    rcases insert_cases hlease with ⟨heq, hlease⟩ | ⟨-, hlease⟩
    · exact absurd (heq ▸ mem_of_getElem? hlease') hid
    · exact absurd (mem_of_getElem? hlease) hid
  · obtain ⟨rfl, rfl, rfl, -⟩ := Event.acquire.inj heq
    rw [hleases, getElem?_insert_self] at hlease
    cases hlease
    rw [hleases, held_insert hid, if_pos ⟨rfl, rfl⟩, ← h.counted entry (mem_of_getElem? hentry)]
    omega
  · cases heq

theorem giveBack_other {i : Nat} (hentry : pool.peers[i]? = some entry)
    (hother : entry.connectionId ≠ lease.connectionId) :
    (pool.giveBack lease now).peers[i]? = some entry := by
  rw [DirectPeerPool.giveBack, DirectPeerPool.update]
  rcases findIdx_cases pool.peers (fun entry : DirectPeerState =>
      entry.peer.peerId = lease.peer.peerId ∧ entry.connectionId = lease.connectionId) with
    ⟨old, hold, hmatch, hget⟩ | ⟨hnone, hsame⟩
  · rw [getElem?_modify, hentry]
    split
    · rename_i hi
      rw [hi, hentry] at hget; cases hget; exact absurd (of_decide_eq_true hmatch).2 hother
    · rfl
  · rw [hsame]; exact hentry

/-- However sessions open and close and events, snapshots, leases and penalties interleave: a peer
has one entry; it counts the leases held of its own connection, and none is granted beyond the limit
asked with; a lease of an old connection given back changes no other; the reconciler removes nothing
newer than its snapshot whose channel is open. And as long as the network's events are handled in
time, a peer dropped on a session is not in the pool while that session lasts. -/
theorem run_pools (hrun : Peering.new.run reverseRank events = some s) :
    (s.pool.peers.map (·.peer.peerId)).Nodup ∧
      (∀ entry ∈ s.pool.peers,
        entry.inFlight = held s.leases entry.peer.peerId entry.connectionId) ∧
      (∀ id kind perPeerLimit excluded preferred now s',
        s.step reverseRank (.acquire id kind perPeerLimit excluded preferred now) = some s' →
          ∀ lease, s'.leases[id]? = some lease →
            held s'.leases lease.peer.peerId lease.connectionId ≤ max perPeerLimit 1) ∧
      (∀ (id : Nat) lease now s', s.leases[id]? = some lease →
        s.step reverseRank (.giveBack id now) = some s' → ∀ (i : Nat) entry,
          s.pool.peers[i]? = some entry → entry.connectionId ≠ lease.connectionId →
            s'.pool.peers[i]? = some entry) ∧
      (∀ snapshotConnectionId stale adopt now s',
        s.reconciler = .acting snapshotConnectionId stale adopt →
          s.step reverseRank (.act now) = some s' → ∀ entry ∈ s.pool.peers,
            entry ∉ s'.pool.peers →
              entry.connectionId < snapshotConnectionId ∨ s.senderOpen entry.peer = false) ∧
      (TimelyRun reverseRank .new events → ∀ row ∈ s.invalidatedOn,
        s.openSession row.1 = some row.2 → ∀ entry ∈ s.pool.peers,
          entry.peer.peerId ≠ row.1) := by
  obtain ⟨hcounted, hjudged⟩ := run_invariants counted_new judged_new hrun
  refine ⟨hcounted.unique, hcounted.counted, ?_, ?_, ?_, ?_⟩
  · intro id kind perPeerLimit excluded preferred now s' hstep lease hlease
    exact hcounted.acquire hstep hlease
  · intro id lease now s' hlease hstep i entry hentry hother
    simp only [Peering.step, hlease] at hstep; cases hstep; exact giveBack_other hentry hother
  · intro snapshotConnectionId stale adopt now s' hacting hstep entry hentry hremoved
    exact hjudged.removal hacting hstep hentry hremoved
  · intro htimely row hrow hsession
    exact ((run_orderly counted_new orderly_new htimely hrun).keptOut row hrow hsession).2

end Steps

def samplePeer : PeerId := ⟨.replicate 64 0⟩

/-- A peer opens a session whose open event is late, the second snapshot adopts it, and a lease of
it ends in invalid material. -/
def sampleEvents : List Event :=
  [.opens samplePeer, .tick, .snapshot (some [(samplePeer, 0)]), .look, .compare, .act 0, .tick,
    .snapshot (some [(samplePeer, 0)]), .look, .compare, .act 0, .act 0,
    .acquire 0 .header 1 ∅ none 0, .settle 0 .failure, .invalidate samplePeer 1, .giveBack 0 0]

theorem run_pools_sample :
    ∃ s, Peering.new.run (fun _ => 0) sampleEvents = some s ∧
      (samplePeer, 0) ∈ s.invalidatedOn ∧ s.openSession samplePeer = some 0 ∧
      ∀ entry ∈ s.pool.peers, entry.peer.peerId ≠ samplePeer := by
  have hsome : (Peering.new.run (fun _ => 0) sampleEvents).map
      (fun s => (s.invalidatedOn, s.openSession samplePeer)) = some ([(samplePeer, 0)], some 0) := by
    decide +kernel
  obtain ⟨s, hrun, hs⟩ := map_eq_some_iff.1 hsome
  simp only [Prod.mk.injEq] at hs
  have hmem : (samplePeer, 0) ∈ s.invalidatedOn := by
    rw [hs.1]; exact mem_cons_self
  refine ⟨s, hrun, hmem, hs.2, (run_pools hrun).2.2.2.2.2 ?_ (samplePeer, 0) hmem hs.2⟩
  -- No event is handled at all.
  have hall : ∀ (events : List Event) (t : Peering), (∀ now, Event.handle now ∉ events) →
      TimelyRun (fun _ => 0) t events := by
    intro events
    induction events with
    | nil => exact fun _ _ => trivial
    | cons event events ih =>
      intro t hnone
      refine ⟨?_, fun t' _ => ih t' fun now hmem => hnone now (mem_cons_of_mem _ hmem)⟩
      cases event with
      | handle now => exact absurd mem_cons_self (hnone now)
      | _ => trivial
  refine hall _ _ fun now hmem => ?_
  simp [sampleEvents] at hmem

/-- The late open event brings the dropped peer back while its session lasts. -/
theorem late_open_event_readmits :
    ¬ ∀ (events : List Event) (s : Peering), Peering.new.run (fun _ => 0) events = some s →
      ∀ row ∈ s.invalidatedOn, s.openSession row.1 = some row.2 →
        ∀ entry ∈ s.pool.peers, entry.peer.peerId ≠ row.1 := by
  intro h
  have hsome : (Peering.new.run (fun _ => 0) (sampleEvents ++ [.handle 0])).map
      (fun s => (s.invalidatedOn, s.openSession samplePeer, s.pool.peers.map (·.peer.peerId))) =
        some ([(samplePeer, 0)], some 0, [samplePeer]) := by
    decide +kernel
  obtain ⟨s, hrun, hs⟩ := map_eq_some_iff.1 hsome
  simp only [Prod.mk.injEq] at hs
  have hmem : samplePeer ∈ s.pool.peers.map (·.peer.peerId) := by
    rw [hs.2.2]; exact mem_cons_self
  obtain ⟨entry, hentry, hpeer⟩ := mem_map.1 hmem
  refine h _ s hrun (samplePeer, 0) ?_ hs.2.1 entry hentry hpeer
  rw [hs.1]; exact mem_cons_self

end Leani.P2p.PeerPool
