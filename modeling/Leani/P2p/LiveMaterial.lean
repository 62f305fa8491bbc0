import Leani.Library.History
import Leani.Primitives

/-!
# Live material that subscriptions share

A block's material is downloaded once, by whichever call asks first, and kept for the most recent
blocks. Every step of a call runs up to its next await; calls take their steps in any order, and may
be dropped at every await.
-/

namespace Leani.P2p

open Library Std List Option Table BlockHash Prod

inductive P2pError where
  | cancelled
  | incompleteResponse (returned expected : Nat)
  | download (message : String)

inductive Event where
  | claimed (call : Nat) (block : BlockHash)
  | completed (call : Nat) (block : BlockHash)
  | failed (call : Nat) (block : BlockHash)
  | stalled (call claimant : Nat) (block : BlockHash)
  | again (call : Nat) (block : BlockHash)
  | left (block : BlockHash)
  deriving DecidableEq

/-- A claimed block's channel: `value` is what it has sent, and it is closed once its sender is
dropped. -/
structure Channel (V : Type) where
  block : BlockHash
  claimant : Nat
  value : Option V
  closed : Bool

inductive Phase (V : Type) where
  | locked
  | downloading
  | waiting
  | downloadingAgain
  | returned (result : Except P2pError (List V))
  | panicked
  | dropped

/-- The locals of `get_or_fetch`: indices into `hashes`, with channels to wait for or to send on. -/
structure Call (V : Type) where
  hashes : List BlockHash
  material : List (Option V)
  waiting : List (Nat × Nat)
  claim : List (Nat × BlockHash × Nat)
  abandoned : List Nat
  phase : Phase V

structure Shared (V : Type) where
  recent : List (BlockHash × V)
  pending : Table BlockHash Nat
  channels : Table Nat (Channel V)
  nextChannel : Nat
  calls : Table Nat (Call V)
  nextCall : Nat
  log : List Event

variable {V : Type}

def recentBlocks : Nat := 32

namespace Shared

def empty : Shared V := ⟨[], ∅, ∅, 0, ∅, 0, []⟩

def isRecent (shared : Shared V) (hash : BlockHash) : Bool := shared.recent.any (·.1 == hash)

def keep (shared : Shared V) (hash : BlockHash) (value : V) : Shared V :=
  if shared.isRecent hash then shared
  else
    match shared.recent with
    | [] => { shared with recent := [(hash, value)] }
    | oldest :: rest =>
      if shared.recent.length = recentBlocks then
        { shared with recent := rest ++ [(hash, value)], log := .left oldest.1 :: shared.log }
      else { shared with recent := shared.recent ++ [(hash, value)] }

end Shared

abbrev Working (V : Type) := Shared V × Call V

def look (id : Nat) (working : Working V) (item : BlockHash × Nat) : Working V :=
  match working.1.recent.find? (·.1 == item.1) with
  | some kept =>
    (working.1, { working.2 with material := working.2.material.set item.2 (some kept.2) })
  | none =>
    match working.1.pending[item.1]? with
    | some channel =>
      (working.1, { working.2 with waiting := working.2.waiting ++ [(item.2, channel)] })
    | none =>
      ({ working.1 with
          pending := working.1.pending.insert item.1 working.1.nextChannel
          channels := working.1.channels.insert working.1.nextChannel ⟨item.1, id, none, false⟩
          nextChannel := working.1.nextChannel + 1
          log := .claimed id item.1 :: working.1.log },
        { working.2 with claim := working.2.claim ++ [(item.2, item.1, working.1.nextChannel)] })

def completeOne (id : Nat) (working : Working V) (block : (Nat × BlockHash × Nat) × V) : Working V :=
  let kept := working.1.keep block.1.2.1 block.2
  ({ kept with
      pending := kept.pending.erase block.1.2.1
      channels := kept.channels.insert block.1.2.2 ⟨block.1.2.1, id, some block.2, true⟩
      log := .completed id block.1.2.1 :: kept.log },
    { working.2 with
      claim := working.2.claim.tail
      material := working.2.material.set block.1.1 (some block.2) })

def handBackOne (id : Nat) (working : Working V) (block : Nat × BlockHash × Nat) : Working V :=
  ({ working.1 with
      pending := working.1.pending.erase block.2.1
      channels := working.1.channels.insert block.2.2 ⟨block.2.1, id, none, true⟩
      log := .failed id block.2.1 :: working.1.log },
    { working.2 with claim := working.2.claim.tail })

def keepOne (working : Working V) (item : Nat × V) : Working V :=
  (working.1.keep (working.2.hashes.getD item.1 BlockHash.zero) item.2, { working.2 with
      abandoned := working.2.abandoned.tail
      material := working.2.material.set item.1 (some item.2) })

def handBack (id : Nat) (working : Working V) (phase : Phase V) : Working V :=
  working.2.claim.foldl (handBackOne id) (working.1, { working.2 with phase })

def finished (call : Call V) : Phase V :=
  match call.material.mapM id with
  | some values => .returned (.ok values)
  | none => .panicked

def againEvents (id : Nat) (call : Call V) : List Event :=
  call.abandoned.map fun index => .again id (call.hashes.getD index BlockHash.zero)

def proceed (id : Nat) (working : Working V) : Working V :=
  if working.2.waiting ≠ [] then (working.1, { working.2 with phase := .waiting })
  else if working.2.abandoned ≠ [] then
    ({ working.1 with log := againEvents id working.2 ++ working.1.log },
      { working.2 with phase := .downloadingAgain })
  else (working.1, { working.2 with phase := finished working.2 })

/-- What a download gives. It returns as many values as it was asked for only when they are the
material of the blocks it was asked for. -/
inductive Download (V : Type) where
  | complete
  | incomplete (values : List V)
  | failed (message : String)

def Download.result (right : BlockHash → V) (hashes : List BlockHash) :
    Download V → Except P2pError (List V)
  | .complete => .ok (hashes.map right)
  | .incomplete values => .ok values
  | .failed message => .error (.download message)

def Download.possible (hashes : List BlockHash) : Download V → Bool
  | .incomplete values => values.length != hashes.length
  | _ => true

inductive Wake where
  | received
  | closed
  | deadline
  | cancelled

inductive Moment (V : Type) where
  | call (hashes : List BlockHash)
  | downloaded (id : Nat) (download : Download V)
  | woken (id : Nat) (wake : Wake)
  | drop (id : Nat)

def enter (shared : Shared V) (hashes : List BlockHash) : Working V :=
  let call : Call V := ⟨hashes, List.replicate hashes.length none, [], [], [], .locked⟩
  let looked := hashes.zipIdx.foldl (look shared.nextCall)
    ({ shared with nextCall := shared.nextCall + 1 }, call)
  if looked.2.claim ≠ [] then (looked.1, { looked.2 with phase := .downloading })
  else proceed shared.nextCall looked

def downloaded (id : Nat) (working : Working V) (result : Except P2pError (List V)) : Working V :=
  match result with
  | .error error => handBack id working (.returned (.error error))
  | .ok fetched =>
    if fetched.length ≠ working.2.claim.length then
      handBack id working (.returned
        (.error (.incompleteResponse fetched.length working.2.claim.length)))
    else proceed id ((working.2.claim.zip fetched).foldl (completeOne id) working)

def downloadedAgain (id : Nat) (working : Working V) (result : Except P2pError (List V)) :
    Working V :=
  match result with
  | .error error => (working.1, { working.2 with phase := .returned (.error error) })
  | .ok fetched =>
    if fetched.length ≠ working.2.abandoned.length then
      let error := P2pError.incompleteResponse fetched.length working.2.abandoned.length
      (working.1, { working.2 with phase := .returned (.error error) })
    else proceed id ((working.2.abandoned.zip fetched).foldl keepOne working)

/-- The wait for the first block ends, `none` while it cannot end so. -/
def woken (id : Nat) (working : Working V) (wake : Wake) : Option (Working V) :=
  match working.2.waiting with
  | [] => none
  | (index, channel) :: rest =>
    match working.1.channels[channel]? with
    | none => none
    | some state =>
      match wake, state.value with
      | .cancelled, _ =>
        some (working.1, { working.2 with phase := .returned (.error .cancelled) })
      | .received, some value =>
        some (proceed id (working.1, { working.2 with
          waiting := rest
          material := working.2.material.set index (some value) }))
      | .closed, none =>
        if state.closed then
          some (proceed id (working.1, { working.2 with
            waiting := rest
            abandoned := working.2.abandoned ++ [index] }))
        else none
      | .deadline, none =>
        some (proceed id
          ({ working.1 with log := .stalled id state.claimant state.block :: working.1.log },
            { working.2 with
              waiting := rest
              abandoned := working.2.abandoned ++ [index] }))
      | _, _ => none

def asked (call : Call V) : List BlockHash :=
  match call.phase with
  | .downloading => call.claim.map fun block => block.2.1
  | _ => call.abandoned.map fun index => call.hashes.getD index BlockHash.zero

namespace Shared

def withCall (working : Working V) (id : Nat) : Shared V :=
  { working.1 with calls := working.1.calls.insert id working.2 }

def step (right : BlockHash → V) (shared : Shared V) : Moment V → Option (Shared V)
  | .call hashes => some (withCall (enter shared hashes) shared.nextCall)
  | .downloaded id download =>
    match shared.calls[id]? with
    | none => none
    | some call =>
      if !download.possible (asked call) then none
      else
        let result := download.result right (asked call)
        match call.phase with
        | .downloading => some (withCall (P2p.downloaded id (shared, call) result) id)
        | .downloadingAgain => some (withCall (P2p.downloadedAgain id (shared, call) result) id)
        | _ => none
  | .woken id wake =>
    match shared.calls[id]? with
    | none => none
    | some call =>
      match call.phase with
      | .waiting => (P2p.woken id (shared, call) wake).map fun working => withCall working id
      | _ => none
  | .drop id =>
    match shared.calls[id]? with
    | none => none
    | some call =>
      match call.phase with
      | .downloading | .waiting | .downloadingAgain =>
        some (withCall (handBack id (shared, call) .dropped) id)
      | _ => none

def run (right : BlockHash → V) (shared : Shared V) (moments : List (Moment V)) : Option (Shared V) :=
  moments.foldlM (step right) shared

end Shared

/-- When a download may start: a claim, only after every earlier claim of the block was handed back
or completed and the block has left the recent list since; a second download, only after the claim
that was waited for was handed back or stalled. -/
def DownloadRule : Event → List Event → Prop
  | .claimed _ block, earlier => ∀ call, .claimed call block ∈ earlier →
      .failed call block ∈ earlier ∨ Since (.completed call block) (.left block) earlier
  | .again call block, earlier => ∃ claimant, .claimed claimant block ∈ earlier ∧
      (.failed claimant block ∈ earlier ∨ .stalled call claimant block ∈ earlier)
  | _, _ => True

/-- The block may be downloaded again by `call`, which waited for it. -/
def MayDownload (log : List Event) (call : Nat) (block : BlockHash) : Prop :=
  ∃ claimant, .claimed claimant block ∈ log ∧
    (.failed claimant block ∈ log ∨ .stalled call claimant block ∈ log)

structure ChannelKept (right : BlockHash → V) (log : List Event) (channel : Channel V) : Prop where
  claimed : .claimed channel.claimant channel.block ∈ log
  value : ∀ v, channel.value = some v → v = right channel.block
  failed : channel.value = none → channel.closed = true → .failed channel.claimant channel.block ∈ log

/-- Every index below `count` has its material, is waited for, is claimed, or was abandoned. -/
def Covered (call : Call V) (count : Nat) : Prop :=
  ∀ index < count, (∃ v, call.material[index]? = some (some v)) ∨
    (∃ channel, (index, channel) ∈ call.waiting) ∨
    (∃ block channel, (index, block, channel) ∈ call.claim) ∨ index ∈ call.abandoned

def PhaseKept (right : BlockHash → V) (call : Call V) : Prop :=
  match call.phase with
  | .locked => False
  | .downloading => Covered call call.hashes.length ∧ call.abandoned = []
  | .waiting => Covered call call.hashes.length ∧ call.claim = []
  | .downloadingAgain => Covered call call.hashes.length ∧ call.claim = [] ∧ call.waiting = []
  | .returned (.ok values) => values = call.hashes.map right ∧ call.claim = []
  | .returned (.error _) => call.claim = []
  | .panicked => False
  | .dropped => call.claim = []

structure CallKept (right : BlockHash → V) (shared : Shared V) (id : Nat) (call : Call V) : Prop where
  length : call.material.length = call.hashes.length
  material : ∀ (index : Nat) v, call.material[index]? = some (some v) →
    ∃ block, call.hashes[index]? = some block ∧ v = right block
  waiting : ∀ (index channel : Nat), (index, channel) ∈ call.waiting → ∃ state,
    shared.channels[channel]? = some state ∧ call.hashes[index]? = some state.block
  claim : ∀ (index : Nat)
    block (channel : Nat), (index, block, channel) ∈ call.claim → call.hashes[index]? = some block ∧
    shared.channels[channel]? = some ⟨block, id, none, false⟩ ∧ shared.pending[block]? = some channel
  distinct : (call.claim.map fun block => block.2.1).Nodup
  abandoned : ∀ index ∈ call.abandoned, ∃ block, call.hashes[index]? = some block ∧
    MayDownload shared.log id block

/-- Where a claim stands: it is pending, was handed back, or was completed, and then its block is
recent or has left the recent list since. -/
def ClaimStands (shared : Shared V) (call : Nat) (block : BlockHash) : Prop :=
  (∃ channel state, shared.pending[block]? = some channel ∧
    shared.channels[channel]? = some state ∧ state.claimant = call) ∨
  .failed call block ∈ shared.log ∨
  (.completed call block ∈ shared.log ∧ block ∈ shared.recent.map Prod.fst) ∨
  Since (.completed call block) (.left block) shared.log

structure Kept (right : BlockHash → V) (shared : Shared V) : Prop where
  bounded : shared.recent.length ≤ recentBlocks
  distinct : (shared.recent.map Prod.fst).Nodup
  recent : ∀ row ∈ shared.recent, row.2 = right row.1
  calls : ∀ (id : Nat) call, shared.calls[id]? = some call →
    CallKept right shared id call ∧ id < shared.nextCall
  pending : ∀ (block : BlockHash)
    channel, shared.pending[block]? = some channel → ∃ state call index, shared.channels[channel]? =
    some state ∧ shared.calls[state.claimant]? = some call ∧ (index, block, channel) ∈ call.claim
  channels : ∀ (channel : Nat) state, shared.channels[channel]? = some state →
    ChannelKept right shared.log state ∧ channel < shared.nextChannel
  opened : ∀ (channel : Nat) state, shared.channels[channel]? = some state →
    state.closed = false → shared.pending[state.block]? = some channel
  claims : ∀ call block, .claimed call block ∈ shared.log → ClaimStands shared call block
  justified : Justified DownloadRule shared.log

section

variable {right : BlockHash → V} {shared shared' : Shared V} {id : Nat} {call : Call V}

variable {block : BlockHash}

theorem MayDownload.mono {log log' : List Event}
    (h : MayDownload log id block) (hlog : log ⊆ log') : MayDownload log' id block := by
  obtain ⟨claimant, hclm, hended⟩ := h
  exact ⟨claimant, hlog hclm, hended.imp (fun h => hlog h) fun h => hlog h⟩

theorem ChannelKept.mono {log log' : List Event} {chan : Channel V}
    (h : ChannelKept right log chan) (hlog : log ⊆ log') : ChannelKept right log' chan where
  claimed := hlog h.claimed
  value := h.value
  failed hvalue hclosed := hlog (h.failed hvalue hclosed)

variable {event : Event}

theorem ClaimStands.logged {caller : Nat} (h : ClaimStands shared caller block) (hlog : shared'.log =
    event :: shared.log) (hrec : shared'.recent = shared.recent) (hpend : ∀ (chan : Nat) state,
    shared.pending[block]? = some chan → shared.channels[chan]? = some state → state.claimant =
    caller → ClaimStands shared' caller block) : ClaimStands shared' caller block := by
  have hsub : shared.log ⊆ shared'.log := by
    rw [hlog]; exact subset_cons_self _ _
  rcases h with ⟨chan, state, hp, hs, hown⟩ | hf | ⟨hc, hr⟩ | hs
  · exact hpend chan state hp hs hown
  · exact .inr (.inl (hsub hf))
  · exact .inr (.inr (.inl ⟨hsub hc, hrec ▸ hr⟩))
  · refine .inr (.inr (.inr ?_))
    rw [hlog]; exact hs.cons _

theorem CallKept.frame (h : CallKept right shared id call)
    (hblks : ∀ (chan : Nat) state, shared.channels[chan]? = some state →
      ∃ state', shared'.channels[chan]? = some state' ∧ state'.block = state.block)
    (hclaims : ∀ (index : Nat) block (chan : Nat), (index, block, chan) ∈ call.claim →
      shared'.channels[chan]? = shared.channels[chan]? ∧
        shared'.pending[block]? = shared.pending[block]?)
    (hlog : shared.log ⊆ shared'.log) : CallKept right shared' id call where
  length := h.length
  material := h.material
  waiting index chan hmem := by
    obtain ⟨state, hstate, hblock⟩ := h.waiting index chan hmem
    obtain ⟨state', hstate', heq⟩ := hblks chan state hstate
    exact ⟨state', hstate', heq ▸ hblock⟩
  claim index block chan hmem := by
    obtain ⟨hchannel, hpend⟩ := hclaims index block chan hmem
    rw [hchannel, hpend]; exact h.claim index block chan hmem
  distinct := h.distinct
  abandoned index hmem := by
    obtain ⟨block, hblock, hmay⟩ := h.abandoned index hmem; exact ⟨block, hblock, hmay.mono hlog⟩

theorem Shared.keep_cases (shared : Shared V) (hash : BlockHash) (value : V) :
    (hash ∈ shared.recent.map fst ∧ shared.keep hash value = shared) ∨
    (hash ∉ shared.recent.map fst ∧ shared.recent.length ≠ recentBlocks ∧
      shared.keep hash value = { shared with recent := shared.recent ++ [(hash, value)] }) ∨
    (hash ∉ shared.recent.map fst ∧ ∃ oldest rest, shared.recent = oldest :: rest ∧
      shared.recent.length = recentBlocks ∧
      shared.keep hash value = { shared with
        recent := rest ++ [(hash, value)], log := .left oldest.1 :: shared.log }) := by
  unfold keep isRecent
  by_cases hrec : shared.recent.any (·.1 == hash) = true
  · rw [if_pos hrec]
    refine .inl ⟨?_, rfl⟩
    obtain ⟨row, hrow, heq⟩ := any_eq_true.1 hrec; exact mem_map.2 ⟨row, hrow, eq_of_beq heq⟩
  · rw [if_neg hrec]
    have hnot : hash ∉ shared.recent.map fst := by
      intro hmem
      obtain ⟨row, hrow, rfl⟩ := mem_map.1 hmem; exact hrec (any_eq_true.2 ⟨row, hrow, by simp⟩)
    cases hlist : shared.recent with
    | nil => exact .inr (.inl ⟨by simp, by simp [recentBlocks], by simp⟩)
    | cons oldest rest =>
      rw [hlist] at hnot
      dsimp only
      by_cases hfull : (oldest :: rest).length = recentBlocks
      · rw [if_pos hfull]; exact .inr (.inr ⟨hnot, oldest, rest, rfl, hfull, rfl⟩)
      · rw [if_neg hfull]; exact .inr (.inl ⟨hnot, hfull, rfl⟩)

theorem Kept.keep (h : Kept right shared) {hash : BlockHash} :
    Kept right (shared.keep hash (right hash)) ∧
      hash ∈ (shared.keep hash (right hash)).recent.map fst := by
  rcases shared.keep_cases hash (right hash) with
    ⟨hmem, heq⟩ | ⟨hnot, hlen, heq⟩ | ⟨hnot, oldest, rest, hlist, hlen, heq⟩
  · rw [heq]; exact ⟨h, hmem⟩
  · rw [heq]
    have hbounded := h.bounded
    refine ⟨⟨?_, ?_, ?_, ?_, h.pending, h.channels, h.opened, ?_, h.justified⟩, by simp⟩
    · rw [length_append, length_singleton]; omega
    · rw [map_append, nodup_append]
      refine ⟨h.distinct, by simp, ?_⟩
      intro block hblk other hother heq'
      rw [map_singleton, mem_singleton] at hother
      subst hother heq'; exact hnot hblk
    · intro row hrow
      rcases mem_append.1 hrow with hrow | hrow
      · exact h.recent row hrow
      · rw [mem_singleton.1 hrow]
    · intro id call hcall
      refine ⟨(h.calls id call hcall).1.frame ?_ (fun _ _ _ _ => ⟨rfl, rfl⟩) (List.Subset.refl _),
        (h.calls id call hcall).2⟩
      intro chan state hst; exact ⟨state, hst, rfl⟩
    · intro call block hclm
      rcases h.claims call block hclm with hp | hf | ⟨hc, hr⟩ | hs
      · exact .inl hp
      · exact .inr (.inl hf)
      · exact .inr (.inr (.inl ⟨hc, by rw [map_append]; exact mem_append_left _ hr⟩))
      · exact .inr (.inr (.inr hs))
  · rw [heq]
    have hsub : shared.log ⊆ .left oldest.1 :: shared.log := subset_cons_self _ _
    have hdistinct := h.distinct
    rw [hlist, map_cons, nodup_cons] at hdistinct
    rw [hlist, map_cons, mem_cons, not_or] at hnot
    refine ⟨⟨?_, ?_, ?_, ?_, h.pending, ?_, h.opened, ?_, ⟨trivial, h.justified⟩⟩, by simp⟩
    · rw [hlist] at hlen; simpa using Nat.le_of_eq hlen
    · rw [map_append, nodup_append]
      refine ⟨hdistinct.2, by simp, ?_⟩
      intro block hblk other hother heq'
      rw [map_singleton, mem_singleton] at hother
      subst hother heq'; exact hnot.2 hblk
    · intro row hrow
      rcases mem_append.1 hrow with hrow | hrow
      · exact h.recent row (by rw [hlist]; exact mem_cons_of_mem _ hrow)
      · rw [mem_singleton.1 hrow]
    · intro id call hcall
      refine ⟨(h.calls id call hcall).1.frame ?_ (fun _ _ _ _ => ⟨rfl, rfl⟩) hsub,
        (h.calls id call hcall).2⟩
      intro chan state hst; exact ⟨state, hst, rfl⟩
    · intro chan state hst
      exact ⟨(h.channels chan state hst).1.mono hsub, (h.channels chan state hst).2⟩
    · intro call block hclm
      have hclm' : .claimed call block ∈ shared.log := by
        rcases mem_cons.1 hclm with hnew | hold
        · cases hnew
        · exact hold
      rcases h.claims call block hclm' with hp | hf | ⟨hc, hr⟩ | hs
      · exact .inl hp
      · exact .inr (.inl (hsub hf))
      · rw [hlist, map_cons, mem_cons] at hr
        rcases hr with rfl | hr
        · exact .inr (.inr (.inr (since_newest hc)))
        · refine .inr (.inr (.inl ⟨hsub hc, ?_⟩))
          rw [map_append]; exact mem_append_left _ hr
      · exact .inr (.inr (.inr (hs.cons _)))

open Shared (withCall)

theorem withCall_calls (work : Working V) (other : Nat) : (withCall work id).calls[other]? =
      if other = id then some work.2 else work.1.calls[other]? :=
  get?_insert_ite _ _ _ _

theorem withCall_self (h : shared.calls[id]? = some call) : withCall (shared, call) id = shared := by
  have heq : shared.calls.insert id call = shared.calls := by
    refine ext fun _ => ?_
    rw [get?_insert_ite]
    split
    · rename_i hid; rw [hid, h]
    · rfl
  unfold withCall; rw [heq]

theorem Shared.keep_withCall (work : Working V) (hash : BlockHash) (value : V) :
    (withCall work id).keep hash value = withCall (work.1.keep hash value, work.2) id := by
  rcases work.1.keep_cases hash value with
    ⟨hmem, heq⟩ | ⟨hnot, hlen, heq⟩ | ⟨hnot, oldest, rest, hlist, hlen, heq⟩
  · rw [heq]
    rcases (withCall work id).keep_cases hash value with ⟨-, heq'⟩ | ⟨hnot', -⟩ | ⟨hnot', -⟩
    · exact heq'
    · exact absurd hmem hnot'
    · exact absurd hmem hnot'
  · rw [heq]
    rcases (withCall work id).keep_cases hash value with
      ⟨hmem', -⟩ | ⟨-, -, heq'⟩ | ⟨-, oldest', rest', hlist', hlen', -⟩
    · exact absurd hmem' hnot
    · exact heq'
    · exact absurd hlen' hlen
  · rw [heq]
    rcases (withCall work id).keep_cases hash value with
      ⟨hmem', -⟩ | ⟨-, hlen', -⟩ | ⟨-, oldest', rest', hlist', -, heq'⟩
    · exact absurd hmem' hnot
    · exact absurd hlen hlen'
    · cases hlist.symm.trans hlist'; exact heq'

variable {call' : Call V}

theorem Kept.relocate (h : Kept right (withCall (shared, call) id))
    (hkept : CallKept right shared id call') (hclaim : call'.claim = call.claim) :
    Kept right (withCall (shared, call') id) where
  bounded := h.bounded
  distinct := h.distinct
  recent := h.recent
  calls other call'' hcall := by
    rw [withCall_calls] at hcall
    have hsame : ∀ (chan : Nat) state, shared.channels[chan]? = some state →
        ∃ state', shared.channels[chan]? = some state' ∧ state'.block = state.block :=
      fun chan state hst => ⟨state, hst, rfl⟩
    split at hcall
    · rename_i heq
      cases hcall
      subst heq
      have hid := (h.calls other call (by rw [withCall_calls, if_pos rfl])).2
      exact ⟨hkept.frame hsame (fun _ _ _ _ => ⟨rfl, rfl⟩) (List.Subset.refl _), hid⟩
    · rename_i hne
      obtain ⟨hkept', hid⟩ := h.calls other call'' (by rw [withCall_calls, if_neg hne]; exact hcall)
      exact ⟨hkept'.frame hsame (fun _ _ _ _ => ⟨rfl, rfl⟩) (List.Subset.refl _), hid⟩
  pending block chan hpend := by
    obtain ⟨state, owner, index, hst, howner, hmem⟩ := h.pending block chan hpend
    rw [withCall_calls] at howner
    split at howner
    · rename_i heq
      cases howner
      exact ⟨state, call', index, hst, by rw [withCall_calls, if_pos heq], hclaim ▸ hmem⟩
    · rename_i hne
      exact ⟨state, owner, index, hst, by rw [withCall_calls, if_neg hne]; exact howner, hmem⟩
  channels := h.channels
  opened := h.opened
  claims := h.claims
  justified := h.justified

theorem Kept.note (h : Kept right shared)
    (hrule : DownloadRule event shared.log) (hnew : ∀ call block, event ≠ .claimed call block) :
    Kept right { shared with log := event :: shared.log } := by
  have hsub : shared.log ⊆ event :: shared.log := subset_cons_self _ _
  refine ⟨h.bounded, h.distinct, h.recent, ?_, h.pending, ?_, h.opened, ?_, ⟨hrule, h.justified⟩⟩
  · intro id call hcall
    refine ⟨(h.calls id call hcall).1.frame ?_ (fun _ _ _ _ => ⟨rfl, rfl⟩) hsub,
      (h.calls id call hcall).2⟩
    intro chan state hst; exact ⟨state, hst, rfl⟩
  · intro chan state hst
    exact ⟨(h.channels chan state hst).1.mono hsub, (h.channels chan state hst).2⟩
  · intro call block hclm
    rcases mem_cons.1 hclm with hnow | hold
    · exact absurd hnow.symm (hnew call block)
    · refine (h.claims call block hold).logged rfl rfl ?_
      intro chan state hp hs hown; exact .inl ⟨chan, state, hp, hs, hown⟩

theorem Kept.release {index channel : Nat} {block : BlockHash}
    {rest : List (Nat × BlockHash × Nat)} {event : Event} {value : Option V}
    {material : List (Option V)} (h : Kept right (withCall (shared, call) id))
    (hclaim : call.claim = (index, block, channel) :: rest)
    (hevent : event = .failed id block ∨ event = .completed id block ∧ block ∈ shared.recent.map fst)
    (hvalue : ∀ v, value = some v → v = right block)
    (hnone : value = none → event = .failed id block) (hlen : material.length = call.hashes.length)
    (hmat : ∀ (i : Nat) v, material[i]? = some (some v) →
      ∃ block, call.hashes[i]? = some block ∧ v = right block) : Kept right (withCall ({ shared with
        pending := shared.pending.erase block
        channels := shared.channels.insert channel ⟨block, id, value, true⟩
        log := event :: shared.log }, { call with claim := rest, material }) id) := by
  obtain ⟨hcall, hid⟩ := h.calls id call (by rw [withCall_calls, if_pos rfl])
  obtain ⟨-, hchannel, hpending⟩ := hcall.claim index block channel (by rw [hclaim]; simp)
  have hchannel : shared.channels[channel]? = some ⟨block, id, none, false⟩ := hchannel
  have hpending : shared.pending[block]? = some channel := hpending
  have hdistinct := hcall.distinct
  rw [hclaim, map_cons, nodup_cons] at hdistinct
  have hsub : shared.log ⊆ event :: shared.log := subset_cons_self _ _
  have hblocks : ∀ (other : Nat) state, shared.channels[other]? = some state → ∃ state',
      (shared.channels.insert channel ⟨block, id, value, true⟩)[other]? = some state' ∧
        state'.block = state.block := by
    intro other state hstate
    rw [get?_insert_ite]
    split
    · rename_i heq
      rw [heq, hchannel] at hstate; cases hstate; exact ⟨_, rfl, rfl⟩
    · exact ⟨state, hstate, rfl⟩
  -- Another claim keeps its block and its channel.
  have hothers : ∀ (block' : BlockHash) (channel' claimant : Nat), block' ≠ block →
      shared.channels[channel']? = some ⟨block', claimant, none, false⟩ →
        (shared.channels.insert channel ⟨block, id, value, true⟩)[channel']? =
          shared.channels[channel']? ∧
        (shared.pending.erase block)[block']? = shared.pending[block']? := by
    intro block' channel' claimant hne hstate
    rw [get?_insert_ite, get?_erase_ite, if_neg hne, if_neg]
    · exact ⟨rfl, rfl⟩
    · intro heq
      rw [heq, hchannel] at hstate; cases hstate; exact hne rfl
  refine ⟨h.bounded, h.distinct, h.recent, ?_, ?_, ?_, ?_, ?_, ⟨?_, h.justified⟩⟩
  · intro other call' hcall'
    rw [withCall_calls] at hcall'
    split at hcall'
    · rename_i heq
      cases hcall'
      subst heq
      refine ⟨⟨hlen, hmat, ?_, ?_, hdistinct.2, ?_⟩, hid⟩
      · intro i ch hmem
        obtain ⟨state, hstate, hblock⟩ := hcall.waiting i ch hmem
        obtain ⟨state', hstate', heq⟩ := hblocks ch state hstate
        exact ⟨state', hstate', heq ▸ hblock⟩
      · intro i block' ch hmem
        obtain ⟨hhash, hstate, hpend⟩ := hcall.claim i block' ch
          (by rw [hclaim]; exact mem_cons_of_mem _ hmem)
        have hne : block' ≠ block := by
          intro heq
          subst heq; exact hdistinct.1 (mem_map.2 ⟨_, hmem, rfl⟩)
        obtain ⟨hsame, hsame'⟩ := hothers block' ch other hne hstate
        exact ⟨hhash, hsame.trans hstate, hsame'.trans hpend⟩
      · intro i hmem
        obtain ⟨block', hhash, hmay⟩ := hcall.abandoned i hmem
        exact ⟨block', hhash, hmay.mono hsub⟩
    · rename_i hne
      obtain ⟨hkept', hid'⟩ := h.calls other call' (by rw [withCall_calls, if_neg hne]; exact hcall')
      refine ⟨hkept'.frame hblocks ?_ hsub, hid'⟩
      intro i block' ch hmem
      obtain ⟨-, hstate, hpend⟩ := hkept'.claim i block' ch hmem
      refine hothers block' ch other ?_ hstate
      intro heq
      subst heq
      cases hpending.symm.trans hpend; cases hchannel.symm.trans hstate; exact hne rfl
  · intro block' ch hpend
    obtain ⟨hne, hpend⟩ := erase_cases hpend
    obtain ⟨state, owner, i, hstate, howner, hmem⟩ := h.pending block' ch hpend
    have hch : ch ≠ channel := by
      intro heq
      subst heq
      cases hchannel.symm.trans hstate
      obtain ⟨hkept', -⟩ := h.calls _ owner howner
      obtain ⟨-, hstate', -⟩ := hkept'.claim i block' ch hmem
      cases hstate.symm.trans hstate'; exact hne rfl
    refine ⟨state, if state.claimant = id then { call with claim := rest, material } else owner, i,
      ?_, ?_, ?_⟩
    · change (shared.channels.insert channel _)[ch]? = _
      rw [get?_insert_ite, if_neg hch]; exact hstate
    · rw [withCall_calls] at howner ⊢
      split
      · rfl
      · rename_i hother; rw [if_neg hother] at howner; exact howner
    · rw [withCall_calls] at howner
      split
      · rename_i hown
        rw [if_pos hown] at howner
        cases howner
        rw [hclaim, mem_cons] at hmem
        rcases hmem with heq | hmem
        · cases heq; exact absurd rfl hne
        · exact hmem
      · exact hmem
  · intro ch state hstate
    rcases insert_cases hstate with ⟨heq, rfl⟩ | ⟨-, hstate⟩
    · obtain ⟨hold, hlt⟩ := h.channels channel _ hchannel
      refine ⟨⟨hsub hold.claimed, hvalue, ?_⟩, heq ▸ hlt⟩
      intro hv _; rw [hnone hv]; exact mem_cons_self
    · obtain ⟨hold, hlt⟩ := h.channels ch state hstate; exact ⟨hold.mono hsub, hlt⟩
  · intro ch state hstate hopen
    rcases insert_cases hstate with ⟨-, rfl⟩ | ⟨hne, hstate⟩
    · cases hopen
    · have hpend : shared.pending[state.block]? = some ch := h.opened ch state hstate hopen
      change (shared.pending.erase block)[state.block]? = _
      rw [get?_erase_ite, if_neg]
      · exact hpend
      · intro heq
        rw [heq, hpending] at hpend; cases hpend; exact hne rfl
  · intro caller block' hclm
    have hclm' : .claimed caller block' ∈ shared.log := by
      rcases mem_cons.1 hclm with hnow | hold
      · rcases hevent with heq | ⟨heq, -⟩
        · rw [heq] at hnow; cases hnow
        · rw [heq] at hnow; cases hnow
      · exact hold
    refine (h.claims caller block' hclm').logged rfl rfl ?_
    intro ch state hp hs hown
    by_cases hsame : block' = block
    · subst hsame
      cases hpending.symm.trans hp
      cases hchannel.symm.trans hs
      subst hown
      rcases hevent with heq | ⟨heq, hrec⟩
      · exact .inr (.inl (by rw [heq]; exact mem_cons_self))
      · exact .inr (.inr (.inl ⟨by rw [heq]; exact mem_cons_self, hrec⟩))
    · refine .inl ⟨ch, state, ?_, ?_, hown⟩
      · change (shared.pending.erase block)[block']? = _
        rw [get?_erase_ite, if_neg hsame]; exact hp
      · change (shared.channels.insert channel _)[ch]? = _
        rw [get?_insert_ite, if_neg]
        · exact hs
        · intro heq
          subst heq
          obtain ⟨state', owner, i, hstate', howner, hmem⟩ := h.pending block' ch hp
          cases hchannel.symm.trans hstate'
          obtain ⟨hkept', -⟩ := h.calls _ owner howner
          obtain ⟨-, hstate'', -⟩ := hkept'.claim i block' ch hmem
          cases hchannel.symm.trans hstate''; exact hsame rfl
  · rcases hevent with rfl | ⟨rfl, -⟩
    · trivial
    · trivial

theorem Kept.claim {index : Nat} {block : BlockHash} (h : Kept right (withCall (shared, call) id))
    (hpending : shared.pending[block]? = none) (hrec : block ∉ shared.recent.map fst)
    (hidx : call.hashes[index]? = some block) : Kept right (withCall ({ shared with
        pending := shared.pending.insert block shared.nextChannel
        channels := shared.channels.insert shared.nextChannel ⟨block, id, none, false⟩
        nextChannel := shared.nextChannel + 1
        log := .claimed id block :: shared.log },
      { call with claim := call.claim ++ [(index, block, shared.nextChannel)] }) id) := by
  obtain ⟨hcall, hid⟩ := h.calls id call (by rw [withCall_calls, if_pos rfl])
  have hsub : shared.log ⊆ .claimed id block :: shared.log := subset_cons_self _ _
  have hfresh : ∀ (chan : Nat) state, shared.channels[chan]? = some state →
      chan ≠ shared.nextChannel := by
    intro chan state hst; exact Nat.ne_of_lt (h.channels chan state hst).2
  have hother : ∀ (chan : Nat) state, shared.channels[chan]? = some state →
      (shared.channels.insert shared.nextChannel ⟨block, id, none, false⟩)[chan]? = some state := by
    intro chan state hst
    rw [get?_insert_ite, if_neg (hfresh chan state hst)]; exact hst
  have hpend : ∀ (block' : BlockHash) (chan : Nat), shared.pending[block']? = some chan →
      (shared.pending.insert block shared.nextChannel)[block']? = some chan := by
    intro block' chan hp
    rw [get?_insert_ite, if_neg]
    · exact hp
    · intro heq; rw [heq, hpending] at hp; cases hp
  refine ⟨h.bounded, h.distinct, h.recent, ?_, ?_, ?_, ?_, ?_, ⟨?_, h.justified⟩⟩
  · intro other call' hcall'
    have hfrm : ∀ (chan : Nat) state, shared.channels[chan]? = some state → ∃ state',
        (shared.channels.insert shared.nextChannel ⟨block, id, none, false⟩)[chan]? =
          some state' ∧ state'.block = state.block :=
      fun chan state hst => ⟨state, hother chan state hst, rfl⟩
    rw [withCall_calls] at hcall'
    split at hcall'
    · rename_i heq
      cases hcall'
      subst heq
      refine ⟨⟨hcall.length, hcall.material, ?_, ?_, ?_, ?_⟩, hid⟩
      · intro i ch hmem
        obtain ⟨state, hst, hblock⟩ := hcall.waiting i ch hmem
        exact ⟨state, hother ch state hst, hblock⟩
      · intro i block' ch hmem
        rcases mem_append.1 hmem with hmem | hmem
        · obtain ⟨hhash, hst, hp⟩ := hcall.claim i block' ch hmem
          exact ⟨hhash, hother ch _ hst, hpend block' ch hp⟩
        · cases mem_singleton.1 hmem
          exact ⟨hidx, getElem?_insert_self _ _ _, getElem?_insert_self _ _ _⟩
      · rw [map_append, nodup_append]
        refine ⟨hcall.distinct, by simp, ?_⟩
        intro block' hmem _ hlast heq
        rw [map_singleton, mem_singleton] at hlast
        subst heq hlast
        obtain ⟨⟨i, _, ch⟩, hmem', rfl⟩ := mem_map.1 hmem
        have hp : shared.pending[_]? = some ch := (hcall.claim i _ ch hmem').2.2
        rw [hpending] at hp; cases hp
      · intro i hmem
        obtain ⟨block', hhash, hmay⟩ := hcall.abandoned i hmem
        exact ⟨block', hhash, hmay.mono hsub⟩
    · rename_i hne
      obtain ⟨hkept', hid'⟩ := h.calls other call' (by rw [withCall_calls, if_neg hne]; exact hcall')
      refine ⟨hkept'.frame hfrm ?_ hsub, hid'⟩
      intro i block' ch hmem
      obtain ⟨-, hst, hp⟩ := hkept'.claim i block' ch hmem
      exact ⟨(hother ch _ hst).trans hst.symm, (hpend block' ch hp).trans hp.symm⟩
  · intro block' ch hp
    rcases insert_cases hp with ⟨rfl, rfl⟩ | ⟨-, hp⟩
    · exact ⟨_, _, index, getElem?_insert_self _ _ _, by rw [withCall_calls, if_pos rfl], by simp⟩
    · obtain ⟨state, owner, i, hst, howner, hmem⟩ := h.pending block' ch hp
      rw [withCall_calls] at howner
      split at howner
      · rename_i hown
        cases howner
        exact ⟨state, _, i, hother ch state hst, by rw [withCall_calls, if_pos hown],
          mem_append_left _ hmem⟩
      · rename_i hown
        exact ⟨state, owner, i, hother ch state hst,
          by rw [withCall_calls, if_neg hown]; exact howner, hmem⟩
  · intro ch state hst
    rcases insert_cases hst with ⟨heq, rfl⟩ | ⟨-, hst⟩
    · refine ⟨⟨mem_cons_self, ?_, ?_⟩, by rw [heq]; exact Nat.lt_succ_self _⟩
      · intro _ hv; cases hv
      · intro _ hclosed; cases hclosed
    · obtain ⟨hold, hlt⟩ := h.channels ch state hst
      exact ⟨hold.mono hsub, Nat.lt_succ_of_lt hlt⟩
  · intro ch state hst hopen
    rcases insert_cases hst with ⟨heq, rfl⟩ | ⟨-, hst⟩
    · rw [heq]; exact getElem?_insert_self _ _ _
    · exact hpend state.block ch (h.opened ch state hst hopen)
  · intro caller block' hclm
    rcases mem_cons.1 hclm with hnow | hold
    · cases hnow; exact .inl ⟨_, _, getElem?_insert_self _ _ _, getElem?_insert_self _ _ _, rfl⟩
    · refine (h.claims caller block' hold).logged rfl rfl ?_
      intro ch state hp hs hown
      exact .inl ⟨ch, state, hpend block' ch hp, hother ch state hs, hown⟩
  · intro caller hold
    rcases h.claims caller block hold with ⟨ch, state, hp, hs, hown⟩ | hf | ⟨_, hr⟩ | hs
    · have hp : shared.pending[block]? = some ch := hp; rw [hpending] at hp; cases hp
    · exact .inl hf
    · exact absurd hr hrec
    · exact .inr hs

variable {index count : Nat}

theorem covered_set {value : V} (h : Covered call count)
    (hmat : call'.material = call.material.set index (some value))
    (hlen : index < call.material.length)
    (hkeeps : ∀ i, i ≠ index → ((∃ channel, (i, channel) ∈ call.waiting) ∨
        (∃ block channel, (i, block, channel) ∈ call.claim) ∨ i ∈ call.abandoned) →
      (∃ channel, (i, channel) ∈ call'.waiting) ∨
        (∃ block channel, (i, block, channel) ∈ call'.claim) ∨ i ∈ call'.abandoned) :
    Covered call' count := by
  intro i hi
  rw [hmat]
  by_cases heq : i = index
  · subst heq; exact .inl ⟨value, by rw [getElem?_set_self hlen]⟩
  · rcases h i hi with ⟨v, hv⟩ | hother
    · exact .inl ⟨v, by rw [getElem?_set_ne (Ne.symm heq)]; exact hv⟩
    · exact .inr (hkeeps i heq hother)

theorem material_set (h : CallKept right shared id call) (hidx : call.hashes[index]? = some block) :
    ∀ (i : Nat) v, (call.material.set index (some (right block)))[i]? = some (some v) →
      ∃ block, call.hashes[i]? = some block ∧ v = right block := by
  intro i v hv
  by_cases heq : index = i
  · subst heq
    rw [getElem?_set] at hv
    simp only [↓reduceIte] at hv
    split at hv
    · cases hv; exact ⟨block, hidx, rfl⟩
    · cases hv
  · rw [getElem?_set_ne heq] at hv; exact h.material i v hv

theorem index_lt (h : CallKept right shared id call)
    (hidx : call.hashes[index]? = some block) : index < call.material.length := by
  rw [h.length]; exact (List.getElem?_eq_some_iff.1 hidx).1

variable {working : Working V}

theorem Kept.own (h : Kept right (withCall working id)) : CallKept right working.1 id working.2 := by
  obtain ⟨hkept, -⟩ := h.calls id working.2 (by rw [withCall_calls, if_pos rfl])
  exact hkept.frame (fun _ state hst => ⟨state, hst, rfl⟩)
    (fun _ _ _ _ => ⟨rfl, rfl⟩) (List.Subset.refl _)

theorem look_kept (h : Kept right (withCall working id)) (hcov : Covered working.2 index)
    (hidx : working.2.hashes[index]? = some block) :
    Kept right (withCall (look id working (block, index)) id) ∧
      Covered (look id working (block, index)).2 (index + 1) ∧
      (look id working (block, index)).2.hashes = working.2.hashes ∧
      (look id working (block, index)).2.abandoned = working.2.abandoned := by
  have hown := h.own
  unfold look
  cases hfind : working.1.recent.find? (·.1 == block) with
  | some kept =>
    have hblock : kept.1 = block := by simpa using find?_some hfind
    have hval : kept.2 = right block := by
      rw [← hblock]; exact h.recent kept (mem_of_find?_eq_some hfind)
    refine ⟨?_, ?_, rfl, rfl⟩
    · refine h.relocate ⟨?_, ?_, hown.waiting, hown.claim, hown.distinct, hown.abandoned⟩ rfl
      · rw [length_set]; exact hown.length
      · rw [hval]; exact material_set hown hidx
    · intro i hi
      by_cases heq : i = index
      · subst heq; exact .inl ⟨kept.2, by rw [getElem?_set_self (index_lt hown hidx)]⟩
      · have hset : Covered { working.2 with
            material := working.2.material.set index (some kept.2) } index :=
          covered_set hcov rfl (index_lt hown hidx) fun _ _ hother => hother
        exact hset i (by omega)
  | none =>
    have hrec : block ∉ working.1.recent.map fst := by
      intro hmem
      obtain ⟨row, hrow, heq⟩ := mem_map.1 hmem
      have hno := find?_eq_none.1 hfind row hrow; simp [heq] at hno
    cases hpend : working.1.pending[block]? with
    | some channel =>
      refine ⟨?_, ?_, rfl, rfl⟩
      · refine h.relocate
          ⟨hown.length, hown.material, ?_, hown.claim, hown.distinct, hown.abandoned⟩ rfl
        intro i ch hmem
        rcases mem_append.1 hmem with hmem | hmem
        · exact hown.waiting i ch hmem
        · cases mem_singleton.1 hmem
          obtain ⟨state, owner, i, hstate, howner, hclaim⟩ := h.pending block channel hpend
          obtain ⟨-, hstate', -⟩ := (h.calls _ owner howner).1.claim i block channel hclaim
          have hblock := congrArg Channel.block (some.inj (hstate.symm.trans hstate'))
          exact ⟨state, hstate, hblock ▸ hidx⟩
      · intro i hi
        by_cases heq : i = index
        · subst heq; exact .inr (.inl ⟨channel, by simp⟩)
        · rcases hcov i (by omega) with hm | ⟨ch, hw⟩ | hrest
          · exact .inl hm
          · exact .inr (.inl ⟨ch, mem_append_left _ hw⟩)
          · exact .inr (.inr hrest)
    | none =>
      refine ⟨h.claim hpend hrec hidx, ?_, rfl, rfl⟩
      intro i hi
      by_cases heq : i = index
      · subst heq; exact .inr (.inr (.inl ⟨block, working.1.nextChannel, by simp⟩))
      · rcases hcov i (by omega) with hm | hw | ⟨b, ch, hc⟩ | ha
        · exact .inl hm
        · exact .inr (.inl hw)
        · exact .inr (.inr (.inl ⟨b, ch, mem_append_left _ hc⟩))
        · exact .inr (.inr (.inr ha))

theorem look_all_kept : ∀ (rest : List BlockHash) (index : Nat) {work : Working V},
    Kept right (withCall work id) → Covered work.2 index → work.2.hashes.drop index = rest →
      Kept right (withCall ((rest.zipIdx index).foldl (look id) work) id) ∧
      Covered ((rest.zipIdx index).foldl (look id) work).2 work.2.hashes.length ∧
      ((rest.zipIdx index).foldl (look id) work).2.hashes = work.2.hashes ∧
      ((rest.zipIdx index).foldl (look id) work).2.abandoned = work.2.abandoned := by
  intro rest
  induction rest with
  | nil =>
    intro index work h hcov hdrop
    have hle := drop_eq_nil_iff.1 hdrop; exact ⟨h, fun i _ => hcov i (by omega), rfl, rfl⟩
  | cons block rest ih =>
    intro index work h hcov hdrop
    have hidx : work.2.hashes[index]? = some block := by
      rw [← head?_drop, hdrop]; rfl
    obtain ⟨hkept, hcov', hhashes, habn⟩ := look_kept h hcov hidx
    have hdrop' : (look id work (block, index)).2.hashes.drop (index + 1) = rest := by
      rw [hhashes, ← drop_drop, hdrop]; rfl
    obtain ⟨hkept', hcov'', hhashes', habn'⟩ := ih (index + 1) hkept hcov' hdrop'
    rw [hhashes] at hcov''; exact ⟨hkept', hcov'', hhashes'.trans hhashes, habn'.trans habn⟩

variable {channel : Nat} {rest : List (Nat × BlockHash × Nat)}

theorem completeOne_kept (h : Kept right (withCall working id)) (hclaim : working.2.claim =
    (index, block, channel) :: rest) (hcov : Covered working.2 working.2.hashes.length) :
    Kept right (withCall (completeOne id working ((index, block, channel), right block)) id) ∧
    (completeOne id working ((index, block, channel), right block)).2 = { working.2 with
        claim := rest, material := working.2.material.set index (some (right block)) } ∧
      Covered (completeOne id working ((index, block, channel), right block)).2
        working.2.hashes.length := by
  have hown := h.own
  have hindex := (hown.claim index block channel (by rw [hclaim]; simp)).1
  have hlocals : (completeOne id working ((index, block, channel), right block)).2 = { working.2 with
        claim := rest, material := working.2.material.set index (some (right block)) } := by
    unfold completeOne; rw [hclaim]; rfl
  refine ⟨?_, hlocals, ?_⟩
  · obtain ⟨hkeep, hrec⟩ := @Kept.keep _ right _ h block
    rw [Shared.keep_withCall] at hkeep hrec
    have hend := @Kept.release _ right _ id _ index channel block rest (.completed id block)
      (some (right block)) (working.2.material.set index (some (right block))) hkeep hclaim
      (.inr ⟨rfl, hrec⟩) (fun _ hv => (some.inj hv).symm) (fun hnone => by cases hnone)
      (by rw [length_set]; exact hown.length) (material_set hown hindex)
    have hworking : completeOne id working ((index, block, channel), right block) =
        ((completeOne id working ((index, block, channel), right block)).1, { working.2 with
          claim := rest, material := working.2.material.set index (some (right block)) }) :=
      Prod.ext rfl hlocals
    rw [hworking]; exact hend
  · rw [hlocals]
    refine covered_set hcov rfl (index_lt hown hindex) ?_
    intro _ hne hother
    rcases hother with hw | ⟨b, ch, hmem⟩ | ha
    · exact .inl hw
    · rw [hclaim, mem_cons] at hmem
      rcases hmem with heq | hmem
      · cases heq; exact absurd rfl hne
      · exact .inr (.inl ⟨b, ch, hmem⟩)
    · exact .inr (.inr ha)

theorem completeAll_kept : ∀ (claim : List (Nat × BlockHash × Nat)) {work : Working V},
    Kept right (withCall work id) → work.2.claim = claim → Covered work.2 work.2.hashes.length →
      Kept right (withCall ((claim.zip (claim.map fun block => right block.2.1)).foldl
        (completeOne id) work) id) ∧
      ((claim.zip (claim.map fun block => right block.2.1)).foldl
        (completeOne id) work).2.claim = [] ∧
      Covered ((claim.zip (claim.map fun block => right block.2.1)).foldl
        (completeOne id) work).2 ((claim.zip (claim.map fun block => right block.2.1)).foldl
          (completeOne id) work).2.hashes.length := by
  intro claim
  induction claim with
  | nil =>
    intro work h hclaim hcov; exact ⟨h, hclaim, hcov⟩
  | cons block rest ih =>
    intro work h hclaim hcov
    obtain ⟨hkept, hlocals, hcov'⟩ := completeOne_kept h hclaim hcov
    refine ih hkept (by rw [hlocals]) ?_
    rw [hlocals] at hcov' ⊢; exact hcov'

theorem handBackOne_kept (h : Kept right (withCall working id))
    (hclaim : working.2.claim = (index, block, channel) :: rest) :
    Kept right (withCall (handBackOne id working (index, block, channel)) id) ∧
      (handBackOne id working (index, block, channel)).2 = { working.2 with claim := rest } := by
  have hown := h.own
  have hlocals : (handBackOne id working (index, block, channel)).2 =
      { working.2 with claim := rest } := by
    unfold handBackOne; rw [hclaim]; rfl
  refine ⟨?_, hlocals⟩
  have hend := @Kept.release _ right working.1 id working.2 index channel block rest
    (.failed id block) none working.2.material h hclaim (.inl rfl) (fun _ hv => by cases hv)
    (fun _ => rfl) hown.length hown.material
  have hworking : handBackOne id working (index, block, channel) =
      ((handBackOne id working (index, block, channel)).1, { working.2 with claim := rest }) :=
    Prod.ext rfl hlocals
  rw [hworking]; exact hend

theorem handBack_kept {work : Working V} {phase : Phase V} (h : Kept right (withCall work id)) :
    Kept right (withCall (handBack id work phase) id) ∧
      (handBack id work phase).2.claim = [] ∧ (handBack id work phase).2.phase = phase := by
  -- Claims are handed back one after the other.
  have hfold : ∀ (claim : List (Nat × BlockHash × Nat)) {work : Working V},
      Kept right (withCall work id) → work.2.claim = claim →
        Kept right (withCall (claim.foldl (handBackOne id) work) id) ∧
          (claim.foldl (handBackOne id) work).2.claim = [] ∧
          (claim.foldl (handBackOne id) work).2.phase = work.2.phase := by
    intro claim
    induction claim with
    | nil =>
      intro work h hclaim; exact ⟨h, hclaim, rfl⟩
    | cons block rest ih =>
      intro work h hclaim
      obtain ⟨hkept, hlocals⟩ := handBackOne_kept h hclaim
      obtain ⟨hkept', hclaim', hphase⟩ := ih hkept (by rw [hlocals])
      exact ⟨hkept', hclaim', hphase.trans (by rw [hlocals])⟩
  have hown := h.own
  exact @hfold work.2.claim (work.1, { work.2 with phase })
    (h.relocate ⟨hown.length, hown.material, hown.waiting, hown.claim, hown.distinct,
      hown.abandoned⟩ rfl) rfl

theorem keepOne_kept {rest : List Nat} (h : Kept right (withCall working id))
    (habn : working.2.abandoned = index :: rest) (hcov : Covered working.2 working.2.hashes.length) :
    Kept right (withCall (keepOne working (index, right (working.2.hashes.getD index zero))) id) ∧
    (keepOne working (index, right (working.2.hashes.getD index zero))).2 = { working.2 with
          abandoned := rest
          material := working.2.material.set index (some (right (working.2.hashes.getD index zero))) } ∧
      Covered (keepOne working (index, right (working.2.hashes.getD index zero))).2
        working.2.hashes.length := by
  have hown := h.own
  obtain ⟨block, hindex, -⟩ := hown.abandoned index (by rw [habn]; simp)
  have hget : working.2.hashes.getD index zero = block := by
    rw [getD_eq_getElem?_getD, hindex]; rfl
  rw [hget]
  have hlocals : (keepOne working (index, right block)).2 = { working.2 with
      abandoned := rest
      material := working.2.material.set index (some (right block)) } := by
    unfold keepOne; rw [habn]; rfl
  refine ⟨?_, hlocals, ?_⟩
  · obtain ⟨hkeep, -⟩ := @Kept.keep _ right _ h block
    rw [Shared.keep_withCall] at hkeep
    have hown' := hkeep.own
    have hworking : keepOne working (index, right block) =
        (working.1.keep block (right block), { working.2 with
          abandoned := rest
          material := working.2.material.set index (some (right block)) }) := by
      refine Prod.ext ?_ hlocals
      unfold keepOne; rw [hget]
    rw [hworking]
    refine hkeep.relocate ⟨?_, material_set hown hindex, hown'.waiting, hown'.claim,
      hown'.distinct, ?_⟩ rfl
    · rw [length_set]; exact hown.length
    · intro i hmem; exact hown'.abandoned i (by rw [habn]; exact mem_cons_of_mem _ hmem)
  · rw [hlocals]
    refine covered_set hcov rfl (index_lt hown hindex) ?_
    intro i hne hother
    rcases hother with hw | hc | ha
    · exact .inl hw
    · exact .inr (.inl hc)
    · rw [habn, mem_cons] at ha; exact .inr (.inr (ha.resolve_left hne))

theorem keepAll_kept : ∀ (abandoned : List Nat) {work : Working V}, Kept right (withCall work id) →
    work.2.abandoned = abandoned → Covered work.2 work.2.hashes.length →
    Kept right (withCall ((abandoned.zip (abandoned.map fun index =>
          right (work.2.hashes.getD index zero))).foldl keepOne work) id) ∧
      ((abandoned.zip (abandoned.map fun index =>
          right (work.2.hashes.getD index zero))).foldl keepOne work).2.claim = work.2.claim ∧
      Covered ((abandoned.zip (abandoned.map fun index =>
          right (work.2.hashes.getD index zero))).foldl keepOne work).2
        ((abandoned.zip (abandoned.map fun index =>
          right (work.2.hashes.getD index zero))).foldl keepOne work).2.hashes.length := by
  intro abandoned
  induction abandoned with
  | nil =>
    intro work h habn hcov; exact ⟨h, rfl, hcov⟩
  | cons index rest ih =>
    intro work h habn hcov
    obtain ⟨hkept, hlocals, _⟩ := keepOne_kept h habn hcov
    have hhashes : (keepOne work (index,
        right (work.2.hashes.getD index zero))).2.hashes = work.2.hashes := by
      rw [hlocals]
    obtain ⟨hkept', hclaim', hcov''⟩ := ih hkept (by rw [hlocals]) (by rwa [hhashes])
    rw [hhashes] at hkept' hclaim' hcov''; exact ⟨hkept', hclaim'.trans (by rw [hlocals]), hcov''⟩

theorem finished_eq (hkept : CallKept right shared id call)
    (hcov : Covered call call.hashes.length) (hwait : call.waiting = []) (hclaim : call.claim = [])
    (habn : call.abandoned = []) : finished call = .returned (.ok (call.hashes.map right)) := by
  have hmat : call.material = (call.hashes.map right).map some := by
    refine ext_getElem? fun i => ?_
    by_cases hi : i < call.hashes.length
    · rcases hcov i hi with ⟨v, hv⟩ | ⟨ch, hw⟩ | ⟨_, ch, hc⟩ | ha
      · obtain ⟨_, hblock, rfl⟩ := hkept.material i v hv
        rw [hv, getElem?_map, getElem?_map, hblock]; rfl
      · rw [hwait] at hw; cases hw
      · rw [hclaim] at hc; cases hc
      · rw [habn] at ha; cases ha
    · rw [getElem?_eq_none (by rw [hkept.length]; omega), getElem?_eq_none (by simp; omega)]
  have hsome : ∀ vals : List V, (vals.map some).mapM (fun v : Option V => v) = some vals := by
    intro vals
    induction vals with
    | nil => rfl
    | cons v rest ih => simp [ih]
  unfold finished
  rw [hmat]
  change (match ((call.hashes.map right).map some).mapM (fun v : Option V => v) with
    | some vals => Phase.returned (.ok vals)
    | none => .panicked) = _
  rw [hsome]

theorem proceed_kept (h : Kept right (withCall working id))
    (hcov : Covered working.2 working.2.hashes.length) (hclaim : working.2.claim = []) :
    Kept right (withCall (proceed id working) id) ∧ PhaseKept right (proceed id working).2 := by
  have hown := h.own
  unfold proceed
  by_cases hwait : working.2.waiting = []
  · rw [if_neg (by simpa using hwait)]
    by_cases habn : working.2.abandoned = []
    · rw [if_neg (by simpa using habn)]
      refine ⟨h.relocate ⟨hown.length, hown.material, hown.waiting, hown.claim, hown.distinct,
        hown.abandoned⟩ rfl, ?_⟩
      rw [finished_eq hown hcov hwait hclaim habn]; exact ⟨rfl, hclaim⟩
    · rw [if_pos habn]
      refine ⟨?_, hcov, hclaim, hwait⟩
      -- Every abandoned block may be downloaded again.
      have hnotes : ∀ indices : List Nat, (∀ index ∈ indices, index ∈ working.2.abandoned) →
          Kept right (withCall ({ working.1 with
            log := indices.map (fun index => .again id (working.2.hashes.getD index
              zero)) ++ working.1.log }, working.2) id) := by
        intro indices
        induction indices with
        | nil =>
          intro _; exact h
        | cons index rest ih =>
          intro hall
          refine (ih (forall_mem_cons.1 hall).2).note ?_ (fun _ _ heq => by cases heq)
          obtain ⟨block, hblock, hmay⟩ := hown.abandoned index (hall index mem_cons_self)
          have hget : working.2.hashes.getD index zero = block := by
            rw [getD_eq_getElem?_getD, hblock]; rfl
          change MayDownload (_ ++ working.1.log) id (working.2.hashes.getD index zero)
          rw [hget]; exact hmay.mono (subset_append_right _ _)
      have hlogged := hnotes working.2.abandoned fun _ hi => hi
      have hown' := hlogged.own
      exact hlogged.relocate ⟨hown'.length, hown'.material, hown'.waiting, hown'.claim,
        hown'.distinct, hown'.abandoned⟩ rfl
  · rw [if_pos hwait]
    exact ⟨h.relocate ⟨hown.length, hown.material, hown.waiting, hown.claim, hown.distinct,
      hown.abandoned⟩ rfl, hcov, hclaim⟩

theorem Kept.fresh (h : Kept right shared) (hashes : List BlockHash) :
    Kept right (withCall ({ shared with nextCall := shared.nextCall + 1 },
      ⟨hashes, replicate hashes.length none, [], [], [], .locked⟩) shared.nextCall) := by
  refine ⟨h.bounded, h.distinct, h.recent, ?_, ?_, h.channels, h.opened, h.claims, h.justified⟩
  · intro other call hcall
    rw [withCall_calls] at hcall
    split at hcall
    · rename_i heq
      cases hcall
      rw [heq]
      refine ⟨⟨by simp, ?_, by simp, by simp, by simp, by simp⟩, Nat.lt_succ_self _⟩
      intro _ _ hv
      rw [getElem?_replicate] at hv
      split at hv <;> cases hv
    · obtain ⟨hkept, hlt⟩ := h.calls other call hcall
      refine ⟨hkept.frame (fun chan state hst => ⟨state, hst, rfl⟩)
        (fun _ _ _ _ => ⟨rfl, rfl⟩) (List.Subset.refl _), Nat.lt_succ_of_lt hlt⟩
  · intro block chan hpend
    obtain ⟨state, owner, index, hst, howner, hmem⟩ := h.pending block chan hpend
    refine ⟨state, owner, index, hst, ?_, hmem⟩
    rw [withCall_calls, if_neg (Nat.ne_of_lt (h.calls _ owner howner).2)]; exact howner

theorem enter_kept (h : Kept right shared) (hashes : List BlockHash) :
    Kept right (withCall (enter shared hashes) shared.nextCall) ∧
      PhaseKept right (enter shared hashes).2 := by
  obtain ⟨hkept, hcov, hhashes, habn⟩ := look_all_kept hashes 0 (h.fresh hashes)
    (fun i hi => absurd hi (Nat.not_lt_zero i)) rfl
  have hown := hkept.own
  unfold enter
  by_cases hclaim : ((hashes.zipIdx).foldl (look shared.nextCall)
      ({ shared with nextCall := shared.nextCall + 1 },
        ⟨hashes, replicate hashes.length none, [], [], [], .locked⟩)).2.claim = []
  · rw [if_neg (by simpa using hclaim)]
    refine proceed_kept hkept ?_ hclaim
    rw [hhashes]; exact hcov
  · rw [if_pos hclaim]
    refine ⟨hkept.relocate ⟨hown.length, hown.material, hown.waiting, hown.claim, hown.distinct,
      hown.abandoned⟩ rfl, ?_, habn⟩
    rw [hhashes]; exact hcov

variable {download : Download V}

theorem downloaded_kept (h : Kept right (withCall working id)) (hphase : working.2.phase = .downloading)
    (hcov : Covered working.2 working.2.hashes.length)
    (hpossible : download.possible (asked working.2) = true) :
    Kept right (withCall (downloaded id working (download.result right (asked working.2))) id) ∧
      PhaseKept right (downloaded id working (download.result right (asked working.2))).2 := by
  have hasked : asked working.2 = working.2.claim.map fun block => block.2.1 := by
    unfold asked; rw [hphase]
  have herror : ∀ error : P2pError,
      Kept right (withCall (handBack id working (.returned (.error error))) id) ∧
        PhaseKept right (handBack id working (.returned (.error error))).2 := by
    intro error
    obtain ⟨hkept, hclaim, hend⟩ := @handBack_kept _ right id _ (.returned (.error error)) h
    refine ⟨hkept, ?_⟩
    unfold PhaseKept; rw [hend]; exact hclaim
  unfold downloaded
  cases download with
  | failed message => exact herror _
  | incomplete values =>
    have hlen : values.length ≠ working.2.claim.length := by
      simpa [Download.possible, hasked] using hpossible
    dsimp only [Download.result]; rw [if_pos hlen]; exact herror _
  | complete =>
    dsimp only [Download.result]
    rw [hasked, if_neg (by simp), List.map_map]
    obtain ⟨hkept, hclaim, hcov'⟩ := completeAll_kept working.2.claim h rfl hcov
    exact proceed_kept hkept hcov' hclaim

theorem downloadedAgain_kept (h : Kept right (withCall working id))
    (hphase : working.2.phase = .downloadingAgain) (hcov : Covered working.2 working.2.hashes.length)
    (hclaim : working.2.claim = []) (hpossible : download.possible (asked working.2) = true) :
    Kept right (withCall (downloadedAgain id working (download.result right (asked working.2))) id) ∧
    PhaseKept right (downloadedAgain id working (download.result right (asked working.2))).2 := by
  have hasked : asked working.2 = working.2.abandoned.map fun index =>
      working.2.hashes.getD index zero := by
    unfold asked; rw [hphase]
  have hown := h.own
  unfold downloadedAgain
  cases download with
  | failed message =>
    exact ⟨h.relocate ⟨hown.length, hown.material, hown.waiting, hown.claim, hown.distinct,
      hown.abandoned⟩ rfl, hclaim⟩
  | incomplete values =>
    have hlen : values.length ≠ working.2.abandoned.length := by
      simpa [Download.possible, hasked] using hpossible
    dsimp only [Download.result]
    rw [if_pos hlen]
    exact ⟨h.relocate ⟨hown.length, hown.material, hown.waiting, hown.claim, hown.distinct,
      hown.abandoned⟩ rfl, hclaim⟩
  | complete =>
    dsimp only [Download.result]
    rw [hasked, if_neg (by simp), List.map_map]
    obtain ⟨hkept, hclaim', hcov'⟩ := keepAll_kept working.2.abandoned h rfl hcov
    exact proceed_kept hkept hcov' (hclaim'.trans hclaim)

theorem covered_waited {rest : List (Nat × Nat)}
    (h : Covered call count) (hwait : call.waiting = (index, channel) :: rest)
    (hrest : call'.waiting = rest) (hclaim : call'.claim = call.claim)
    (hmat : ∀ (i : Nat) v, call.material[i]? = some (some v) →
      ∃ v, call'.material[i]? = some (some v)) (habn : ∀ i ∈ call.abandoned, i ∈ call'.abandoned)
    (hidx : (∃ v, call'.material[index]? = some (some v)) ∨ index ∈ call'.abandoned) :
    Covered call' count := by
  intro i hi
  rcases h i hi with ⟨v, hv⟩ | ⟨ch, hw⟩ | hc | ha
  · exact .inl (hmat i v hv)
  · rw [hwait, mem_cons] at hw
    rcases hw with heq | hw
    · cases heq; exact hidx.imp id fun ha => .inr (.inr ha)
    · exact .inr (.inl ⟨ch, hrest ▸ hw⟩)
  · exact .inr (.inr (.inl (hclaim ▸ hc)))
  · exact .inr (.inr (.inr (habn i ha)))

theorem abandon_kept {rest : List (Nat × Nat)} (h : Kept right (withCall working id))
    (hwait : working.2.waiting = (index, channel) :: rest)
    (hcov : Covered working.2 working.2.hashes.length) (hclaim : working.2.claim = [])
    (hidx : working.2.hashes[index]? = some block) (hmay : MayDownload working.1.log id block) :
    Kept right (withCall (proceed id (working.1, { working.2 with
        waiting := rest, abandoned := working.2.abandoned ++ [index] })) id) ∧
      PhaseKept right (proceed id (working.1, { working.2 with
        waiting := rest, abandoned := working.2.abandoned ++ [index] })).2 := by
  have hown := h.own
  refine proceed_kept (h.relocate ⟨hown.length, hown.material, ?_, hown.claim, hown.distinct, ?_⟩
    rfl) ?_ hclaim
  · intro i ch hmem; exact hown.waiting i ch (by rw [hwait]; exact mem_cons_of_mem _ hmem)
  · intro i hmem
    rcases mem_append.1 hmem with hmem | hmem
    · exact hown.abandoned i hmem
    · cases mem_singleton.1 hmem; exact ⟨block, hidx, hmay⟩
  · exact covered_waited hcov hwait rfl rfl (fun i v hv => ⟨v, hv⟩)
      (fun i hi => mem_append_left _ hi) (.inr (by simp))

theorem woken_kept {next : Working V} {wake : Wake} (h : Kept right (withCall working id))
    (hcov : Covered working.2 working.2.hashes.length) (hclaim : working.2.claim = [])
    (hwoken : woken id working wake = some next) :
    Kept right (withCall next id) ∧ PhaseKept right next.2 := by
  have hown := h.own
  unfold woken at hwoken
  split at hwoken
  · cases hwoken
  · rename_i index chan rest hwait
    split at hwoken
    · cases hwoken
    · rename_i state hst
      obtain ⟨_, hst', hindex⟩ := hown.waiting index chan (by rw [hwait]; simp)
      cases hst.symm.trans hst'
      obtain ⟨hchannel, -⟩ := h.channels chan state hst
      split at hwoken
      · cases hwoken
        exact ⟨h.relocate ⟨hown.length, hown.material, hown.waiting, hown.claim, hown.distinct,
          hown.abandoned⟩ rfl, hclaim⟩
      · rename_i value hval
        cases hwoken
        rw [hchannel.value value hval]
        refine proceed_kept (h.relocate ⟨?_, material_set hown hindex, ?_, hown.claim,
          hown.distinct, hown.abandoned⟩ rfl) ?_ hclaim
        · rw [length_set]; exact hown.length
        · intro i ch hmem; exact hown.waiting i ch (by rw [hwait]; exact mem_cons_of_mem _ hmem)
        · refine covered_waited hcov hwait rfl rfl ?_ (fun i hi => hi)
            (.inl ⟨_, getElem?_set_self (index_lt hown hindex)⟩)
          intro i v hv
          by_cases heq : index = i
          · subst heq; exact ⟨_, getElem?_set_self (index_lt hown hindex)⟩
          · exact ⟨v, by rw [getElem?_set_ne heq]; exact hv⟩
      · rename_i hval
        split at hwoken
        · rename_i hclosed
          cases hwoken
          exact abandon_kept h hwait hcov hclaim hindex
            ⟨state.claimant, hchannel.claimed, .inl (hchannel.failed hval hclosed)⟩
        · cases hwoken
      · cases hwoken
        have hnoted : Kept right (withCall ({ working.1 with
            log := .stalled id state.claimant state.block :: working.1.log }, working.2) id) :=
          h.note trivial fun _ _ heq => by cases heq
        exact abandon_kept hnoted hwait hcov hclaim hindex
          ⟨state.claimant, mem_cons_of_mem _ hchannel.claimed, .inr mem_cons_self⟩
      · cases hwoken

end

section

variable {right : BlockHash → V} {shared next : Shared V}

open Shared (withCall)

def Phases (right : BlockHash → V) (shared : Shared V) : Prop :=
  ∀ (id : Nat) call, shared.calls[id]? = some call → PhaseKept right call

theorem phases_withCall {work : Working V} {id : Nat} (h : Phases right shared)
    (hcalls : work.1.calls = shared.calls) (hphase : PhaseKept right work.2) :
    Phases right (withCall work id) := by
  intro other call hcall
  rw [withCall_calls] at hcall
  split at hcall
  · cases hcall; exact hphase
  · rw [hcalls] at hcall; exact h other call hcall

theorem Shared.keep_calls (hash : BlockHash) (value : V) :
    (shared.keep hash value).calls = shared.calls := by
  rcases shared.keep_cases hash value with ⟨-, heq⟩ | ⟨-, -, heq⟩ | ⟨-, _, _, -, -, heq⟩
  · rw [heq]
  · rw [heq]
  · rw [heq]

theorem foldl_calls {α : Type} {f : Working V → α → Working V}
    (hf : ∀ work item, (f work item).1.calls = work.1.calls) (items : List α)
    (work : Working V) : (items.foldl f work).1.calls = work.1.calls := by
  induction items generalizing work with
  | nil => rfl
  | cons item rest ih => exact (ih _).trans (hf work item)

theorem proceed_calls (id : Nat) (work : Working V) : (proceed id work).1.calls = work.1.calls := by
  unfold proceed
  split
  · rfl
  · split <;> rfl

theorem handBack_calls (id : Nat) (work : Working V) (phase : Phase V) :
    (handBack id work phase).1.calls = work.1.calls :=
  @foldl_calls V _ (handBackOne id) (fun _ _ => rfl) work.2.claim (work.1, { work.2 with phase })

theorem enter_calls (hashes : List BlockHash) : (enter shared hashes).1.calls = shared.calls := by
  have hlook : ∀ (work : Working V) item,
      (look shared.nextCall work item).1.calls = work.1.calls := by
    intro work item
    unfold look
    split
    · rfl
    · split <;> rfl
  unfold enter
  dsimp only
  split
  · exact foldl_calls hlook _ _
  · exact (proceed_calls _ _).trans (foldl_calls hlook _ _)

theorem downloaded_calls (id : Nat) (work : Working V) (res : Except P2pError (List V)) :
    (downloaded id work res).1.calls = work.1.calls := by
  unfold downloaded
  split
  · exact handBack_calls _ _ _
  · split
    · exact handBack_calls _ _ _
    · exact (proceed_calls _ _).trans (foldl_calls (fun _ _ => Shared.keep_calls _ _) _ _)

theorem downloadedAgain_calls (id : Nat) (work : Working V) (res : Except P2pError (List V)) :
    (downloadedAgain id work res).1.calls = work.1.calls := by
  unfold downloadedAgain
  split
  · rfl
  · split
    · rfl
    · exact (proceed_calls _ _).trans (foldl_calls (fun _ _ => Shared.keep_calls _ _) _ _)

theorem woken_calls {id : Nat} {work work' : Working V} {wake : Wake}
    (h : woken id work wake = some work') : work'.1.calls = work.1.calls := by
  unfold woken at h
  split at h
  · cases h
  · split at h
    · cases h
    · split at h
      · cases h; rfl
      · cases h; exact proceed_calls _ _
      · split at h
        · cases h; exact proceed_calls _ _
        · cases h
      · cases h; exact proceed_calls _ _
      · cases h

theorem kept_step {moment : Moment V} (h : Kept right shared) (hphases : Phases right shared)
    (hstep : shared.step right moment = some next) : Kept right next ∧ Phases right next := by
  cases moment with
  | call hashes =>
    cases hstep
    obtain ⟨hkept, hphase⟩ := enter_kept h hashes
    exact ⟨hkept, phases_withCall hphases (enter_calls hashes) hphase⟩
  | downloaded id download =>
    unfold Shared.step at hstep
    dsimp only at hstep
    split at hstep
    · cases hstep
    · rename_i call hcall
      have hself : Kept right (withCall (shared, call) id) := by
        rw [withCall_self hcall]; exact h
      have hphase := hphases id call hcall
      split at hstep
      · cases hstep
      · rename_i hpossible
        have hpossible : download.possible (asked call) = true := by simpa using hpossible
        unfold PhaseKept at hphase
        split at hstep
        · rename_i hdown
          rw [hdown] at hphase
          cases hstep
          obtain ⟨hkept, hphase'⟩ := downloaded_kept hself hdown hphase.1 hpossible
          exact ⟨hkept, phases_withCall hphases (downloaded_calls _ _ _) hphase'⟩
        · rename_i hagain
          rw [hagain] at hphase
          cases hstep
          obtain ⟨hkept, hphase'⟩ :=
            downloadedAgain_kept hself hagain hphase.1 hphase.2.1 hpossible
          exact ⟨hkept, phases_withCall hphases (downloadedAgain_calls _ _ _) hphase'⟩
        · cases hstep
  | woken id wake =>
    unfold Shared.step at hstep
    dsimp only at hstep
    split at hstep
    · cases hstep
    · rename_i call hcall
      have hself : Kept right (withCall (shared, call) id) := by
        rw [withCall_self hcall]; exact h
      have hphase := hphases id call hcall
      unfold PhaseKept at hphase
      split at hstep
      · rename_i hwait
        rw [hwait] at hphase
        obtain ⟨_, hwoken, rfl⟩ := map_eq_some_iff.1 hstep
        obtain ⟨hkept, hphase'⟩ := woken_kept hself hphase.1 hphase.2 hwoken
        exact ⟨hkept, phases_withCall hphases (woken_calls hwoken) hphase'⟩
      · cases hstep
  | drop id =>
    unfold Shared.step at hstep
    dsimp only at hstep
    split at hstep
    · cases hstep
    · rename_i call hcall
      have hself : Kept right (withCall (shared, call) id) := by
        rw [withCall_self hcall]; exact h
      obtain ⟨hkept, hclaim, hend⟩ := @handBack_kept _ right id (shared, call) .dropped hself
      have hdropped : PhaseKept right (handBack id (shared, call) .dropped).2 := by
        unfold PhaseKept; rw [hend]; exact hclaim
      have hdone := @phases_withCall _ right shared _ id hphases
        (handBack_calls id (shared, call) .dropped) hdropped
      split at hstep
      · cases hstep; exact ⟨hkept, hdone⟩
      · cases hstep; exact ⟨hkept, hdone⟩
      · cases hstep; exact ⟨hkept, hdone⟩
      · cases hstep

theorem kept_empty : Kept right (Shared.empty : Shared V) where
  bounded := Nat.zero_le _
  distinct := nodup_nil
  recent _ h := by cases h
  calls _ _ h := (not_mem_empty h).elim
  pending _ _ h := (not_mem_empty h).elim
  channels _ _ h := (not_mem_empty h).elim
  opened _ _ h := (not_mem_empty h).elim
  claims _ _ h := by cases h
  justified := trivial

variable {moments : List (Moment V)}

theorem kept_run (h : Kept right shared) (hphases : Phases right shared)
    (hrun : shared.run right moments = some next) : Kept right next ∧ Phases right next := by
  induction moments generalizing shared with
  | nil =>
    cases hrun; exact ⟨h, hphases⟩
  | cons moment rest ih =>
    obtain ⟨_, hstep, hrest⟩ := bind_eq_some_iff.1 hrun
    obtain ⟨hkept, hphases'⟩ := kept_step h hphases hstep; exact ih hkept hphases' hrest

theorem downloading_of_claim {id : Nat} {call : Call V} (hphases : Phases right shared)
    (hcall : shared.calls[id]? = some call) (hclaim : call.claim ≠ []) :
    call.phase = .downloading := by
  have hphase := hphases id call hcall
  unfold PhaseKept at hphase
  split at hphase
  · exact hphase.elim
  · assumption
  · exact absurd hphase.2 hclaim
  · exact absurd hphase.2.1 hclaim
  · exact absurd hphase.2 hclaim
  · exact absurd hphase hclaim
  · exact hphase.elim
  · exact absurd hphase hclaim

def WaitsFor (shared : Shared V) (id id' : Nat) : Prop :=
  ∃ call index channel state, shared.calls[id]? = some call ∧ call.phase = .waiting ∧
    (index, channel) ∈ call.waiting ∧ shared.channels[channel]? = some state ∧
    state.closed = false ∧ state.claimant = id'

/-- In every interleaving, a call that succeeds returns the material of its hashes in their order;
the pending map holds the hashes of the live claims, each of one call; a block is downloaded again
only by the rule; the recent list is short and has no duplicates; and a call that is waited for
waits for none. -/
theorem material_is_shared (hrun : (Shared.empty : Shared V).run right moments = some shared) :
    (∀ (id : Nat) call, shared.calls[id]? = some call → call.phase ≠ .panicked ∧
      ∀ values, call.phase = .returned (.ok values) → values = call.hashes.map right) ∧
    (∀ block : BlockHash, block ∈ shared.pending ↔ ∃ (id : Nat) (call : Call V),
      shared.calls[id]? = some call ∧ call.phase = .downloading ∧
        block ∈ call.claim.map fun claimed => claimed.2.1) ∧
    (∀ (id id' : Nat) (call call' : Call V) block,
      shared.calls[id]? = some call → shared.calls[id']? = some call' →
      block ∈ (call.claim.map fun claimed => claimed.2.1) →
      block ∈ (call'.claim.map fun claimed => claimed.2.1) → id = id') ∧
    (∀ later event earlier, shared.log = later ++ event :: earlier → DownloadRule event earlier) ∧
    (shared.recent.length ≤ recentBlocks ∧ (shared.recent.map Prod.fst).Nodup) ∧
    (∀ id id' id'', WaitsFor shared id id' → ¬ WaitsFor shared id' id'') := by
  obtain ⟨h, hphases⟩ := kept_run kept_empty (fun _ _ hcall => (not_mem_empty hcall).elim) hrun
  refine ⟨?_, ?_, ?_, ?_, ⟨h.bounded, h.distinct⟩, ?_⟩
  · intro id call hcall
    have hphase := hphases id call hcall
    unfold PhaseKept at hphase
    constructor
    · intro hpanicked; rw [hpanicked] at hphase; exact hphase
    · intro values hvalues; rw [hvalues] at hphase; exact hphase.1
  · intro block
    constructor
    · intro hmem
      obtain ⟨channel, hpending⟩ : ∃ channel, shared.pending[block]? = some channel :=
        ⟨_, Std.ExtTreeMap.getElem?_eq_some_getElem hmem⟩
      obtain ⟨state, call, index, -, hcall, hclaim⟩ := h.pending block channel hpending
      exact ⟨_, call, hcall, downloading_of_claim hphases hcall (ne_nil_of_mem hclaim),
        mem_map.2 ⟨_, hclaim, rfl⟩⟩
    · rintro ⟨id, call, hcall, -, hmem⟩
      obtain ⟨⟨index, _, channel⟩, hclaim, rfl⟩ := mem_map.1 hmem
      exact mem_of_getElem? ((h.calls id call hcall).1.claim index _ channel hclaim).2.2
  · intro id id' call call' block hcall hcall' hmem hmem'
    obtain ⟨⟨index, _, channel⟩, hclaim, rfl⟩ := mem_map.1 hmem
    obtain ⟨⟨index', block, channel'⟩, hclaim', heq⟩ := mem_map.1 hmem'
    subst heq
    obtain ⟨-, hstate, hpending⟩ := (h.calls id call hcall).1.claim index _ channel hclaim
    obtain ⟨-, hstate', hpending'⟩ := (h.calls id' call' hcall').1.claim index' _ channel' hclaim'
    cases hpending.symm.trans hpending'; cases hstate.symm.trans hstate'; rfl
  · intro later event earlier hlog
    have hjustified := h.justified; rw [hlog] at hjustified; exact hjustified.rule
  · intro id id' id'' ⟨call, index, channel, state, hcall, hwaiting, hmem, hstate, hopen, hclaimant⟩
      ⟨call', index', channel', state', hcall', hwaiting', hmem', hstate', hopen', hclaimant'⟩
    obtain ⟨_, _, _, hstate'', howner, hclaim⟩ :=
      h.pending state.block channel (h.opened channel state hstate hopen)
    cases hstate.symm.trans hstate''
    rw [hclaimant, hcall'] at howner
    cases howner
    have hdownloading := downloading_of_claim hphases hcall' (ne_nil_of_mem hclaim)
    rw [hwaiting'] at hdownloading; cases hdownloading

def Call.values (call : Call Nat) : Option (List Nat) :=
  match call.phase with
  | .returned (.ok values) => some values
  | _ => none

/-- Two calls share the material of block 2. -/
theorem material_is_shared_two : ∃ (shared : Shared Nat) (call : Call Nat),
    Shared.empty.run BitVec.toNat [.call [1, 2], .call [2, 3], .downloaded 1 .complete,
      .downloaded 0 .complete, .woken 1 .received] = some shared ∧
    shared.calls[(1 : Nat)]? = some call ∧ call.phase = .returned (.ok [2, 3]) ∧
    [2, 3] = call.hashes.map BitVec.toNat := by
  have hend : (((Shared.empty : Shared Nat).run BitVec.toNat [.call [1, 2], .call [2, 3],
      .downloaded 1 .complete, .downloaded 0 .complete, .woken 1 .received]).bind fun shared =>
        (shared.calls[(1 : Nat)]?).bind Call.values) = some [2, 3] := by decide +kernel
  obtain ⟨shared, hrun, hcalls⟩ := bind_eq_some_iff.1 hend
  obtain ⟨call, hcall, hvalues⟩ := bind_eq_some_iff.1 hcalls
  rw [Call.values] at hvalues
  split at hvalues
  · rename_i values hphase
    cases hvalues
    exact ⟨shared, call, hrun, hcall, hphase,
      ((material_is_shared hrun).1 1 call hcall).2 [2, 3] hphase⟩
  · cases hvalues

end

end Leani.P2p
