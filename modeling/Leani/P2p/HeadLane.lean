import Leani.P2p.AttestedAncestry

/-!
# The live lane's events

One turn of `next_live_event` takes a confirmation, undoes what an attested head contradicts or what
no head confirmed in time, delivers a frame that waits, or fetches at the head. A consumer that
follows the events holds one chain, and the lane's tip, window, tail and queue fit it.
-/

namespace Leani.P2p.HeadLane

open Library Headers Beacon AttestedAncestry List Option

variable {μ : Type}

inductive ChainEvent (μ : Type) where
  | block (frame : BlockFrame μ)
  | reorg (reverted : List BlockRef) (applied : List (BlockFrame μ))
  | attested (through : BlockRef)
  | disconnected (reason : String)
  | reset (lastValid : Option BlockRef) (reason : String)
  deriving DecidableEq

def headUndoGrace : Nat := 60

def maxFixedRangeBlocks : Nat := 64

/-! ## The tail -/

inductive Attestation where
  | none
  | confirm (block : BlockRef)
  | conflict (number : Nat) (hash : BlockHash)

abbrev UnattestedTail : Type := List BlockRef

namespace UnattestedTail

variable (tail : UnattestedTail)

def newest : Option BlockRef := tail.getLast?

def attestation (attested : AttestedHead) : Attestation :=
  match tail.find? fun block => block.number = attested.blockNumber with
  | some block =>
    if block.hash = attested.blockHash then .confirm block
    else .conflict attested.blockNumber attested.blockHash
  | none => .none

def confirmThrough (number : Nat) : UnattestedTail :=
  tail.dropWhile fun block => block.number ≤ number

/-- The whole tail, tip first, once its oldest block's slot started too long before `now`. -/
def expired (now : Nat) : Option (List BlockRef) :=
  match tail.head? with
  | some oldest => if headUndoGrace < now - oldest.timestamp then some tail.reverse else none
  | none => none

def containsAll (reverted : List BlockRef) : Bool := reverted.all fun block => tail.contains block

def remove (reverted : List BlockRef) : UnattestedTail :=
  tail.filter fun block => !reverted.contains block

end UnattestedTail

/-! ## What the lane is told -/

inductive HeaderVerdict where
  | valid
  | unknownFork (reason : String)
  | invalid (reason : String)
  deriving DecidableEq

structure HeaderRules (μ : Type) where
  headerSlot : Header → Option Nat
  check : Header → Header → Nat → Option Root → HeaderVerdict
  acceptsBranch : List Header → Option AttestedHead → Nat → Bool
  lateReveal : Header → Nat → Bool
  blobGasMatches : Header → BlockFrame μ → Bool
  frameHeader : BlockFrame μ → Option Header

inductive HeadUnavailable where
  | retry
  | report
  | reconnect

inductive HeadPollFailure where
  | retry
  | report
  | reconnect
  deriving DecidableEq

structure Answers (μ : Type) where
  cancelled : Bool
  interrupted : Bool
  reconnect : Except Headers.P2pError Unit
  attested : Option AttestedHead
  latest : Option AttestedHead
  judged : Option AttestedHead
  now : Nat
  batchBlocks : Nat
  gate : HeadGate
  changed : Bool
  descending : Nat → BlockHash → ExpectationTrust → Except Headers.P2pError (List Header)
  range : BlockRange → ExpectedTip → Except Headers.P2pError (List (BlockFrame μ))
  header : Nat → Except Headers.P2pError Header
  child : Nat → Except Headers.P2pError Header
  headerByHash : BlockHash → Except Headers.P2pError Header
  frame : Header → Except Headers.P2pError (Option (BlockFrame μ))
  verified : Nat → ExpectedTip → Except Headers.P2pError (Option (BlockFrame μ))
  ancestry : Except Headers.P2pError Ancestry
  material : BlockRange → List Header → Except Headers.P2pError (List (BlockFrame μ))
  pending : Bool
  failure : HeadPollFailure
  unavailable : HeadUnavailable
  unavailableFor : Nat

/-! ## The lane -/

structure LiveState (μ : Type) where
  last : BlockRef
  queued : List (BlockFrame μ)
  recent : List BlockRef
  ancestry : Ancestry
  reconnectError : Option String
  disconnectReported : Bool
  terminal : Bool
  tail : UnattestedTail
  parentHeader : Option Header
  pendingAttested : Option BlockRef

inductive Turn (μ : Type) where
  | ended
  | again (state : LiveState μ)
  | event (event : ChainEvent μ) (state : LiveState μ)
  | failed (error : Headers.P2pError) (state : LiveState μ)

inductive HeadPoll (μ : Type) where
  | accepted (frame : BlockFrame μ)
  | notYet
  | waitForAttested
  | reorg (event : ChainEvent μ)

section Lane

variable (hashing : Hashing) (rules : HeaderRules μ) (maxReorgDepth : Nat)

def planReorg (recent : List BlockRef) (descending : List Header) :
    Except Headers.P2pError (BlockRef × List BlockRef) :=
  match descending.findSome? fun header => recent.reverse.find? fun known =>
      known.number = header.number ∧ known.hash = hashing.hashSlow header with
  | none =>
    match descending.getLast?.map (·.number), recent.head?.map (·.number) with
    | some reached, some oldest =>
      if oldest < reached then
        .error (.incompleteResponse "reorg headers" descending.length
          (satAdd descending.length (reached - oldest)))
      else .error (.reorgTooDeep (recent.length - 1))
    | _, _ => .error (.reorgTooDeep (recent.length - 1))
  | some ancestor =>
    let reverted := recent.reverse.takeWhile fun block => ancestor.number < block.number
    if reverted = [] then
      .error (.invalidResponse "replacement branch did not revert an emitted block")
    else .ok (ancestor, reverted)

variable (answers : Answers μ)

def fetchReorgBranch (ancestor : BlockRef) (headNumber : Nat) (headHash : BlockHash)
    (evidence : ExpectationTrust) : Except Headers.P2pError (List (BlockFrame μ)) :=
  if ancestor.number = headNumber then .ok []
  else if h : satAdd ancestor.number 1 ≤ headNumber ∧ headNumber ≤ u64Max then
    let range : BlockRange := ⟨satAdd ancestor.number 1, headNumber, h.1, h.2⟩
    if maxFixedRangeBlocks < rangeLen range then .error (.reorgTooDeep maxReorgDepth)
    else do
      let frames ← answers.range range ⟨headHash, evidence⟩
      ensure (frames.head?.any fun frame => frame.block.parentHash = ancestor.hash)
        (.invalidResponse "replacement branch does not join the discovered common ancestor")
      pure frames
  else
    .error (.invalidResponse
      s!"block range end {headNumber} precedes start {satAdd ancestor.number 1}")

def newTip (ancestor : BlockRef) (applied : List (BlockFrame μ)) : BlockRef :=
  applied.getLast?.elim ancestor (·.block)

def reconstructReorg (s : LiveState μ) (headNumber : Nat) (headHash : BlockHash)
    (evidence : ExpectationTrust) :
    Except Headers.P2pError (List BlockRef × List (BlockFrame μ) × BlockRef) := do
  let descending ← answers.descending headNumber headHash evidence
  let plan ← planReorg hashing s.recent descending
  let applied ← fetchReorgBranch maxReorgDepth answers plan.1 headNumber headHash evidence
  pure (plan.2, applied, newTip plan.1 applied)

def LiveState.replaced (s : LiveState μ) (reverted : List BlockRef) (applied : List (BlockFrame μ))
    (tip : BlockRef) : LiveState μ :=
  { s with
    recent := s.recent.take (s.recent.length - reverted.length) ++ applied.map (·.block)
    last := tip
    parentHeader := applied.getLast?.bind rules.frameHeader
    disconnectReported := false }

def adoptReorg (s : LiveState μ) (reverted : List BlockRef) (applied : List (BlockFrame μ))
    (tip : BlockRef) (evidence : ExpectationTrust) : ChainEvent μ × LiveState μ :=
  let s := { s.replaced rules reverted applied tip with
    ancestry := .empty
    tail := s.tail.remove reverted }
  (.reorg reverted applied,
    match evidence with
    | .verified => { s with pendingAttested := s.tail.newest, tail := [] }
    | .unverified => s)

def reportDisconnect (s : LiveState μ) (reason : String) : Turn μ :=
  if s.disconnectReported then .again s
  else .event (.disconnected reason) { s with disconnectReported := true }

def reconstructReorgEvent (s : LiveState μ) (mismatching : BlockRef) (evidence : ExpectationTrust) :
    Turn μ :=
  match reconstructReorg hashing maxReorgDepth answers s s.last.number mismatching.parentHash
      evidence with
  | .ok (reverted, applied, tip) =>
    .event (adoptReorg rules s reverted applied tip evidence).1
      (adoptReorg rules s reverted applied tip evidence).2
  | .error error =>
    match error, evidence with
    | .reorgTooDeep maximum, .verified =>
      .event (.reset s.recent.head? (Headers.P2pError.reorgTooDeep maximum).toString)
        { s with terminal := true }
    | error, _ => reportDisconnect s error.toString

/-! ## The head -/

def unattestedReorg (s : LiveState μ) (header : Header) :
    Except Headers.P2pError (HeadPoll μ × LiveState μ) :=
  if s.tail = [] then .ok (.waitForAttested, s)
  else match answers.descending header.number (hashing.hashSlow header) .unverified with
  | .error .cancelled => .error .cancelled
  | .error _ => .ok (.waitForAttested, s)
  | .ok descending =>
    match planReorg hashing s.recent descending with
    | .error _ => .ok (.waitForAttested, s)
    | .ok (ancestor, reverted) =>
      let branch := (descending.filter fun header => ancestor.number ≤ header.number).reverse
      if !s.tail.containsAll reverted || !rules.acceptsBranch branch answers.judged answers.now then
        .ok (.waitForAttested, s)
      else
        match fetchReorgBranch maxReorgDepth answers ancestor header.number
            (hashing.hashSlow header) .unverified with
        | .error .cancelled => .error .cancelled
        | .error _ => .ok (.waitForAttested, s)
        | .ok frames =>
          let applied := frames.map fun frame => { frame with finality := .unattested }
          .ok (.reorg (.reorg reverted applied),
            { s.replaced rules reverted applied (newTip ancestor applied) with
              tail := s.tail.remove reverted ++ applied.map (·.block) })

def parentOf (s : LiveState μ) : Except Headers.P2pError Header :=
  match s.parentHeader.filter fun parent => hashing.hashSlow parent = s.last.hash with
  | some parent => .ok parent
  | none => answers.headerByHash s.last.hash

def lateChild (header : Header) (block : Nat) : Except Headers.P2pError (Option (HeadPoll μ)) :=
  if rules.lateReveal header answers.now then
    match answers.child (satAdd block 1) with
    | .error (.incompleteResponse _ _ _) => .ok (some .notYet)
    | .error error => .error error
    | .ok child =>
      .ok (if child.parentHash = hashing.hashSlow header then none else some .waitForAttested)
  else .ok none

def headFrame (s : LiveState μ) (header : Header) :
    Except Headers.P2pError (HeadPoll μ × LiveState μ) := do
  match ← answers.frame header with
  | none => pure (.notYet, s)
  | some frame =>
    if rules.blobGasMatches header frame then
      pure (.accepted { frame with finality := .unattested }, { s with parentHeader := some header })
    else pure (.waitForAttested, s)

def pollUnattestedHead (s : LiveState μ) (block : Nat) :
    Except Headers.P2pError (HeadPoll μ × LiveState μ) := do
  let header ← answers.header block
  if header.parentHash = s.last.hash then
    match rules.headerSlot header with
    | none => pure (.waitForAttested, s)
    | some slot =>
      if answers.judged.all fun head => maxUnattestedSlots < slot - head.beaconSlot then
        pure (.waitForAttested, s)
      else do
        let parent ← parentOf hashing answers s
        let root := (answers.judged.filter fun head => satAdd head.beaconSlot 1 = slot).map
          (·.beaconBlockRoot)
        if rules.check header parent answers.now root = .valid then
          match ← lateChild hashing rules answers header block with
          | some poll => pure (poll, s)
          | none => headFrame rules answers s header
        else pure (.waitForAttested, s)
  else unattestedReorg hashing rules maxReorgDepth answers s header

def pause (s : LiveState μ) : Turn μ := if answers.interrupted then .ended else .again s

def pollFailed (s : LiveState μ) (error : Headers.P2pError) (reports : Bool) : Turn μ :=
  match answers.failure with
  | .retry => pause answers s
  | .report =>
    if answers.interrupted then .ended
    else if reports then reportDisconnect s error.toString
    else .again s
  | .reconnect => reportDisconnect { s with reconnectError := some error.toString } error.toString

def headTurn (s : LiveState μ) (block : Nat) : Turn μ :=
  if answers.changed then .again s
  else match pollUnattestedHead hashing rules maxReorgDepth answers s block with
  | .ok (.accepted frame, s) => .again { s with queued := s.queued ++ [frame] }
  | .ok (.notYet, s) => pause answers s
  | .ok (.waitForAttested, s) => pause answers s
  | .ok (.reorg event, s) => .event event s
  | .error .cancelled => .ended
  | .error (.incompleteResponse _ _ _) => pause answers s
  | .error error => pollFailed answers s error false

def waitTurn (s : LiveState μ) (reason : String) : Turn μ :=
  if answers.interrupted then .ended
  else match answers.unavailable with
  | .retry => .again s
  | .report => reportDisconnect s reason
  | .reconnect => reportDisconnect { s with reconnectError := some reason } reason

def queueAttested (s : LiveState μ) (frames : List (BlockFrame μ)) : Turn μ :=
  let s := { s with queued := s.queued ++ frames }
  match s.tail.newest with
  | some through => .event (.attested through) { s with tail := [] }
  | none => .again s

def chainFailed (s : LiveState μ) (error : Headers.P2pError) : Turn μ :=
  let s := { s with ancestry := .empty }
  if answers.pending then pause answers s
  else reportDisconnect { s with reconnectError := some error.toString } error.toString

def anchorTurn (s : LiveState μ) : Turn μ :=
  match answers.ancestry with
  | .ok proven => .again { s with ancestry := s.ancestry.advance proven }
  | .error .cancelled => .ended
  | .error error => chainFailed answers s error

def pollTurn (s : LiveState μ) (block : Nat) (tip : ExpectedTip) : Turn μ :=
  match answers.verified block tip with
  | .ok (some frame) =>
    if frame.block.parentHash = s.last.hash then queueAttested s [frame]
    else reconstructReorgEvent hashing rules maxReorgDepth answers s frame.block tip.trust
  | .ok none => pause answers s
  | .error .cancelled => .ended
  | .error error => pollFailed answers s error true

/-- `header_block_ref`; only the parent hash is read of it. -/
def headerBlockRef (header : Header) : BlockRef :=
  ⟨header.number, hashing.hashSlow header, header.parentHash, 0⟩

def catchUpTurn (s : LiveState μ) (range : BlockRange) : Turn μ :=
  let headers := s.ancestry.headers.take (rangeLen range)
  let peer := s.ancestry.headerPeer
  let s := { s with ancestry := s.ancestry.taken (rangeLen range) }
  match headers.head?.filter fun first => first.parentHash ≠ s.last.hash with
  | some first =>
    reconstructReorgEvent hashing rules maxReorgDepth answers { s with ancestry := .empty }
      (headerBlockRef hashing first) .verified
  | none =>
    let frames :=
      if peer.isSome then answers.material range headers
      else .error (.incompleteResponse "headers" 0 headers.length)
    match frames with
    | .ok frames => queueAttested s frames
    | .error .cancelled => .ended
    | .error error => chainFailed answers s error

def stepTurn (s : LiveState μ) : Turn μ :=
  match liveStep ⟨s.last.number, s.last.hash⟩ answers.latest s.ancestry answers.batchBlocks
      answers.gate with
  | .head block => headTurn hashing rules maxReorgDepth answers s block
  | .wait =>
    waitTurn answers s
      (s!"no sync-committee-attested execution head above block {s.last.number} for " ++
        s!"{answers.unavailableFor} seconds")
  | .anchor _ _ => anchorTurn answers s
  | .poll block tip => pollTurn hashing rules maxReorgDepth answers s block tip
  | .catchUp range => catchUpTurn hashing rules maxReorgDepth answers s range

def deliver (s : LiveState μ) (frame : BlockFrame μ) (rest : List (BlockFrame μ)) : LiveState μ :=
  let recent := s.recent ++ [frame.block]
  { s with
    queued := rest
    last := frame.block
    recent := recent.drop (recent.length - (maxReorgDepth + 1))
    disconnectReported := false
    parentHeader := rules.frameHeader frame
    tail := if frame.finality = .unattested then s.tail ++ [frame.block] else s.tail }

def queueTurn (s : LiveState μ) : Turn μ :=
  match s.queued with
  | frame :: rest => .event (.block frame) (deliver rules maxReorgDepth s frame rest)
  | [] => stepTurn hashing rules maxReorgDepth answers s

def expireTurn (s : LiveState μ) : Turn μ :=
  match s.tail.expired answers.now with
  | some reverted =>
    let recent := s.recent.take (s.recent.length - reverted.length)
    match recent.getLast? with
    | none =>
      .event (.reset none "unattested tail expired below the retained chain")
        { s with recent, terminal := true }
    | some attestedTip =>
      .event (.reorg reverted [])
        { s with recent, last := attestedTip, parentHeader := none, tail := [] }
  | none => queueTurn hashing rules maxReorgDepth answers s

def attestTurn (s : LiveState μ) : Turn μ :=
  match answers.attested.elim .none s.tail.attestation with
  | .confirm through =>
    .event (.attested through) { s with tail := s.tail.confirmThrough through.number }
  | .conflict number hash =>
    match reconstructReorg hashing maxReorgDepth answers s number hash .verified with
    | .ok (reverted, applied, tip) =>
      .event (adoptReorg rules s reverted applied tip .verified).1
        (adoptReorg rules s reverted applied tip .verified).2
    | .error .cancelled => .ended
    | .error _ => expireTurn hashing rules maxReorgDepth answers s
  | .none => expireTurn hashing rules maxReorgDepth answers s

def turn (s : LiveState μ) : Turn μ :=
  if s.terminal || answers.cancelled then .ended
  else match s.reconnectError with
  | some _ =>
    match answers.reconnect with
    | .ok _ => .again { s with reconnectError := none }
    | .error .cancelled => .ended
    | .error error => .failed error { s with reconnectError := none, terminal := true }
  | none =>
    match s.pendingAttested with
    | some through => .event (.attested through) { s with pendingAttested := none }
    | none => attestTurn hashing rules maxReorgDepth answers s

def step (lane : LiveState μ × List (ChainEvent μ)) (answers : Answers μ) :
    Option (LiveState μ × List (ChainEvent μ)) :=
  match turn hashing rules maxReorgDepth answers lane.1 with
  | .ended => none
  | .again s => some (s, lane.2)
  | .event event s => some (s, lane.2 ++ [event])
  | .failed _ s => some (s, lane.2)

def run (lane : LiveState μ × List (ChainEvent μ)) :
    List (Answers μ) → Option (LiveState μ × List (ChainEvent μ))
  | [] => some lane
  | answers :: rest =>
    (step hashing rules maxReorgDepth lane answers).bind fun lane => run lane rest

end Lane

/-! ## What a consumer sees -/

/-- Each frame is the child of the one before; the first one is the child of `tip`. -/
def LinkedOnto : BlockRef → List (BlockFrame μ) → Prop
  | _, [] => True
  | tip, frame :: frames =>
    frame.block.parentHash = tip.hash ∧ frame.block.number = tip.number + 1 ∧
      LinkedOnto frame.block frames

def grow (chain : List BlockRef) (frames : List (BlockFrame μ)) : List BlockRef :=
  (frames.map (·.block)).reverse ++ chain

inductive Consumes : List BlockRef → ChainEvent μ → List BlockRef → Prop where
  | block {tip : BlockRef} {chain : List BlockRef} {frame : BlockFrame μ}
      (h : frame.block.parentHash = tip.hash) :
      Consumes (tip :: chain) (.block frame) (frame.block :: tip :: chain)
  | reorg {reverted kept : List BlockRef} {fork : BlockRef} {applied : List (BlockFrame μ)}
      (hne : reverted ≠ []) (hlinked : LinkedOnto fork applied) :
      Consumes (reverted ++ fork :: kept) (.reorg reverted applied) (grow (fork :: kept) applied)
  | attested {chain : List BlockRef} {through : BlockRef} (h : through ∈ chain) :
      Consumes chain (.attested through) chain
  | disconnected {chain : List BlockRef} {reason : String} :
      Consumes chain (.disconnected reason) chain
  | reset {chain : List BlockRef} {lastValid : Option BlockRef} {reason : String} :
      Consumes chain (.reset lastValid reason) chain

structure Kept (chain : List BlockRef) (s : LiveState μ) : Prop where
  tip : chain.head? = some s.last
  descends : chain.Pairwise fun a b => b.number < a.number
  window : s.recent.reverse <+: chain
  windowEnds : s.recent.getLast? = some s.last
  tail : s.tail.reverse <+: chain
  queued : LinkedOnto s.last s.queued
  levels : (s.tail = [] ∧ ∀ frame ∈ s.queued, frame.finality ≠ .unattested) ∨
    ∀ frame ∈ s.queued, frame.finality = .unattested
  pending : ∀ through ∈ s.pendingAttested, through ∈ chain

/-- What the fetches check before they return: served frames are children of each other at
consecutive heights, a frame is its header's block, and what an attested head proves is attested. -/
structure Served (hashing : Hashing) (answers : Answers μ) : Prop where
  range : ∀ range tip frames, answers.range range tip = .ok frames → ∀ first ∈ frames.head?,
    first.block.number = range.start ∧ LinkedOnto first.block frames.tail
  material : ∀ range headers frames, answers.material range headers = .ok frames →
    ∀ first ∈ frames.head?, first.block.number = range.start ∧ headers.head?.map (·.parentHash) =
    some first.block.parentHash ∧ LinkedOnto first.block frames.tail
  materialLevel : ∀ range headers frames, answers.material range headers = .ok frames →
    ∀ frame ∈ frames, frame.finality = .attested
  verified : ∀ block tip frame, answers.verified block tip = .ok (some frame) →
    frame.block.number = block ∧ frame.finality = .attested
  header : ∀ block header, answers.header block = .ok header → header.number = block
  frame : ∀ header frame, answers.frame header = .ok (some frame) →
    frame.block.number = header.number ∧ frame.block.parentHash = header.parentHash

/-! ## Growing and cutting the chain -/

theorem grow_cons (chain : List BlockRef) (frame : BlockFrame μ) (frms : List (BlockFrame μ)) :
    grow chain (frame :: frms) = grow (frame.block :: chain) frms := by
  simp [grow]

theorem newTip_cons (fork : BlockRef) (frame : BlockFrame μ) (frms : List (BlockFrame μ)) :
    newTip fork (frame :: frms) = newTip frame.block frms := by
  cases frms with
  | nil => rfl
  | cons next frms => simp [newTip, getLast?_eq_some_getLast]

theorem head?_grow (fork : BlockRef) (kept : List BlockRef) (frms : List (BlockFrame μ)) :
    (grow (fork :: kept) frms).head? = some (newTip fork frms) := by
  induction frms generalizing fork kept with
  | nil => rfl
  | cons frame frms ih => rw [grow_cons, newTip_cons, ih]

variable {fork : BlockRef} {frames : List (BlockFrame μ)}

theorem descends_grow {kept : List BlockRef} (hlink : LinkedOnto fork frames)
    (h : (fork :: kept).Pairwise fun a b => b.number < a.number) :
    (grow (fork :: kept) frames).Pairwise fun a b => b.number < a.number := by
  induction frames generalizing fork kept with
  | nil => exact h
  | cons frame frames ih =>
    obtain ⟨-, _, hrest⟩ := hlink
    rw [grow_cons]
    refine ih hrest ?_
    rw [pairwise_cons]
    refine ⟨fun below hbelow => ?_, h⟩
    rcases mem_cons.1 hbelow with rfl | hbelow
    · omega
    · have := (pairwise_cons.1 h).1 below hbelow; omega

theorem exists_takeWhile_above {chain : List BlockRef}
    (h : chain.Pairwise fun a b => b.number < a.number) (hmem : fork ∈ chain) :
    ∃ below, chain = chain.takeWhile (fun block => fork.number < block.number) ++ fork :: below := by
  induction chain with
  | nil => cases hmem
  | cons block chain ih =>
    rw [pairwise_cons] at h
    rcases mem_cons.1 hmem with rfl | hmem
    · exact ⟨chain, by simp⟩
    · obtain ⟨below, hbelow⟩ := ih h.2 hmem
      refine ⟨below, ?_⟩
      have habove : decide (fork.number < block.number) = true := by
        simpa using h.1 fork hmem
      rw [takeWhile_cons, habove, if_pos rfl, cons_append, ← hbelow]

theorem reverse_remove {tail : UnattestedTail}
    {reverted kept : List BlockRef} (h : (reverted ++ kept).Pairwise fun a b => b.number < a.number)
    (htail : tail.reverse <+: reverted ++ kept) : (tail.remove reverted).reverse <+: kept := by
  have hfilter := htail.filter fun block => !reverted.contains block
  rw [filter_append] at hfilter
  have hgone : (reverted.filter fun block => !reverted.contains block) = [] := by
    simp
  have hstays : (kept.filter fun block => !reverted.contains block) = kept := by
    rw [filter_eq_self]
    intro block hblk
    have hnot : block ∉ reverted := fun hmem =>
      absurd ((pairwise_append.1 h).2.2 block hmem block hblk) (lt_irrefl _)
    simpa using hnot
  rw [hgone, hstays, nil_append] at hfilter
  rw [UnattestedTail.remove, ← filter_reverse]; exact hfilter

theorem LinkedOnto.unattested (h : LinkedOnto fork frames) :
    LinkedOnto fork (frames.map fun frame => { frame with finality := .unattested }) := by
  induction frames generalizing fork with
  | nil => trivial
  | cons frame frames ih =>
    obtain ⟨hpar, hnum, hrest⟩ := h; exact ⟨hpar, hnum, ih hrest⟩

section Facts

variable {hashing : Hashing} {rules : HeaderRules μ} {maxReorgDepth : Nat} {answers : Answers μ}
  {s : LiveState μ} {chain : List BlockRef}

variable {reverted : List BlockRef} {descending : List Header} {ancestor : BlockRef}

theorem planReorg_eq_ok {recent : List BlockRef} (h : planReorg hashing recent descending =
    .ok (ancestor, reverted)) : ancestor ∈ recent ∧ reverted ≠ [] ∧
    reverted = recent.reverse.takeWhile fun block => ancestor.number < block.number := by
  rw [planReorg] at h
  split at h
  · split at h
    · split at h <;> cases h
    · cases h
  · rename_i found hfound
    dsimp only at h
    split at h
    · cases h
    · rename_i hne
      obtain ⟨rfl, rfl⟩ := Prod.mk.inj (Except.ok.inj h)
      obtain ⟨_, -, hfind⟩ := exists_of_findSome?_eq_some hfound
      exact ⟨mem_reverse.1 (mem_of_find?_eq_some hfind), hne, rfl⟩

variable {headNumber : Nat} {headHash : BlockHash} {evidence : ExpectationTrust}

theorem fetchReorgBranch_eq_ok {frms : List (BlockFrame μ)} (hserv : Served hashing answers)
    (hlt : ancestor.number < u64Max)
    (h : fetchReorgBranch maxReorgDepth answers ancestor headNumber headHash evidence =
      .ok frms) : LinkedOnto ancestor frms := by
  rw [fetchReorgBranch] at h
  split at h
  · cases h; trivial
  · split at h
    · dsimp only at h
      split at h
      · cases h
      · simp only [eq_ok] at h
        obtain ⟨served, hrange, _, hjoins, rfl⟩ := h
        cases served with
        | nil => trivial
        | cons first rest =>
          obtain ⟨hnum, hrest⟩ := hserv.range _ _ _ hrange first rfl
          have hstart : satAdd ancestor.number 1 = ancestor.number + 1 := by
            rw [satAdd]; omega
          exact ⟨by simpa using hjoins, hnum.trans hstart, hrest⟩
    · cases h

theorem Kept.parts (h : Kept chain s) (hmem : ancestor ∈ s.recent) : ∃ below kept, below <+: kept ∧
      s.recent.reverse = (s.recent.reverse.takeWhile fun block => ancestor.number < block.number) ++
      ancestor :: below ∧ chain = (s.recent.reverse.takeWhile fun block =>
      ancestor.number < block.number) ++ ancestor :: kept := by
  obtain ⟨beneath, hbeneath⟩ := h.window
  have hdescends := h.descends.sublist h.window.sublist
  obtain ⟨below, hbelow⟩ := exists_takeWhile_above hdescends (mem_reverse.2 hmem)
  refine ⟨below, below ++ beneath, prefix_append _ _, hbelow, ?_⟩
  rw [← hbeneath]
  conv_lhs => rw [hbelow]
  simp

theorem Kept.replace (h : Kept chain s) {fork : BlockRef} {rev below kept : List BlockRef}
    {applied : List (BlockFrame μ)} {s' : LiveState μ} (hchain : chain = rev ++ fork :: kept)
    (hrec : s.recent.reverse = rev ++ fork :: below) (hbelow : below <+: kept)
    (hlink : LinkedOnto fork applied) (hlast : s'.last = newTip fork applied) (hwin : s'.recent =
    s.recent.take (s.recent.length - rev.length) ++ applied.map (·.block)) (hqueued : s'.queued = [])
    (htail : s'.tail.reverse <+: grow (fork :: kept) applied) (hpend : ∀ through ∈ s'.pendingAttested,
    through ∈ grow (fork :: kept) applied) : Kept (grow (fork :: kept) applied) s' := by
  have hdescends := (pairwise_append.1 (hchain ▸ h.descends)).2.1
  have hreverse : s'.recent.reverse = grow (fork :: below) applied := by
    rw [hwin, reverse_append, reverse_take, Nat.sub_sub_self, hrec, drop_left]
    · rfl
    · have := congrArg length hrec; rw [length_reverse, length_append] at this; omega
  constructor
  · rw [hlast, head?_grow]
  · exact descends_grow hlink hdescends
  · rw [hreverse]; exact (prefix_append_right_inj _).2 ((prefix_cons_inj fork).2 hbelow)
  · rw [← head?_reverse, hreverse, hlast, head?_grow]
  · exact htail
  · rw [hqueued]; trivial
  · rw [hqueued]; exact .inr (by simp)
  · exact hpend

/-! ## Reorgs -/

variable {applied : List (BlockFrame μ)} {tip : BlockRef}

theorem reconstructReorg_eq_ok
    (h : reconstructReorg hashing maxReorgDepth answers s headNumber headHash evidence =
      .ok (reverted, applied, tip)) :
    ∃ desc ancestor, planReorg hashing s.recent desc = .ok (ancestor, reverted) ∧
      fetchReorgBranch maxReorgDepth answers ancestor headNumber headHash evidence =
        .ok applied ∧ tip = newTip ancestor applied := by
  simp only [reconstructReorg, eq_ok, Prod.mk.injEq] at h
  obtain ⟨desc, -, ⟨ancestor, _⟩, hplan, _, hbranch, rfl, rfl, rfl⟩ := h
  exact ⟨desc, ancestor, hplan, hbranch, rfl⟩

theorem not_pending (h : s.pendingAttested = none) :
    ∀ through ∈ s.pendingAttested, through ∈ chain := by
  rw [h]; nofun

theorem Kept.number_le (h : Kept chain s) {block : BlockRef} (hblk : block ∈ chain) :
    block.number ≤ s.last.number := by
  have htip := h.tip
  have hdescends := h.descends
  cases chain with
  | nil => cases hblk
  | cons top below =>
    cases htip
    rcases mem_cons.1 hblk with rfl | hbelow
    · exact le_rfl
    · exact ((pairwise_cons.1 hdescends).1 block hbelow).le

theorem Kept.mem_chain (h : Kept chain s) {block : BlockRef} (hblk : block ∈ s.recent) :
    block ∈ chain :=
  h.window.subset (mem_reverse.2 hblk)

theorem Kept.plan (h : Kept chain s) (hserv : Served hashing answers) (hht : s.last.number < u64Max)
    (hplan : planReorg hashing s.recent descending = .ok (ancestor, reverted))
    (hbranch : fetchReorgBranch maxReorgDepth answers ancestor headNumber headHash evidence =
    .ok applied) : reverted ≠ [] ∧ LinkedOnto ancestor applied ∧ ∃ below kept, below <+: kept ∧
    s.recent.reverse = reverted ++ ancestor :: below ∧ chain = reverted ++ ancestor :: kept := by
  obtain ⟨hmem, hne, hreverted⟩ := planReorg_eq_ok hplan
  have hle := h.number_le (h.mem_chain hmem)
  obtain ⟨below, kept, hbelow, hrec, hchain⟩ := h.parts hmem
  rw [← hreverted] at hrec hchain
  exact ⟨hne, fetchReorgBranch_eq_ok hserv (by omega) hbranch, below, kept, hbelow, hrec, hchain⟩

theorem Kept.adopt (h : Kept chain s) (hserv : Served hashing answers)
    (hht : s.last.number < u64Max) (hqueued : s.queued = [])
    (hreorg : reconstructReorg hashing maxReorgDepth answers s headNumber headHash .verified =
      .ok (reverted, applied, tip)) :
    ∃ chain', Consumes chain (adoptReorg rules s reverted applied tip .verified).1 chain' ∧
      Kept chain' (adoptReorg rules s reverted applied tip .verified).2 := by
  obtain ⟨_, ancestor, hplan, hbranch, rfl⟩ := reconstructReorg_eq_ok hreorg
  obtain ⟨hne, hlink, below, kept, hbelow, hrec, rfl⟩ :=
    h.plan hserv hht hplan hbranch
  have hstays := reverse_remove h.descends h.tail
  refine ⟨grow (ancestor :: kept) applied, .reorg hne hlink, ?_⟩
  -- The rest of the tail lies below the fork, and is owed an attestation.
  refine h.replace rfl hrec hbelow hlink rfl rfl hqueued nil_prefix ?_
  intro _ hthru
  refine mem_append_right _ (hstays.subset (mem_reverse.2 ?_))
  exact mem_of_getLast? hthru

variable {header : Header} {poll : HeadPoll μ} {s' : LiveState μ}

theorem Kept.unattestedReorg (h : Kept chain s) (hserv : Served hashing answers)
    (hht : s.last.number < u64Max) (hqueued : s.queued = []) (hnone : s.pendingAttested = none)
    (hreorg : unattestedReorg hashing rules maxReorgDepth answers s header = .ok (poll, s')) :
    (poll = .waitForAttested ∧ s' = s) ∨
      ∃ event chain', poll = .reorg event ∧ Consumes chain event chain' ∧ Kept chain' s' := by
  rw [HeadLane.unattestedReorg] at hreorg
  split at hreorg
  · cases hreorg; exact .inl ⟨rfl, rfl⟩
  · split at hreorg
    · cases hreorg
    · cases hreorg; exact .inl ⟨rfl, rfl⟩
    · split at hreorg
      · cases hreorg; exact .inl ⟨rfl, rfl⟩
      · rename_i ancestor rev hplan
        dsimp only at hreorg
        split at hreorg
        · cases hreorg; exact .inl ⟨rfl, rfl⟩
        · split at hreorg
          · cases hreorg
          · cases hreorg; exact .inl ⟨rfl, rfl⟩
          · rename_i frms hbranch
            cases hreorg
            obtain ⟨hne, hlink, _, _, hbelow, hrec, rfl⟩ :=
              h.plan hserv hht hplan hbranch
            have happ := hlink.unattested
            refine .inr ⟨_, _, rfl, .reorg hne happ, ?_⟩
            refine h.replace rfl hrec hbelow happ rfl rfl hqueued ?_ ?_
            · rw [reverse_append]
              exact (prefix_append_right_inj _).2 (reverse_remove h.descends h.tail)
            · exact not_pending hnone

/-! ## One turn -/

def Fits (chain : List BlockRef) : Turn μ → Prop
  | .ended => True
  | .again s => Kept chain s
  | .event event s => ∃ chain', Consumes chain event chain' ∧ Kept chain' s
  | .failed _ s => Kept chain s

theorem Kept.of_same (h : Kept chain s) (hlast : s'.last = s.last)
    (hrec : s'.recent = s.recent) (htail : s'.tail = s.tail) (hqueued : s'.queued = s.queued)
    (hpend : s'.pendingAttested = s.pendingAttested) : Kept chain s' := by
  constructor
  · rw [hlast, h.tip]
  · exact h.descends
  · rw [hrec]; exact h.window
  · rw [hrec, hlast, h.windowEnds]
  · rw [htail]; exact h.tail
  · rw [hlast, hqueued]; exact h.queued
  · rw [htail, hqueued]; exact h.levels
  · rw [hpend]; exact h.pending

theorem Kept.reportDisconnect (h : Kept chain s) (reason : String) :
    Fits chain (reportDisconnect s reason) := by
  rw [HeadLane.reportDisconnect]
  split
  · exact h
  · exact ⟨chain, .disconnected, h.of_same rfl rfl rfl rfl rfl⟩

theorem Kept.pause (h : Kept chain s) : Fits chain (pause answers s) := by
  rw [HeadLane.pause]
  split
  · trivial
  · exact h

theorem Kept.pollFailed (h : Kept chain s) (error : Headers.P2pError) (reps : Bool) :
    Fits chain (pollFailed answers s error reps) := by
  rw [HeadLane.pollFailed]
  split
  · exact h.pause
  · split
    · trivial
    · split
      · exact h.reportDisconnect _
      · exact h
  · refine Kept.reportDisconnect ?_ _
    exact h.of_same rfl rfl rfl rfl rfl

theorem Kept.chainFailed (h : Kept chain s) (error : Headers.P2pError) :
    Fits chain (chainFailed answers s error) := by
  have hforgot : Kept chain { s with ancestry := .empty } := h.of_same rfl rfl rfl rfl rfl
  rw [HeadLane.chainFailed]
  split
  · exact hforgot.pause
  · refine Kept.reportDisconnect ?_ _
    exact h.of_same rfl rfl rfl rfl rfl

theorem Kept.waitTurn (h : Kept chain s) (reason : String) :
    Fits chain (waitTurn answers s reason) := by
  rw [HeadLane.waitTurn]
  split
  · trivial
  · split
    · exact h
    · exact h.reportDisconnect _
    · refine Kept.reportDisconnect ?_ _
      exact h.of_same rfl rfl rfl rfl rfl

theorem Kept.anchorTurn (h : Kept chain s) : Fits chain (anchorTurn answers s) := by
  rw [HeadLane.anchorTurn]
  split
  · exact h.of_same rfl rfl rfl rfl rfl
  · trivial
  · exact h.chainFailed _

theorem Kept.reconstructReorgEvent (h : Kept chain s) (hserv : Served hashing answers)
    (hht : s.last.number < u64Max) (hqueued : s.queued = []) (mismatching : BlockRef) :
    Fits chain (reconstructReorgEvent hashing rules maxReorgDepth answers s mismatching .verified) := by
  rw [HeadLane.reconstructReorgEvent]
  split
  · rename_i hreorg; exact h.adopt hserv hht hqueued hreorg
  · split
    · exact ⟨chain, .reset, h.of_same rfl rfl rfl rfl rfl⟩
    · exact h.reportDisconnect _

theorem Kept.queueAttested (h : Kept chain s) (hqueued : s.queued = []) {frms : List (BlockFrame μ)}
    (hlink : LinkedOnto s.last frms) (hlevel : ∀ frame ∈ frms, frame.finality = .attested) :
    Fits chain (queueAttested s frms) := by
  have hwaits : LinkedOnto s.last (s.queued ++ frms) := by
    rw [hqueued]; exact hlink
  have hlevels : ∀ frame ∈ s.queued ++ frms, frame.finality ≠ .unattested := by
    rw [hqueued]
    intro frame hfrm; rw [hlevel frame hfrm]; nofun
  rw [HeadLane.queueAttested]
  split
  · rename_i thru hthru
    have hmem := mem_of_getLast? hthru
    refine ⟨chain, .attested (h.tail.subset (mem_reverse.2 hmem)), ?_⟩
    exact ⟨h.tip, h.descends, h.window, h.windowEnds, nil_prefix, hwaits, .inl ⟨rfl, hlevels⟩,
      h.pending⟩
  · rename_i hnew
    have hempty := getLast?_eq_none_iff.1 hnew
    exact ⟨h.tip, h.descends, h.window, h.windowEnds, h.tail, hwaits, .inl ⟨hempty, hlevels⟩, h.pending⟩

variable {block batchBlocks : Nat} {last : Tip} {attested : Option AttestedHead}
  {ancestry : Ancestry} {gate : HeadGate}

theorem trust_of_liveStep_poll {tip : ExpectedTip}
    (h : liveStep last attested ancestry batchBlocks gate = .poll block tip) :
    block = satAdd last.number 1 ∧ tip.trust = .verified := by
  rw [liveStep] at h
  split at h
  · split at h <;> cases h
  · dsimp only at h
    split at h
    · cases h
    · split at h
      · cases h; exact ⟨rfl, rfl⟩
      · cases h

theorem block_of_liveStep_head (h : liveStep last attested ancestry batchBlocks gate = .head block) :
    block = satAdd last.number 1 := by
  rw [liveStep] at h
  split at h
  · split at h <;> cases h
    rfl
  · dsimp only at h
    split at h
    · cases h
    · split at h <;> cases h

theorem start_of_liveStep_catchUp {range : BlockRange}
    (h : liveStep last attested ancestry batchBlocks gate = .catchUp range) :
    range.start = satAdd last.number 1 := by
  rw [liveStep] at h
  split at h
  · split at h <;> cases h
  · dsimp only at h
    split at h
    · cases h; rfl
    · split at h <;> cases h

theorem satAdd_one {num : Nat} (h : num < u64Max) : satAdd num 1 = num + 1 := by
  rw [satAdd]; omega

theorem Kept.pollTurn (h : Kept chain s) (hserv : Served hashing answers)
    (hht : s.last.number < u64Max) (hqueued : s.queued = []) {block : Nat} {tip : ExpectedTip}
    (hblk : block = satAdd s.last.number 1) (htrust : tip.trust = .verified) :
    Fits chain (pollTurn hashing rules maxReorgDepth answers s block tip) := by
  rw [HeadLane.pollTurn]
  split
  · rename_i frame hfrm
    obtain ⟨hnum, hlevel⟩ := hserv.verified block tip frame hfrm
    split
    · rename_i hpar
      refine h.queueAttested hqueued ⟨hpar, ?_, trivial⟩ (by simpa using hlevel)
      rw [hnum, hblk, satAdd_one hht]
    · rw [htrust]; exact h.reconstructReorgEvent hserv hht hqueued _
  · exact h.pause
  · trivial
  · exact h.pollFailed _ _

theorem Kept.catchUpTurn (h : Kept chain s) (hserv : Served hashing answers)
    (hht : s.last.number < u64Max) (hqueued : s.queued = []) {range : BlockRange}
    (hstart : range.start = satAdd s.last.number 1) :
    Fits chain (catchUpTurn hashing rules maxReorgDepth answers s range) := by
  have htaken : Kept chain { s with ancestry := s.ancestry.taken (rangeLen range) } :=
    h.of_same rfl rfl rfl rfl rfl
  rw [HeadLane.catchUpTurn]
  dsimp only
  split
  · have hforgot : Kept chain { s with ancestry := .empty } := h.of_same rfl rfl rfl rfl rfl
    exact hforgot.reconstructReorgEvent hserv hht hqueued _
  · rename_i hfits
    split
    · rename_i frms hfrs
      split at hfrs
      · refine htaken.queueAttested hqueued ?_ (hserv.materialLevel _ _ _ hfrs)
        cases frms with
        | nil => trivial
        | cons first rest =>
          obtain ⟨hnum, hpar, hrest⟩ := hserv.material _ _ _ hfrs first rfl
          obtain ⟨hdr, hhdr, hnamed⟩ := map_eq_some_iff.1 hpar
          rw [hhdr] at hfits
          have hjoins : hdr.parentHash = s.last.hash := by simpa using hfits
          refine ⟨hnamed.symm.trans hjoins, ?_, hrest⟩
          rw [hnum, hstart, satAdd_one hht]
      · cases hfrs
    · trivial
    · exact htaken.chainFailed _

theorem held_of_lateChild (h : lateChild hashing rules answers header block = .ok (some poll)) :
    poll = .notYet ∨ poll = .waitForAttested := by
  rw [lateChild] at h
  split at h
  · split at h
    · cases h; exact .inl rfl
    · cases h
    · split at h <;> cases h
      exact .inr rfl
  · cases h

theorem Kept.pollUnattestedHead (h : Kept chain s) (hserv : Served hashing answers)
    (hht : s.last.number < u64Max) (hqueued : s.queued = [])
    (hnone : s.pendingAttested = none) (hblk : block = satAdd s.last.number 1)
    (hpoll : pollUnattestedHead hashing rules maxReorgDepth answers s block = .ok (poll, s')) :
    ((poll = .notYet ∨ poll = .waitForAttested) ∧ s' = s) ∨
      (∃ frame, poll = .accepted frame ∧ frame.finality = .unattested ∧
        LinkedOnto s.last [frame] ∧ s'.queued = [] ∧ Kept chain s' ∧ s'.last = s.last) ∨
      ∃ event chain', poll = .reorg event ∧ Consumes chain event chain' ∧ Kept chain' s' := by
  simp only [HeadLane.pollUnattestedHead, bind_eq_ok] at hpoll
  obtain ⟨hdr, hhdr, hpoll⟩ := hpoll
  split at hpoll
  · rename_i hpar
    split at hpoll
    · cases hpoll; exact .inl ⟨.inr rfl, rfl⟩
    · split at hpoll
      · cases hpoll; exact .inl ⟨.inr rfl, rfl⟩
      · simp only [bind_eq_ok] at hpoll
        obtain ⟨_, -, hpoll⟩ := hpoll
        split at hpoll
        · simp only [bind_eq_ok] at hpoll
          obtain ⟨late, hlate, hpoll⟩ := hpoll
          cases late with
          | some held =>
            cases hpoll; exact .inl ⟨held_of_lateChild hlate, rfl⟩
          | none =>
            simp only [headFrame, bind_eq_ok] at hpoll
            obtain ⟨served, hframe, hpoll⟩ := hpoll
            cases served with
            | none =>
              cases hpoll; exact .inl ⟨.inl rfl, rfl⟩
            | some frame =>
              dsimp only at hpoll
              split at hpoll
              · cases hpoll
                obtain ⟨hnum, hnames⟩ := hserv.frame hdr frame hframe
                refine .inr (.inl ⟨_, rfl, rfl, ⟨?_, ?_, trivial⟩, hqueued, ?_, rfl⟩)
                · exact hnames.trans hpar
                · rw [← satAdd_one hht, ← hblk, ← hserv.header block hdr hhdr]; exact hnum
                · exact h.of_same rfl rfl rfl rfl rfl
              · cases hpoll; exact .inl ⟨.inr rfl, rfl⟩
        · cases hpoll; exact .inl ⟨.inr rfl, rfl⟩
  · rcases h.unattestedReorg hserv hht hqueued hnone hpoll with ⟨rfl, rfl⟩ | hreorg
    · exact .inl ⟨.inr rfl, rfl⟩
    · exact .inr (.inr hreorg)

theorem Kept.headTurn (h : Kept chain s) (hserv : Served hashing answers)
    (hht : s.last.number < u64Max) (hqueued : s.queued = [])
    (hnone : s.pendingAttested = none) {block : Nat} (hblk : block = satAdd s.last.number 1) :
    Fits chain (headTurn hashing rules maxReorgDepth answers s block) := by
  rw [HeadLane.headTurn]
  split
  · exact h
  · cases hpoll : HeadLane.pollUnattestedHead hashing rules maxReorgDepth answers s block with
    | error error =>
      cases error with
      | cancelled => trivial
      | incompleteResponse => exact h.pause
      | _ => exact h.pollFailed _ _
    | ok found =>
      obtain ⟨_, _⟩ := found
      rcases h.pollUnattestedHead hserv hht hqueued hnone hblk hpoll with
        ⟨rfl | rfl, rfl⟩ | ⟨frame, rfl, hlevel, hlink, hempty, hkept, hlast⟩ |
        ⟨event, chain', rfl, hconsumes, hkept⟩
      · exact h.pause
      · exact h.pause
      · refine ⟨hkept.tip, hkept.descends, hkept.window, hkept.windowEnds, hkept.tail, ?_, ?_,
          hkept.pending⟩
        · rw [hempty, hlast]; exact hlink
        · rw [hempty]; exact .inr (by simpa using hlevel)
      · exact ⟨chain', hconsumes, hkept⟩

theorem Kept.stepTurn (h : Kept chain s) (hserv : Served hashing answers)
    (hht : s.last.number < u64Max) (hqueued : s.queued = []) (hnone : s.pendingAttested = none) :
    Fits chain (stepTurn hashing rules maxReorgDepth answers s) := by
  rw [HeadLane.stepTurn]
  split
  · rename_i hstep; exact h.headTurn hserv hht hqueued hnone (block_of_liveStep_head hstep)
  · exact h.waitTurn _
  · exact h.anchorTurn
  · rename_i hstep
    obtain ⟨hblk, htrust⟩ := trust_of_liveStep_poll hstep
    exact h.pollTurn hserv hht hqueued hblk htrust
  · rename_i hstep; exact h.catchUpTurn hserv hht hqueued (start_of_liveStep_catchUp hstep)

theorem Kept.deliver (h : Kept chain s) {frame : BlockFrame μ} {rest : List (BlockFrame μ)}
    (hqueued : s.queued = frame :: rest) (hnone : s.pendingAttested = none) :
    ∃ chain', Consumes chain (.block frame) chain' ∧
      Kept chain' (deliver rules maxReorgDepth s frame rest) := by
  have hwaits := h.queued
  rw [hqueued] at hwaits
  obtain ⟨hpar, _, hrest⟩ := hwaits
  have htip := h.tip
  cases chain with
  | nil => cases htip
  | cons top below =>
    cases htip
    have hlevels := h.levels
    simp only [hqueued, forall_mem_cons] at hlevels
    refine ⟨frame.block :: s.last :: below, .block hpar, ?_⟩
    have hgrown : (s.recent ++ [frame.block]).reverse <+: frame.block :: s.last :: below := by
      rw [reverse_append, reverse_singleton, singleton_append]; exact (prefix_cons_inj _).2 h.window
    constructor
    · rfl
    · rw [pairwise_cons]
      refine ⟨fun block hblk => ?_, h.descends⟩
      have := h.number_le hblk; omega
    · refine List.IsPrefix.trans ?_ hgrown
      rw [List.reverse_prefix]; exact drop_suffix _ _
    · rw [deliver]
      rw [getLast?_drop, if_neg, getLast?_concat]; rw [length_append, length_singleton]; omega
    · rw [deliver]
      split
      · rw [reverse_append, reverse_singleton, singleton_append]; exact (prefix_cons_inj _).2 h.tail
      · rename_i hlevel
        rcases hlevels with ⟨hempty, -⟩ | hunatt
        · rw [hempty]; exact nil_prefix
        · exact absurd hunatt.1 hlevel
    · exact hrest
    · rw [deliver]
      rcases hlevels with ⟨hempty, hatt⟩ | hunatt
      · rw [if_neg hatt.1]; exact .inl ⟨hempty, hatt.2⟩
      · exact .inr hunatt.2
    · exact not_pending hnone

/-! ## Confirmations and expiry -/

/-- A turn does not undo blocks while an accepted frame waits, the tail does not expire when it is
the whole window, and the tip has a height above it. -/
structure Steady (hashing : Hashing) (maxReorgDepth : Nat) (answers : Answers μ)
    (s : LiveState μ) : Prop where
  height : s.last.number < u64Max
  unexpired : s.queued ≠ [] → s.tail.expired answers.now = none
  unconflicted : s.queued ≠ [] → ∀ attested ∈ answers.attested, ∀ number hash,
    s.tail.attestation attested = .conflict number hash → ∀ reorg,
      reconstructReorg hashing maxReorgDepth answers s number hash .verified ≠ .ok reorg
  retained : s.tail.expired answers.now ≠ none → s.tail.length < s.recent.length

theorem Kept.queueTurn (h : Kept chain s) (hserv : Served hashing answers)
    (hht : s.last.number < u64Max) (hnone : s.pendingAttested = none) :
    Fits chain (queueTurn hashing rules maxReorgDepth answers s) := by
  rw [HeadLane.queueTurn]
  split
  · rename_i hqueued; exact h.deliver hqueued hnone
  · rename_i hqueued; exact h.stepTurn hserv hht hqueued hnone

theorem expired_eq_some {tail : UnattestedTail} {now : Nat}
    (h : tail.expired now = some reverted) : reverted = tail.reverse ∧ tail ≠ [] := by
  rw [UnattestedTail.expired] at h
  split at h
  · rename_i oldest holdest
    split at h
    · cases h
      refine ⟨rfl, ?_⟩
      rintro rfl; cases holdest
    · cases h
  · cases h

theorem Kept.expireTurn (h : Kept chain s) (hserv : Served hashing answers)
    (hsteady : Steady hashing maxReorgDepth answers s) (hnone : s.pendingAttested = none) :
    Fits chain (expireTurn hashing rules maxReorgDepth answers s) := by
  rw [HeadLane.expireTurn]
  split
  · rename_i rev hexpired
    obtain ⟨rfl, hne⟩ := expired_eq_some hexpired
    have hqueued : s.queued = [] := by
      by_contra hwaits
      rw [hsteady.unexpired hwaits] at hexpired; cases hexpired
    have hlt := hsteady.retained (by rw [hexpired]; nofun)
    obtain ⟨kept, rfl⟩ := h.tail
    have htop : s.tail.reverse <+: s.recent.reverse := by
      refine prefix_of_prefix_length_le (prefix_append _ _) h.window ?_
      rw [length_reverse, length_reverse]; omega
    obtain ⟨beneath, hbeneath⟩ := htop
    cases beneath with
    | nil =>
      have := congrArg length hbeneath; simp at this; omega
    | cons fork below =>
      have hbelow : fork :: below <+: kept := by
        have hwin := h.window; rwa [← hbeneath, prefix_append_right_inj] at hwin
      obtain ⟨rest, rfl⟩ := hbelow
      have hcut : (s.recent.take (s.recent.length - s.tail.reverse.length)).getLast? = some fork := by
        rw [← head?_reverse, reverse_take, Nat.sub_sub_self, ← hbeneath, drop_left]
        · rfl
        · rw [length_reverse]; omega
      dsimp only
      rw [hcut]
      have hreorg : Consumes (s.tail.reverse ++ fork :: (below ++ rest))
          (.reorg s.tail.reverse [] : ChainEvent μ) (grow (fork :: (below ++ rest)) []) :=
        .reorg (by simpa using hne) trivial
      refine ⟨_, hreorg, ?_⟩
      refine h.replace rfl hbeneath.symm (prefix_append _ _) trivial rfl ?_ hqueued nil_prefix ?_
      · simp
      · exact not_pending hnone
  · exact h.queueTurn hserv hsteady.height hnone

variable {through : BlockRef}

theorem attestation_eq_confirm {tail : UnattestedTail} {attested : AttestedHead}
 (h : tail.attestation attested = .confirm through) : through ∈ tail := by
  rw [UnattestedTail.attestation] at h
  split at h
  · rename_i hfind
    split at h
    · cases h; exact mem_of_find?_eq_some hfind
    · cases h
  · cases h

theorem Kept.confirm (h : Kept chain s) (hthru : through ∈ s.tail) :
    ∃ chain', Consumes chain (.attested through : ChainEvent μ) chain' ∧
      Kept chain' { s with tail := s.tail.confirmThrough through.number } := by
  refine ⟨chain, .attested (h.tail.subset (mem_reverse.2 hthru)), ?_⟩
  refine ⟨h.tip, h.descends, h.window, h.windowEnds, ?_, h.queued, ?_, h.pending⟩
  · refine List.IsPrefix.trans ?_ h.tail
    rw [List.reverse_prefix]; exact dropWhile_suffix _
  · rcases h.levels with ⟨hempty, hlevel⟩ | hlevel
    · rw [hempty] at hthru; cases hthru
    · exact .inr hlevel

theorem Kept.attestTurn (h : Kept chain s) (hserv : Served hashing answers)
    (hsteady : Steady hashing maxReorgDepth answers s) (hnone : s.pendingAttested = none) :
    Fits chain (attestTurn hashing rules maxReorgDepth answers s) := by
  have hexpire : Fits chain (HeadLane.expireTurn hashing rules maxReorgDepth answers s) :=
    h.expireTurn hserv hsteady hnone
  rw [HeadLane.attestTurn]
  cases hatt : answers.attested with
  | none => exact hexpire
  | some attested =>
    split
    · rename_i thru hthru; exact h.confirm (attestation_eq_confirm hthru)
    · rename_i num hash hconflict
      split
      · rename_i rev applied tip hreorg
        have hqueued : s.queued = [] := by
          by_contra hwaits
          exact hsteady.unconflicted hwaits attested hatt num hash hconflict _ hreorg
        exact h.adopt hserv hsteady.height hqueued hreorg
      · trivial
      · exact hexpire
    · exact hexpire

theorem Kept.turn (h : Kept chain s) (hserv : Served hashing answers)
    (hsteady : Steady hashing maxReorgDepth answers s) :
    Fits chain (turn hashing rules maxReorgDepth answers s) := by
  rw [HeadLane.turn]
  split
  · trivial
  · split
    · split
      · exact h.of_same rfl rfl rfl rfl rfl
      · trivial
      · exact h.of_same rfl rfl rfl rfl rfl
    · split
      · rename_i thru hthru
        refine ⟨chain, .attested (h.pending thru hthru), ?_⟩
        exact ⟨h.tip, h.descends, h.window, h.windowEnds, h.tail, h.queued, h.levels, nofun⟩
      · rename_i hnone; exact h.attestTurn hserv hsteady hnone

/-! ## Runs -/

/-- A lane as `subscribe` opens it: its window ends at its tip, and the frames of the overlap that
wait are attested and link onto it. -/
structure Opening (μ : Type) where
  last : BlockRef
  recent : List BlockRef
  queued : List (BlockFrame μ)
  ends : recent.getLast? = some last
  ascends : recent.Pairwise fun a b => a.number < b.number
  linked : LinkedOnto last queued
  attested : ∀ frame ∈ queued, frame.finality = .attested

def LiveState.start (opening : Opening μ) : LiveState μ where
  last := opening.last
  queued := opening.queued
  recent := opening.recent
  ancestry := .empty
  reconnectError := none
  disconnectReported := false
  terminal := false
  tail := []
  parentHeader := none
  pendingAttested := none

theorem kept_start (opening : Opening μ) : Kept opening.recent.reverse (LiveState.start opening) := by
  constructor
  · rw [head?_reverse]; exact opening.ends
  · exact pairwise_reverse.2 opening.ascends
  · exact prefix_rfl
  · exact opening.ends
  · exact nil_prefix
  · exact opening.linked
  · refine .inl ⟨rfl, fun frame hfrm => ?_⟩
    rw [opening.attested frame hfrm]; nofun
  · nofun

inductive ConsumesAll : List BlockRef → List (ChainEvent μ) → List BlockRef → Prop where
  | nil {chain : List BlockRef} : ConsumesAll chain [] chain
  | snoc {chain next last : List BlockRef} {events : List (ChainEvent μ)} {event : ChainEvent μ}
      (h : ConsumesAll chain events next) (hlast : Consumes next event last) :
      ConsumesAll chain (events ++ [event]) last

theorem ConsumesAll.concat {chain last : List BlockRef} {evs : List (ChainEvent μ)}
    {event : ChainEvent μ} (h : ConsumesAll chain (evs ++ [event]) last) :
    ∃ next, ConsumesAll chain evs next ∧ Consumes next event last := by
  generalize hlist : evs ++ [event] = all at h
  cases h with
  | nil => simp at hlist
  | snoc h hlast =>
    obtain ⟨rfl, hevent⟩ := append_inj' hlist rfl
    obtain rfl := singleton_inj.1 hevent; exact ⟨_, h, hlast⟩

def SteadyRun (hashing : Hashing) (rules : HeaderRules μ) (maxReorgDepth : Nat) :
    LiveState μ × List (ChainEvent μ) → List (Answers μ) → Prop
  | _, [] => True
  | lane, answers :: rest =>
    Steady hashing maxReorgDepth answers lane.1 ∧
      ∀ lane', step hashing rules maxReorgDepth lane answers = some lane' →
        SteadyRun hashing rules maxReorgDepth lane' rest

theorem Kept.step {base : List BlockRef} {lane lane' : LiveState μ × List (ChainEvent μ)}
    (h : Kept chain lane.1) (hall : ConsumesAll base lane.2 chain)
    (hserv : Served hashing answers) (hsteady : Steady hashing maxReorgDepth answers lane.1)
    (hstep : step hashing rules maxReorgDepth lane answers = some lane') :
    ∃ chain', ConsumesAll base lane'.2 chain' ∧ Kept chain' lane'.1 := by
  have hfits : Fits chain (HeadLane.turn hashing rules maxReorgDepth answers lane.1) :=
    h.turn hserv hsteady
  rw [HeadLane.step] at hstep
  split at hstep
  · cases hstep
  · rename_i s hturn
    rw [hturn] at hfits; cases hstep; exact ⟨chain, hall, hfits⟩
  · rename_i event s hturn
    rw [hturn] at hfits
    cases hstep
    obtain ⟨chain', hconsumes, hkept⟩ := hfits; exact ⟨chain', hall.snoc hconsumes, hkept⟩
  · rename_i error s hturn
    rw [hturn] at hfits; cases hstep; exact ⟨chain, hall, hfits⟩

theorem Kept.run {base : List BlockRef} {turns : List (Answers μ)}
    {lane lane' : LiveState μ × List (ChainEvent μ)} (h : Kept chain lane.1)
    (hall : ConsumesAll base lane.2 chain) (hserv : ∀ answers ∈ turns, Served hashing answers)
    (hsteady : SteadyRun hashing rules maxReorgDepth lane turns)
    (hrun : run hashing rules maxReorgDepth lane turns = some lane') :
    ∃ chain', ConsumesAll base lane'.2 chain' ∧ Kept chain' lane'.1 := by
  induction turns generalizing lane chain with
  | nil =>
    cases hrun; exact ⟨chain, hall, h⟩
  | cons answers rest ih =>
    rw [run, bind_eq_some_iff] at hrun
    obtain ⟨next, hstep, hrest⟩ := hrun
    obtain ⟨hserves, hserv⟩ := forall_mem_cons.1 hserv
    obtain ⟨hturn, hturns⟩ := hsteady
    obtain ⟨chain', hall', hkept⟩ := h.step hall hserves hturn hstep
    exact ih hkept hall' hserv (hturns next hstep) hrest

/-- The events of every run of steady turns are one linked chain, and after each the tip, the
window, the tail, the queue and the owed attestation fit it. -/
theorem run_one_chain (opening : Opening μ) {turns : List (Answers μ)}
    {lane : LiveState μ × List (ChainEvent μ)} (hserved : ∀ answers ∈ turns, Served hashing answers)
    (hsteady : SteadyRun hashing rules maxReorgDepth (LiveState.start opening, []) turns)
    (hrun : run hashing rules maxReorgDepth (LiveState.start opening, []) turns = some lane) :
    ∃ chain, ConsumesAll opening.recent.reverse lane.2 chain ∧ Kept chain lane.1 :=
  (kept_start opening).run .nil hserved hsteady hrun

end Facts

/-! ## A frame that waits while its parent is undone -/

def sampleHashing : Hashing where
  hashSlow header := BitVec.ofNat 256 (16 * header.number + header.rest.length + 1)
  display _ := ""

def sampleRules : HeaderRules Unit where
  headerSlot header := some header.number
  check _ _ _ _ := .valid
  acceptsBranch _ _ _ := true
  lateReveal _ _ := false
  blobGasMatches _ _ := true
  frameHeader _ := none

/-- A header of branch `fork`; every header builds on branch 0. -/
def sampleHeader (number fork : Nat) : Header :=
  ⟨number, BitVec.ofNat 256 (16 * (number - 1) + 1), List.replicate fork 0⟩

def sampleFrame (finality : Finality) (header : Header) : BlockFrame Unit :=
  ⟨1, ⟨header.number, sampleHashing.hashSlow header, header.parentHash, 0⟩, finality, .missing (),
    .missing (), (), (), ⟨false, none, ()⟩⟩

def sampleHead (number fork : Nat) : AttestedHead :=
  ⟨number, 0, number, sampleHashing.hashSlow (sampleHeader number fork)⟩

def sampleAnswers (attested : Option AttestedHead) : Answers Unit where
  cancelled := false
  interrupted := false
  reconnect := .ok ()
  attested := attested
  latest := some (sampleHead 0 0)
  judged := some (sampleHead 0 0)
  now := 0
  batchBlocks := 1
  gate := ⟨true, 1⟩
  changed := false
  descending _ _ _ := .ok [sampleHeader 1 1, sampleHeader 0 0]
  range range _ := .ok [sampleFrame .attested (sampleHeader range.start 1)]
  header block := .ok (sampleHeader block 0)
  child _ := .error .cancelled
  headerByHash _ := .ok (sampleHeader 0 0)
  frame header := .ok (some (sampleFrame .attested header))
  verified _ _ := .ok none
  ancestry := .error .cancelled
  material _ _ := .error .cancelled
  pending := false
  failure := .retry
  unavailable := .retry
  unavailableFor := 0

theorem served_sample (attested : Option AttestedHead) :
    Served sampleHashing (sampleAnswers attested) := by
  constructor
  · intro range tip frms h _ hfst
    cases h; cases hfst; exact ⟨rfl, trivial⟩
  · intro range hdrs frms h; cases h
  · intro range hdrs frms h; cases h
  · intro block tip frame h; cases h
  · intro block hdr h; cases h; rfl
  · intro hdr frame h; cases h; exact ⟨rfl, rfl⟩

def sampleOpening : Opening Unit where
  last := (sampleFrame .attested (sampleHeader 0 0)).block
  recent := [(sampleFrame .attested (sampleHeader 0 0)).block]
  queued := []
  ends := rfl
  ascends := List.pairwise_singleton _ _
  linked := trivial
  attested := nofun

theorem steady_sample {s : LiveState Unit} (h : s.last.number < u64Max) :
    Steady sampleHashing 4 (sampleAnswers none) s := by
  have hunexpired : s.tail.expired 0 = none := by
    rw [UnattestedTail.expired]
    split
    · rw [if_neg (by omega)]
    · rfl
  exact ⟨h, fun _ => hunexpired, fun _ => nofun, fun hexpired => absurd hunexpired hexpired⟩

/-- A block is accepted at the head and delivered. -/
theorem run_one_chain_accepted :
    ∃ lane, run sampleHashing sampleRules 4 (LiveState.start sampleOpening, [])
        [sampleAnswers none, sampleAnswers none] = some lane ∧
      ∃ chain, ConsumesAll sampleOpening.recent.reverse lane.2 chain ∧ Kept chain lane.1 := by
  have hserved : ∀ answers ∈ [sampleAnswers none, sampleAnswers none],
      Served sampleHashing answers := by
    intro answers hanswers
    obtain rfl : answers = sampleAnswers none := by simpa using hanswers
    exact served_sample none
  have hsteady : SteadyRun sampleHashing sampleRules 4 (LiveState.start sampleOpening, [])
      [sampleAnswers none, sampleAnswers none] := by
    refine ⟨steady_sample (by decide), fun lane hlane => ?_⟩
    cases hlane; exact ⟨steady_sample (by decide), fun _ _ => trivial⟩
  refine ⟨_, rfl, ?_⟩
  exact run_one_chain sampleOpening hserved hsteady rfl

/-- An accepted frame waits while an attested head replaces its parent, and is delivered on top of
the block that took its parent's place. -/
theorem waiting_frame_outlives_parent :
    ∃ lane, run sampleHashing sampleRules 4 (LiveState.start sampleOpening, [])
        [sampleAnswers none, sampleAnswers none, sampleAnswers none,
          sampleAnswers (some (sampleHead 1 1)), sampleAnswers none] = some lane ∧
      (∀ attested, Served sampleHashing (sampleAnswers attested)) ∧
      ¬ ∃ chain, ConsumesAll sampleOpening.recent.reverse lane.2 chain := by
  refine ⟨_, rfl, served_sample, ?_⟩
  rintro ⟨chain, hall⟩
  have hevents := hall
  obtain ⟨replaced, hreplaced, hwaiting⟩ := hevents.concat
  obtain ⟨_, _, hreorg⟩ := hreplaced.concat
  -- The replacement is on top when the waiting frame is delivered.
  have htop : replaced.head? = some (sampleFrame .attested (sampleHeader 1 1)).block := by
    cases hreorg; rfl
  cases hwaiting with
  | block hparent =>
    cases htop; exact absurd hparent (by decide)

end Leani.P2p.HeadLane
