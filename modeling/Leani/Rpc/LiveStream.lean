import Leani.Primitives
import Mathlib.Data.List.Chain
import Mathlib.Data.List.TakeWhile

/-!
# The JSON-RPC live stream

A live lane over JSON-RPC endpoints: rounds that fetch the next blocks, replace blocks after a reorg
and attest delivered ones, each with several calls between which the endpoints' chain may move. The
events a round makes wait in a queue until they are delivered.
-/

namespace Leani.Rpc.LiveStream

open Library Std List Option

inductive SourceError where
  | cancelled
  | corruptFrame (detail : String)
  | invalidPlan (detail : String)
  | disconnected (detail : String)
  | unavailable (detail : String)
  | protocol (detail : String)
  deriving DecidableEq

variable {μ : Type}

inductive ChainEvent (μ : Type) where
  | block (frame : BlockFrame μ)
  | reorg (reverted : List BlockRef) (applied : List (BlockFrame μ))
  | attested (through : BlockRef)
  deriving DecidableEq

@[irreducible] def recentBlocks : Nat := 256

def batchBlocks : Nat := 32

def catchUpBlocks : Nat := 256

structure RpcLiveSource where
  signed : Bool
  proven : Table Nat BlockHash

structure Answers (μ : Type) where
  latest : Except SourceError Nat
  newest : Option Nat
  blocks : Nat → Nat → Except SourceError (List (BlockFrame μ))
  tip : Nat → Except SourceError (Option BlockHash)
  signedHash : Nat → Option BlockHash
  agreedHash : Nat → Except SourceError (Option BlockHash)
  replacements : Nat → Nat → Except SourceError (List (BlockFrame μ))
  replacementTip : Nat → Except SourceError (Option BlockHash)
  replacementSignedHash : Nat → Option BlockHash
  attestedHash : Nat → Option BlockHash
  safePolled : Bool
  safe : Except SourceError (Nat × BlockHash)

structure LiveState (μ : Type) where
  recent : List BlockRef
  next : Nat
  head : Nat
  attestedThrough : Nat
  pending : List (ChainEvent μ)
  terminal : Bool

inductive LiveStart where
  | block (block : BlockRef)
  | retainedCanonical (canonical : List BlockRef)
  | anchoredOverlap (anchor : BlockRef) (overlapBlocks : Nat)
  | head (number : Nat)

/-- The recent blocks and the next height of a start, in `subscribe`. -/
def LiveStart.resume : LiveStart → List BlockRef × Nat
  | .block tip => ([tip], tip.number + 1)
  | .retainedCanonical canonical =>
    (canonical, canonical.getLast?.elim 0 fun tip => satAdd tip.number 1)
  | .anchoredOverlap anchor overlapBlocks => ([], anchor.number - (overlapBlocks - 1))
  | .head number => ([], number)

def LiveState.start (start : LiveStart) : LiveState μ :=
  ⟨start.resume.1, start.resume.2, 0, 0, [], false⟩

/-! ## Fetching -/

def checkLinks : List (BlockFrame μ) → Except SourceError Unit
  | first :: second :: frames => do
    ensure (second.block.parentHash = first.block.hash)
      (.corruptFrame s!"block {second.block.number} does not link to block {first.block.number}")
    checkLinks (second :: frames)
  | _ => .ok ()

def checkParent (expectedParent : Option BlockHash) (blocks : List (BlockFrame μ)) :
    Except SourceError Unit :=
  match blocks.head?, expectedParent with
  | some first, some expected =>
    ensure (first.block.parentHash = expected)
      (.corruptFrame s!"block {first.block.number} does not link to the expected parent")
  | _, _ => .ok ()

def checkTip (agreedHash : Nat → Except SourceError (Option BlockHash)) (tip : BlockRef) :
    Except SourceError Unit := do
  let agreed ← agreedHash tip.number
  let agreed ← required agreed (.unavailable s!"too few endpoints serve block {tip.number} yet")
  ensure (agreed = tip.hash)
    (.corruptFrame (s!"block {tip.number} hash 0x" ++ tip.hash.toHex ++
      " is not the quorum's 0x" ++ agreed.toHex))

def checkQuorumTip (quorumTip : Bool) (agreedHash : Nat → Except SourceError (Option BlockHash))
    (tip : BlockRef) : Except SourceError Unit :=
  if quorumTip then checkTip agreedHash tip else .ok ()

def fetchRange (blocks : Except SourceError (List (BlockFrame μ)))
    (agreedHash : Nat → Except SourceError (Option BlockHash)) (expectedParent : Option BlockHash)
    (quorumTip : Bool) : Except SourceError (List (BlockFrame μ)) := do
  let blocks ← blocks
  checkLinks blocks
  checkParent expectedParent blocks
  let tip ← required blocks.getLast? (.invalidPlan "empty chunk")
  checkQuorumTip quorumTip agreedHash tip.block
  return blocks

def RpcLiveSource.trustedHash (source : RpcLiveSource) (signedHash : Nat → Option BlockHash)
    (number : Nat) : Option BlockHash :=
  (if source.signed then signedHash number else none).or source.proven[number]?

def checkTrusted (trustedHash : Nat → Option BlockHash) (frames : List (BlockFrame μ)) :
    Except SourceError Unit :=
  match frames.find? fun frame =>
      (trustedHash frame.block.number).any fun hash => hash ≠ frame.block.hash with
  | some frame =>
    .error (.corruptFrame s!"block {frame.block.number} is not on the chain the sequencer signed")
  | none => .ok ()

def fetch (source : RpcLiveSource) (blocks : Nat → Nat → Except SourceError (List (BlockFrame μ)))
    (agreedHash : Nat → Except SourceError (Option BlockHash)) (signedHash : Nat → Option BlockHash)
    (first last : Nat) : Except SourceError (List (BlockFrame μ)) := do
  ensure (first ≤ last) (.invalidPlan s!"block range end {last} precedes start {first}")
  let frames ← fetchRange (blocks first last) agreedHash none (!source.signed)
  checkTrusted (source.trustedHash signedHash) frames
  return frames

/-! ## One round -/

namespace LiveState

variable (source : RpcLiveSource) (state : LiveState μ) (answers : Answers μ)

def remember (block : BlockRef) : LiveState μ :=
  let recent := state.recent ++ [block]
  { state with recent := recent.drop (recent.length - recentBlocks) }

def delivered (number : Nat) : Option BlockRef :=
  state.recent.reverse.find? (·.number = number)

def signedThrough : Option BlockRef :=
  (state.recent.reverse.takeWhile fun block => state.attestedThrough < block.number).find? fun block =>
    source.trustedHash answers.attestedHash block.number = some block.hash

/-- The loop of `fork_point`, over the recent blocks from the newest down. -/
def forkPointFrom (agreedHash : Nat → Except SourceError (Option BlockHash)) :
    List BlockRef → Except SourceError (Option BlockRef)
  | [] => .ok none
  | block :: blocks => do
    let agreed ← agreedHash block.number
    if agreed = some block.hash then return some block else forkPointFrom agreedHash blocks

def forkPoint : Except SourceError (Option BlockRef) :=
  forkPointFrom answers.agreedHash state.recent.reverse

/-- The first part of `advance`: the head, when the known one is not ahead. -/
def readHead : Except SourceError Nat :=
  if state.head < state.next then do
    let latest ← answers.latest
    return if source.signed then answers.newest.elim 0 fun number => min number latest else latest
  else return state.head

def batchLast : Nat :=
  let batch := if batchBlocks ≤ state.head - state.next then catchUpBlocks else batchBlocks
  let last := min state.head (satAdd state.next (batch - 1))
  match Table.firstWhere source.proven fun number _ => state.next ≤ number with
  | some (tip, _) => min last tip
  | none => last

def fetchNext : Except SourceError (List (BlockFrame μ)) :=
  fetch source answers.blocks answers.tip answers.signedHash state.next (state.batchLast source)

def queueBlocks (frames : List (BlockFrame μ)) : LiveState μ :=
  frames.foldl (fun state frame =>
    { state.remember frame.block with
      next := frame.block.number + 1
      pending := state.pending ++ [.block frame] }) state

def revertedAbove (fork : BlockRef) : List BlockRef :=
  (state.recent.filter fun block => fork.number < block.number).reverse

def fetchReplacements (fork : BlockRef) : Except SourceError (List (BlockFrame μ)) :=
  fetch source answers.replacements answers.replacementTip answers.replacementSignedHash
    (fork.number + 1) (min state.head (satAdd fork.number batchBlocks))

/-- The end of `reorg`: the blocks above the fork point are replaced. -/
def replaceAbove (fork : BlockRef) (applied : List (BlockFrame μ)) : LiveState μ :=
  let kept := { state with recent := state.recent.filter fun block => block.number ≤ fork.number }
  let grown := applied.foldl (fun state frame =>
    { state.remember frame.block with next := frame.block.number + 1 }) kept
  { grown with
    attestedThrough := min state.attestedThrough fork.number
    pending := state.pending ++ [.reorg (state.revertedAbove fork) applied] }

def reorg : Except SourceError (LiveState μ) := do
  let found ← state.forkPoint answers
  let fork ← required found
    (.disconnected s!"the endpoints' chain left the last {state.recent.length} delivered blocks")
  let applied ← state.fetchReplacements source answers fork
  return state.replaceAbove fork applied

def links (frames : List (BlockFrame μ)) : Bool :=
  match state.recent.getLast?, frames.head? with
  | some tip, some first => first.block.parentHash = tip.hash
  | _, _ => true

/-- The second part of `advance`: the next batch, or what replaces delivered blocks. -/
def advanceBlocks : Except SourceError (LiveState μ) :=
  if state.next ≤ state.head then do
    let frames ← state.fetchNext source answers
    if state.links frames then return state.queueBlocks frames else state.reorg source answers
  else return state

def attest (block : BlockRef) : LiveState μ :=
  { state with
    attestedThrough := block.number
    pending := state.pending ++ [.attested block] }

/-- The last part of `advance`: what is attested, by a signature or by the safe block. -/
def advanceAttested : LiveState μ × Except SourceError Unit :=
  if source.signed then
    match state.signedThrough source answers with
    | some block => (state.attest block, .ok ())
    | none => (state, .ok ())
  else if answers.safePolled then (state, .ok ())
  else
    match answers.safe with
    | .error error => (state, .error error)
    | .ok (safe, safeHash) =>
      let through := min safe (state.next - 1)
      match state.delivered through with
      | some block =>
        if state.attestedThrough < through ∧ (through ≠ safe ∨ block.hash = safeHash) then
          ({ state with
              attestedThrough := through
              pending := state.pending ++ [.attested block] }, .ok ())
        else (state, .ok ())
      | none => (state, .ok ())

def advance : LiveState μ × Except SourceError Unit :=
  match state.readHead source answers with
  | .error error => (state, .error error)
  | .ok head =>
    let state := { state with head }
    match state.advanceBlocks source answers with
    | .error error => (state, .error error)
    | .ok state => state.advanceAttested source answers

end LiveState

/-! ## Runs -/

inductive LaneEvent (μ : Type) where
  | deliver
  | round (answers : Answers μ)

/-- One step of `next_event`: queued events go out before the next round. -/
def step (source : RpcLiveSource) (lane : LiveState μ × List (ChainEvent μ)) :
    LaneEvent μ → Option (LiveState μ × List (ChainEvent μ))
  | .deliver =>
    match lane.1.pending with
    | [] => none
    | event :: pending =>
      if lane.1.terminal then none else some ({ lane.1 with pending }, lane.2 ++ [event])
  | .round answers =>
    if lane.1.pending ≠ [] ∨ lane.1.terminal then none
    else
      match lane.1.advance source answers with
      | (state, .error (.disconnected _)) => some ({ state with terminal := true }, lane.2)
      | (state, _) => some (state, lane.2)

def run (source : RpcLiveSource) (lane : LiveState μ × List (ChainEvent μ)) :
    List (LaneEvent μ) → Option (LiveState μ × List (ChainEvent μ))
  | [] => some lane
  | event :: events => (step source lane event).bind fun lane' => run source lane' events

/-! ## What a consumer sees -/

structure View where
  chain : List BlockRef
  attested : Option Nat
  deriving DecidableEq

/-- Each frame names the block below it as its parent; below the first one stands `tip`. -/
def LinkedOnto : Option BlockRef → List (BlockFrame μ) → Prop
  | _, [] => True
  | tip, frame :: frames =>
    (∀ below ∈ tip, frame.block.parentHash = below.hash) ∧ LinkedOnto (some frame.block) frames

def grow (chain : List BlockRef) (frames : List (BlockFrame μ)) : List BlockRef :=
  (frames.map (·.block)).reverse ++ chain

inductive Consumes : View → ChainEvent μ → View → Prop where
  | block {view : View} {frame : BlockFrame μ} (h : ∀ tip ∈ view.chain.head?, frame.block.parentHash =
      tip.hash) : Consumes view (.block frame) ⟨frame.block :: view.chain, view.attested⟩
  | reorg {reverted kept : List BlockRef} {applied : List (BlockFrame μ)} {attested : Option Nat}
      (hne : reverted ≠ []) (hkept : kept ≠ []) (hlinked : LinkedOnto kept.head? applied) :
      Consumes ⟨reverted ++ kept, attested⟩ (.reorg reverted applied) ⟨grow kept applied, none⟩
  | attested {view : View} {through : BlockRef} (hmem : through ∈ view.chain)
      (h : ∀ last ∈ view.attested, last < through.number) :
      Consumes view (.attested through) ⟨view.chain, some through.number⟩

inductive ConsumesAll : View → List (ChainEvent μ) → View → Prop where
  | nil {view : View} : ConsumesAll view [] view
  | snoc {view next last : View} {events : List (ChainEvent μ)} {event : ChainEvent μ}
      (h : ConsumesAll view events next) (hlast : Consumes next event last) :
      ConsumesAll view (events ++ [event]) last

variable {out : List (ChainEvent μ)}

theorem ConsumesAll.of_append {start view : View} {queued : List (ChainEvent μ)}
    (h : ConsumesAll start (out ++ queued) view) : ∃ view', ConsumesAll start out view' := by
  induction queued using reverseRecOn generalizing view with
  | nil => exact ⟨view, by simpa using h⟩
  | append_singleton queued event ih =>
    rw [← append_assoc] at h
    generalize hevs : out ++ queued ++ [event] = events at h
    cases h with
    | nil => simp at hevs
    | snoc h hlast =>
      obtain ⟨rfl, -⟩ := append_inj' hevs rfl; exact ih h

theorem ConsumesAll.consumes {start view : View} {event : ChainEvent μ}
    (h : ConsumesAll start [event] view) : Consumes start event view := by
  have hnone : ∀ {evs : List (ChainEvent μ)} {view : View}, ConsumesAll start evs view →
      evs = [] → view = start := by
    intro evs view h hevs
    cases h with
    | nil => rfl
    | snoc h hlast => simp at hevs
  generalize hevs : [event] = evs at h
  cases h with
  | nil => cases hevs
  | snoc h hlast =>
    rw [← nil_append [event]] at hevs
    obtain ⟨hfront, hlast'⟩ := append_inj' hevs rfl
    obtain rfl := hnone h hfront.symm; rw [singleton_inj.1 hlast']; exact hlast

/-! ## The recent blocks are the top of the chain -/

structure Top (chain recent : List BlockRef) (next : Nat) : Prop where
  isPrefix : recent.reverse <+: chain
  nonempty : recent = [] → chain = []
  consecutive : recent.IsChain fun a b => b.number = a.number + 1
  next_eq : ∀ tip ∈ recent.getLast?, next = tip.number + 1

variable {recent chain : List BlockRef} {next : Nat}

theorem Top.head?_eq (h : Top chain recent next) : chain.head? = recent.getLast? := by
  cases hrec : recent.reverse with
  | nil =>
    have hnil := reverse_eq_nil_iff.1 hrec; rw [h.nonempty hnil, hnil]; rfl
  | cons tip below =>
    obtain ⟨_, hrest⟩ := h.isPrefix; rw [← hrest, hrec, ← head?_reverse, hrec]; rfl

theorem Top.push (h : Top chain recent next) {block : BlockRef} (hnum : block.number = next) :
    Top (block :: chain)
      ((recent ++ [block]).drop ((recent ++ [block]).length - recentBlocks)) (block.number + 1) := by
  have hconsec : (recent ++ [block]).IsChain fun a b => b.number = a.number + 1 := by
    rw [isChain_append]
    refine ⟨h.consecutive, isChain_singleton _, fun tip htip _ hfst => ?_⟩
    cases hfst; rw [hnum, h.next_eq tip htip]
  have hlt : (recent ++ [block]).length - recentBlocks < (recent ++ [block]).length := by
    rw [length_append, length_singleton, recentBlocks]; omega
  refine ⟨?_, fun hnil => ?_, hconsec.drop _, fun tip htip => ?_⟩
  · have hwhole : (recent ++ [block]).reverse <+: block :: chain := by
      rw [reverse_append, reverse_singleton, singleton_append]
      exact prefix_cons_inj block |>.2 h.isPrefix
    refine List.IsPrefix.trans ?_ hwhole
    rw [List.reverse_prefix]; exact drop_suffix _ _
  · rw [drop_eq_nil_iff] at hnil; omega
  · rw [getLast?_drop, if_neg (by omega), getLast?_concat] at htip; rw [some.inj htip]

/-! ## What a fetch says -/

variable {frames : List (BlockFrame μ)}

theorem checkLinks_eq_ok {frame : BlockFrame μ} {u : Unit} :
    checkLinks (frame :: frames) = .ok u → LinkedOnto (some frame.block) frames := by
  induction frames generalizing frame with
  | nil => exact fun _ => trivial
  | cons second frames ih =>
    intro h
    simp only [checkLinks, eq_ok] at h
    obtain ⟨_, hlink, h⟩ := h
    refine ⟨fun _ hbelow => ?_, ih h⟩
    rw [← some.inj hbelow]; exact hlink

theorem checkTrusted_eq_ok {trustedHash : Nat → Option BlockHash}
    {u : Unit} (h : checkTrusted trustedHash frames = .ok u) :
    ∀ frame ∈ frames, ∀ hash ∈ trustedHash frame.block.number, hash = frame.block.hash := by
  rw [checkTrusted] at h
  split at h
  · cases h
  · rename_i hnone
    intro frame hfrm hash hhash
    have := find?_eq_none.1 hnone frame hfrm; rw [hhash] at this; simpa using this

variable {agreedHash : Nat → Except SourceError (Option BlockHash)}

theorem fetch_eq_ok {src : RpcLiveSource}
    {blks : Nat → Nat → Except SourceError (List (BlockFrame μ))}
    {signedHash : Nat → Option BlockHash} {first last : Nat}
    (h : fetch src blks agreedHash signedHash first last = .ok frames) :
    blks first last = .ok frames ∧
      (∃ frame rest, frames = frame :: rest ∧ LinkedOnto (some frame.block) rest) ∧
      ∀ frame ∈ frames, ∀ hash ∈ src.trustedHash signedHash frame.block.number,
        hash = frame.block.hash := by
  simp only [fetch, fetchRange, eq_ok] at h
  obtain ⟨_, -, _, ⟨served', hserv, _, hlinks, _, -, _, htip, _, -, rfl⟩, _, htrust,
    rfl⟩ := h
  refine ⟨hserv, ?_, checkTrusted_eq_ok htrust⟩
  cases served' with
  | nil => cases htip
  | cons frame rest => exact ⟨frame, rest, rfl, checkLinks_eq_ok hlinks⟩

/-! ## Growing the chain -/

structure Tracks (view : View) (state : LiveState μ) : Prop where
  top : Top view.chain state.recent state.next
  attested : ∀ last ∈ view.attested, last ≤ state.attestedThrough

def Numbered (next : Nat) (frames : List (BlockFrame μ)) : Prop :=
  frames.map (·.block.number) = List.range' next frames.length

theorem Numbered.cons {next : Nat} {frame : BlockFrame μ} {frms : List (BlockFrame μ)}
    (h : Numbered next (frame :: frms)) :
    frame.block.number = next ∧ Numbered (frame.block.number + 1) frms := by
  rw [Numbered, map_cons, length_cons, range'_succ, cons.injEq] at h
  obtain ⟨hfst, hrest⟩ := h; exact ⟨hfst, by rw [Numbered, hfst, hrest]⟩

theorem getLast?_remember (state : LiveState μ) (block : BlockRef) :
    (state.remember block).recent.getLast? = some block := by
  have hlt : (state.recent ++ [block]).length - recentBlocks < (state.recent ++ [block]).length := by
    rw [length_append, length_singleton, recentBlocks]; omega
  rw [LiveState.remember]; rw [getLast?_drop, if_neg (by omega), getLast?_concat]

theorem Top.grown {frms : List (BlockFrame μ)} :
    ∀ {state : LiveState μ} {chain : List BlockRef}, Top chain state.recent state.next →
    Numbered state.next frms → Top (grow chain frms) (frms.foldl (fun state frame =>
          { state.remember frame.block with next := frame.block.number + 1 }) state).recent
        (frms.foldl (fun state frame =>
          { state.remember frame.block with next := frame.block.number + 1 }) state).next := by
  induction frms with
  | nil => exact fun h _ => h
  | cons frame frms ih =>
    intro state chain h hnumbered
    obtain ⟨hfst, hrest⟩ := hnumbered.cons
    have hnext := @ih { state.remember frame.block with next := frame.block.number + 1 } _
      (h.push hfst) hrest
    rw [grow, map_cons, reverse_cons, append_assoc, singleton_append]; exact hnext

theorem Tracks.queueBlocks {start : View} : ∀ {state : LiveState μ} {view : View},
      Tracks view state → ConsumesAll start (out ++ state.pending) view → Numbered state.next frames →
      LinkedOnto state.recent.getLast? frames → ∃ view', Tracks view' (state.queueBlocks frames) ∧
      ConsumesAll start (out ++ (state.queueBlocks frames).pending) view' := by
  induction frames with
  | nil => exact fun {state} {view} h hall _ _ => ⟨view, h, hall⟩
  | cons frame frames ih =>
    intro state view h hall hnumbered hlink
    obtain ⟨hfst, hrest⟩ := hnumbered.cons
    obtain ⟨hpar, hlink⟩ := hlink
    have hconsumes : Consumes view (.block frame) ⟨frame.block :: view.chain, view.attested⟩ := by
      refine .block fun tip htip => hpar tip ?_
      rw [← h.top.head?_eq]; exact htip
    refine @ih { state.remember frame.block with
        next := frame.block.number + 1
        pending := state.pending ++ [.block frame] }
      ⟨frame.block :: view.chain, view.attested⟩ ⟨h.top.push hfst, h.attested⟩ ?_ hrest ?_
    · rw [← append_assoc]; exact .snoc hall hconsumes
    · rw [show ({ state.remember frame.block with
          next := frame.block.number + 1
          pending := state.pending ++ [.block frame] } : LiveState μ).recent.getLast? =
            some frame.block from getLast?_remember state frame.block]
      exact hlink

/-! ## Replacing blocks -/

variable {fork : BlockRef}

theorem forkPointFrom_eq_ok {blks : List BlockRef} (h : LiveState.forkPointFrom agreedHash blks =
    .ok (some fork)) : fork ∈ blks ∧ agreedHash fork.number = .ok (some fork.hash) := by
  induction blks with
  | nil => cases h
  | cons block blks ih =>
    rw [LiveState.forkPointFrom, bind_eq_ok] at h
    obtain ⟨_, hagreed, h⟩ := h
    split at h
    · rename_i heq
      rw [pure_eq_ok, some.injEq] at h
      subst h; exact ⟨mem_cons_self, heq ▸ hagreed⟩
    · obtain ⟨hmem, hfork⟩ := ih h; exact ⟨mem_cons_of_mem _ hmem, hfork⟩

theorem split_at (hconsec : recent.IsChain fun a b => b.number = a.number + 1)
    (hfork : fork ∈ recent) : ∃ below above,
    recent = below ++ fork :: above ∧ (recent.filter fun block => block.number ≤ fork.number) =
    below ++ [fork] ∧ (recent.filter fun block => fork.number < block.number) = above := by
  have hsort : recent.Pairwise fun a b => a.number < b.number := by
    rw [← isChain_iff_pairwise (R := fun a b : BlockRef => a.number < b.number)]
    exact hconsec.imp fun a b _ => by omega
  obtain ⟨below, above, rfl⟩ := append_of_mem hfork
  rw [pairwise_append, pairwise_cons] at hsort
  obtain ⟨-, ⟨habove, -⟩, hbelow⟩ := hsort
  have hlow : ∀ block ∈ below, block.number < fork.number :=
    fun block hblk => hbelow block hblk fork mem_cons_self
  refine ⟨below, above, rfl, ?_, ?_⟩
  · rw [filter_append, filter_cons_of_pos (by simp),
      filter_eq_self.2 fun block hblk => decide_eq_true (hlow block hblk).le,
      filter_eq_nil_iff.2 fun block hblk => by simpa using habove block hblk]
  · rw [filter_append, filter_cons_of_neg (by simp),
      filter_eq_nil_iff.2 fun block hblk => by simpa using (hlow block hblk).le,
      filter_eq_self.2 fun block hblk => decide_eq_true (habove block hblk), nil_append]

theorem Tracks.replaceAbove {start view : View} {state : LiveState μ}
    {applied : List (BlockFrame μ)} (h : Tracks view state)
    (hall : ConsumesAll start (out ++ state.pending) view) (hfork : fork ∈ state.recent)
    (hbelow : ∀ tip ∈ state.recent.getLast?, tip ≠ fork) (happ : applied ≠ [])
    (hlink : LinkedOnto (some fork) applied) (hnumbered : Numbered (fork.number + 1) applied) :
    ∃ view', Tracks view' (state.replaceAbove fork applied) ∧
      ConsumesAll start (out ++ (state.replaceAbove fork applied).pending) view' := by
  obtain ⟨below, above, hrec, hkeep, hcut⟩ := split_at h.top.consecutive hfork
  obtain ⟨rest, hrest⟩ := h.top.isPrefix
  have habove : above ≠ [] := by
    rintro rfl
    refine hbelow fork ?_ rfl
    rw [hrec, getLast?_append_cons, getLast?_singleton]; rfl
  -- The chain, with the fork point on top of what stays.
  have hchain : view.chain = above.reverse ++ (fork :: (below.reverse ++ rest)) := by
    rw [← hrest, hrec, reverse_append, reverse_cons]; simp
  have hkept : Top (fork :: (below.reverse ++ rest)) (below ++ [fork]) (fork.number + 1) := by
    have hconsec := h.top.consecutive
    rw [hrec, ← singleton_append, ← append_assoc] at hconsec
    refine ⟨?_, by simp, hconsec.left_of_append, fun tip htip => ?_⟩
    · rw [reverse_append, reverse_singleton, singleton_append]
      exact prefix_cons_inj fork |>.2 (prefix_append _ _)
    · rw [getLast?_concat] at htip; rw [some.inj htip]
  -- The next height is set by the first of the replacing blocks.
  have htop := @Top.grown μ applied
    { state with recent := below ++ [fork], next := fork.number + 1 } _ hkept hnumbered
  have hsame : (state.replaceAbove fork applied).recent =
      (applied.foldl (fun (state : LiveState μ) (frame : BlockFrame μ) =>
        { state.remember frame.block with next := frame.block.number + 1 })
        { state with recent := below ++ [fork], next := fork.number + 1 }).recent ∧
      (state.replaceAbove fork applied).next =
      (applied.foldl (fun (state : LiveState μ) (frame : BlockFrame μ) =>
        { state.remember frame.block with next := frame.block.number + 1 })
        { state with recent := below ++ [fork], next := fork.number + 1 }).next := by
    rw [LiveState.replaceAbove, hkeep]
    cases applied with
    | nil => exact absurd rfl happ
    | cons frame frames => exact ⟨rfl, rfl⟩
  rw [← hsame.1, ← hsame.2] at htop
  refine ⟨⟨grow (fork :: (below.reverse ++ rest)) applied, none⟩, ⟨htop, nofun⟩, ?_⟩
  have hconsumes : Consumes view (.reorg (state.revertedAbove fork) applied)
      ⟨grow (fork :: (below.reverse ++ rest)) applied, none⟩ := by
    obtain ⟨chain, _⟩ := view
    obtain rfl : chain = above.reverse ++ (fork :: (below.reverse ++ rest)) := hchain
    rw [LiveState.revertedAbove, hcut]; exact .reorg (by simpa using habove) (cons_ne_nil _ _) hlink
  change ConsumesAll start (out ++ (state.pending ++ [.reorg (state.revertedAbove fork) applied])) _
  rw [← append_assoc]; exact .snoc hall hconsumes

/-! ## One round -/

structure Answers.Served (answers : Answers μ) : Prop where
  blocks : ∀ {first last frames}, answers.blocks first last = .ok frames → Numbered first frames
  replacements : ∀ {first last frames}, answers.replacements first last = .ok frames →
    Numbered first frames

/-- In a round whose batch does not link to the tip, the quorum does not have the tip at its height
again, and the first block served above the fork point names it as its parent: the endpoints' chain
does not move between the calls of the round. -/
def Steady (source : RpcLiveSource) (state : LiveState μ) (answers : Answers μ) : Prop :=
  ∀ head frames, state.readHead source answers = .ok head → state.next ≤ head →
    { state with head }.fetchNext source answers = .ok frames →
      { state with head }.links frames = false →
        (∀ tip ∈ state.recent.getLast?, answers.agreedHash tip.number ≠ .ok (some tip.hash)) ∧
        ∀ fork applied, state.forkPoint answers = .ok (some fork) →
          { state with head }.fetchReplacements source answers fork = .ok applied →
            ∀ first ∈ applied.head?, first.block.parentHash = fork.hash

section Rounds

variable {source : RpcLiveSource} {state state' : LiveState μ} {answers : Answers μ} {start view : View}
  {out : List (ChainEvent μ)}

theorem Tracks.advanceBlocks {head : Nat} (h : Tracks view state)
    (hall : ConsumesAll start (out ++ state.pending) view) (hserv : answers.Served)
    (hsteady : Steady source state answers) (hhead : state.readHead source answers = .ok head)
    (hadv : { state with head }.advanceBlocks source answers = .ok state') :
    ∃ view', Tracks view' state' ∧ ConsumesAll start (out ++ state'.pending) view' := by
  rw [LiveState.advanceBlocks] at hadv
  split at hadv
  · rename_i hnext
    rw [bind_eq_ok] at hadv
    obtain ⟨_, hfetch, hadv⟩ := hadv
    obtain ⟨hblks, ⟨_, _, rfl, hrest⟩, -⟩ := fetch_eq_ok hfetch
    have htracks : Tracks view { state with head } := ⟨h.top, h.attested⟩
    split at hadv
    · rename_i hlinks
      rw [pure_eq_ok] at hadv
      subst hadv
      refine htracks.queueBlocks hall (hserv.blocks hblks) ⟨fun tip htip => ?_, hrest⟩
      rw [LiveState.links, htip] at hlinks; exact of_decide_eq_true hlinks
    · rename_i hlinks
      obtain ⟨htip, hfirst⟩ := hsteady head _ hhead hnext hfetch (Bool.eq_false_iff.2 hlinks)
      rw [LiveState.reorg, bind_eq_ok] at hadv
      obtain ⟨_, hfound, hadv⟩ := hadv
      simp only [eq_ok] at hadv
      obtain ⟨fork, rfl, applied, happ, rfl⟩ := hadv
      obtain ⟨hfork, hagreed⟩ := forkPointFrom_eq_ok hfound
      have hpar := hfirst fork applied hfound happ
      obtain ⟨hreplacements, ⟨frame', _, rfl, hrest'⟩, -⟩ := fetch_eq_ok happ
      refine htracks.replaceAbove hall (mem_reverse.1 hfork) (fun tip hlast heq => ?_)
        (cons_ne_nil _ _) ⟨fun _ hbelow => ?_, hrest'⟩ (hserv.replacements hreplacements)
      · rw [← heq] at hagreed; exact htip tip hlast hagreed
      · rw [← some.inj hbelow]; exact hpar frame' rfl
  · rw [pure_eq_ok] at hadv
    subst hadv; exact ⟨view, ⟨h.top, h.attested⟩, hall⟩

variable {block : BlockRef}

theorem Tracks.attest (h : Tracks view state)
    (hall : ConsumesAll start (out ++ state.pending) view) (hblk : block ∈ state.recent)
    (hlt : state.attestedThrough < block.number) : ∃ view', Tracks view' (state.attest block) ∧
      ConsumesAll start (out ++ (state.attest block).pending) view' := by
  have hmem := h.top.isPrefix.subset (mem_reverse.2 hblk)
  refine ⟨⟨view.chain, some block.number⟩, ⟨h.top, fun last hlast => ?_⟩, ?_⟩
  · rw [← some.inj hlast]; exact le_rfl
  · change ConsumesAll start (out ++ (state.pending ++ [.attested block])) _
    rw [← append_assoc]
    refine .snoc hall (.attested hmem fun last hlast => ?_)
    exact Nat.lt_of_le_of_lt (h.attested last hlast) hlt

theorem signedThrough_eq_some (h : state.signedThrough source answers = some block) :
    block ∈ state.recent ∧ state.attestedThrough < block.number ∧
      source.trustedHash answers.attestedHash block.number = some block.hash := by
  rw [LiveState.signedThrough] at h
  have hmem := mem_of_find?_eq_some h
  refine ⟨mem_reverse.1 (takeWhile_subset _ hmem), ?_, by simpa using find?_some h⟩
  simpa using mem_takeWhile_imp hmem

theorem delivered_eq_some {num : Nat}
    (h : state.delivered num = some block) : block ∈ state.recent ∧ block.number = num := by
  rw [LiveState.delivered] at h
  exact ⟨mem_reverse.1 (mem_of_find?_eq_some h), by simpa using find?_some h⟩

theorem Tracks.advanceAttested (h : Tracks view state)
    (hall : ConsumesAll start (out ++ state.pending) view) :
    ∃ view', Tracks view' (state.advanceAttested source answers).1 ∧
      ConsumesAll start (out ++ (state.advanceAttested source answers).1.pending) view' := by
  rw [LiveState.advanceAttested]
  split
  · split
    · rename_i block hblk
      obtain ⟨hmem, hlt, -⟩ := signedThrough_eq_some hblk; exact h.attest hall hmem hlt
    · exact ⟨view, h, hall⟩
  split
  · exact ⟨view, h, hall⟩
  split
  · exact ⟨view, h, hall⟩
  · rename_i safe safeHash hsafe
    dsimp only
    split
    · rename_i block hblk
      obtain ⟨hmem, hnum⟩ := delivered_eq_some hblk
      split
      · rename_i hready; rw [← hnum] at hready ⊢; exact h.attest hall hmem hready.1
      · exact ⟨view, h, hall⟩
    · exact ⟨view, h, hall⟩

theorem Tracks.advance (h : Tracks view state)
    (hall : ConsumesAll start (out ++ state.pending) view) (hserv : answers.Served)
    (hsteady : Steady source state answers) : ∃ view', Tracks view' (state.advance source answers).1 ∧
    ConsumesAll start (out ++ (state.advance source answers).1.pending) view' := by
  rw [LiveState.advance]
  split
  · exact ⟨view, h, hall⟩
  · rename_i head hhead
    dsimp only
    split
    · exact ⟨view, ⟨h.top, h.attested⟩, hall⟩
    · rename_i state' hadv
      obtain ⟨view', h', hall'⟩ := h.advanceBlocks hall hserv hsteady hhead hadv
      exact h'.advanceAttested hall'

end Rounds

/-! ## What is signed -/

structure Answers.SignedBy (signed : Nat → Option BlockHash) (answers : Answers μ) : Prop where
  signedHash : answers.signedHash = signed
  replacementSignedHash : answers.replacementSignedHash = signed
  attestedHash : answers.attestedHash = signed

def ChainEvent.Trusted (source : RpcLiveSource) (signed : Nat → Option BlockHash) :
    ChainEvent μ → Prop
  | .block frame => ∀ hash ∈ source.trustedHash signed frame.block.number, hash = frame.block.hash
  | .reorg _ applied =>
    ∀ frame ∈ applied, ∀ hash ∈ source.trustedHash signed frame.block.number, hash = frame.block.hash
  | .attested through =>
    source.signed → source.trustedHash signed through.number = some through.hash

section Signed

variable {source : RpcLiveSource} {signed : Nat → Option BlockHash} {state state' : LiveState μ}
  {answers : Answers μ}

theorem pending_queueBlocks {frms : List (BlockFrame μ)} : ∀ {state : LiveState μ},
      (state.queueBlocks frms).pending = state.pending ++ frms.map .block := by
  induction frms with
  | nil => simp [LiveState.queueBlocks]
  | cons frame frms ih =>
    intro state
    have hnext := @ih { state.remember frame.block with
      next := frame.block.number + 1
      pending := state.pending ++ [.block frame] }
    rw [append_assoc] at hnext; exact hnext

theorem trusted_snoc {evs : List (ChainEvent μ)} {event : ChainEvent μ}
    (h : ∀ event ∈ evs, event.Trusted source signed) (hev : event.Trusted source signed) :
    ∀ event' ∈ evs ++ [event], event'.Trusted source signed := by
  intro event' hmem
  obtain hold | hlast := mem_append.1 hmem
  · exact h event' hold
  · rw [mem_singleton.1 hlast]; exact hev

section

variable (h : ∀ event ∈ state.pending, event.Trusted source signed)
  (hsigned : answers.SignedBy signed)

include h hsigned

theorem trusted_advanceBlocks (hadv : state.advanceBlocks source answers = .ok state') :
    ∀ event ∈ state'.pending, event.Trusted source signed := by
  rw [LiveState.advanceBlocks] at hadv
  split at hadv
  · rw [bind_eq_ok] at hadv
    obtain ⟨_, hfetch, hadv⟩ := hadv
    split at hadv
    · rw [pure_eq_ok] at hadv
      subst hadv
      rw [pending_queueBlocks]
      intro event hev
      obtain hold | hnew := mem_append.1 hev
      · exact h event hold
      · obtain ⟨frame, hframe, rfl⟩ := mem_map.1 hnew
        have htrust := (fetch_eq_ok hfetch).2.2 frame hframe
        rw [hsigned.signedHash] at htrust; exact htrust
    · simp only [LiveState.reorg, eq_ok] at hadv
      obtain ⟨_, -, _, -, _, happ, rfl⟩ := hadv
      have htrust := (fetch_eq_ok happ).2.2
      rw [hsigned.replacementSignedHash] at htrust
      refine trusted_snoc h ?_
      exact htrust
  · rw [pure_eq_ok] at hadv
    subst hadv; exact h

theorem trusted_advanceAttested :
    ∀ event ∈ (state.advanceAttested source answers).1.pending, event.Trusted source signed := by
  rw [LiveState.advanceAttested]
  split
  · split
    · rename_i block hblk
      have htrust := (signedThrough_eq_some hblk).2.2
      rw [hsigned.attestedHash] at htrust
      refine trusted_snoc h ?_
      exact fun _ => htrust
    · exact h
  rename_i hunsigned
  split
  · exact h
  split
  · exact h
  · dsimp only
    split
    · split
      · refine trusted_snoc h ?_
        exact fun hsrc => absurd hsrc hunsigned
      · exact h
    · exact h

theorem trusted_advance :
    ∀ event ∈ (state.advance source answers).1.pending, event.Trusted source signed := by
  rw [LiveState.advance]
  split
  · exact h
  · dsimp only
    split
    · exact h
    · rename_i hadv
      refine trusted_advanceAttested (trusted_advanceBlocks ?_ hsigned hadv) hsigned
      exact h

end

end Signed

/-! ## Whole runs -/

def LiveStart.Canonical : LiveStart → Prop
  | .retainedCanonical canonical =>
    (canonical.IsChain fun a b => b.number = a.number + 1) ∧
      ∀ tip ∈ canonical.getLast?, tip.number < u64Max
  | .block _ | .anchoredOverlap .. | .head _ => True

def LiveStart.view (start : LiveStart) : View := ⟨start.resume.1.reverse, none⟩

def SteadyRun (source : RpcLiveSource) : LiveState μ × List (ChainEvent μ) → List (LaneEvent μ) → Prop
  | _, [] => True
  | lane, event :: events =>
    (∀ answers, event = .round answers → Steady source lane.1 answers) ∧
      ∀ lane', step source lane event = some lane' → SteadyRun source lane' events

section Runs

variable {source : RpcLiveSource} {lane lane' : LiveState μ × List (ChainEvent μ)}
  {event : LaneEvent μ} {events : List (LaneEvent μ)} {start : View}

theorem tracks_start {start : LiveStart} (h : start.Canonical) :
    Tracks start.view (.start start : LiveState μ) := by
  refine ⟨⟨prefix_rfl, fun hnil => ?_, ?_, ?_⟩, nofun⟩
  · rw [LiveStart.view, show start.resume.1 = [] from hnil]; rfl
  · cases start with
    | block tip => exact isChain_singleton tip
    | retainedCanonical canonical => exact h.1
    | anchoredOverlap anchor overlapBlocks => exact isChain_nil
    | head number => exact isChain_nil
  · intro tip htip
    cases start with
    | block tip' => rw [← some.inj htip]; rfl
    | retainedCanonical canonical =>
      have hlast : canonical.getLast? = some tip := htip
      have hlt := h.2 tip hlast
      change canonical.getLast?.elim 0 (fun tip => satAdd tip.number 1) = tip.number + 1
      rw [hlast, elim_some, satAdd]; omega
    | anchoredOverlap anchor overlapBlocks => cases htip
    | head number => cases htip

theorem step_cases (h : step source lane event = some lane') :
    (∃ delivered pending, event = .deliver ∧ lane.1.pending = delivered :: pending ∧
    lane' = ({ lane.1 with pending }, lane.2 ++ [delivered])) ∨ (∃ answers terminal, event =
    .round answers ∧ lane' = ({ (lane.1.advance source answers).1 with terminal }, lane.2)) := by
  cases event with
  | deliver =>
    rw [step] at h
    split at h
    · cases h
    · rename_i delivered pending hpend
      split at h
      · cases h
      · exact .inl ⟨delivered, pending, rfl, hpend, (some.inj h).symm⟩
  | round answers =>
    rw [step] at h
    split at h
    · cases h
    · split at h
      · rename_i state detail hadv
        refine .inr ⟨answers, true, rfl, ?_⟩
        rw [hadv]; exact (some.inj h).symm
      · rename_i hadv
        refine .inr ⟨answers, (lane.1.advance source answers).1.terminal, rfl, ?_⟩
        rw [hadv]; exact (some.inj h).symm

def Linked (start : View) (lane : LiveState μ × List (ChainEvent μ)) : Prop :=
  ∃ view, Tracks view lane.1 ∧ ConsumesAll start (lane.2 ++ lane.1.pending) view

theorem Linked.step (h : Linked start lane) (hserv : ∀ answers, event = .round answers →
    answers.Served) (hsteady : ∀ answers, event = .round answers → Steady source lane.1 answers)
    (hstep : step source lane event = some lane') : Linked start lane' := by
  obtain ⟨view, htracks, hall⟩ := h
  obtain ⟨_, _, rfl, hpend, rfl⟩ | ⟨answers, _, rfl, rfl⟩ :=
    step_cases hstep
  · refine ⟨view, ⟨htracks.top, htracks.attested⟩, ?_⟩
    rw [hpend] at hall; rw [append_assoc]; exact hall
  · obtain ⟨view', htracks', hall'⟩ :=
      htracks.advance hall (hserv answers rfl) (hsteady answers rfl)
    exact ⟨view', ⟨htracks'.top, htracks'.attested⟩, hall'⟩

theorem Linked.run (hserv : ∀ ans, .round ans ∈ events → ans.Served) :
    ∀ {lane : LiveState μ × List (ChainEvent μ)}, Linked start lane →
      SteadyRun source lane events → run source lane events = some lane' → Linked start lane' := by
  induction events with
  | nil =>
    intro lane h _ hrun; rw [← some.inj hrun]; exact h
  | cons event events ih =>
    intro lane h hsteady hrun
    rw [LiveStream.run, bind_eq_some_iff] at hrun
    obtain ⟨next, hstep, hrun⟩ := hrun
    refine ih (fun ans hmem => hserv ans (mem_cons_of_mem _ hmem)) ?_
      (hsteady.2 next hstep) hrun
    refine h.step (fun ans heq => hserv ans ?_) hsteady.1 hstep
    rw [heq]; exact mem_cons_self

def TrustedLane (source : RpcLiveSource) (signed : Nat → Option BlockHash)
    (lane : LiveState μ × List (ChainEvent μ)) : Prop :=
  (∀ event ∈ lane.1.pending, event.Trusted source signed) ∧
    ∀ event ∈ lane.2, event.Trusted source signed

theorem TrustedLane.step {signed : Nat → Option BlockHash} (h : TrustedLane source signed lane)
    (hsigned : ∀ answers, event = .round answers → answers.SignedBy signed)
    (hstep : step source lane event = some lane') : TrustedLane source signed lane' := by
  obtain ⟨_, _, rfl, hpend, rfl⟩ | ⟨answers, _, rfl, rfl⟩ :=
    step_cases hstep
  · have hqueued := h.1
    rw [hpend, forall_mem_cons] at hqueued
    refine ⟨hqueued.2, ?_⟩
    exact trusted_snoc h.2 hqueued.1
  · exact ⟨trusted_advance h.1 (hsigned answers rfl), h.2⟩

theorem TrustedLane.run {signed : Nat → Option BlockHash}
    (hsigned : ∀ ans, .round ans ∈ events → ans.SignedBy signed) :
    ∀ {lane : LiveState μ × List (ChainEvent μ)}, TrustedLane source signed lane →
      run source lane events = some lane' → TrustedLane source signed lane' := by
  induction events with
  | nil =>
    intro lane h hrun; rw [← some.inj hrun]; exact h
  | cons event events ih =>
    intro lane h hrun
    rw [LiveStream.run, bind_eq_some_iff] at hrun
    obtain ⟨_, hstep, hrun⟩ := hrun
    refine ih (fun ans hmem => hsigned ans (mem_cons_of_mem _ hmem)) ?_ hrun
    refine h.step (fun ans heq => hsigned ans ?_) hstep
    rw [heq]; exact mem_cons_self

end Runs

def plainFrame (number : Nat) (hash parent : BlockHash) : BlockFrame Unit where
  chainId := 1
  block := ⟨number, hash, parent, 0⟩
  finality := .unattested
  transactions := .missing ()
  receipts := .missing ()
  otherMaterial := ()
  provenance := ()
  verification := ⟨false, none, ()⟩

def serve (frames : List (BlockFrame Unit)) (first last : Nat) :
    Except SourceError (List (BlockFrame Unit)) :=
  if frames.map (·.block.number) = List.range' first (last + 1 - first) then .ok frames
  else .error .cancelled

def movingRound (agreed : BlockHash) (batch replacements : List (BlockFrame Unit)) :
    Answers Unit where
  latest := .ok 6
  newest := none
  blocks := serve batch
  tip := fun _ => .ok (batch.getLast?.map (·.block.hash))
  signedHash := fun _ => none
  agreedHash := fun number => .ok (some (if number = 4 then 104 else agreed))
  replacements := serve replacements
  replacementTip := fun _ => .ok (replacements.getLast?.map (·.block.hash))
  replacementSignedHash := fun _ => none
  attestedHash := fun _ => none
  safePolled := true
  safe := .error .cancelled

def movingStart : LiveStart := .retainedCanonical [⟨4, 104, 103, 0⟩, ⟨5, 105, 104, 0⟩]

theorem serve_eq_ok {frms served : List (BlockFrame Unit)} {first last : Nat}
    (h : serve frms first last = .ok served) : served = frms ∧ Numbered first served := by
  rw [serve] at h
  split at h
  · rename_i hnums
    cases h
    have hlen := congrArg length hnums
    rw [length_map, length_range'] at hlen
    refine ⟨rfl, ?_⟩
    rw [Numbered, hlen]; exact hnums
  · cases h

theorem served_movingRound (agreed : BlockHash) (batch replacements : List (BlockFrame Unit)) :
    (movingRound agreed batch replacements).Served where
  blocks := fun h => (serve_eq_ok h).2
  replacements := fun h => (serve_eq_ok h).2

def stillRound : Answers Unit :=
  movingRound 205 [plainFrame 6 206 205] [plainFrame 5 205 104, plainFrame 6 206 205]

end Leani.Rpc.LiveStream
