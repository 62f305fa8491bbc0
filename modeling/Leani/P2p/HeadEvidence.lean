import Leani.P2p.HeadLane
import Mathlib.Data.Finset.Insert
import Mathlib.Data.Finset.Card

/-!
# What the unattested level rests on

A block accepted at the head before an attested head covers it is one that a quorum of peers serves
and that passes the header rules against its parent, alone or as a part of a branch.
-/

namespace Leani.P2p.HeadEvidence

open Library Headers Beacon AttestedAncestry HeadLane List Option LiveState

variable {μ : Type}

/-! ## Votes -/

def headPeerQuorum : Nat := 2

structure HeadVotes where
  block : Option Nat
  byHash : BlockHash → Option (Header × Finset PeerId)

structure Vote where
  block : Nat
  peer : PeerId
  header : Header

namespace HeadVotes

def empty : HeadVotes := ⟨none, fun _ => none⟩

def forBlock (votes : HeadVotes) (block : Nat) : HeadVotes :=
  if votes.block = some block then votes else ⟨some block, fun _ => none⟩

variable (hashing : Hashing)

def counted (votes : HeadVotes) (vote : Vote) : Header × Finset PeerId :=
  match votes.byHash (hashing.hashSlow vote.header) with
  | some (agreed, peers) => (agreed, insert vote.peer peers)
  | none => (vote.header, {vote.peer})

/-- Record a peer's header. It comes back once `quorum` distinct peers served the same one. -/
def record (votes : HeadVotes) (quorum : Nat) (vote : Vote) : HeadVotes × Option Header :=
  let votes := votes.forBlock vote.block
  let entry := votes.counted hashing vote
  ({ votes with
      byHash := Function.update votes.byHash (hashing.hashSlow vote.header) (some entry) },
    if quorum ≤ entry.2.card then some entry.1 else none)

def recordAll (quorum : Nat) (votes : List Vote) : HeadVotes :=
  votes.foldl (fun state vote => (state.record hashing quorum vote).1) .empty

end HeadVotes

/-! ## Header rules -/

/-- What the chain says of a header: the fields the rules read, its slot, and Ethereum's own header
rules, where the chain has them. -/
structure ChainRules (μ : Type) where
  timestamp : Header → Nat
  slotNumber : Header → Option Nat
  parentBeaconBlockRoot : Header → Option Root
  blobGasUsed : Header → Option Nat
  slot : Nat → Nat → Option Nat
  consensus : Option (Header → Header → HeaderVerdict)
  blobs : TransactionEnvelope μ → Nat
  frameHeader : BlockFrame μ → Option Header

def maxClockSkewSeconds : Nat := 2

def lateRevealAfter : Nat := 7

def dataGasPerBlob : Nat := 131072

namespace ChainRules

variable (hashing : Hashing) (rules : ChainRules μ)

def headerSlot (header : Header) : Option Nat := rules.slot header.number (rules.timestamp header)

def slotNumberFault (header parent : Header) (slot : Nat) : Option String :=
  match rules.slotNumber header with
  | none => none
  | some number =>
    if number ≠ slot then some s!"slot number {number} is not the timestamp's slot {slot}"
    else if (rules.slotNumber parent).any fun below => number ≤ below then
      some s!"slot number {number} does not follow its parent's"
    else none

def check (header parent : Header) (now : Nat) (attestedParentRoot : Option Root) :
    HeaderVerdict :=
  match rules.headerSlot header with
  | none =>
    .invalid (s!"timestamp {rules.timestamp header} is not the start of block " ++
      s!"{header.number}'s slot")
  | some slot =>
    if satAdd now maxClockSkewSeconds < rules.timestamp header then
      .invalid s!"slot {slot} has not started"
    else
      match rules.slotNumberFault header parent slot with
      | some reason => .invalid reason
      | none =>
        match rules.consensus with
        | none =>
          if header.number = parent.number + 1 ∧ header.parentHash = hashing.hashSlow parent then
            .valid
          else .invalid "header does not follow its parent"
        | some consensus =>
          match attestedParentRoot, rules.parentBeaconBlockRoot header with
          | some expected, some root =>
            if root ≠ expected then .invalid "parent beacon block root is not the attested one"
            else consensus header parent
          | _, _ => consensus header parent

def lateReveal (header : Header) (now : Nat) : Bool :=
  lateRevealAfter < now - rules.timestamp header

def branchPasses (attested : AttestedHead) (now : Nat) : List Header → Bool
  | parent :: header :: branch =>
    (rules.headerSlot header).any (fun slot => slot - attested.beaconSlot ≤ maxUnattestedSlots) &&
      rules.check hashing header parent now none = .valid &&
      branchPasses attested now (header :: branch)
  | _ => true

def acceptsBranch (headers : List Header) (attested : Option AttestedHead) (now : Nat) : Bool :=
  match attested, headers.getLast? with
  | some attested, some tip =>
    2 ≤ headers.length && !rules.lateReveal tip now && rules.branchPasses hashing attested now headers
  | _, _ => false

def blobGasMatches (header : Header) (frame : BlockFrame μ) : Bool :=
  match frame.transactions with
  | .complete transactions =>
    (rules.blobGasUsed header).getD 0 =
      min (dataGasPerBlob * (transactions.map rules.blobs).sum) u64Max
  | _ => true

def forLane : HeadLane.HeaderRules μ where
  headerSlot := rules.headerSlot
  check := rules.check hashing
  acceptsBranch := rules.acceptsBranch hashing
  lateReveal := rules.lateReveal
  blobGasMatches := rules.blobGasMatches
  frameHeader := rules.frameHeader

end ChainRules

/-! ## Evidence -/

def QuorumServed (hashing : Hashing) (served : Vote → Prop) (hash : BlockHash) : Prop :=
  ∃ peers : Finset PeerId, headPeerQuorum ≤ peers.card ∧
    ∀ peer ∈ peers, ∃ vote, served vote ∧ vote.peer = peer ∧ hashing.hashSlow vote.header = hash

def parentRoot (attested : Option AttestedHead) (slot : Nat) : Option Root :=
  (attested.filter fun head => satAdd head.beaconSlot 1 = slot).map (·.beaconBlockRoot)

structure Rests (hashing : Hashing) (rules : ChainRules μ) (served : Vote → Prop)
    (parentOf : BlockHash → BlockHash) (answers : Answers μ) (frame : BlockFrame μ)
    (header parent : Header) : Prop where
  isFrame : frame.block.hash = hashing.hashSlow header
  isParent : frame.block.parentHash = hashing.hashSlow parent
  quorum : ∃ head steps, QuorumServed hashing served head ∧ parentOf^[steps] head = frame.block.hash
  slots : ∃ slot, rules.headerSlot header = some slot ∧
    rules.check hashing header parent answers.now (parentRoot answers.judged slot) = .valid ∧
    ∃ attested ∈ answers.judged, slot - attested.beaconSlot ≤ maxUnattestedSlots
  late : rules.lateReveal header answers.now →
    ∃ child : Header, child.parentHash = hashing.hashSlow header ∧
    ∃ head steps, QuorumServed hashing served head ∧ parentOf^[steps] head = hashing.hashSlow child
  blobs : rules.blobGasMatches header frame

structure Evidenced (hashing : Hashing) (served : Vote → Prop)
    (parentOf : BlockHash → BlockHash) (answers : Answers μ) : Prop where
  parents : ∀ vote, served vote → parentOf (hashing.hashSlow vote.header) = vote.header.parentHash
  header : ∀ block header, answers.header block = .ok header → ∃ votes vote,
    (∀ cast ∈ votes ++ [vote], served cast) ∧
      ((HeadVotes.recordAll hashing headPeerQuorum votes).record hashing headPeerQuorum vote).2 =
        some header
  child : ∀ block header, answers.child block = .ok header → ∃ votes vote,
    (∀ cast ∈ votes ++ [vote], served cast) ∧
      ((HeadVotes.recordAll hashing headPeerQuorum votes).record hashing headPeerQuorum vote).2 =
        some header
  headerByHash : ∀ hash header, answers.headerByHash hash = .ok header →
    hashing.hashSlow header = hash
  frame : ∀ header frame, answers.frame header = .ok (some frame) →
    frame.block.hash = hashing.hashSlow header ∧ frame.block.parentHash = header.parentHash
  descending : ∀ number hash trust headers,
    answers.descending number hash trust = .ok headers → headers.head?.map hashing.hashSlow =
    some hash ∧ (∀ header ∈ headers, parentOf (hashing.hashSlow header) = header.parentHash) ∧
    headers.head?.map (·.number) = some number ∧ headers.IsChain fun newer older =>
        newer.number = satAdd older.number 1 ∧ newer.parentHash = hashing.hashSlow older
  range : ∀ range tip frames, answers.range range tip = .ok frames → frames.length =
    rangeLen range ∧ (∀ frame ∈ frames, frame.finality = .attested) ∧ (∀ frame ∈ frames,
    parentOf frame.block.hash = frame.block.parentHash) ∧ frames.getLast?.map (·.block.hash) =
    some tip.hash ∧ frames.IsChain fun older newer => newer.block.parentHash = older.block.hash
  material : ∀ range headers frames, answers.material range headers = .ok frames →
    ∀ frame ∈ frames, frame.finality = .attested
  verified : ∀ block tip frame, answers.verified block tip = .ok (some frame) →
    frame.finality = .attested

section Facts

variable {hashing : Hashing} {rules : ChainRules μ} {served : Vote → Prop}
  {parentOf : BlockHash → BlockHash} {answers : Answers μ} {maxReorgDepth : Nat} {s : LiveState μ}

/-! ## A quorum -/

def Backed (hashing : Hashing) (served : Vote → Prop) (hash : BlockHash)
    (entry : Header × Finset PeerId) : Prop :=
  (∃ vote, served vote ∧ vote.header = entry.1 ∧ hashing.hashSlow entry.1 = hash) ∧
    ∀ peer ∈ entry.2, ∃ vote, served vote ∧ vote.peer = peer ∧ hashing.hashSlow vote.header = hash

def Counted (hashing : Hashing) (served : Vote → Prop) (votes : HeadVotes) : Prop :=
  ∀ hash, ∀ entry ∈ votes.byHash hash, Backed hashing served hash entry

variable {votes : HeadVotes}

theorem Counted.forBlock (h : Counted hashing served votes) (block : Nat) :
    Counted hashing served (votes.forBlock block) := by
  rw [HeadVotes.forBlock]
  split
  · exact h
  · intro _ _ hentry; cases hentry

variable {vote : Vote}

theorem Counted.counted (h : Counted hashing served votes) (hvote : served vote) :
    Backed hashing served (hashing.hashSlow vote.header) (votes.counted hashing vote) := by
  rw [HeadVotes.counted]
  split
  · rename_i agreed peers hentry
    obtain ⟨hagreed, hpeers⟩ := h _ _ hentry
    refine ⟨hagreed, fun peer hpeer => ?_⟩
    rcases Finset.mem_insert.1 hpeer with rfl | hpeer
    · exact ⟨vote, hvote, rfl, rfl⟩
    · exact hpeers peer hpeer
  · refine ⟨⟨vote, hvote, rfl, rfl⟩, fun peer hpeer => ?_⟩
    obtain rfl := Finset.mem_singleton.1 hpeer; exact ⟨vote, hvote, rfl, rfl⟩

theorem Counted.record (h : Counted hashing served votes) (hvote : served vote) (quorum : Nat) :
    Counted hashing served (votes.record hashing quorum vote).1 := by
  have hblock := h.forBlock vote.block
  intro hash entry hentry
  simp only [HeadVotes.record] at hentry
  by_cases hsame : hash = hashing.hashSlow vote.header
  · subst hsame
    rw [Function.update_self] at hentry; cases hentry; exact hblock.counted hvote
  · rw [Function.update_of_ne hsame] at hentry; exact hblock hash entry hentry

theorem counted_recordAll {votes : List Vote} (hserv : ∀ vote ∈ votes, served vote)
    (quorum : Nat) : Counted hashing served (HeadVotes.recordAll hashing quorum votes) := by
  induction votes using reverseRecOn with
  | nil => exact nofun
  | append_singleton votes vote ih =>
    rw [HeadVotes.recordAll, foldl_append]
    refine Counted.record (ih fun cast hcast => ?_) (hserv vote ?_) quorum
    · exact hserv cast (mem_append_left _ hcast)
    · exact mem_append_right _ mem_cons_self

variable {header : Header}

theorem quorumServed_of_record {votes : List Vote} (hserv : ∀ cast ∈ votes ++ [vote], served cast)
    (h : ((HeadVotes.recordAll hashing headPeerQuorum votes).record hashing headPeerQuorum vote).2 = some header) :
    QuorumServed hashing served (hashing.hashSlow header) ∧
      ∃ cast, served cast ∧ cast.header = header := by
  have hvotes : Counted hashing served (HeadVotes.recordAll hashing headPeerQuorum votes) :=
    counted_recordAll (fun cast hcast => hserv cast (mem_append_left _ hcast)) _
  have hvote := hserv vote (mem_append_right _ mem_cons_self)
  obtain ⟨⟨cast, hcast, hhdr, hhash⟩, hpeers⟩ := (hvotes.forBlock vote.block).counted hvote
  simp only [HeadVotes.record] at h
  split at h
  · rename_i hquorum
    cases h
    refine ⟨⟨_, hquorum, ?_⟩, cast, hcast, hhdr⟩
    rw [hhash]; exact hpeers
  · cases h

/-! ## The head -/

variable {parent : Header}

theorem parentOf_eq_ok (hevid : Evidenced hashing served parentOf answers)
    (h : HeadLane.parentOf hashing answers s = .ok parent) :
    hashing.hashSlow parent = s.last.hash := by
  rw [HeadLane.parentOf] at h
  split at h
  · rename_i held hheld
    cases h
    obtain ⟨-, hhash⟩ := filter_eq_some_iff.1 hheld; simpa using hhash
  · exact hevid.headerByHash _ _ h

variable {block : Nat}

theorem lateChild_eq_ok_none (hevid : Evidenced hashing served parentOf answers)
    (h : lateChild hashing (rules.forLane hashing) answers header block = .ok none) :
    rules.lateReveal header answers.now → ∃ child : Header, child.parentHash = hashing.hashSlow header ∧
        QuorumServed hashing served (hashing.hashSlow child) := by
  intro hlate
  rw [lateChild, if_pos (show (rules.forLane hashing).lateReveal header answers.now from hlate)] at h
  split at h
  · cases h
  · cases h
  · rename_i child hchild
    obtain ⟨_, _, hserv, hagreed⟩ := hevid.child _ _ hchild
    have hnone := Except.ok.inj h
    split at hnone
    · rename_i hpar; exact ⟨child, hpar, (quorumServed_of_record hserv hagreed).1⟩
    · cases hnone

variable {attested : Option AttestedHead}

theorem exists_near {slot : Nat}
    (h : ¬ (attested.all fun head => maxUnattestedSlots < slot - head.beaconSlot) = true) :
    ∃ head ∈ attested, slot - head.beaconSlot ≤ maxUnattestedSlots := by
  cases attested with
  | none => simp at h
  | some head =>
    refine ⟨head, rfl, ?_⟩
    simp only [all_some, decide_eq_true_eq] at h; omega

theorem rests_of_accepted {frame : BlockFrame μ} {s' : LiveState μ}
    (hevid : Evidenced hashing served parentOf answers)
    (h : pollUnattestedHead hashing (rules.forLane hashing) maxReorgDepth answers s block = .ok (.accepted frame, s')) :
    ∃ hdr parent, Rests hashing rules served parentOf answers frame hdr parent := by
  simp only [pollUnattestedHead, bind_eq_ok] at h
  obtain ⟨hdr, hhdr, h⟩ := h
  obtain ⟨_, _, hserv, hagreed⟩ := hevid.header block hdr hhdr
  obtain ⟨hquorum, -⟩ := quorumServed_of_record hserv hagreed
  split at h
  · rename_i hpar
    split at h
    · cases h
    · rename_i slot hslot
      split at h
      · cases h
      · rename_i hnear
        simp only [bind_eq_ok] at h
        obtain ⟨parent, hparentOf, h⟩ := h
        split at h
        · rename_i hvalid
          simp only [bind_eq_ok] at h
          obtain ⟨late, hlate, h⟩ := h
          cases late with
          | some held =>
            rcases held_of_lateChild hlate with rfl | rfl <;> cases h
          | none =>
            simp only [headFrame, bind_eq_ok] at h
            obtain ⟨found, hframe, h⟩ := h
            cases found with
            | none => cases h
            | some found =>
              dsimp only at h
              split at h
              · rename_i hblobs
                cases h
                obtain ⟨hhash, hnames⟩ := hevid.frame hdr found hframe
                refine ⟨hdr, parent, hhash, ?_, ⟨_, 0, hquorum, hhash.symm⟩,
                  ⟨slot, hslot, hvalid, ?_⟩, fun hreveal => ?_, hblobs⟩
                · rw [parentOf_eq_ok hevid hparentOf]; exact hnames.trans hpar
                · exact exists_near hnear
                · obtain ⟨child, hchild, hagree⟩ := lateChild_eq_ok_none hevid hlate hreveal
                  exact ⟨child, hchild, _, 0, hagree, rfl⟩
              · cases h
        · cases h
  · -- A head reorg accepts no frame.
    rw [unattestedReorg] at h
    split at h
    · cases h
    · split at h
      · cases h
      · cases h
      · split at h
        · cases h
        · dsimp only at h
          split at h
          · cases h
          · split at h <;> cases h

/-! ## A branch -/

variable {top : BlockHash} {i : Nat}

theorem eq_iterate_of_chain {hashes : List BlockHash} {hash : BlockHash}
    (hchain : hashes.IsChain fun newer older => parentOf newer = older)
    (htop : hashes.head? = some top) (h : hashes[i]? = some hash) : hash = parentOf^[i] top := by
  induction i generalizing hashes top with
  | zero =>
    rw [← head?_eq_getElem?, htop] at h; exact (some.inj h).symm
  | succ i ih =>
    cases hashes with
    | nil => cases htop
    | cons newest rest =>
      cases htop
      cases rest with
      | nil => cases h
      | cons next rest =>
        rw [isChain_cons_cons] at hchain
        rw [Function.iterate_succ_apply, hchain.1]; exact ih hchain.2 rfl h

theorem number_of_chain {hdrs : List Header} {num i : Nat} {hdr : Header}
    (hchain : hdrs.IsChain fun newer older =>
      newer.number = satAdd older.number 1 ∧ newer.parentHash = hashing.hashSlow older)
    (htop : hdrs.head?.map (·.number) = some num) (hsmall : num < u64Max)
    (h : hdrs[i]? = some hdr) : hdr.number + i = num := by
  induction i generalizing hdrs num with
  | zero =>
    rw [← head?_eq_getElem?] at h; rw [h] at htop; simpa using htop
  | succ i ih =>
    cases hdrs with
    | nil => cases htop
    | cons newest rest =>
      have hnew : newest.number = num := by simpa using htop
      cases rest with
      | nil => cases h
      | cons next rest =>
        rw [isChain_cons_cons] at hchain
        have hstep := hchain.1.1
        rw [satAdd] at hstep
        have := @ih (next :: rest) next.number hchain.2 rfl (by omega) h; omega

theorem branchPasses_append {attested : AttestedHead} {now : Nat} {below above : List Header}
    (h : rules.branchPasses hashing attested now (below ++ parent :: header :: above) = true) :
    (∃ slot, rules.headerSlot header = some slot ∧ slot - attested.beaconSlot ≤ maxUnattestedSlots) ∧
      rules.check hashing header parent now none = .valid := by
  induction below with
  | nil =>
    simp only [List.nil_append, ChainRules.branchPasses, Bool.and_eq_true, Option.any_eq_true,
      decide_eq_true_eq] at h
    obtain ⟨⟨⟨slot, hslot, hnear⟩, hvalid⟩, -⟩ := h; exact ⟨⟨slot, hslot, hnear⟩, hvalid⟩
  | cons first below ih =>
    refine ih ?_
    cases below with
    | nil =>
      simp only [List.cons_append, List.nil_append] at h ⊢
      rw [ChainRules.branchPasses, Bool.and_eq_true] at h; exact h.2
    | cons second below =>
      simp only [List.cons_append] at h ⊢
      rw [ChainRules.branchPasses, Bool.and_eq_true] at h; exact h.2

def RootAgrees (rules : ChainRules μ) (attested : Option AttestedHead) (header : Header) : Prop :=
  rules.consensus.isSome → ∀ slot ∈ rules.headerSlot header, ∀ expected ∈ parentRoot attested slot,
    ∀ root ∈ rules.parentBeaconBlockRoot header, root = expected

theorem check_of_none {now slot : Nat} (hslot : rules.headerSlot header = some slot)
    (hroot : RootAgrees rules attested header) (h : rules.check hashing header parent now none =
    .valid) : rules.check hashing header parent now (parentRoot attested slot) = .valid := by
  rw [ChainRules.check, hslot] at h ⊢
  dsimp only at h ⊢
  split at h
  · cases h
  · rename_i hbegun
    split at h
    · cases h
    · rw [if_neg hbegun]
      cases hconsensus : rules.consensus with
      | none =>
        rw [hconsensus] at h; exact h
      | some consensus =>
        rw [hconsensus] at h
        dsimp only at h ⊢
        split
        · rename_i exp root hexp hnamed
          rw [if_neg]
          · exact h
          · rw [not_not]; exact hroot (by rw [hconsensus]; rfl) slot hslot exp hexp root hnamed
        · exact h

variable {descending : List Header} {ancestor : BlockRef}

theorem exists_header_of_planReorg {recent rev : List BlockRef}
    (h : planReorg hashing recent descending = .ok (ancestor, rev)) :
    ∃ hdr ∈ descending, hdr.number = ancestor.number := by
  rw [planReorg] at h
  split at h
  · split at h
    · split at h <;> cases h
    · cases h
  · rename_i found hfound
    dsimp only at h
    split at h
    · cases h
    · obtain ⟨rfl, -⟩ := Prod.mk.inj (Except.ok.inj h)
      obtain ⟨hdr, hhdr, hfind⟩ := exists_of_findSome?_eq_some hfound
      have hknown := find?_some hfind
      simp only [decide_eq_true_eq] at hknown; exact ⟨hdr, hhdr, hknown.1.symm⟩

variable {number : Nat} {frames : List (BlockFrame μ)}

theorem frame_of_branch (hevid : Evidenced hashing served parentOf answers) (hsmall : number < u64Max)
    (h : fetchReorgBranch maxReorgDepth answers ancestor number top .unverified = .ok frames) :
    ∀ frame ∈ frames, ∃ i, ancestor.number + i < number ∧ frame.block.hash = parentOf^[i] top ∧
      frame.block.parentHash = parentOf^[i + 1] top := by
  rw [fetchReorgBranch] at h
  split at h
  · cases h; exact forall_mem_nil _
  · split at h
    · rename_i hbounds
      dsimp only at h
      split at h
      · cases h
      · simp only [eq_ok] at h
        obtain ⟨served', hrange, _, -, rfl⟩ := h
        obtain ⟨_, -, hparents, hlast, hchain⟩ := hevid.range _ _ _ hrange
        intro frame hfrm
        obtain ⟨i, hi, hget⟩ := getElem_of_mem (mem_reverse.2 hfrm)
        rw [length_reverse] at hi
        have hhashes : (served'.reverse.map fun frame => frame.block.hash).IsChain
            fun newer older => parentOf newer = older := by
          rw [isChain_map, isChain_reverse]
          refine List.IsChain.imp_of_mem_imp (fun older newer _ hnewer hnames => ?_) hchain
          rw [hparents newer hnewer, hnames]
        have htop : (served'.reverse.map fun frame => frame.block.hash).head? = some top := by
          rw [head?_map, head?_reverse]; exact hlast
        have hhash : frame.block.hash = parentOf^[i] top := by
          refine eq_iterate_of_chain hhashes htop ?_
          rw [getElem?_map, getElem?_eq_getElem (by rwa [length_reverse]), hget]; rfl
        refine ⟨i, ?_, hhash, ?_⟩
        · have hbound := rangeLen_le (⟨satAdd ancestor.number 1, number, hbounds.1, hbounds.2⟩ :
            BlockRange)
          have hstart : satAdd ancestor.number 1 = ancestor.number + 1 := by
            have hle := hbounds.1; rw [satAdd] at hle ⊢; omega
          dsimp only at hbound; omega
        · rw [Function.iterate_succ_apply', ← hhash, hparents frame hfrm]
    · cases h

/-- A head reorg's inputs do not reach what its branch is not checked for: above the fork, a header
names the attested root of the slot before, and its blob gas pays for its body. -/
structure Careful (hashing : Hashing) (rules : ChainRules μ) (maxReorgDepth : Nat)
    (answers : Answers μ) (s : LiveState μ) : Prop where
  height : ∀ block header, answers.header block = .ok header → header.number < u64Max
  roots : ∀ block header descending ancestor reverted,
    answers.header block = .ok header → answers.descending header.number (hashing.hashSlow header)
    .unverified = .ok descending → planReorg hashing s.recent descending = .ok (ancestor, reverted) →
    ∀ above ∈ descending, ancestor.number < above.number → RootAgrees rules answers.judged above
  blobs : ∀ block header descending ancestor reverted frames,
    answers.header block = .ok header → answers.descending header.number (hashing.hashSlow header)
    .unverified = .ok descending → planReorg hashing s.recent descending = .ok (ancestor, reverted) →
    fetchReorgBranch maxReorgDepth answers ancestor header.number (hashing.hashSlow header)
    .unverified = .ok frames → ∀ frame ∈ frames, ∀ above ∈ descending,
    frame.block.hash = hashing.hashSlow above → rules.blobGasMatches above frame = true

theorem branch_parts {fork : Nat} (hhdr : descending[i]? = some hdr)
    (hpar : descending[i + 1]? = some parent) (habove : fork ≤ hdr.number)
    (hbelow : fork ≤ parent.number) : (descending.filter fun hdr => fork ≤ hdr.number).reverse =
    ((descending.drop (i + 2)).filter fun hdr => fork ≤ hdr.number).reverse ++
    parent :: hdr :: ((descending.take i).filter fun hdr => fork ≤ hdr.number).reverse := by
  have hsplit : descending = descending.take i ++ hdr :: parent :: descending.drop (i + 2) := by
    obtain ⟨_, rfl⟩ := List.getElem?_eq_some_iff.1 hhdr
    obtain ⟨_, rfl⟩ := List.getElem?_eq_some_iff.1 hpar
    rw [getElem_cons_drop, getElem_cons_drop, take_append_drop]
  conv_lhs => rw [hsplit]
  rw [filter_append, filter_cons_of_pos (by simpa using habove),
    filter_cons_of_pos (by simpa using hbelow)]
  simp

theorem hashSlow_of_descending (hevid : Evidenced hashing served parentOf answers)
    {trust : ExpectationTrust} (hdesc : answers.descending number top trust = .ok descending)
    (h : descending[i]? = some header) : hashing.hashSlow header = parentOf^[i] top := by
  obtain ⟨htop, hparents, -, hchain⟩ := hevid.descending _ _ _ _ hdesc
  have hhashes : (descending.map hashing.hashSlow).IsChain fun newer older =>
      parentOf newer = older := by
    rw [isChain_map]
    refine List.IsChain.imp_of_mem_imp (fun newer older hnewer _ hlink => ?_) hchain
    rw [hparents newer hnewer, hlink.2]
  refine eq_iterate_of_chain hhashes (by rw [head?_map]; exact htop) ?_
  rw [getElem?_map, h]; rfl

theorem rests_of_branch {rev : List BlockRef} (hevid : Evidenced hashing served parentOf answers)
    (hcareful : Careful hashing rules maxReorgDepth answers s)
    (hhdr : answers.header block = .ok hdr)
    (hdesc : answers.descending hdr.number (hashing.hashSlow hdr) .unverified = .ok descending)
    (hplan : planReorg hashing s.recent descending = .ok (ancestor, rev))
    (haccepts : rules.acceptsBranch hashing (descending.filter fun hdr => ancestor.number ≤ hdr.number).reverse answers.judged answers.now = true)
    (hfrs : fetchReorgBranch maxReorgDepth answers ancestor hdr.number (hashing.hashSlow hdr) .unverified = .ok frames) :
    ∀ frame ∈ frames, ∃ hdr parent, Rests hashing rules served parentOf answers
      { frame with finality := .unattested } hdr parent := by
  intro frame hfrm
  have hsmall := hcareful.height block hdr hhdr
  obtain ⟨_, _, hserv, hagreed⟩ := hevid.header block hdr hhdr
  obtain ⟨hquorum, -⟩ := quorumServed_of_record hserv hagreed
  obtain ⟨i, _, hhash, hparentHash⟩ := frame_of_branch hevid hsmall hfrs frame hfrm
  obtain ⟨-, hparents, hnum, hchain⟩ := hevid.descending _ _ _ _ hdesc
  have hanc : ∀ j x, descending[j]? = some x →
      hashing.hashSlow x = parentOf^[j] (hashing.hashSlow hdr) :=
    fun j x hx => hashSlow_of_descending hevid hdesc hx
  -- The fork's header lies below the frame's, so the frame's and its parent's were served.
  obtain ⟨_, hfork, _⟩ := exists_header_of_planReorg hplan
  obtain ⟨_, hk⟩ := List.getElem?_of_mem hfork
  have hkNumber := number_of_chain hchain hnum hsmall hk
  have hlen := (List.getElem?_eq_some_iff.1 hk).1
  obtain ⟨above, habove⟩ : ∃ above, descending[i]? = some above :=
    ⟨_, List.getElem?_eq_getElem (by omega)⟩
  obtain ⟨below, hbelow⟩ : ∃ below, descending[i + 1]? = some below :=
    ⟨_, List.getElem?_eq_getElem (by omega)⟩
  have haboveNumber := number_of_chain hchain hnum hsmall habove
  have hbelowNumber := number_of_chain hchain hnum hsmall hbelow
  have hmem := List.mem_of_getElem? habove
  have hframeHash : frame.block.hash = hashing.hashSlow above := by
    rw [hhash, hanc i above habove]
  rw [branch_parts habove hbelow (by omega) (by omega)] at haccepts
  unfold ChainRules.acceptsBranch at haccepts
  split at haccepts
  · rename_i attested tip hatt htip
    simp only [Bool.and_eq_true, Bool.not_eq_true'] at haccepts
    obtain ⟨⟨-, hrevealed⟩, hpasses⟩ := haccepts
    obtain ⟨⟨slot, hslot, hnear⟩, hvalid⟩ := branchPasses_append hpasses
    have hroot := hcareful.roots block hdr descending ancestor rev hhdr hdesc hplan
      above hmem (by omega)
    refine ⟨above, below, hframeHash, ?_, ⟨_, i, hquorum, hhash.symm⟩,
      ⟨slot, hslot, check_of_none hslot hroot hvalid, attested, hatt, hnear⟩, fun hlate => ?_, ?_⟩
    · rw [hanc (i + 1) below hbelow]; exact hparentHash
    · cases i with
      | zero =>
        -- The head itself is no late reveal.
        simp only [List.take_zero, List.filter_nil, List.reverse_nil, List.getLast?_append,
          List.getLast?_cons_cons, List.getLast?_singleton, Option.some_or, Option.some.injEq] at htip
        rw [← htip, hlate] at hrevealed; cases hrevealed
      | succ i =>
        obtain ⟨child, hchild⟩ : ∃ child, descending[i]? = some child :=
          ⟨_, List.getElem?_eq_getElem (by omega)⟩
        refine ⟨child, ?_, _, i, hquorum, (hanc i child hchild).symm⟩
        rw [← hparents child (List.mem_of_getElem? hchild), hanc i child hchild,
          hanc (i + 1) above habove, Function.iterate_succ_apply']
    · exact hcareful.blobs block hdr descending ancestor rev frames hhdr hdesc
        hplan hfrs frame hfrm above hmem hframeHash
  · cases haccepts

end Facts

/-! ## Runs -/

section Runs

variable {hashing : Hashing} {rules : ChainRules μ} {served : Vote → Prop}
  {parentOf : BlockHash → BlockHash} {answers : Answers μ} {maxReorgDepth : Nat} {s : LiveState μ}
  {rests : BlockFrame μ → Prop} {tail : UnattestedTail}

/-- Every block an event delivers unattested rests on evidence, and a reorg that delivers such
blocks reverts only blocks of the tail. -/
def Rested (rests : BlockFrame μ → Prop) (tail : UnattestedTail) : ChainEvent μ → Prop
  | .block frame => frame.finality = .unattested → rests frame
  | .reorg reverted applied =>
    (∀ frame ∈ applied, frame.finality = .unattested → rests frame) ∧
      ((∃ frame ∈ applied, frame.finality = .unattested) → ∀ block ∈ reverted, block ∈ tail)
  | _ => True

def Waits (rests : BlockFrame μ → Prop) (s : LiveState μ) : Prop :=
  ∀ frame ∈ s.queued, frame.finality = .unattested → rests frame

def Sound (rests : BlockFrame μ → Prop) (tail : UnattestedTail) : Turn μ → Prop
  | .ended => True
  | .again s => Waits rests s
  | .event event s => Rested rests tail event ∧ Waits rests s
  | .failed _ s => Waits rests s

theorem Waits.reportDisconnect (h : Waits rests s) (reason : String) :
    Sound rests tail (reportDisconnect s reason) := by
  rw [HeadLane.reportDisconnect]
  split
  · exact h
  · exact ⟨trivial, h⟩

theorem Waits.pause (h : Waits rests s) : Sound rests tail (pause answers s) := by
  rw [HeadLane.pause]
  split
  · trivial
  · exact h

theorem Waits.pollFailed (h : Waits rests s) (error : Headers.P2pError) (reps : Bool) :
    Sound rests tail (pollFailed answers s error reps) := by
  rw [HeadLane.pollFailed]
  split
  · exact h.pause
  · split
    · trivial
    · split
      · exact h.reportDisconnect _
      · exact h
  · have hfailed : Waits rests { s with reconnectError := some error.toString } := h
    exact hfailed.reportDisconnect _

theorem Waits.chainFailed (h : Waits rests s) (error : Headers.P2pError) :
    Sound rests tail (chainFailed answers s error) := by
  rw [HeadLane.chainFailed]
  split
  · have hforgot : Waits rests { s with ancestry := .empty } := h; exact hforgot.pause
  · have hfailed : Waits rests { s with ancestry := .empty, reconnectError := some error.toString } := h
    exact hfailed.reportDisconnect _

theorem Waits.waitTurn (h : Waits rests s) (reason : String) :
    Sound rests tail (waitTurn answers s reason) := by
  rw [HeadLane.waitTurn]
  split
  · trivial
  · split
    · exact h
    · exact h.reportDisconnect _
    · have hfailed : Waits rests { s with reconnectError := some reason } := h
      exact hfailed.reportDisconnect _

theorem Waits.anchorTurn (h : Waits rests s) : Sound rests tail (anchorTurn answers s) := by
  rw [HeadLane.anchorTurn]
  split
  · exact h
  · trivial
  · exact h.chainFailed _

theorem Waits.queueAttested (h : Waits rests s) {frms : List (BlockFrame μ)}
    (hlevel : ∀ frame ∈ frms, frame.finality = .attested) :
    Sound rests tail (queueAttested s frms) := by
  have hwaits : ∀ frame ∈ s.queued ++ frms, frame.finality = .unattested → rests frame := by
    intro frame hfrm hunatt
    rcases mem_append.1 hfrm with hfrm | hfrm
    · exact h frame hfrm hunatt
    · rw [hlevel frame hfrm] at hunatt; cases hunatt
  rw [HeadLane.queueAttested]
  split
  · exact ⟨trivial, hwaits⟩
  · exact hwaits

variable {applied : List (BlockFrame μ)}

theorem level_of_reconstructReorg (hevid : Evidenced hashing served parentOf answers)
    {headNumber : Nat} {headHash : BlockHash} {evid : ExpectationTrust} {rev : List BlockRef}
    {tip : BlockRef} (h : reconstructReorg hashing maxReorgDepth answers s headNumber headHash evid =
    .ok (rev, applied, tip)) : ∀ frame ∈ applied, frame.finality = .attested := by
  obtain ⟨_, _, -, hbranch, -⟩ := reconstructReorg_eq_ok h
  rw [fetchReorgBranch] at hbranch
  split at hbranch
  · cases hbranch; exact forall_mem_nil _
  · split at hbranch
    · dsimp only at hbranch
      split at hbranch
      · cases hbranch
      · simp only [eq_ok] at hbranch
        obtain ⟨_, hrange, _, -, rfl⟩ := hbranch; exact (hevid.range _ _ _ hrange).2.1
    · cases hbranch

theorem Waits.adopt (h : Waits rests s) (hevid : Evidenced hashing served parentOf answers)
    {headNumber : Nat} {headHash : BlockHash} {evid : ExpectationTrust}
    {rev : List BlockRef} {tip : BlockRef}
    (hreorg : reconstructReorg hashing maxReorgDepth answers s headNumber headHash evid = .ok (rev, applied, tip)) :
    Rested rests tail (adoptReorg (rules.forLane hashing) s rev applied tip evid).1 ∧
      Waits rests (adoptReorg (rules.forLane hashing) s rev applied tip evid).2 := by
  have hlevel := level_of_reconstructReorg hevid hreorg
  have hnone : ∀ frame ∈ applied, frame.finality ≠ .unattested := by
    intro frame hfrm; rw [hlevel frame hfrm]; nofun
  refine ⟨⟨fun frame hfrm hunatt => absurd hunatt (hnone frame hfrm), ?_⟩, ?_⟩
  · rintro ⟨frame, hfrm, hunatt⟩; exact absurd hunatt (hnone frame hfrm)
  · cases evid with
    | verified => exact h
    | unverified => exact h

theorem Waits.reconstructReorgEvent (h : Waits rests s)
    (hevid : Evidenced hashing served parentOf answers) (mismatching : BlockRef)
    (evid : ExpectationTrust) :
    Sound rests tail (reconstructReorgEvent hashing (rules.forLane hashing) maxReorgDepth answers s
      mismatching evid) := by
  rw [HeadLane.reconstructReorgEvent]
  split
  · rename_i hreorg; exact h.adopt hevid hreorg
  · split
    · exact ⟨trivial, h⟩
    · exact h.reportDisconnect _

theorem Waits.pollTurn (h : Waits rests s) (hevid : Evidenced hashing served parentOf answers)
    (block : Nat) (tip : ExpectedTip) :
    Sound rests tail (pollTurn hashing (rules.forLane hashing) maxReorgDepth answers s block tip) := by
  rw [HeadLane.pollTurn]
  split
  · rename_i frame hfrm
    split
    · exact h.queueAttested (by simpa using hevid.verified block tip frame hfrm)
    · exact h.reconstructReorgEvent hevid _ _
  · exact h.pause
  · trivial
  · exact h.pollFailed _ _

theorem Waits.catchUpTurn (h : Waits rests s)
    (hevid : Evidenced hashing served parentOf answers) (range : BlockRange) :
    Sound rests tail (catchUpTurn hashing (rules.forLane hashing) maxReorgDepth answers s range) := by
  have htaken : Waits rests { s with ancestry := s.ancestry.taken (rangeLen range) } := h
  have hforgot : Waits rests { s with ancestry := .empty } := h
  rw [HeadLane.catchUpTurn]
  dsimp only
  split
  · exact hforgot.reconstructReorgEvent hevid _ _
  · split
    · rename_i frms hfrs
      split at hfrs
      · exact htaken.queueAttested (hevid.material _ _ _ hfrs)
      · cases hfrs
    · trivial
    · exact htaken.chainFailed _

theorem rested_of_unattestedReorg (hevid : Evidenced hashing served parentOf answers)
    (hcareful : Careful hashing rules maxReorgDepth answers s) (hrests : ∀ frame hdr parent,
      Rests hashing rules served parentOf answers frame hdr parent → rests frame) {block : Nat} {hdr : Header} (hhdr : answers.header block = .ok hdr)
    {poll : HeadPoll μ} {s' : LiveState μ}
    (h : unattestedReorg hashing (rules.forLane hashing) maxReorgDepth answers s hdr =
      .ok (poll, s')) :
    s'.queued = s.queued ∧ ∀ event, poll = .reorg event → Rested rests s.tail event := by
  rw [unattestedReorg] at h
  split at h
  · cases h; exact ⟨rfl, by simp⟩
  · split at h
    · cases h
    · cases h; exact ⟨rfl, by simp⟩
    · rename_i desc hdesc
      split at h
      · cases h; exact ⟨rfl, by simp⟩
      · rename_i ancestor rev hplan
        dsimp only at h
        split at h
        · cases h; exact ⟨rfl, by simp⟩
        · rename_i hchecks
          simp only [Bool.or_eq_true, Bool.not_eq_true', not_or, Bool.not_eq_false] at hchecks
          obtain ⟨hcontains, haccepts⟩ := hchecks
          split at h
          · cases h
          · cases h; exact ⟨rfl, by simp⟩
          · rename_i frms hfrs
            cases h
            refine ⟨rfl, fun event hev => ?_⟩
            cases hev
            refine ⟨fun frame hfrm _ => ?_, fun _ rev hreverted => ?_⟩
            · obtain ⟨served', hserv', rfl⟩ := mem_map.1 hfrm
              obtain ⟨above, below, hevidenced⟩ := rests_of_branch hevid hcareful hhdr
                hdesc hplan haccepts hfrs served' hserv'
              exact hrests _ above below hevidenced
            · have := all_eq_true.1 hcontains rev hreverted; simpa using this

theorem rested_of_pollUnattestedHead (hevid : Evidenced hashing served parentOf answers)
    (hcareful : Careful hashing rules maxReorgDepth answers s) (hrests : ∀ frame hdr parent,
      Rests hashing rules served parentOf answers frame hdr parent → rests frame) {block : Nat} {poll : HeadPoll μ} {s' : LiveState μ}
    (h : pollUnattestedHead hashing (rules.forLane hashing) maxReorgDepth answers s block =
      .ok (poll, s')) : s'.queued = s.queued ∧ (∀ frame, poll = .accepted frame → rests frame) ∧
      ∀ event, poll = .reorg event → Rested rests s.tail event := by
  have hacc : ∀ frame, poll = .accepted frame → rests frame := by
    rintro frame rfl
    obtain ⟨hdr, parent, hevidenced⟩ := rests_of_accepted hevid h
    exact hrests frame hdr parent hevidenced
  simp only [pollUnattestedHead, bind_eq_ok] at h
  obtain ⟨hdr, hhdr, h⟩ := h
  split at h
  · split at h
    · cases h; exact ⟨rfl, hacc, by simp⟩
    · split at h
      · cases h; exact ⟨rfl, hacc, by simp⟩
      · simp only [bind_eq_ok] at h
        obtain ⟨parent, -, h⟩ := h
        split at h
        · simp only [bind_eq_ok] at h
          obtain ⟨late, hlate, h⟩ := h
          cases late with
          | some held =>
            cases h
            rcases held_of_lateChild hlate with rfl | rfl <;> exact ⟨rfl, hacc, by simp⟩
          | none =>
            simp only [headFrame, bind_eq_ok] at h
            obtain ⟨found, -, h⟩ := h
            cases found with
            | none =>
              cases h; exact ⟨rfl, hacc, by simp⟩
            | some found =>
              dsimp only at h
              split at h <;> cases h <;> exact ⟨rfl, hacc, by simp⟩
        · cases h; exact ⟨rfl, hacc, by simp⟩
  · obtain ⟨hqueued, hreorg⟩ :=
      rested_of_unattestedReorg hevid hcareful hrests hhdr h
    exact ⟨hqueued, hacc, hreorg⟩

theorem Waits.headTurn (h : Waits rests s) (hevid : Evidenced hashing served parentOf answers)
    (hcareful : Careful hashing rules maxReorgDepth answers s) (hrests : ∀ frame header parent,
    Rests hashing rules served parentOf answers frame header parent → rests frame) (block : Nat) :
    Sound rests s.tail (headTurn hashing (rules.forLane hashing) maxReorgDepth answers s block) := by
  rw [HeadLane.headTurn]
  split
  · exact h
  · cases hpoll : pollUnattestedHead hashing (rules.forLane hashing) maxReorgDepth answers s block with
    | error error =>
      cases error with
      | cancelled => trivial
      | incompleteResponse => exact h.pause
      | _ => exact h.pollFailed _ _
    | ok found =>
      obtain ⟨poll, s'⟩ := found
      obtain ⟨hqueued, hacc, hreorg⟩ :=
        rested_of_pollUnattestedHead hevid hcareful hrests hpoll
      have hwaits : Waits rests s' := by
        rw [Waits, hqueued]; exact h
      cases poll with
      | notYet => exact hwaits.pause
      | waitForAttested => exact hwaits.pause
      | reorg event => exact ⟨hreorg event rfl, hwaits⟩
      | accepted frame =>
        intro waiting hwait hunatt
        rcases mem_append.1 hwait with hwait | hnew
        · exact hwaits waiting hwait hunatt
        · obtain rfl := mem_singleton.1 hnew; exact hacc _ rfl

theorem Waits.turn (h : Waits rests s) (hevid : Evidenced hashing served parentOf answers)
    (hcareful : Careful hashing rules maxReorgDepth answers s) (hrests : ∀ frame header parent,
    Rests hashing rules served parentOf answers frame header parent → rests frame) :
    Sound rests s.tail (turn hashing (rules.forLane hashing) maxReorgDepth answers s) := by
  have hstep : Sound rests s.tail
      (stepTurn hashing (rules.forLane hashing) maxReorgDepth answers s) := by
    rw [stepTurn]
    split
    · exact h.headTurn hevid hcareful hrests _
    · exact h.waitTurn _
    · exact h.anchorTurn
    · exact h.pollTurn hevid _ _
    · exact h.catchUpTurn hevid _
  have hexpire : Sound rests s.tail
      (expireTurn hashing (rules.forLane hashing) maxReorgDepth answers s) := by
    rw [expireTurn]
    split
    · dsimp only
      split
      · exact ⟨trivial, h⟩
      · refine ⟨⟨by simp, ?_⟩, h⟩
        rintro ⟨frame, hframe, -⟩; cases hframe
    · rw [queueTurn]
      split
      · rename_i frame rest hqueued
        have hwaits := h
        rw [Waits, hqueued, forall_mem_cons] at hwaits; exact ⟨hwaits.1, hwaits.2⟩
      · exact hstep
  rw [HeadLane.turn]
  split
  · trivial
  · split
    · split
      · exact h
      · trivial
      · exact h
    · split
      · exact ⟨trivial, h⟩
      · rw [attestTurn]
        split
        · exact ⟨trivial, h⟩
        · split
          · rename_i hreorg; exact h.adopt hevid hreorg
          · trivial
          · exact hexpire
        · exact hexpire

def CarefulRun (hashing : Hashing) (rules : ChainRules μ) (maxReorgDepth : Nat)
    (lane : LiveState μ × List (ChainEvent μ)) (turns : List (Answers μ)) : Prop :=
  ∀ before answers after mid, turns = before ++ answers :: after → run hashing (rules.forLane hashing)
    maxReorgDepth lane before = some mid → Careful hashing rules maxReorgDepth answers mid.1

theorem Waits.step {lane lane' : LiveState μ × List (ChainEvent μ)} (h : Waits rests lane.1)
    (hevid : Evidenced hashing served parentOf answers)
    (hcareful : Careful hashing rules maxReorgDepth answers lane.1) (hrests : ∀ frame header parent,
      Rests hashing rules served parentOf answers frame header parent → rests frame)
    (hstep : step hashing (rules.forLane hashing) maxReorgDepth lane answers = some lane') :
    Waits rests lane'.1 := by
  have hturn := h.turn hevid hcareful hrests
  rw [HeadLane.step] at hstep
  split at hstep
  · cases hstep
  · rename_i s' hs
    rw [hs] at hturn; cases hstep; exact hturn
  · rename_i event s' hs
    rw [hs] at hturn; cases hstep; exact hturn.2
  · rename_i error s' hs
    rw [hs] at hturn; cases hstep; exact hturn

theorem Waits.run {turns : List (Answers μ)} {lane lane' : LiveState μ × List (ChainEvent μ)}
    (h : Waits rests lane.1) (hevid : ∀ answers ∈ turns, Evidenced hashing served parentOf answers)
    (hcareful : CarefulRun hashing rules maxReorgDepth lane turns) (hrests : ∀ answers ∈ turns,
    ∀ frame header parent, Rests hashing rules served parentOf answers frame header parent →
    rests frame) (hrun : run hashing (rules.forLane hashing) maxReorgDepth lane turns = some lane') :
    Waits rests lane'.1 := by
  induction turns generalizing lane with
  | nil =>
    cases hrun; exact h
  | cons answers rest ih =>
    rw [HeadLane.run, bind_eq_some_iff] at hrun
    obtain ⟨_, hstep, hrest⟩ := hrun
    obtain ⟨hfst, hlater⟩ := forall_mem_cons.1 hevid
    obtain ⟨hrestsFirst, hrestsLater⟩ := forall_mem_cons.1 hrests
    have hnext := h.step hfst (hcareful [] answers rest lane rfl rfl) hrestsFirst hstep
    refine ih hnext hlater (fun bef later after mid hturns hmid => ?_) hrestsLater hrest
    refine hcareful (answers :: bef) later after mid (by rw [hturns]; rfl) ?_
    rw [HeadLane.run, hstep]; exact hmid

/-- In every run of careful turns, each block that an event delivers unattested, as the next head or
in a head reorg, rests on the evidence of a turn so far, and a reorg that delivers such blocks
reverts only blocks of the unattested tail. -/
theorem run_rests (opening : Opening μ) {turns : List (Answers μ)} {answers : Answers μ}
    {lane : LiveState μ × List (ChainEvent μ)} {event : ChainEvent μ} {s' : LiveState μ}
    (hevidence : ∀ told ∈ turns ++ [answers], Evidenced hashing served parentOf told)
    (hcareful : CarefulRun hashing rules maxReorgDepth (LiveState.start opening, [])
      (turns ++ [answers]))
    (hrun : run hashing (rules.forLane hashing) maxReorgDepth (LiveState.start opening, []) turns =
      some lane)
    (hturn : turn hashing (rules.forLane hashing) maxReorgDepth answers lane.1 =
      .event event s') :
    Rested (fun frame => ∃ told ∈ turns ++ [answers], ∃ header parent,
      Rests hashing rules served parentOf told frame header parent) lane.1.tail event := by
  have hstart : Waits (fun frame => ∃ told ∈ turns ++ [answers], ∃ header parent,
      Rests hashing rules served parentOf told frame header parent) (start opening) := by
    intro frame hframe hunattested
    rw [opening.attested frame hframe] at hunattested; cases hunattested
  have hlast : answers ∈ turns ++ [answers] := mem_append_right _ mem_cons_self
  have hwaits := Waits.run hstart
    (fun earlier hearlier => hevidence earlier (mem_append_left _ hearlier))
    (fun before earlier after mid hturns hmid => hcareful before earlier (after ++ [answers]) mid
      (by rw [hturns]; simp) hmid)
    (fun earlier hearlier frame header parent hrests =>
      ⟨earlier, mem_append_left _ hearlier, header, parent, hrests⟩) hrun
  have hsound := hwaits.turn (hevidence answers hlast) (hcareful turns answers [] lane rfl hrun)
    (fun frame header parent hrests => ⟨answers, hlast, header, parent, hrests⟩)
  rw [hturn] at hsound; exact hsound.1

end Runs

/-! ## A branch that names another root -/

/-- A header of branch `fork`: both branches build on block 0. -/
def branchHeader (number fork : Nat) : Header :=
  ⟨number, BitVec.ofNat 256 (16 * (number - 1) + (if number ≤ 1 then 0 else fork) + 1),
    List.replicate fork 0⟩

def branchHash (number fork : Nat) : BlockHash := sampleHashing.hashSlow (branchHeader number fork)

def branchRules : ChainRules Unit where
  timestamp header :=
    if sampleHashing.hashSlow header = branchHash 2 1 then 2
    else if sampleHashing.hashSlow header = branchHash 0 0 then 0
    else 1
  slotNumber _ := none
  parentBeaconBlockRoot header :=
    if sampleHashing.hashSlow header = branchHash 1 1 then some 9 else some 7
  blobGasUsed _ := none
  slot _ timestamp := some timestamp
  consensus := some fun _ _ => .valid
  blobs _ := 0
  frameHeader _ := none

def branchHead : AttestedHead := ⟨0, 7, 0, branchHash 0 0⟩

def branchAnswers : Answers Unit where
  cancelled := false
  interrupted := false
  reconnect := .ok ()
  attested := none
  latest := some branchHead
  judged := some branchHead
  now := 0
  batchBlocks := 1
  gate := ⟨true, 1⟩
  changed := false
  descending number hash _ :=
    if number = 2 ∧ hash = branchHash 2 1 then
      .ok [branchHeader 2 1, branchHeader 1 1, branchHeader 0 0]
    else .error (.network "")
  range range tip :=
    if range.start = 1 ∧ range.last = 2 ∧ tip.hash = branchHash 2 1 then
      .ok [sampleFrame .attested (branchHeader 1 1), sampleFrame .attested (branchHeader 2 1)]
    else .error (.network "")
  header block :=
    if block = 1 then .ok (branchHeader 1 0)
    else if block = 2 then .ok (branchHeader 2 1)
    else .error (.network "")
  child _ := .error .cancelled
  headerByHash hash :=
    if hash = branchHash 0 0 then .ok (branchHeader 0 0)
    else if hash = branchHash 1 0 then .ok (branchHeader 1 0)
    else .error (.network "")
  frame header := .ok (some (sampleFrame .attested header))
  verified _ _ := .ok none
  ancestry := .error .cancelled
  material _ _ := .error .cancelled
  pending := false
  failure := .retry
  unavailable := .retry
  unavailableFor := 0

def branchPeer (byte : UInt8) : PeerId := ⟨Vector.replicate 64 byte⟩

def branchServed (vote : Vote) : Prop :=
  vote.header = branchHeader 1 0 ∨ vote.header = branchHeader 2 1

def branchParent (hash : BlockHash) : BlockHash :=
  if hash = branchHash 2 1 then branchHash 1 1
  else if hash = branchHash 0 0 then (branchHeader 0 0).parentHash
  else branchHash 0 0

theorem branch_quorum (block : Nat) (hdr : Header) :
    ((HeadVotes.recordAll sampleHashing headPeerQuorum
      [⟨block, branchPeer 0, hdr⟩]).record sampleHashing headPeerQuorum
        ⟨block, branchPeer 1, hdr⟩).2 = some hdr := by
  have hne : branchPeer 1 ≠ branchPeer 0 := by decide +kernel
  simp [HeadVotes.recordAll, HeadVotes.record, HeadVotes.forBlock, HeadVotes.counted,
    HeadVotes.empty, headPeerQuorum, hne]

theorem branch_header {block : Nat} {hdr : Header} (h : branchAnswers.header block = .ok hdr) :
    (block = 1 ∧ hdr = branchHeader 1 0) ∨ (block = 2 ∧ hdr = branchHeader 2 1) := by
  simp only [branchAnswers] at h
  split at h
  · rename_i hblk; cases h; exact .inl ⟨hblk, rfl⟩
  · split at h
    · rename_i hblk; cases h; exact .inr ⟨hblk, rfl⟩
    · cases h

theorem branch_evidenced : Evidenced sampleHashing branchServed branchParent branchAnswers := by
  constructor
  · rintro ⟨block, _, hdr⟩ (rfl | rfl)
    · show branchParent (branchHash 1 0) = (branchHeader 1 0).parentHash
      decide +kernel
    · show branchParent (branchHash 2 1) = (branchHeader 2 1).parentHash
      decide +kernel
  · intro block hdr h
    refine ⟨[⟨block, branchPeer 0, hdr⟩], ⟨block, branchPeer 1, hdr⟩, ?_, branch_quorum block hdr⟩
    have hserv := (branch_header h).imp And.right And.right
    intro _ hcast
    simp only [cons_append, nil_append, mem_cons, not_mem_nil, or_false] at hcast
    rcases hcast with rfl | rfl
    · exact hserv
    · exact hserv
  · intro block hdr h; cases h
  · intro hash hdr h
    simp only [branchAnswers] at h
    split at h
    · rename_i hhash; cases h; exact hhash.symm
    · split at h
      · rename_i hhash; cases h; exact hhash.symm
      · cases h
  · intro hdr frame h; cases h; exact ⟨rfl, rfl⟩
  · intro _ hash _ hdrs h
    simp only [branchAnswers] at h
    split at h
    · rename_i hasked
      obtain ⟨rfl, rfl⟩ := hasked
      cases h
      refine ⟨rfl, ?_, rfl, ?_⟩
      · decide +kernel
      · decide +kernel
    · cases h
  · intro range tip frms h
    simp only [branchAnswers] at h
    split at h
    · rename_i hasked
      obtain ⟨hstart, hlast, hhash⟩ := hasked
      cases h
      refine ⟨?_, ?_, ?_, ?_, ?_⟩
      · rw [rangeLen, hstart, hlast]; decide
      · decide +kernel
      · decide +kernel
      · rw [hhash]; rfl
      · decide +kernel
    · cases h
  · intro range hdrs frms h; cases h
  · intro block tip frame h; cases h

theorem branch_careful {s : LiveState Unit} (hrec : s.recent = sampleOpening.recent) :
    Careful sampleHashing branchRules 4 branchAnswers s := by
  have hplan : ∀ block hdr desc ancestor rev, branchAnswers.header block = .ok hdr →
      branchAnswers.descending hdr.number (sampleHashing.hashSlow hdr) .unverified = .ok desc →
      planReorg sampleHashing s.recent desc ≠ .ok (ancestor, rev) := by
    intro block hdr desc ancestor rev hhdr hdesc hplan
    rcases branch_header hhdr with ⟨-, rfl⟩ | ⟨-, rfl⟩
    · cases hdesc
    · cases hdesc; rw [hrec] at hplan; cases hplan
  constructor
  · intro block hdr hhdr
    rcases branch_header hhdr with ⟨-, rfl⟩ | ⟨-, rfl⟩ <;> decide
  · intro block hdr desc ancestor rev hhdr hdesc hplanned
    exact absurd hplanned (hplan block hdr desc ancestor rev hhdr hdesc)
  · intro block hdr desc ancestor rev _ hhdr hdesc hplanned
    exact absurd hplanned (hplan block hdr desc ancestor rev hhdr hdesc)

/-- The block accepted first rests on the evidence of the turn that accepted it. -/
theorem run_rests_accepted :
    ∃ lane event s', run sampleHashing (branchRules.forLane sampleHashing) 4
        (LiveState.start sampleOpening, []) [branchAnswers] = some lane ∧
      turn sampleHashing (branchRules.forLane sampleHashing) 4 branchAnswers lane.1 =
        .event event s' ∧
      Rested (fun frame => ∃ told ∈ [branchAnswers] ++ [branchAnswers], ∃ header parent,
        Rests sampleHashing branchRules branchServed branchParent told frame header parent)
        lane.1.tail event := by
  have hevidence : ∀ told ∈ [branchAnswers] ++ [branchAnswers],
      Evidenced sampleHashing branchServed branchParent told := by
    intro told htold
    obtain rfl : told = branchAnswers := by simpa using htold
    exact branch_evidenced
  have hcareful : CarefulRun sampleHashing branchRules 4 (start sampleOpening, [])
      ([branchAnswers] ++ [branchAnswers]) := by
    intro before _ _ _ hturns hmid
    match before, hturns, hmid with
    | [], hturns, hmid =>
      obtain ⟨rfl, -⟩ := cons.inj hturns; cases hmid; exact branch_careful rfl
    | [first], hturns, hmid =>
      obtain ⟨rfl, hrest⟩ := cons.inj hturns
      obtain ⟨rfl, -⟩ := cons.inj hrest; cases hmid; exact branch_careful rfl
    | first :: second :: rest, hturns, _ =>
      have := congrArg length hturns; simp at this
  refine ⟨_, _, _, rfl, rfl, ?_⟩
  exact run_rests sampleOpening hevidence hcareful rfl rfl

/-- Peers that serve a branch whose first block names another parent beacon root than the newest
attested head's, one slot below it, have it delivered unattested. -/
theorem branch_names_other_root :
    ∃ lane event s', run sampleHashing (branchRules.forLane sampleHashing) 4
        (LiveState.start sampleOpening, []) [branchAnswers, branchAnswers] = some lane ∧
      turn sampleHashing (branchRules.forLane sampleHashing) 4 branchAnswers lane.1 =
        .event event s' ∧
      Evidenced sampleHashing branchServed branchParent branchAnswers ∧
      ¬ Rested (fun frame => ∃ told ∈ [branchAnswers, branchAnswers] ++ [branchAnswers],
        ∃ header parent,
          Rests sampleHashing branchRules branchServed branchParent told frame header parent)
        lane.1.tail event := by
  refine ⟨_, _, _, rfl, rfl, branch_evidenced, ?_⟩
  rintro ⟨happlied, -⟩
  obtain ⟨told, htold, header, parent, hrests⟩ := happlied
    { sampleFrame .attested (branchHeader 1 1) with finality := .unattested } (by simp) rfl
  obtain rfl : told = branchAnswers := by simpa using htold
  have hhash : sampleHashing.hashSlow header = branchHash 1 1 := hrests.isFrame.symm
  have hroot : branchRules.parentBeaconBlockRoot header = some 9 := by
    simp [branchRules, hhash]
  have htime : branchRules.headerSlot header = some 1 := by
    simp only [ChainRules.headerSlot, branchRules, hhash]; decide +kernel
  obtain ⟨slot, hslot, hvalid, -⟩ := hrests.slots
  rw [htime] at hslot
  cases hslot
  -- Its root is 9; the attested one of the slot before is 7.
  rw [ChainRules.check, htime] at hvalid
  simp only [hroot] at hvalid
  split at hvalid
  · cases hvalid
  · split at hvalid
    · cases hvalid
    · have hexpected : parentRoot branchAnswers.judged 1 = some 7 := by decide +kernel
      rw [hexpected] at hvalid; simp [branchRules] at hvalid

end Leani.P2p.HeadEvidence
