import Leani.Beacon.Agreement
import Leani.Library.Tiling
import Leani.P2p.Headers
import Mathlib.Data.List.Chain

/-!
# Catch-up on attested ancestry

The live lane fetches blocks up to the newest attested head only, by hashes that head's header chain
proves. The headers between the tip and the head are proven in windows, from the head down; the
lowest window is kept for catch-up, and the tops of the others stay as rungs, from which later
proofs start.
-/

namespace Leani.P2p.AttestedAncestry

open Library Headers Beacon List Option

@[irreducible] def maxAncestryHeaders : Nat := 1024

theorem maxAncestryHeaders_eq : maxAncestryHeaders = 1024 := by rw [maxAncestryHeaders]

theorem maxAncestryHeaders_pos : 1 ≤ maxAncestryHeaders := by
  rw [maxAncestryHeaders_eq]; omega

def maxUnattestedSlots : Nat := 2

structure HeadGate where
  enabled : Bool
  wallSlot : Nat

def HeadGate.allows (gate : HeadGate) (attested : Option AttestedHead) : Bool :=
  gate.enabled && attested.any fun attested =>
    gate.wallSlot - attested.beaconSlot ≤ maxUnattestedSlots

structure HeaderServe where
  peerId : PeerId
  block : Nat
  anchored : Bool
  deriving DecidableEq

structure Ancestry where
  head : Option AttestedHead
  headers : List Header
  headerPeer : Option PeerId
  serve : Option HeaderServe
  rungs : List AttestedHead
  deriving DecidableEq

namespace Ancestry

/-- `AttestedAncestry::default`, which `invalidate` goes back to. -/
def empty : Ancestry := ⟨none, [], none, none, []⟩

def proven (head : AttestedHead) (serve : HeaderServe) (headers : List Header) : Ancestry :=
  ⟨some head, headers, some serve.peerId, some serve, []⟩

def advance (ancestry proven : Ancestry) : Ancestry :=
  let top := proven.head.elim 0 (·.blockNumber)
  { proven with
    rungs := proven.rungs ++ ancestry.rungs.filter fun rung => top < rung.blockNumber }

def first (ancestry : Ancestry) : Option Nat := ancestry.headers.head?.map (·.number)

def taken (ancestry : Ancestry) (count : Nat) : Ancestry :=
  { ancestry with headers := ancestry.headers.drop count, serve := none }

end Ancestry

structure Tip where
  number : Nat
  hash : BlockHash
  deriving DecidableEq

inductive LiveStep where
  | wait
  | poll (block : Nat) (tip : ExpectedTip)
  | catchUp (range : BlockRange)
  | anchor (lower : Nat) (head : AttestedHead)
  | head (block : Nat)

def batchEnd (ancestry : Ancestry) (next batchBlocks : Nat) (head : AttestedHead) : Nat :=
  min (satAdd next (min (max batchBlocks 1) ancestry.headers.length - 1)) head.blockNumber

theorem batchEnd_le {ancestry : Ancestry} {next batchLen : Nat} {head : AttestedHead} :
    batchEnd ancestry next batchLen head ≤ u64Max := by
  simp only [batchEnd, satAdd]; omega

def liveStep (last : Tip) (attested : Option AttestedHead) (ancestry : Ancestry)
    (batchBlocks : Nat) (gate : HeadGate) : LiveStep :=
  match attested.filter fun head => last.number < head.blockNumber with
  | none => if gate.allows attested then .head (satAdd last.number 1) else .wait
  | some head =>
    let next := satAdd last.number 1
    if h : ancestry.first = some next ∧ next ≤ batchEnd ancestry next batchBlocks head then
      .catchUp ⟨next, batchEnd ancestry next batchBlocks head, h.2, batchEnd_le⟩
    else if head.blockNumber = next then .poll next ⟨head.blockHash, .verified⟩
    else
      .anchor next ((ancestry.rungs.find? fun rung => next ≤ rung.blockNumber).getD head)

abbrev FetchWindow : Type :=
  BlockRange → BlockHash → Except Headers.P2pError (HeaderServe × List Header)

section Prove

variable (lower : Nat) (head : AttestedHead) (fetchWindow : FetchWindow)

/-- The loop of `prove_attested_ancestry`, with a bound on its rounds: the windows requested, and the
result. Rungs are kept lowest first. -/
def proveLoop : Nat → Nat → Nat → BlockHash → List AttestedHead →
    List (BlockRange × BlockHash) × Except Headers.P2pError Ancestry
  | 0, _, _, _, _ => ([], .error .cancelled)
  | rounds + 1, size, top, topHash, rungs =>
    let start := max (top - (size - 1)) lower
    if h : start ≤ top ∧ top ≤ u64Max then
      let range : BlockRange := ⟨start, top, h.1, h.2⟩
      let rungs :=
        if maxAncestryHeaders ≤ head.blockNumber - top then
          { head with blockNumber := top, blockHash := topHash } :: rungs
        else rungs
      match fetchWindow range topHash with
      | .error error => ([(range, topHash)], .error error)
      | .ok (serve, headers) =>
        match headers.head? with
        | none => ([(range, topHash)], .error (.incompleteResponse "headers" 0 1))
        | some lowest =>
          if start = lower then
            ([(range, topHash)], .ok { Ancestry.proven head serve headers with rungs })
          else
            let rest := proveLoop rounds maxAncestryHeaders (start - 1) lowest.parentHash rungs
            ((range, topHash) :: rest.1, rest.2)
    else
      ([], .error (.invalidConfig s!"block range end {top} precedes start {start}"))

def proveAttestedAncestry : List (BlockRange × BlockHash) × Except Headers.P2pError Ancestry :=
  if head.blockNumber < lower then
    ([], .error (.invalidConfig s!"attested head {head.blockNumber} is below block {lower}"))
  else
    let total := satAdd (head.blockNumber - lower) 1
    proveLoop lower head fetchWindow (head.blockNumber + 1 - lower)
      ((total - 1) % maxAncestryHeaders + 1) head.blockNumber head.blockHash []

end Prove

structure Lane where
  last : Tip
  attested : Option AttestedHead
  ancestry : Ancestry
  requested : List (BlockRange × BlockHash)
  heads : List AttestedHead

inductive LaneEvent where
  | attest (head : AttestedHead)
  | move (last : Tip)
  | adopt (last : Tip)
  | anchor (batchBlocks : Nat) (gate : HeadGate) (fetchWindow : FetchWindow)
  | catchUp (batchBlocks : Nat) (gate : HeadGate) (served : Bool)
  | poll (batchBlocks : Nat) (gate : HeadGate) (parent : Option BlockHash)

def Lane.step (hashing : Hashing) (s : Lane) : LaneEvent → Option Lane
  | .attest head =>
    if head.blockNumber ≤ u64Max then
      some { s with attested := some head, heads := head :: s.heads }
    else none
  | .move last => some { s with last }
  | .adopt last => some { s with last, ancestry := .empty, requested := [] }
  | .anchor batchBlocks gate fetchWindow =>
    match liveStep s.last s.attested s.ancestry batchBlocks gate with
    | .anchor lower head =>
      match proveAttestedAncestry lower head fetchWindow with
      | (windows, .ok proven) =>
        some { s with
          ancestry := s.ancestry.advance proven
          requested := s.requested ++ windows }
      | (_, .error _) => some { s with ancestry := .empty, requested := [] }
    | _ => none
  | .catchUp batchBlocks gate served =>
    match liveStep s.last s.attested s.ancestry batchBlocks gate with
    | .catchUp range =>
      let headers := s.ancestry.headers.take (rangeLen range)
      match headers.head?, headers.getLast? with
      | some first, some newest =>
        -- A proven chain that does not extend the tip is a reorg.
        if first.parentHash = s.last.hash ∧ served ∧ s.ancestry.headerPeer.isSome then
          some { s with
            last := ⟨newest.number, hashing.hashSlow newest⟩
            ancestry := s.ancestry.taken (rangeLen range) }
        else some { s with ancestry := .empty, requested := [] }
      | _, _ => none
    | _ => none
  | .poll batchBlocks gate parent =>
    match liveStep s.last s.attested s.ancestry batchBlocks gate with
    | .poll block tip =>
      if parent = some s.last.hash then some { s with last := ⟨block, tip.hash⟩ } else some s
    | _ => none

def Lane.run (hashing : Hashing) (s : Lane) : List LaneEvent → Option Lane
  | [] => some s
  | event :: events => (s.step hashing event).bind fun s' => Lane.run hashing s' events

def Lane.start (last : Tip) : Lane := ⟨last, none, .empty, [], []⟩

/-- The windows of a proof from the top one, of a size, down to `lower`: below the top one stand
whole ones. -/
def windows (lower : Nat) : Nat → Nat → List (Nat × Nat)
  | size, 0 => [(lower, lower + size - 1)]
  | size, below + 1 =>
    (lower + maxAncestryHeaders * (below + 1), lower + maxAncestryHeaders * (below + 1) + size - 1) ::
      windows lower maxAncestryHeaders below

theorem mem_windows {lower size below : Nat} {win : Nat × Nat} :
    win ∈ windows lower size below ↔ win = (lower + maxAncestryHeaders * below,
    lower + maxAncestryHeaders * below + size - 1) ∨ ∃ j < below, win =
    (lower + maxAncestryHeaders * j, lower + maxAncestryHeaders * j + maxAncestryHeaders - 1) := by
  induction below generalizing size with
  | zero => simp [windows]
  | succ below ih =>
    rw [windows, mem_cons, ih]
    constructor
    · rintro (h | h | ⟨j, hj, h⟩)
      · exact .inl h
      · exact .inr ⟨below, Nat.lt_succ_self _, h⟩
      · exact .inr ⟨j, by omega, h⟩
    · rintro (h | ⟨j, hj, h⟩)
      · exact .inl h
      · obtain rfl | hlt := (Nat.lt_succ_iff.1 hj).eq_or_lt
        · exact .inr (.inl h)
        · exact .inr (.inr ⟨j, hlt, h⟩)

theorem windows_down {lower size below : Nat} (hsize : 1 ≤ size) :
    Tiling.Down Prod.fst Prod.snd (lower + maxAncestryHeaders * below + size)
      (windows lower size below) lower := by
  induction below generalizing size with
  | zero =>
    refine ⟨?_, ?_, rfl⟩ <;> dsimp only <;> omega
  | succ below ih =>
    have hnext := @ih maxAncestryHeaders maxAncestryHeaders_pos
    rw [show lower + maxAncestryHeaders * below + maxAncestryHeaders =
      lower + maxAncestryHeaders * (below + 1) by rw [Nat.mul_succ, Nat.add_assoc]] at hnext
    refine ⟨?_, ?_, hnext⟩ <;> dsimp only <;> omega

section Proofs

variable {hashing : Hashing} {parentOf : BlockHash → BlockHash} {lower : Nat} {head : AttestedHead}
  {fetchWindow : FetchWindow}

structure Window (hashing : Hashing) (parentOf : BlockHash → BlockHash) (range : BlockRange)
    (hash : BlockHash) (headers : List Header) : Prop where
  numbers : headers.map (·.number) = List.range' range.start (range.last + 1 - range.start)
  linked : headers.IsChain fun a b => b.parentHash = hashing.hashSlow a
  tip : (headers.map hashing.hashSlow).getLast? = some hash
  parents : ∀ header ∈ headers, parentOf (hashing.hashSlow header) = header.parentHash

def Fetches (hashing : Hashing) (parentOf : BlockHash → BlockHash) (fetchWindow : FetchWindow) :
    Prop :=
  ∀ range hash serve headers, fetchWindow range hash = .ok (serve, headers) →
    Window hashing parentOf range hash headers

theorem Window.ancestors {range : BlockRange} {hash : BlockHash} {hdrs : List Header}
    (h : Window hashing parentOf range hash hdrs) : (∀ hdr ∈ hdrs, range.start ≤ hdr.number ∧
    hdr.number ≤ range.last ∧ hashing.hashSlow hdr = parentOf^[range.last - hdr.number] hash) ∧
    ∀ lowest ∈ hdrs.head?, lowest.parentHash = parentOf^[range.last + 1 - range.start] hash := by
  have hlen : hdrs.length = range.last + 1 - range.start := by
    have := congrArg length h.numbers; rwa [length_map, length_range'] at this
  cases hdrs with
  | nil => exact ⟨nofun, nofun⟩
  | cons lowest rest =>
    have hchain : (lowest.parentHash :: (lowest :: rest).map hashing.hashSlow).IsChain
        fun a b => parentOf b = a := by
      rw [map_cons, isChain_cons_cons]
      refine ⟨h.parents lowest mem_cons_self, ?_⟩
      rw [← map_cons (f := hashing.hashSlow), isChain_map]
      refine List.IsChain.imp_of_mem_imp (fun a b _ hb hab => ?_) h.linked
      rw [h.parents b hb, hab]
    obtain ⟨hreverse, hpar⟩ := Tiling.reverse_eq_iterate hchain h.tip
    rw [length_map, hlen] at hreverse hpar
    refine ⟨fun hdr hhdr => ?_, fun _ hfst => ?_⟩
    · obtain ⟨i, hi, rfl⟩ := getElem_of_mem hhdr
      have hnum : (lowest :: rest)[i].number = range.start + i := by
        have hget := congrArg (fun l => l[i]?) h.numbers
        simp only [getElem?_map, getElem?_eq_getElem hi, map_some] at hget
        rw [getElem?_range' (by omega)] at hget; simpa using some.inj hget
      have hhash : hashing.hashSlow (lowest :: rest)[i] =
          parentOf^[range.last - (range.start + i)] hash := by
        have hget := congrArg (fun l => l[range.last - range.start - i]?) hreverse
        rw [getElem?_reverse (by rw [length_map, hlen]; omega), length_map, hlen,
          show range.last + 1 - range.start - 1 - (range.last - range.start - i) = i by omega,
          getElem?_map, getElem?_eq_getElem hi, map_some,
          getElem?_iterate _ _ _ _ (by omega)] at hget
        rw [some.inj hget]
        congr 1
        omega
      exact ⟨by omega, by omega, by rw [hnum, hhash]⟩
    · cases hfst; exact hpar

/-- What a proof from `top` down leaves: the windows, and with success the ancestors of the head it
found. -/
structure Proved (hashing : Hashing) (parentOf : BlockHash → BlockHash) (lower kept : Nat)
    (head : AttestedHead) (windows : List (BlockRange × BlockHash)) (rungs : List AttestedHead)
    (proven : Ancestry) : Prop where
  head_eq : proven.head = some head
  numbers : proven.headers.map (·.number) = List.range' lower kept
  peer : proven.headerPeer.isSome
  hashes : ∀ header ∈ proven.headers, header.number ≤ head.blockNumber ∧
    hashing.hashSlow header = parentOf^[head.blockNumber - header.number] head.blockHash
  rungs_eq : proven.rungs = ((windows.filter fun window =>
      maxAncestryHeaders ≤ head.blockNumber - window.1.last).map fun window =>
        { head with blockNumber := window.1.last, blockHash := window.2 }).reverse ++ rungs
  tops : ∀ window ∈ windows, window.2 = parentOf^[head.blockNumber - window.1.last] head.blockHash

def rungsWith (head : AttestedHead) (top : Nat) (topHash : BlockHash)
    (rungs : List AttestedHead) : List AttestedHead :=
  if maxAncestryHeaders ≤ head.blockNumber - top then
    { head with blockNumber := top, blockHash := topHash } :: rungs
  else rungs

variable {topHash : BlockHash} {rungs : List AttestedHead}

theorem proveLoop_succ {rounds size top start : Nat}
 (hstart : max (top - (size - 1)) lower = start) (h : start ≤ top) (hmax : top ≤ u64Max) :
    proveLoop lower head fetchWindow (rounds + 1) size top topHash rungs =
      match fetchWindow ⟨start, top, h, hmax⟩ topHash with
      | .error error => ([(⟨start, top, h, hmax⟩, topHash)], .error error)
      | .ok (serve, headers) =>
        match headers.head? with
        | none => ([(⟨start, top, h, hmax⟩, topHash)], .error (.incompleteResponse "headers" 0 1))
        | some lowest =>
          if start = lower then
            ([(⟨start, top, h, hmax⟩, topHash)], .ok { Ancestry.proven head serve headers with
                rungs := rungsWith head top topHash rungs })
          else
            ((⟨start, top, h, hmax⟩, topHash) ::
                (proveLoop lower head fetchWindow rounds maxAncestryHeaders (start - 1)
                  lowest.parentHash (rungsWith head top topHash rungs)).1,
              (proveLoop lower head fetchWindow rounds maxAncestryHeaders (start - 1)
                lowest.parentHash (rungsWith head top topHash rungs)).2) := by
  subst hstart; rw [proveLoop]; exact dif_pos ⟨h, hmax⟩

theorem rungsWith_eq {range : BlockRange} {wins : List (BlockRange × BlockHash)} :
    ((wins.filter fun win =>
        maxAncestryHeaders ≤ head.blockNumber - win.1.last).map fun win =>
          { head with blockNumber := win.1.last, blockHash := win.2 }).reverse ++
        rungsWith head range.last topHash rungs =
      ((((range, topHash) :: wins).filter fun win =>
        maxAncestryHeaders ≤ head.blockNumber - win.1.last).map fun win =>
          { head with blockNumber := win.1.last, blockHash := win.2 }).reverse ++ rungs := by
  rw [rungsWith, filter_cons]
  by_cases hfar : maxAncestryHeaders ≤ head.blockNumber - range.last <;> simp [hfar]

theorem proveLoop_spec (hfetch : Fetches hashing parentOf fetchWindow)
    (hmax : head.blockNumber ≤ u64Max) {below : Nat} :
    ∀ {rounds size top : Nat} {topHash : BlockHash} {rungs : List AttestedHead},
      below < rounds → 1 ≤ size → size ≤ maxAncestryHeaders →
      top = lower + maxAncestryHeaders * below + size - 1 → top ≤ head.blockNumber →
      topHash = parentOf^[head.blockNumber - top] head.blockHash →
      (proveLoop lower head fetchWindow rounds size top topHash rungs).1.map
          (fun win => (win.1.start, win.1.last)) <+: windows lower size below ∧
        ∀ prv, (proveLoop lower head fetchWindow rounds size top topHash rungs).2 = .ok prv →
          (proveLoop lower head fetchWindow rounds size top topHash rungs).1.map
              (fun win => (win.1.start, win.1.last)) = windows lower size below ∧
            Proved hashing parentOf lower (if below = 0 then size else maxAncestryHeaders) head
              (proveLoop lower head fetchWindow rounds size top topHash rungs).1 rungs prv := by
  induction below with
  | zero =>
    intro rounds size top topHash rungs hrounds hsize hle htop hhead htopHash
    obtain ⟨rounds, rfl⟩ := Nat.exists_eq_succ_of_ne_zero (Nat.ne_of_gt hrounds)
    have hstart : max (top - (size - 1)) lower = lower := by omega
    have hlower : lower ≤ top := by omega
    rw [proveLoop_succ hstart hlower (by omega)]
    have hwin : windows lower size 0 = [(lower, top)] := by
      rw [windows, htop, Nat.mul_zero, Nat.add_zero]
    rw [hwin]
    cases hres : fetchWindow ⟨lower, top, hlower, by omega⟩ topHash with
    | error error => exact ⟨prefix_rfl, nofun⟩
    | ok result =>
      obtain ⟨serve, headers⟩ := result
      have hserv := hfetch _ _ _ _ hres
      dsimp only
      cases headers with
      | nil => exact ⟨prefix_rfl, nofun⟩
      | cons lowest rest =>
        rw [head?_cons]
        dsimp only
        rw [if_pos rfl]
        refine ⟨prefix_rfl, fun prv hprv => ⟨rfl, ?_⟩⟩
        cases hprv
        refine ⟨rfl, ?_, rfl, fun hdr hhdr => ?_, ?_, ?_⟩
        · rw [if_pos rfl, show size = top + 1 - lower by omega]
          exact hserv.numbers
        · obtain ⟨-, hlast, hhash⟩ := hserv.ancestors.1 hdr hhdr
          have hlast : hdr.number ≤ top := hlast
          refine ⟨Nat.le_trans hlast hhead, ?_⟩
          rw [hhash, htopHash, ← Function.iterate_add_apply]
          congr 2
          dsimp only; omega
        · rw [← rungsWith_eq]; rfl
        · intro win hwin; rw [mem_singleton.1 hwin]; exact htopHash
  | succ below ih =>
    intro rounds size top topHash rungs hrounds hsize hle htop hhead htopHash
    obtain ⟨rounds, rfl⟩ := Nat.exists_eq_succ_of_ne_zero (Nat.ne_of_gt (Nat.zero_lt_of_lt hrounds))
    have hstart : max (top - (size - 1)) lower = lower + maxAncestryHeaders * (below + 1) := by
      omega
    have hlower : lower + maxAncestryHeaders * (below + 1) ≤ top := by omega
    have hbelow : lower + maxAncestryHeaders * (below + 1) ≠ lower := by
      rw [maxAncestryHeaders_eq]; omega
    rw [proveLoop_succ hstart hlower (by omega)]
    have hwin : windows lower size (below + 1) = (lower + maxAncestryHeaders * (below + 1), top) ::
          windows lower maxAncestryHeaders below := by
      rw [windows, htop]
    rw [hwin, if_neg (Nat.succ_ne_zero below)]
    cases hres : fetchWindow ⟨_, top, hlower, by omega⟩ topHash with
    | error error => exact ⟨⟨_, rfl⟩, nofun⟩
    | ok result =>
      obtain ⟨serve, headers⟩ := result
      have hserv := hfetch _ _ _ _ hres
      dsimp only
      cases headers with
      | nil => exact ⟨⟨_, rfl⟩, nofun⟩
      | cons lowest rest =>
        rw [head?_cons]
        dsimp only
        rw [if_neg hbelow]
        -- The window below ends at the parent the lowest header names.
        have hpar : lowest.parentHash = parentOf^[head.blockNumber -
            (lower + maxAncestryHeaders * (below + 1) - 1)] head.blockHash := by
          rw [hserv.ancestors.2 lowest rfl, htopHash, ← Function.iterate_add_apply]
          congr 2
          dsimp only; omega
        obtain ⟨hrngs, hsome⟩ := @ih rounds maxAncestryHeaders
          (lower + maxAncestryHeaders * (below + 1) - 1) lowest.parentHash
          (rungsWith head top topHash rungs) (by omega) maxAncestryHeaders_pos le_rfl
          (by rw [Nat.mul_succ, Nat.add_assoc]) (by omega) hpar
        refine ⟨?_, fun prv hprv => ?_⟩
        · rw [map_cons]; exact prefix_cons_inj _ |>.2 hrngs
        · obtain ⟨hall, hpvd⟩ := hsome prv hprv
          refine ⟨by rw [map_cons, hall], ?_⟩
          refine ⟨hpvd.head_eq, ?_, hpvd.peer, hpvd.hashes, ?_, ?_⟩
          · rw [hpvd.numbers, ite_self]
          · rw [← rungsWith_eq]; exact hpvd.rungs_eq
          · intro win hwin
            obtain rfl | hmem := mem_cons.1 hwin
            · exact htopHash
            · exact hpvd.tops win hmem

theorem proveAttestedAncestry_spec (hfetch : Fetches hashing parentOf fetchWindow)
    (hmax : head.blockNumber ≤ u64Max) (hlower : lower ≤ head.blockNumber)
    (hsmall : head.blockNumber - lower < u64Max) :
    ∃ size below, 1 ≤ size ∧ size ≤ maxAncestryHeaders ∧
      head.blockNumber + 1 = lower + maxAncestryHeaders * below + size ∧
      (proveAttestedAncestry lower head fetchWindow).1.map
          (fun win => (win.1.start, win.1.last)) <+: windows lower size below ∧
        ∀ proven, (proveAttestedAncestry lower head fetchWindow).2 = .ok proven →
          (proveAttestedAncestry lower head fetchWindow).1.map
              (fun win => (win.1.start, win.1.last)) = windows lower size below ∧
            Proved hashing parentOf lower (if below = 0 then size else maxAncestryHeaders) head
              (proveAttestedAncestry lower head fetchWindow).1 [] proven := by
  have htotal : satAdd (head.blockNumber - lower) 1 = head.blockNumber - lower + 1 :=
    satAdd_eq (by omega)
  have hmod := Nat.mod_lt (head.blockNumber - lower) maxAncestryHeaders_pos
  have hdiv := Nat.div_add_mod (head.blockNumber - lower) maxAncestryHeaders
  refine ⟨(head.blockNumber - lower) % maxAncestryHeaders + 1,
    (head.blockNumber - lower) / maxAncestryHeaders, by omega, by omega, by omega, ?_⟩
  rw [proveAttestedAncestry, if_neg (by omega)]
  dsimp only
  rw [htotal, Nat.add_sub_cancel]
  have hbelow := Nat.div_le_self (head.blockNumber - lower) maxAncestryHeaders
  exact proveLoop_spec hfetch hmax (by omega) (by omega) (by omega) (by omega) le_rfl
    (by rw [Nat.sub_self]; rfl)

theorem mem_tops {lower size below top : Nat} (hsize : 1 ≤ size) :
    top ∈ (windows lower size below).map (·.2) ↔
      top + 1 = lower + 1024 * below + size ∨ ∃ j < below, top + 1 = lower + 1024 * (j + 1) := by
  have hmax := maxAncestryHeaders_eq
  rw [List.mem_map]
  constructor
  · rintro ⟨_, hwin, rfl⟩
    rw [mem_windows, hmax] at hwin
    obtain rfl | ⟨j, hj, rfl⟩ := hwin
    · exact .inl (by dsimp only; omega)
    · exact .inr ⟨j, hj, by dsimp only; omega⟩
  · rintro (htop | ⟨j, hj, htop⟩)
    · exact ⟨_, mem_windows.2 (.inl rfl), by rw [hmax]; dsimp only; omega⟩
    · exact ⟨_, mem_windows.2 (.inr ⟨j, hj, rfl⟩), by rw [hmax]; dsimp only; omega⟩

theorem windows_sorted {lower size below : Nat} (hsize : 1 ≤ size) :
    (windows lower size below).Pairwise fun a b => b.2 < a.2 := by
  have hdown := @windows_down lower size below hsize
  generalize windows lower size below = list at hdown
  generalize lower + maxAncestryHeaders * below + size = top at hdown
  induction list generalizing top with
  | nil => exact .nil
  | cons window list ih =>
    refine pairwise_cons.2 ⟨fun _ hwin => ?_, ih _ hdown.2.2⟩
    have hlt := hdown.lt hwin
    have hle := hdown.2.1; omega

theorem count_tops_le {lower size below top : Nat} (hsize : 1 ≤ size) :
    ((windows lower size below).map (·.2)).count top ≤ 1 := by
  refine nodup_iff_count_le_one.1 ?_ top
  rw [List.Nodup, pairwise_map]; exact (windows_sorted hsize).imp fun h => (Nat.ne_of_lt h).symm

theorem tops_eq {list : List (BlockRange × BlockHash)} {lower size below : Nat}
    (h : list.map (fun win => (win.1.start, win.1.last)) = windows lower size below) :
    list.map (·.1.last) = (windows lower size below).map (·.2) := by
  rw [← h, List.map_map]; rfl

variable {list : List (BlockRange × BlockHash)} {size below kept : Nat} {proven : Ancestry}

section

variable (h : Proved hashing parentOf lower kept head list [] proven)

include h

theorem Proved.numbers_range : proven.headers.map (·.number) = range' lower proven.headers.length := by
  have hlen := congrArg length h.numbers
  rw [length_map, length_range'] at hlen; rw [hlen]; exact h.numbers

theorem Proved.mem_rungs {top : Nat} : (∃ rung ∈ proven.rungs, rung.blockNumber = top) ↔
      top ∈ list.map (·.1.last) ∧ 1024 ≤ head.blockNumber - top := by
  rw [h.rungs_eq, maxAncestryHeaders_eq, List.append_nil, List.mem_map]
  constructor
  · rintro ⟨rung, hrung, rfl⟩
    rw [List.mem_reverse, List.mem_map] at hrung
    obtain ⟨win, hwin, rfl⟩ := hrung
    obtain ⟨hmem, hfar⟩ := mem_filter.1 hwin; exact ⟨⟨win, hmem, rfl⟩, of_decide_eq_true hfar⟩
  · rintro ⟨⟨win, hmem, rfl⟩, hfar⟩
    exact ⟨_, mem_reverse.2 (mem_map.2 ⟨win, mem_filter.2 ⟨hmem, decide_eq_true hfar⟩, rfl⟩), rfl⟩

theorem Proved.rung_le
    {rung : AttestedHead} (hrung : rung ∈ proven.rungs) : rung.blockNumber ≤ head.blockNumber := by
  have hfar := (h.mem_rungs.1 ⟨rung, hrung, rfl⟩).2; omega

theorem Proved.sorted (hsize : 1 ≤ size)
    (hlist : list.map (fun win => (win.1.start, win.1.last)) = windows lower size below) :
    proven.rungs.Pairwise fun a b => a.blockNumber < b.blockNumber := by
  have hsort : list.Pairwise fun a b => b.1.last < a.1.last := by
    have := @windows_sorted lower size below hsize; rw [← hlist, pairwise_map] at this; exact this
  rw [h.rungs_eq, append_nil, pairwise_reverse, pairwise_map]; exact hsort.filter _

end

end Proofs

section Steps

variable {last : Tip} {attested : Option AttestedHead} {ancestry : Ancestry} {batchBlocks : Nat}
  {gate : HeadGate}

variable {block : Nat}

theorem liveStep_head (h : liveStep last attested ancestry batchBlocks gate = .head block) :
    block = satAdd last.number 1 ∧ gate.allows attested ∧
      ∀ head ∈ attested, head.blockNumber ≤ last.number := by
  rw [liveStep] at h
  split at h
  · rename_i hnone
    split at h
    · rename_i hgate
      refine ⟨(LiveStep.head.inj h).symm, hgate, fun head hhead => ?_⟩
      have := filter_eq_none_iff.1 hnone head hhead; simpa using this
    · cases h
  · dsimp only at h
    split at h
    · cases h
    · split at h <;> cases h

theorem liveStep_above {step : LiveStep} (h : liveStep last attested ancestry batchBlocks gate = step)
    (hsmall : ∀ head ∈ attested, head.blockNumber ≤ u64Max) (hwait : step ≠ .wait)
    (hhead : ∀ block, step ≠ .head block) : ∃ head, attested = some head ∧ last.number <
    head.blockNumber ∧ head.blockNumber ≤ u64Max ∧ (if h : ancestry.first = some (last.number + 1) ∧
    last.number + 1 ≤ batchEnd ancestry (last.number + 1) batchBlocks head then
        LiveStep.catchUp ⟨last.number + 1,
          batchEnd ancestry (last.number + 1) batchBlocks head, h.2, batchEnd_le⟩
      else if head.blockNumber = last.number + 1 then
        .poll (last.number + 1) ⟨head.blockHash, .verified⟩ else .anchor (last.number + 1)
          ((ancestry.rungs.find? fun rung => last.number + 1 ≤ rung.blockNumber).getD head)) =
        step := by
  rw [liveStep] at h
  split at h
  · split at h
    · exact absurd h.symm (hhead _)
    · exact absurd h.symm hwait
  · rename_i head hfilter
    obtain ⟨hatt, hlt⟩ := filter_eq_some_iff.1 hfilter
    have hlt := of_decide_eq_true hlt
    have hmax := hsmall head hatt
    have hnext : satAdd last.number 1 = last.number + 1 := satAdd_eq (by omega)
    simp only [hnext] at h; exact ⟨head, hatt, hlt, hmax, h⟩

theorem next_le_batchEnd {head : AttestedHead} {next : Nat} (hlt : next ≤ head.blockNumber)
    (hmax : head.blockNumber ≤ u64Max) : next ≤ batchEnd ancestry next batchBlocks head := by
  simp only [batchEnd, satAdd]; omega

theorem liveStep_catchUp {range : BlockRange} (h : liveStep last attested ancestry batchBlocks gate =
    .catchUp range) (hsmall : ∀ head ∈ attested, head.blockNumber ≤ u64Max) :
    (∃ head ∈ attested, range.last ≤ head.blockNumber) ∧
    range.start = last.number + 1 ∧ ancestry.first = some (last.number + 1) ∧
    rangeLen range = range.last - last.number ∧ rangeLen range ≤ ancestry.headers.length := by
  obtain ⟨head, hatt, _, _, h⟩ := liveStep_above h hsmall nofun nofun
  split at h
  · rename_i hready
    obtain rfl := LiveStep.catchUp.inj h
    have hlength : 1 ≤ ancestry.headers.length := by
      cases hheaders : ancestry.headers with
      | nil => simp [Ancestry.first, hheaders] at hready
      | cons => simp
    have hend : batchEnd ancestry (last.number + 1) batchBlocks head ≤ head.blockNumber :=
      Nat.min_le_right _ _
    have hbatch : batchEnd ancestry (last.number + 1) batchBlocks head ≤
        last.number + 1 + (ancestry.headers.length - 1) := by
      simp only [batchEnd, satAdd]; omega
    have hlen : rangeLen ⟨last.number + 1, batchEnd ancestry (last.number + 1) batchBlocks head,
        hready.2, batchEnd_le⟩ =
          batchEnd ancestry (last.number + 1) batchBlocks head - last.number := by
      rw [rangeLen]
      dsimp only; rw [satAdd_eq (by omega)]; omega
    refine ⟨⟨head, hatt, hend⟩, rfl, hready.1, hlen, ?_⟩
    rw [hlen]; omega
  · split at h <;> cases h

theorem liveStep_poll {tip : ExpectedTip} (h : liveStep last attested ancestry batchBlocks gate =
    .poll block tip) (hsmall : ∀ head ∈ attested, head.blockNumber ≤ u64Max) :
    ∃ head ∈ attested, block = head.blockNumber ∧ block = last.number + 1 ∧
    tip = ⟨head.blockHash, .verified⟩ ∧ ancestry.first ≠ some (last.number + 1) := by
  obtain ⟨head, hatt, _, hmax, h⟩ := liveStep_above h hsmall nofun nofun
  split at h
  · cases h
  · rename_i hready
    split at h
    · rename_i hnext
      obtain ⟨rfl, rfl⟩ := LiveStep.poll.inj h
      refine ⟨head, hatt, hnext.symm, rfl, rfl, fun hfst => ?_⟩
      exact hready ⟨hfst, next_le_batchEnd (by omega) hmax⟩
    · cases h

theorem liveStep_anchor {lower : Nat} {head : AttestedHead}
    (h : liveStep last attested ancestry batchBlocks gate = .anchor lower head)
    (hsmall : ∀ head ∈ attested, head.blockNumber ≤ u64Max) :
    ∃ newest ∈ attested, lower = last.number + 1 ∧ lower < newest.blockNumber ∧
      ancestry.first ≠ some lower ∧
      head = (ancestry.rungs.find? fun rung => lower ≤ rung.blockNumber).getD newest := by
  obtain ⟨newest, hatt, _, hmax, h⟩ := liveStep_above h hsmall nofun nofun
  split at h
  · cases h
  · rename_i hready
    split at h
    · cases h
    · obtain ⟨rfl, rfl⟩ := LiveStep.anchor.inj h
      refine ⟨newest, hatt, rfl, by omega, fun hfst => ?_, rfl⟩
      exact hready ⟨hfst, next_le_batchEnd (by omega) hmax⟩

theorem anchor_head {lower : Nat} {newest : AttestedHead} :
    ((ancestry.rungs.find? fun rung => lower ≤ rung.blockNumber).getD newest ∈ ancestry.rungs ∧
        lower ≤ ((ancestry.rungs.find? fun rung => lower ≤ rung.blockNumber).getD newest).blockNumber) ∨
      (ancestry.rungs.find? fun rung => lower ≤ rung.blockNumber).getD newest = newest ∧
        ∀ rung ∈ ancestry.rungs, rung.blockNumber < lower := by
  cases hfind : ancestry.rungs.find? fun rung => lower ≤ rung.blockNumber with
  | none =>
    refine .inr ⟨rfl, fun rung hrung => ?_⟩
    simpa using find?_eq_none.1 hfind rung hrung
  | some rung =>
    exact .inl ⟨mem_of_find?_eq_some hfind, by simpa using find?_some hfind⟩

end Steps

/-- The hash is the ancestor, at its height, of one of the heads at least `gap` blocks above. -/
def AncestorOf (parentOf : BlockHash → BlockHash) (heads : List AttestedHead) (gap number : Nat)
    (hash : BlockHash) : Prop :=
  ∃ head ∈ heads, number + gap ≤ head.blockNumber ∧
    hash = parentOf^[head.blockNumber - number] head.blockHash

section Invariants

variable {hashing : Hashing} {parentOf : BlockHash → BlockHash} {s s' : Lane} {event : LaneEvent}

variable {hash : BlockHash}

theorem AncestorOf.mono {heads heads' : List AttestedHead} {gap gap' num : Nat}
 (h : AncestorOf parentOf heads gap num hash) (hheads : heads ⊆ heads')
    (hgap : gap' ≤ gap) : AncestorOf parentOf heads' gap' num hash := by
  obtain ⟨head, hmem, _, hhash⟩ := h; exact ⟨head, hheads hmem, by omega, hhash⟩

theorem AncestorOf.below {heads : List AttestedHead} {gap top num : Nat}
    (h : AncestorOf parentOf heads 0 top hash) (hnum : num + gap ≤ top) :
    AncestorOf parentOf heads gap num (parentOf^[top - num] hash) := by
  obtain ⟨head, hmem, _, rfl⟩ := h
  refine ⟨head, hmem, by omega, ?_⟩
  rw [← Function.iterate_add_apply]
  congr 2
  omega

structure Sound (hashing : Hashing) (parentOf : BlockHash → BlockHash) (s : Lane) : Prop where
  attested : ∀ head ∈ s.attested, head ∈ s.heads
  small : ∀ head ∈ s.heads, head.blockNumber ≤ u64Max
  rungs : ∀ rung ∈ s.ancestry.rungs,
    AncestorOf parentOf s.heads maxAncestryHeaders rung.blockNumber rung.blockHash
  headers : ∀ header ∈ s.ancestry.headers,
    AncestorOf parentOf s.heads 0 header.number (hashing.hashSlow header)
  numbers : ∃ start, s.ancestry.headers.map (·.number) = List.range' start s.ancestry.headers.length
  sorted : s.ancestry.rungs.Pairwise fun a b => a.blockNumber < b.blockNumber

theorem Sound.small_attested (h : Sound hashing parentOf s) :
    ∀ head ∈ s.attested, head.blockNumber ≤ u64Max :=
  fun head hhead => h.small head (h.attested head hhead)

theorem Sound.forget (h : Sound hashing parentOf s) (last : Tip)
    (requested : List (BlockRange × BlockHash)) :
    Sound hashing parentOf { s with last, ancestry := .empty, requested } :=
  ⟨h.attested, h.small, nofun, nofun, ⟨0, rfl⟩, .nil⟩

theorem sound_start (last : Tip) : Sound hashing parentOf (.start last) :=
  ⟨nofun, nofun, nofun, nofun, ⟨0, rfl⟩, .nil⟩

theorem Sound.anchor {batchLen lower : Nat} {gate : HeadGate} {head : AttestedHead}
    (h : Sound hashing parentOf s) (hstep : liveStep s.last s.attested s.ancestry batchLen gate =
    .anchor lower head) : AncestorOf parentOf s.heads 0 head.blockNumber head.blockHash ∧
    lower ≤ head.blockNumber ∧ head.blockNumber ≤ u64Max ∧ head.blockNumber - lower < u64Max := by
  obtain ⟨newest, hnew, _, hlt, -, rfl⟩ := liveStep_anchor hstep h.small_attested
  obtain ⟨hrung, hle⟩ | ⟨heq, -⟩ := @anchor_head s.ancestry lower newest
  · have hanc := h.rungs _ hrung
    refine ⟨hanc.mono (fun _ h => h) (Nat.zero_le _), hle, ?_, ?_⟩
    all_goals
      obtain ⟨above, hmem, _, -⟩ := hanc
      have := h.small above hmem; omega
  · rw [heq]
    have hsmall := h.small_attested newest hnew
    refine ⟨⟨newest, h.attested newest hnew, le_rfl, ?_⟩, hlt.le, hsmall, by omega⟩
    rw [Nat.sub_self]; rfl

theorem Sound.step (h : Sound hashing parentOf s) (hfetch : ∀ batchBlocks gate fetchWindow,
    event = .anchor batchBlocks gate fetchWindow → Fetches hashing parentOf fetchWindow)
    (hstep : s.step hashing event = some s') : Sound hashing parentOf s' := by
  cases event with
  | attest head =>
    rw [Lane.step] at hstep
    split at hstep
    · rename_i hmax
      cases hstep
      refine ⟨fun head' hhead => ?_, ?_, fun rung hrung => ?_, fun hdr hhdr => ?_, h.numbers,
        h.sorted⟩
      · rw [← some.inj hhead]; exact mem_cons_self
      · rintro head' hhead
        obtain rfl | hmem := mem_cons.1 hhead
        · exact hmax
        · exact h.small head' hmem
      · exact (h.rungs rung hrung).mono (subset_cons_self _ _) le_rfl
      · exact (h.headers hdr hhdr).mono (subset_cons_self _ _) le_rfl
    · cases hstep
  | move last =>
    cases hstep; exact ⟨h.attested, h.small, h.rungs, h.headers, h.numbers, h.sorted⟩
  | adopt last =>
    cases hstep; exact h.forget last []
  | anchor batchBlocks gate fetchWindow =>
    rw [Lane.step] at hstep
    split at hstep
    · rename_i lower head hlive
      obtain ⟨hhead, hlower, hmax, hsmall⟩ := h.anchor hlive
      obtain ⟨_, below, hsize, -, -, -, hpvd⟩ :=
        proveAttestedAncestry_spec (hfetch _ _ _ rfl) hmax hlower hsmall
      split at hstep
      · rename_i wins proven hres
        rw [hres] at hpvd
        obtain ⟨hlist, hpvd⟩ := hpvd proven rfl
        cases hstep
        refine ⟨h.attested, h.small, fun rung hrung => ?_, fun hdr hhdr => ?_, ⟨lower, ?_⟩, ?_⟩
        · obtain hnew | hold := List.mem_append.1 hrung
          · rw [hpvd.rungs_eq, List.append_nil, List.mem_reverse, List.mem_map] at hnew
            obtain ⟨window, hwin, rfl⟩ := hnew
            obtain ⟨hmem, hfar⟩ := mem_filter.1 hwin
            have hfar := of_decide_eq_true hfar
            have hpos := maxAncestryHeaders_pos
            dsimp only; rw [hpvd.tops window hmem]; exact hhead.below (by omega)
          · exact h.rungs rung (mem_filter.1 hold).1
        · obtain ⟨hle, hhash⟩ := hpvd.hashes hdr hhdr; rw [hhash]; exact hhead.below hle
        · exact hpvd.numbers_range
        · refine pairwise_append.2 ⟨hpvd.sorted hsize hlist, h.sorted.filter _, ?_⟩
          intro _ hnew _ hold
          have habove := of_decide_eq_true (mem_filter.1 hold).2
          rw [hpvd.head_eq] at habove
          have hle := hpvd.rung_le hnew; exact Nat.lt_of_le_of_lt hle habove
      · cases hstep; exact h.forget s.last []
    · cases hstep
  | catchUp batchBlocks gate served =>
    rw [Lane.step] at hstep
    split at hstep
    · rename_i range hlive
      dsimp only at hstep
      split at hstep
      · split at hstep
        · cases hstep
          obtain ⟨start, hnumbers⟩ := h.numbers
          refine ⟨h.attested, h.small, h.rungs, fun hdr hhdr => h.headers hdr (mem_of_mem_drop hhdr),
            ⟨start + rangeLen range, ?_⟩, h.sorted⟩
          rw [Ancestry.taken, map_drop, hnumbers, drop_range', length_drop, Nat.mul_one]
        · cases hstep; exact h.forget s.last []
      · cases hstep
    · cases hstep
  | poll batchBlocks gate parent =>
    rw [Lane.step] at hstep
    split at hstep
    · split at hstep
      · cases hstep; exact ⟨h.attested, h.small, h.rungs, h.headers, h.numbers, h.sorted⟩
      · cases hstep; exact h
    · cases hstep

end Invariants

def Lane.asked (s : Lane) (top : Nat) : Nat := (s.requested.map (·.1.last)).count top

def Lane.after (s : Lane) : Nat := s.last.number + 1 + s.ancestry.headers.length

/-- What a catch-up keeps: the headers start above the tip, the rungs above them stand a whole window
apart, down from below `reach`, and how often the windows at and above them were requested. -/
structure Climbing (reach : Nat) (s : Lane) : Prop where
  first : s.ancestry.headers.map (·.number) =
    List.range' (s.last.number + 1) s.ancestry.headers.length
  peer : s.ancestry.headers ≠ [] → s.ancestry.headerPeer.isSome
  sorted : s.ancestry.rungs.Pairwise fun a b => a.blockNumber < b.blockNumber
  after_le : s.after ≤ reach
  ladder : ∀ top, s.after ≤ top → ((∃ rung ∈ s.ancestry.rungs, rung.blockNumber = top) ↔
    ∃ j, top + 1 + 1024 * j = reach)
  once : ∀ top, s.after ≤ top → 1 ≤ s.asked top →
    (∃ j, top + 1 + 1024 * j = reach) ∨ top ≤ reach + 2046
  twice : ∀ top, s.after ≤ top → 2 ≤ s.asked top →
    (∀ j, top + 1 + 1024 * j ≠ reach) ∧ top ≤ reach + 1022
  rungs : ∀ rung ∈ s.ancestry.rungs, s.asked rung.blockNumber ≤ 2

section Climb

variable {hashing : Hashing} {parentOf : BlockHash → BlockHash} {s s' : Lane} {event : LaneEvent}
  {reach : Nat}

def Lane.Succeeds (s : Lane) : LaneEvent → Prop
  | .attest _ => True
  | .move _ | .adopt _ => False
  | .anchor batchBlocks gate fetchWindow => ∀ lower head,
    liveStep s.last s.attested s.ancestry batchBlocks gate = .anchor lower head →
      ∃ proven, (proveAttestedAncestry lower head fetchWindow).2 = .ok proven
  | .catchUp _ _ served =>
    served ∧ ∀ first ∈ s.ancestry.headers.head?, first.parentHash = s.last.hash
  | .poll _ _ parent => parent = some s.last.hash

theorem Climbing.attest {head : AttestedHead} {heads : List AttestedHead} (h : Climbing reach s) :
    Climbing reach { s with attested := some head, heads } :=
  ⟨h.first, h.peer, h.sorted, h.after_le, h.ladder, h.once, h.twice, h.rungs⟩

theorem Climbing.poll {hash : BlockHash} (h : Climbing reach s) (hhdrs : s.ancestry.headers = []) :
    Climbing (max reach (s.after + 1)) { s with last := ⟨s.last.number + 1, hash⟩ } := by
  have hafter : s.after = s.last.number + 1 := by rw [Lane.after, hhdrs]; rfl
  have hnext : Lane.after { s with last := ⟨s.last.number + 1, hash⟩ } = s.after + 1 := by
    rw [Lane.after, hafter]; rw [hhdrs]; rfl
  -- From one block higher the same rungs are seen.
  have hladder : ∀ top, s.after + 1 ≤ top →
      ((∃ j, top + 1 + 1024 * j = reach) ↔ ∃ j, top + 1 + 1024 * j = max reach (s.after + 1)) := by
    intro top htop
    constructor
    · rintro ⟨j, hj⟩; exact ⟨j, by omega⟩
    · rintro ⟨j, hj⟩; exact ⟨j, by omega⟩
  refine ⟨by dsimp only; rw [hhdrs]; rfl, fun hne => absurd hhdrs hne, h.sorted, ?_, ?_, ?_,
    ?_, h.rungs⟩
  · rw [hnext]; exact Nat.le_max_right _ _
  · intro top htop
    rw [hnext] at htop; rw [← hladder top htop]; exact h.ladder top (by omega)
  · intro top htop hasked
    rw [hnext] at htop
    rw [← hladder top htop]; exact (h.once top (by omega) hasked).imp_right fun _ => by omega
  · intro top htop hasked
    rw [hnext] at htop
    obtain ⟨hnone, _⟩ := h.twice top (by omega) hasked
    refine ⟨fun j hj => ?_, by omega⟩
    obtain ⟨i, hi⟩ := (hladder top htop).2 ⟨j, hj⟩; exact hnone i hi

theorem Climbing.catchUp {count : Nat} {newest : Header} {hash : BlockHash} (h : Climbing reach s)
    (hcnt : count ≤ s.ancestry.headers.length)
    (hnew : (s.ancestry.headers.take count).getLast? = some newest) :
    newest.number = s.last.number + count ∧
      Lane.after { s with last := ⟨newest.number, hash⟩, ancestry := s.ancestry.taken count } =
        s.after ∧
      Climbing reach { s with
        last := ⟨newest.number, hash⟩, ancestry := s.ancestry.taken count } := by
  have hnum : newest.number = s.last.number + count := by
    have hnumbers := congrArg (fun numbers => (numbers.take count).getLast?) h.first
    rw [← map_take, getLast?_map, hnew, map_some,
      take_range'_of_length_ge hcnt, getLast?_range'] at hnumbers
    split at hnumbers
    · cases hnumbers
    · have := some.inj hnumbers; omega
  have hafter : Lane.after { s with
      last := ⟨newest.number, hash⟩, ancestry := s.ancestry.taken count } = s.after := by
    change newest.number + 1 + (s.ancestry.headers.drop count).length = _
    rw [Lane.after, length_drop, hnum]; omega
  refine ⟨hnum, hafter, ?_, fun hne => h.peer fun hnil => hne ?_, h.sorted, ?_, ?_, ?_, ?_, h.rungs⟩
  · change (s.ancestry.headers.drop count).map _ =
      range' (newest.number + 1) (s.ancestry.headers.drop count).length
    rw [map_drop, h.first, drop_range', length_drop, hnum]
    congr 1
    omega
  · rw [Ancestry.taken, hnil, drop_nil]
  · rw [hafter]; exact h.after_le
  · rw [hafter]; exact h.ladder
  · rw [hafter]; exact h.once
  · rw [hafter]; exact h.twice

theorem asked_append {wins : List (BlockRange × BlockHash)} {ancestry : Ancestry} {top : Nat} :
    Lane.asked { s with ancestry, requested := s.requested ++ wins } top =
      s.asked top + (wins.map (·.1.last)).count top := by
  rw [Lane.asked, Lane.asked, map_append, count_append]

variable {list : List (BlockRange × BlockHash)} {lower size below kept : Nat}
  {head : AttestedHead} {proven : Ancestry}

def Lane.proved (s : Lane) (proven : Ancestry) (list : List (BlockRange × BlockHash)) : Lane :=
  { s with ancestry := s.ancestry.advance proven, requested := s.requested ++ list }

theorem after_proved (h : Proved hashing parentOf (s.last.number + 1) kept head list [] proven) :
    (s.proved proven list).after = s.last.number + 1 + kept := by
  have hlen := congrArg length h.numbers
  rw [length_map, length_range'] at hlen
  change s.last.number + 1 + proven.headers.length = _; rw [hlen]

theorem rungs_proved (h : Proved hashing parentOf lower kept head list [] proven) :
    (s.proved proven list).ancestry.rungs =
      proven.rungs ++ s.ancestry.rungs.filter fun rung => head.blockNumber < rung.blockNumber := by
  change proven.rungs ++ s.ancestry.rungs.filter _ = _; rw [h.head_eq]; rfl

section

variable (h : Climbing reach s) (hheaders : s.ancestry.headers = [])
  (hrung : head ∈ s.ancestry.rungs) (hnext : s.last.number + 1 ≤ head.blockNumber)
  (hlowest : ∀ rung ∈ s.ancestry.rungs, s.last.number + 1 ≤ rung.blockNumber → head.blockNumber ≤ rung.blockNumber)
  (hsize : 1 ≤ size)

include h hheaders hrung hnext hlowest hsize

theorem Climbing.one_window
    (htotal : head.blockNumber + 1 = s.last.number + 1 + 1024 * below + size) : below = 0 := by
  have hafter : s.after = s.last.number + 1 := by rw [Lane.after, hheaders]; rfl
  obtain ⟨j, _⟩ := (h.ladder head.blockNumber (by omega)).1 ⟨head, hrung, rfl⟩
  -- A rung one window lower would be the lowest one.
  have hnear : head.blockNumber < s.last.number + 1 + 1024 := by
    by_contra hfar
    obtain ⟨rung, hmem, _⟩ := (h.ladder (head.blockNumber - 1024) (by omega)).2 ⟨j + 1, by omega⟩
    have := hlowest rung hmem (by omega); omega
  omega

theorem Climbing.anchor_rung (htotal : head.blockNumber + 1 = s.last.number + 1 + 1024 * below + size)
    (hlist : list.map (fun win => (win.1.start, win.1.last)) =
      windows (s.last.number + 1) size below) (hpvd : Proved hashing parentOf (s.last.number + 1)
      (if below = 0 then size else maxAncestryHeaders) head list [] proven) :
    Climbing reach (s.proved proven list) := by
  have hafter : s.after = s.last.number + 1 := by rw [Lane.after, hheaders]; rfl
  obtain ⟨_, _⟩ := (h.ladder head.blockNumber (by omega)).1 ⟨head, hrung, rfl⟩
  obtain rfl := h.one_window hheaders hrung hnext hlowest hsize htotal
  rw [if_pos rfl] at hpvd
  have hnew : (s.proved proven list).after = head.blockNumber + 1 := by
    rw [after_proved hpvd]; omega
  have htops : list.map (·.1.last) = [head.blockNumber] := by
    rw [tops_eq hlist, windows, map_singleton]
    congr 1
    omega
  have hnone : proven.rungs = [] := by
    rw [hpvd.rungs_eq, append_nil, reverse_eq_nil_iff, map_eq_nil_iff, filter_eq_nil_iff]
    intro win hwin hfar
    have hmem : win.1.last ∈ list.map (·.1.last) := mem_map_of_mem hwin
    rw [htops, mem_singleton] at hmem
    have hfar := of_decide_eq_true hfar; rw [maxAncestryHeaders_eq] at hfar; omega
  have hrungs := @rungs_proved hashing parentOf s _ _ _ _ _ hpvd
  rw [hnone, nil_append] at hrungs
  have hasked : ∀ top, head.blockNumber < top → (s.proved proven list).asked top = s.asked top := by
    intro top htop
    rw [Lane.proved, asked_append, htops, count_singleton, if_neg (by simp; omega), Nat.add_zero]
  refine ⟨?_, fun _ => hpvd.peer, ?_, ?_, ?_, ?_, ?_, ?_⟩
  · exact hpvd.numbers_range
  · rw [hrungs]; exact h.sorted.filter _
  · rw [hnew]; omega
  · intro top htop
    rw [← h.ladder top (by omega), hrungs]
    constructor
    · rintro ⟨rung, hmem, rfl⟩; exact ⟨rung, (mem_filter.1 hmem).1, rfl⟩
    · rintro ⟨rung, hmem, rfl⟩; exact ⟨rung, mem_filter.2 ⟨hmem, decide_eq_true (by omega)⟩, rfl⟩
  · intro top htop; rw [hasked top (by omega)]; exact h.once top (by omega)
  · intro top htop; rw [hasked top (by omega)]; exact h.twice top (by omega)
  · intro rung hmem
    rw [hrungs] at hmem
    obtain ⟨hmem, habove⟩ := mem_filter.1 hmem
    rw [hasked _ (of_decide_eq_true habove)]; exact h.rungs rung hmem

end

theorem Climbing.anchor_head (h : Climbing reach s) (hhdrs : s.ancestry.headers = [])
    (hnone : ∀ rung ∈ s.ancestry.rungs, rung.blockNumber < s.last.number + 1)
    (hsize : 1 ≤ size) (hmax : size ≤ 1024)
    (htotal : head.blockNumber + 1 = s.last.number + 1 + 1024 * below + size)
    (hlist : list.map (fun win => (win.1.start, win.1.last)) =
      windows (s.last.number + 1) size below)
    (hpvd : Proved hashing parentOf (s.last.number + 1)
      (if below = 0 then size else maxAncestryHeaders) head list [] proven) :
    Climbing (if below = 0 then s.last.number + 1 + size
        else s.last.number + 1 + 1024 * max 1 (if size = 1024 then below else below - 1))
      (s.proved proven list) := by
  have hafter : s.after = s.last.number + 1 := by rw [Lane.after, hhdrs]; rfl
  obtain rfl : reach = s.last.number + 1 := by
    by_contra hne
    have hle := h.after_le
    obtain ⟨rung, hmem, _⟩ := (h.ladder (reach - 1) (by omega)).2 ⟨0, by omega⟩
    have := hnone rung hmem; omega
  have hnew : (s.proved proven list).after =
      s.last.number + 1 + (if below = 0 then size else 1024) := by
    rw [after_proved hpvd, maxAncestryHeaders_eq]
  have hrungs : (s.proved proven list).ancestry.rungs = proven.rungs := by
    rw [rungs_proved hpvd, filter_eq_nil_iff.2, append_nil]
    intro rung hmem hlt
    have := hnone rung hmem
    have := of_decide_eq_true hlt; omega
  have hasked : ∀ top, (s.proved proven list).asked top =
      s.asked top + ((windows (s.last.number + 1) size below).map (·.2)).count top := by
    intro top; rw [Lane.proved, asked_append, tops_eq hlist]
  have hmem : ∀ top, (∃ rung ∈ (s.proved proven list).ancestry.rungs, rung.blockNumber = top) ↔
      (top + 1 = s.last.number + 1 + 1024 * below + size ∨
      ∃ j < below, top + 1 = s.last.number + 1 + 1024 * (j + 1)) ∧ 1024 ≤ head.blockNumber - top := by
    intro top; rw [hrungs, hpvd.mem_rungs, tops_eq hlist, mem_tops hsize]
  have hcnt : ∀ top, ((windows (s.last.number + 1) size below).map (·.2)).count top ≤ 1 ∧
      (1 ≤ ((windows (s.last.number + 1) size below).map (·.2)).count top →
        top + 1 = s.last.number + 1 + 1024 * below + size ∨
          ∃ j < below, top + 1 = s.last.number + 1 + 1024 * (j + 1)) := by
    intro top
    refine ⟨count_tops_le hsize, fun hpos => (mem_tops hsize).1 ?_⟩
    exact count_pos_iff.1 hpos
  -- Nothing two windows above the tip was requested before, and only one window is full.
  have honce : ∀ top, s.last.number + 1 ≤ top → 1 ≤ s.asked top → top ≤ s.last.number + 1 + 2046 := by
    intro top htop hone
    obtain ⟨j, hj⟩ | hle := h.once top (by omega) hone
    · omega
    · exact hle
  have htwice : ∀ top, s.last.number + 1 ≤ top → 2 ≤ s.asked top →
      top ≤ s.last.number + 1 + 1022 := fun top htop htwo => (h.twice top (by omega) htwo).2
  refine ⟨?_, fun _ => hpvd.peer, ?_, ?_, ?_, ?_, ?_, ?_⟩
  · exact hpvd.numbers_range
  · rw [hrungs]; exact hpvd.sorted hsize hlist
  · rw [hnew]
    split <;> omega
  · intro top htop
    rw [hnew] at htop
    rw [hmem]
    constructor
    · rintro ⟨hend | ⟨j, hj, htop'⟩, hfar⟩
      · omega
      · refine ⟨max 1 (if size = 1024 then below else below - 1) - (j + 1), ?_⟩
        split_ifs at htop ⊢ <;> omega
    · rintro ⟨j, hj⟩
      split_ifs at htop hj
      · omega
      · exact ⟨.inr ⟨below - 1 - j, by omega, by omega⟩, by omega⟩
      · exact ⟨.inr ⟨max 1 (below - 1) - 1 - j, by omega, by omega⟩, by omega⟩
  · intro top htop hone
    rw [hnew] at htop
    rw [hasked] at hone
    obtain ⟨hle, hwin⟩ := hcnt top
    by_cases hold : 1 ≤ s.asked top
    · have := honce top (by split at htop <;> omega) hold
      split_ifs at htop ⊢ <;> omega
    · obtain hend | ⟨j, hj, htop'⟩ := hwin (by omega)
      · refine .inr ?_
        split_ifs at htop ⊢ <;> omega
      · by_cases hrung : j + 1 ≤ max 1 (if size = 1024 then below else below - 1)
        · refine .inl ⟨max 1 (if size = 1024 then below else below - 1) - (j + 1), ?_⟩
          split_ifs at htop hrung ⊢ <;> omega
        · refine .inr ?_
          split_ifs at htop hrung ⊢ <;> omega
  · intro top htop htwo
    rw [hnew] at htop
    rw [hasked] at htwo
    obtain ⟨hle, hwin⟩ := hcnt top
    have hold : 1 ≤ s.asked top := by omega
    have hbound := honce top (by split at htop <;> omega) hold
    refine ⟨fun j hj => ?_, ?_⟩
    · split_ifs at htop hj <;> omega
    · by_cases hagain : 2 ≤ s.asked top
      · have := htwice top (by split at htop <;> omega) hagain
        split_ifs at htop ⊢ <;> omega
      · obtain hend | ⟨j, hj, htop'⟩ := hwin (by omega) <;> split_ifs at htop ⊢ <;> omega
  · intro rung hrung
    obtain ⟨hpos, hfar⟩ := (hmem rung.blockNumber).1 ⟨rung, hrung, rfl⟩
    rw [hasked]
    obtain ⟨hle, -⟩ := hcnt rung.blockNumber
    by_contra hmany
    have := htwice rung.blockNumber (by omega) (by omega)
    obtain hend | ⟨j, hj, htop'⟩ := hpos <;> omega

/-- A number at which no window ends twice more: it was asked for at most twice, and a rung stands
there until the headers reach it. -/
def Lane.Settled (s : Lane) (top : Nat) : Prop :=
  s.asked top ≤ 2 ∧ (s.after ≤ top → ∃ rung ∈ s.ancestry.rungs, rung.blockNumber = top)

def Lane.behind (s : Lane) (head : Nat) : Nat :=
  2 * (head - s.last.number) + if s.ancestry.headers = [] then 1 else 0

structure Climbs (s s' : Lane) : Prop where
  climbing : ∃ reach, Climbing reach s'
  settled : ∀ top, s.Settled top → s'.Settled top

theorem Climbing.headers_eq (h : Climbing reach s)
    (hfst : s.ancestry.first ≠ some (s.last.number + 1)) : s.ancestry.headers = [] := by
  cases hheaders : s.ancestry.headers with
  | nil => rfl
  | cons header headers =>
    have hnumbers := h.first
    rw [hheaders, map_cons, length_cons, range'_succ, cons.injEq] at hnumbers
    refine absurd ?_ hfst
    rw [Ancestry.first, hheaders, head?_cons, map_some, hnumbers.1]

variable {rung : AttestedHead}

theorem Climbing.settled (h : Climbing reach s)
    (hrung : rung ∈ s.ancestry.rungs) : s.Settled rung.blockNumber :=
  ⟨h.rungs rung hrung, fun _ => ⟨rung, hrung, rfl⟩⟩

theorem lowest_of_find? {rungs : List AttestedHead} {num : Nat} (hsort : rungs.Pairwise fun a b =>
    a.blockNumber < b.blockNumber) (hfind : rungs.find? (fun rung => num ≤ rung.blockNumber) =
    some rung) : rung ∈ rungs ∧ num ≤ rung.blockNumber ∧
    ∀ rung' ∈ rungs, num ≤ rung'.blockNumber → rung.blockNumber ≤ rung'.blockNumber := by
  obtain ⟨hnum, _, _, rfl, hbef⟩ := find?_eq_some_iff_append.1 hfind
  refine ⟨mem_append_right _ mem_cons_self, of_decide_eq_true hnum, fun rung' hmem _ => ?_⟩
  rw [pairwise_append, pairwise_cons] at hsort
  obtain hlow | hmem := mem_append.1 hmem
  · have := hbef rung' hlow; simp at this; omega
  · obtain rfl | hlater := mem_cons.1 hmem
    · exact le_rfl
    · exact (hsort.2.1.1 rung' hlater).le

section

variable (h : Climbing reach s) (hsound : Sound hashing parentOf s)

include h hsound

theorem Climbing.anchor {batchLen : Nat} {gate : HeadGate} {fetchWindow : FetchWindow}
    (hfetch : Fetches hashing parentOf fetchWindow)
    (hlive : liveStep s.last s.attested s.ancestry batchLen gate = .anchor lower head)
    (hres : proveAttestedAncestry lower head fetchWindow = (list, .ok proven)) :
    Climbs s (s.proved proven list) ∧ s.ancestry.headers = [] ∧ proven.headers ≠ [] := by
  obtain ⟨_, hlower, hmax, hsmall⟩ := hsound.anchor hlive
  obtain ⟨newest, -, rfl, -, hfirst, hhead⟩ := liveStep_anchor hlive hsound.small_attested
  have hheaders := h.headers_eq hfirst
  have hafter : s.after = s.last.number + 1 := by rw [Lane.after, hheaders]; rfl
  obtain ⟨size, below, hsize, hfull, htotal, -, hspec⟩ :=
    proveAttestedAncestry_spec hfetch hmax hlower hsmall
  rw [hres] at hspec
  dsimp only at hspec
  obtain ⟨hlist, hpvd⟩ := hspec proven rfl
  rw [maxAncestryHeaders_eq] at hfull htotal
  have hnonempty : proven.headers ≠ [] := by
    rintro hnil
    have hlen := congrArg length hpvd.numbers
    rw [hnil, length_map, length_range', length_nil, maxAncestryHeaders_eq] at hlen
    split at hlen <;> omega
  have hasked : ∀ top, (s.proved proven list).asked top =
      s.asked top + ((windows (s.last.number + 1) size below).map (·.2)).count top := by
    intro top; rw [Lane.proved, asked_append, tops_eq hlist]
  have hbelow : ∀ top, top < s.last.number + 1 → (s.proved proven list).asked top = s.asked top := by
    intro top htop
    rw [hasked, count_eq_zero.2, Nat.add_zero]
    rw [mem_tops hsize]
    rintro (_ | ⟨j, hj, _⟩) <;> omega
  have hnew := @after_proved hashing parentOf s _ _ _ _ hpvd
  refine ⟨?_, hheaders, hnonempty⟩
  cases hfind : s.ancestry.rungs.find? fun rung => s.last.number + 1 ≤ rung.blockNumber with
  | some rung =>
    rw [hfind] at hhead
    obtain rfl : head = rung := hhead
    obtain ⟨hrung, hnext, hlowest⟩ := lowest_of_find? h.sorted hfind
    have hzero := h.one_window hheaders hrung hnext hlowest hsize htotal
    rw [if_pos hzero] at hnew
    refine ⟨⟨reach, h.anchor_rung hheaders hrung hnext hlowest hsize htotal hlist hpvd⟩,
      fun top hsettled => ?_⟩
    obtain ⟨htwo, hrungs⟩ := hsettled
    by_cases htop : s.last.number + 1 ≤ top
    · obtain ⟨rung', hmem, rfl⟩ := hrungs (by omega)
      -- A rung above the headers was asked for at most once.
      have hone : s.asked rung'.blockNumber ≤ 1 := by
        by_contra hmany
        obtain ⟨j, hj⟩ := (h.ladder rung'.blockNumber (by omega)).1 ⟨rung', hmem, rfl⟩
        exact (h.twice rung'.blockNumber (by omega) (by omega)).1 j hj
      refine ⟨?_, fun _ => ?_⟩
      · rw [hasked]
        have := @count_tops_le (s.last.number + 1) size below rung'.blockNumber hsize; omega
      · refine ⟨rung', ?_, rfl⟩
        rw [rungs_proved hpvd]
        refine mem_append_right _ (mem_filter.2 ⟨hmem, decide_eq_true ?_⟩)
        omega
    · exact ⟨by rw [hbelow top (by omega)]; exact htwo, fun hle => by omega⟩
  | none =>
    rw [hfind] at hhead
    have hnone : ∀ rung ∈ s.ancestry.rungs, rung.blockNumber < s.last.number + 1 := by
      intro rung hrung; simpa using find?_eq_none.1 hfind rung hrung
    refine ⟨⟨_, h.anchor_head hheaders hnone hsize hfull htotal hlist hpvd⟩, fun top hsettled => ?_⟩
    obtain ⟨htwo, hrungs⟩ := hsettled
    by_cases htop : s.last.number + 1 ≤ top
    · obtain ⟨rung, hmem, rfl⟩ := hrungs (by omega); exact absurd (hnone rung hmem) (by omega)
    · exact ⟨by rw [hbelow top (by omega)]; exact htwo, fun hle => by omega⟩

theorem catchUp_cases {batchLen : Nat} {gate : HeadGate} {served : Bool} {range : BlockRange}
    (hlive : liveStep s.last s.attested s.ancestry batchLen gate = .catchUp range)
    (hsucceeds : s.Succeeds (.catchUp batchLen gate served))
    (hstep : s.step hashing (.catchUp batchLen gate served) = some s') :
    ∃ newest, (s.ancestry.headers.take (rangeLen range)).getLast? = some newest ∧ s' = { s with
        last := ⟨newest.number, hashing.hashSlow newest⟩
        ancestry := s.ancestry.taken (rangeLen range) } := by
  obtain ⟨-, _, _, _, _⟩ := liveStep_catchUp hlive hsound.small_attested
  have hone : rangeLen range ≠ 0 := by
    have := range.start_le_last; omega
  simp only [Lane.step, hlive] at hstep
  split at hstep
  · rename_i first newest hhead hlast
    rw [head?_take, if_neg hone] at hhead
    have hpeer := h.peer fun hnil => by
      rw [hnil] at hhead; cases hhead
    rw [if_pos ⟨hsucceeds.2 first hhead, hsucceeds.1, hpeer⟩] at hstep
    exact ⟨newest, hlast, (some.inj hstep).symm⟩
  · cases hstep

theorem Climbing.step (hfetch : ∀ batchBlocks gate fetchWindow,
    event = .anchor batchBlocks gate fetchWindow → Fetches hashing parentOf fetchWindow)
    (hsucceeds : s.Succeeds event) (hstep : s.step hashing event = some s') : Climbs s s' := by
  cases event with
  | attest head =>
    rw [Lane.step] at hstep
    split at hstep
    · cases hstep; exact ⟨⟨reach, h.attest⟩, fun _ hsettled => hsettled⟩
    · cases hstep
  | move last => exact hsucceeds.elim
  | adopt last => exact hsucceeds.elim
  | anchor batchBlocks gate fetchWindow =>
    rw [Lane.step] at hstep
    split at hstep
    · rename_i lower head hlive
      obtain ⟨prv, hprv⟩ := hsucceeds lower head hlive
      split at hstep
      · rename_i list prv hres
        cases hstep; exact (h.anchor hsound (hfetch _ _ _ rfl) hlive hres).1
      · rename_i hres; rw [hres] at hprv; cases hprv
    · cases hstep
  | catchUp batchBlocks gate served =>
    cases hlive : liveStep s.last s.attested s.ancestry batchBlocks gate with
    | catchUp range =>
      obtain ⟨newest, hnew, rfl⟩ := catchUp_cases h hsound hlive hsucceeds hstep
      obtain ⟨-, -, -, -, hle⟩ := liveStep_catchUp hlive hsound.small_attested
      obtain ⟨-, hafter, hclimbing⟩ :=
        @Climbing.catchUp s reach _ _ (hashing.hashSlow newest) h hle hnew
      refine ⟨⟨reach, hclimbing⟩, fun top hsettled => ⟨hsettled.1, fun htop => ?_⟩⟩
      rw [hafter] at htop; exact hsettled.2 htop
    | _ => simp [Lane.step, hlive] at hstep
  | poll batchBlocks gate parent =>
    cases hlive : liveStep s.last s.attested s.ancestry batchBlocks gate with
    | poll block tip =>
      obtain ⟨head, -, -, rfl, -, hfirst⟩ := liveStep_poll hlive hsound.small_attested
      have hheaders := h.headers_eq hfirst
      simp only [Lane.step, hlive] at hstep
      rw [if_pos (show parent = some s.last.hash from hsucceeds)] at hstep
      cases hstep
      refine ⟨⟨_, h.poll hheaders⟩, fun top hsettled => ⟨hsettled.1, fun htop => ?_⟩⟩
      refine hsettled.2 (Nat.le_trans ?_ htop)
      rw [Lane.after, Lane.after]
      dsimp only; omega
    | _ => simp [Lane.step, hlive] at hstep

theorem Climbing.nearer {head : AttestedHead} (hfetch : ∀ batchBlocks gate fetchWindow,
    event = .anchor batchBlocks gate fetchWindow → Fetches hashing parentOf fetchWindow)
    (hsucceeds : s.Succeeds event) (hstep : s.step hashing event = some s')
    (hatt : s.attested = some head) (hold : ∀ head, event ≠ .attest head) :
    s'.attested = some head ∧ s'.behind head.blockNumber + 1 ≤ s.behind head.blockNumber := by
  cases event with
  | attest head => exact absurd rfl (hold head)
  | move last => exact hsucceeds.elim
  | adopt last => exact hsucceeds.elim
  | anchor batchBlocks gate fetchWindow =>
    rw [Lane.step] at hstep
    split at hstep
    · rename_i lower top hlive
      obtain ⟨prv, hprv⟩ := hsucceeds lower top hlive
      split at hstep
      · rename_i list prv hres
        cases hstep
        obtain ⟨-, hnone, hsome⟩ := h.anchor hsound (hfetch _ _ _ rfl) hlive hres
        refine ⟨hatt, ?_⟩
        have hhdrs : (s.ancestry.advance prv).headers ≠ [] := hsome
        rw [Lane.behind, Lane.behind]; rw [if_neg hhdrs, if_pos hnone]
      · rename_i hres; rw [hres] at hprv; cases hprv
    · cases hstep
  | catchUp batchBlocks gate served =>
    cases hlive : liveStep s.last s.attested s.ancestry batchBlocks gate with
    | catchUp range =>
      obtain ⟨newest, hnew, rfl⟩ := catchUp_cases h hsound hlive hsucceeds hstep
      obtain ⟨⟨head', hhead', _⟩, _, -, hlen, hle⟩ :=
        liveStep_catchUp hlive hsound.small_attested
      obtain rfl : head' = head := by
        rw [hatt] at hhead'; exact (some.inj hhead').symm
      obtain ⟨hnum, -, -⟩ :=
        @Climbing.catchUp s reach _ _ (hashing.hashSlow newest) h hle hnew
      refine ⟨hatt, ?_⟩
      have hfirst := range.start_le_last
      rw [Lane.behind, Lane.behind]
      dsimp only
      split <;> split <;> omega
    | _ => simp [Lane.step, hlive] at hstep
  | poll batchBlocks gate parent =>
    cases hlive : liveStep s.last s.attested s.ancestry batchBlocks gate with
    | poll block tip =>
      obtain ⟨head', hhead', _, rfl, -, hfirst⟩ := liveStep_poll hlive hsound.small_attested
      obtain rfl : head' = head := by
        rw [hatt] at hhead'; exact (some.inj hhead').symm
      simp only [Lane.step, hlive] at hstep
      rw [if_pos (show parent = some s.last.hash from hsucceeds)] at hstep
      cases hstep
      refine ⟨hatt, ?_⟩
      rw [Lane.behind, Lane.behind]
      dsimp only
      split <;> omega
    | _ => simp [Lane.step, hlive] at hstep

end

end Climb

def StepSafe (hashing : Hashing) (parentOf : BlockHash → BlockHash) (s : Lane) (gate : HeadGate) :
    LiveStep → Prop
  | .wait => True
  | .head _ => gate.allows s.attested
  | .poll block tip => ∃ head ∈ s.attested,
    block = head.blockNumber ∧ tip = ⟨head.blockHash, .verified⟩
  | .catchUp range => (∃ head ∈ s.attested, range.last ≤ head.blockNumber) ∧
    (s.ancestry.headers.take (rangeLen range)).map (·.number) =
      List.range' range.start (range.last + 1 - range.start) ∧
    ∀ header ∈ s.ancestry.headers.take (rangeLen range),
      AncestorOf parentOf s.heads 0 header.number (hashing.hashSlow header)
  | .anchor lower _ => ∃ head ∈ s.attested, lower ≤ head.blockNumber

def SuccessRun (hashing : Hashing) : Lane → List LaneEvent → Prop
  | _, [] => True
  | s, event :: events =>
    s.Succeeds event ∧ ∀ s', s.step hashing event = some s' → SuccessRun hashing s' events

section Runs

variable {hashing : Hashing} {parentOf : BlockHash → BlockHash} {s s' : Lane}
  {events : List LaneEvent}

def FetchesAll (hashing : Hashing) (parentOf : BlockHash → BlockHash) (events : List LaneEvent) :
    Prop :=
  ∀ batchBlocks gate fetchWindow, LaneEvent.anchor batchBlocks gate fetchWindow ∈ events →
    Fetches hashing parentOf fetchWindow

theorem FetchesAll.head {event : LaneEvent} (h : FetchesAll hashing parentOf (event :: events)) :
    ∀ batchLen gate fetchWindow, event = .anchor batchLen gate fetchWindow →
      Fetches hashing parentOf fetchWindow :=
  fun batchLen gate fetchWindow heq => h batchLen gate fetchWindow (heq ▸ mem_cons_self)

theorem FetchesAll.tail {event : LaneEvent}
    (h : FetchesAll hashing parentOf (event :: events)) : FetchesAll hashing parentOf events :=
  fun batchLen gate fetchWindow hmem => h batchLen gate fetchWindow (mem_cons_of_mem _ hmem)

theorem Sound.run (hfetch : FetchesAll hashing parentOf events) : ∀ {s : Lane},
    Sound hashing parentOf s → s.run hashing events = some s' → Sound hashing parentOf s' := by
  induction events with
  | nil =>
    intro s h hrun; rw [← some.inj hrun]; exact h
  | cons event events ih =>
    intro s h hrun
    rw [Lane.run, bind_eq_some_iff] at hrun
    obtain ⟨_, hstep, hrun⟩ := hrun; exact ih hfetch.tail (h.step hfetch.head hstep) hrun

theorem Sound.safe (h : Sound hashing parentOf s) (batchLen : Nat) (gate : HeadGate) :
    StepSafe hashing parentOf s gate (liveStep s.last s.attested s.ancestry batchLen gate) := by
  cases hlive : liveStep s.last s.attested s.ancestry batchLen gate with
  | wait => trivial
  | head block => exact (liveStep_head hlive).2.1
  | poll block tip =>
    obtain ⟨head, hhead, hblock, -, htip, -⟩ := liveStep_poll hlive h.small_attested
    exact ⟨head, hhead, hblock, htip⟩
  | anchor lower head =>
    obtain ⟨newest, hnew, -, hlt, -, -⟩ := liveStep_anchor hlive h.small_attested
    exact ⟨newest, hnew, hlt.le⟩
  | catchUp range =>
    obtain ⟨hhead, hstart, hfirst, hlen, hle⟩ := liveStep_catchUp hlive h.small_attested
    refine ⟨hhead, ?_, fun hdr hmem => h.headers hdr (mem_of_mem_take hmem)⟩
    obtain ⟨start, hnumbers⟩ := h.numbers
    have hstarts : start = range.start := by
      cases hheaders : s.ancestry.headers with
      | nil => simp [Ancestry.first, hheaders] at hfirst
      | cons hdr headers =>
        rw [hheaders, map_cons, length_cons, range'_succ, cons.injEq] at hnumbers
        rw [Ancestry.first, hheaders, head?_cons, map_some, some.injEq] at hfirst
        rw [← hnumbers.1, hfirst, hstart]
    rw [map_take, hnumbers, take_range'_of_length_ge hle, hstarts, hlen, hstart]
    congr 1
    omega

theorem Climbs.run (hfetch : FetchesAll hashing parentOf events) :
    ∀ {s : Lane} {reach : Nat}, Climbing reach s → Sound hashing parentOf s →
      SuccessRun hashing s events → s.run hashing events = some s' → Climbs s s' := by
  induction events with
  | nil =>
    intro s reach h _ _ hrun; rw [← some.inj hrun]; exact ⟨⟨reach, h⟩, fun _ hsettled => hsettled⟩
  | cons event events ih =>
    intro s reach h hsound hsucc hrun
    rw [Lane.run, bind_eq_some_iff] at hrun
    obtain ⟨next, hstep, hrun⟩ := hrun
    have hclimbs := h.step hsound hfetch.head hsucc.1 hstep
    obtain ⟨_, hnext⟩ := hclimbs.climbing
    have hlast := ih hfetch.tail hnext (hsound.step hfetch.head hstep) (hsucc.2 next hstep) hrun
    exact ⟨hlast.climbing, fun top hsettled => hlast.settled top (hclimbs.settled top hsettled)⟩

theorem Climbing.run_nearer {head : AttestedHead} (hfetch : FetchesAll hashing parentOf events)
    (hold : ∀ head, LaneEvent.attest head ∉ events) :
    ∀ {s : Lane} {reach : Nat}, Climbing reach s → Sound hashing parentOf s →
      SuccessRun hashing s events → s.run hashing events = some s' → s.attested = some head →
        events.length + s'.behind head.blockNumber ≤ s.behind head.blockNumber := by
  induction events with
  | nil =>
    intro s reach _ _ _ hrun _; rw [← some.inj hrun, length_nil, Nat.zero_add]
  | cons event events ih =>
    intro s reach h hsound hsucc hrun hatt
    rw [Lane.run, bind_eq_some_iff] at hrun
    obtain ⟨next, hstep, hrun⟩ := hrun
    obtain ⟨_, hnext⟩ := (h.step hsound hfetch.head hsucc.1 hstep).climbing
    obtain ⟨hsame, _⟩ := h.nearer hsound hfetch.head hsucc.1 hstep hatt
      fun head heq => hold head (heq ▸ mem_cons_self)
    have hlast := ih hfetch.tail (fun head hmem => hold head (mem_cons_of_mem _ hmem)) hnext
      (hsound.step hfetch.head hstep) (hsucc.2 next hstep) hrun hsame
    rw [length_cons]; omega

theorem run_split {later : List LaneEvent} :
    ∀ {s : Lane}, s.run hashing (events ++ later) = some s' → SuccessRun hashing s (events ++ later) →
      ∃ middle, s.run hashing events = some middle ∧ SuccessRun hashing s events ∧
        middle.run hashing later = some s' ∧ SuccessRun hashing middle later := by
  induction events with
  | nil => exact fun hrun hsucc => ⟨_, rfl, trivial, hrun, hsucc⟩
  | cons event events ih =>
    intro s hrun hsucc
    rw [cons_append, Lane.run, bind_eq_some_iff] at hrun
    obtain ⟨next, hstep, hrun⟩ := hrun
    obtain ⟨middle, hmid, hbef, hlater⟩ := ih hrun (hsucc.2 next hstep)
    refine ⟨middle, ?_, ⟨hsucc.1, fun _ hnext => ?_⟩, hlater⟩
    · rw [Lane.run, hstep, bind_some]; exact hmid
    · rw [hstep] at hnext; rw [← some.inj hnext]; exact hbef

theorem climbing_fresh (h : Sound hashing parentOf s) (hhdrs : s.ancestry.headers = [])
    (hrungs : ∀ rung ∈ s.ancestry.rungs, rung.blockNumber ≤ s.last.number) :
    Climbing (s.last.number + 1) { s with requested := [] } := by
  have hafter : Lane.after { s with requested := [] } = s.last.number + 1 := by
    rw [Lane.after]; rw [hhdrs]; rfl
  have hnever : ∀ top, Lane.asked { s with requested := [] } top = 0 := fun _ => rfl
  refine ⟨by dsimp only; rw [hhdrs]; rfl, fun hne => absurd hhdrs hne, h.sorted, hafter.le,
    fun top _ => ?_, fun top _ hone => ?_, fun top _ htwo => ?_, fun rung _ => ?_⟩
  · refine iff_of_false ?_ ?_
    · rintro ⟨rung, hrung, rfl⟩
      have := hrungs rung hrung; omega
    · rintro ⟨_, _⟩; omega
  · rw [hnever] at hone; omega
  · rw [hnever] at htwo; omega
  · rw [hnever]; exact Nat.zero_le _

theorem liveStep_ready {last : Tip} {attested : Option AttestedHead} {ancestry : Ancestry}
    {batchLen : Nat} {gate : HeadGate} {head : AttestedHead} (hhead : head ∈ attested)
    (hlt : last.number < head.blockNumber) : liveStep last attested ancestry batchLen gate ≠ .wait ∧
      ∀ block, liveStep last attested ancestry batchLen gate ≠ .head block := by
  refine ⟨fun hwait => ?_, fun block hlive => ?_⟩
  · rw [liveStep] at hwait
    split at hwait
    · rename_i hnone
      have := filter_eq_none_iff.1 hnone head hhead; simp at this; omega
    · dsimp only at hwait
      split at hwait
      · cases hwait
      · split at hwait <;> cases hwait
  · have := (liveStep_head hlive).2.2 head hhead; omega

theorem proof_partition {lower : Nat} {head : AttestedHead} {fetchWindow : FetchWindow}
    {prv : Ancestry} (hfetch : Fetches hashing parentOf fetchWindow) (hpos : 0 < lower)
    (hlower : lower ≤ head.blockNumber) (hmax : head.blockNumber ≤ u64Max)
    (hprv : (proveAttestedAncestry lower head fetchWindow).2 = .ok prv) :
    ((proveAttestedAncestry lower head fetchWindow).1.map
        (fun win => (win.1.start, win.1.last))).flatMap
          (Tiling.numbersDown Prod.fst Prod.snd) =
        (range' lower (head.blockNumber + 1 - lower)).reverse ∧
      prv.headers.map (·.number) =
        range' lower (min maxAncestryHeaders (head.blockNumber + 1 - lower)) := by
  obtain ⟨size, below, hsize, _, htotal, -, hspec⟩ :=
    proveAttestedAncestry_spec hfetch hmax hlower (by omega)
  obtain ⟨hlist, hpvd⟩ := hspec prv hprv
  have hdown := @windows_down lower size below hsize
  rw [← htotal] at hdown
  refine ⟨by rw [hlist, hdown.flatMap_numbersDown], ?_⟩
  rw [hpvd.numbers]
  congr 1
  split
  · rename_i hzero; rw [hzero, Nat.mul_zero] at htotal; omega
  · rename_i hne
    have := Nat.mul_le_mul_left maxAncestryHeaders (Nat.one_le_iff_ne_zero.2 hne); omega

end Runs

/-- In every run of the lane the rungs are ancestors of attested heads a whole window above them, no
step goes above the newest attested head without the gate or beyond what a head proves, and the
windows of every proof partition its blocks. From a lane with nothing proven above its tip, a
catch-up whose fetches succeed requests a window with a rung at most twice, has a next step while the
head is above the tip, and comes nearer to it with every step. -/
theorem run_catches_up {hashing : Hashing} {parentOf : BlockHash → BlockHash} {last : Tip}
    {events : List LaneEvent} {s : Lane} (hfetch : FetchesAll hashing parentOf events)
    (hrun : (Lane.start last).run hashing events = some s) :
    (∀ rung ∈ s.ancestry.rungs,
      AncestorOf parentOf s.heads maxAncestryHeaders rung.blockNumber rung.blockHash) ∧
    (∀ batchBlocks gate, StepSafe hashing parentOf s gate
      (liveStep s.last s.attested s.ancestry batchBlocks gate)) ∧
    (∀ lower head fetchWindow proven, Fetches hashing parentOf fetchWindow → 0 < lower →
      lower ≤ head.blockNumber → head.blockNumber ≤ u64Max →
        (proveAttestedAncestry lower head fetchWindow).2 = .ok proven →
          ((proveAttestedAncestry lower head fetchWindow).1.map
              (fun window => (window.1.start, window.1.last))).flatMap
                (Tiling.numbersDown Prod.fst Prod.snd) =
              (List.range' lower (head.blockNumber + 1 - lower)).reverse ∧
            proven.headers.map (·.number) =
              List.range' lower (min maxAncestryHeaders (head.blockNumber + 1 - lower))) ∧
    (s.ancestry.headers = [] → (∀ rung ∈ s.ancestry.rungs, rung.blockNumber ≤ s.last.number) →
      ∀ before later s', FetchesAll hashing parentOf (before ++ later) →
        Lane.run hashing { s with requested := [] } (before ++ later) = some s' →
          SuccessRun hashing { s with requested := [] } (before ++ later) →
            ∃ middle, Lane.run hashing { s with requested := [] } before = some middle ∧
              (∀ rung ∈ middle.ancestry.rungs, s'.asked rung.blockNumber ≤ 2) ∧
              (∀ head ∈ middle.attested, middle.last.number < head.blockNumber → ∀ batchBlocks gate,
                  liveStep middle.last middle.attested middle.ancestry batchBlocks gate ≠ .wait ∧
                    ∀ block, liveStep middle.last middle.attested middle.ancestry batchBlocks
                      gate ≠ .head block) ∧
              ((∀ head, LaneEvent.attest head ∉ later) → ∀ head ∈ middle.attested,
                later.length + s'.behind head.blockNumber ≤ middle.behind head.blockNumber)) := by
  have hsound := (sound_start last).run hfetch hrun
  refine ⟨hsound.rungs, hsound.safe, ?_, ?_⟩
  · intro lower head fetchWindow proven hwindows hpos hlower hmax hproven
    exact proof_partition hwindows hpos hlower hmax hproven
  · intro hheaders hrungs before later s' hfetches hcatch hsuccess
    obtain ⟨middle, hbefore, hsuccess₁, hlater, hsuccess₂⟩ := run_split hcatch hsuccess
    have hfirst : FetchesAll hashing parentOf before := fun batchBlocks gate fetchWindow hmem =>
      hfetches batchBlocks gate fetchWindow (mem_append_left _ hmem)
    have hsecond : FetchesAll hashing parentOf later := fun batchBlocks gate fetchWindow hmem =>
      hfetches batchBlocks gate fetchWindow (mem_append_right _ hmem)
    have hfresh := climbing_fresh hsound hheaders hrungs
    have hsound₀ : Sound hashing parentOf { s with requested := [] } :=
      ⟨hsound.attested, hsound.small, hsound.rungs, hsound.headers, hsound.numbers, hsound.sorted⟩
    obtain ⟨_, hmiddle⟩ := (Climbs.run hfirst hfresh hsound₀ hsuccess₁ hbefore).climbing
    have hsound₁ := hsound₀.run hfirst hbefore
    have hclimbs := Climbs.run hsecond hmiddle hsound₁ hsuccess₂ hlater
    refine ⟨middle, hbefore, fun rung hrung => ?_, fun head hhead hlt batchBlocks gate =>
      liveStep_ready hhead hlt, fun hold head hhead => ?_⟩
    · exact (hclimbs.settled rung.blockNumber (hmiddle.settled hrung)).1
    · exact hmiddle.run_nearer hsecond hold hsound₁ hsuccess₂ hlater hhead

def countingHashing : Hashing := ⟨fun header => header.parentHash + 1, fun _ => ""⟩

def countingWindow : FetchWindow := fun range hash =>
  if hash = BitVec.ofNat 256 range.last + 1 then
    .ok (⟨⟨.replicate 64 0⟩, range.last, true⟩,
      (List.range' range.start (range.last + 1 - range.start)).map fun number =>
        ⟨number, BitVec.ofNat 256 number, []⟩)
  else .error (.incompleteResponse "headers" 0 (rangeLen range))

theorem fetches_countingWindow : Fetches countingHashing (fun hash => hash - 1) countingWindow := by
  intro range hash _ _ hserv
  rw [countingWindow] at hserv
  split at hserv
  · rename_i hhash
    obtain rfl := (Prod.mk.inj (Except.ok.inj hserv)).2
    have hne : range.last + 1 - range.start ≠ 0 := by
      have := range.start_le_last; omega
    refine ⟨?_, ?_, ?_, ?_⟩
    · rw [List.map_map]; exact List.map_id _
    · rw [isChain_map, isChain_iff_getElem]
      intro _ _
      simp only [getElem_range', countingHashing, BitVec.ofNat_add, Nat.one_mul]
      rw [BitVec.add_assoc]; rfl
    · rw [List.map_map, List.getLast?_map, List.getLast?_range', if_neg hne, hhash,
        show range.start + (range.last + 1 - range.start) - 1 = range.last by omega]
      rfl
    · intro _ hhdr
      obtain ⟨_, -, rfl⟩ := mem_map.1 hhdr; exact BitVec.add_sub_cancel _ _
  · cases hserv

def twoBlocksBehind : List LaneEvent :=
  [.attest ⟨10, 0, 2, 3⟩, .anchor 5 ⟨false, 0⟩ countingWindow, .catchUp 5 ⟨false, 0⟩ true]

theorem run_catches_up_two :
    ∃ s, (Lane.start ⟨0, 1⟩).run countingHashing twoBlocksBehind = some s ∧ s.last = ⟨2, 3⟩ ∧
      ∀ batchBlocks gate, StepSafe countingHashing (fun hash => hash - 1) s gate
        (liveStep s.last s.attested s.ancestry batchBlocks gate) := by
  have hsome : ((Lane.start ⟨0, 1⟩).run countingHashing twoBlocksBehind).map Lane.last =
      some ⟨2, 3⟩ := by
    decide +kernel
  obtain ⟨s, hrun, hlast⟩ := map_eq_some_iff.1 hsome
  have hfetch : FetchesAll countingHashing (fun hash => hash - 1) twoBlocksBehind := by
    intro batchBlocks gate fetchWindow hmem
    obtain ⟨-, -, rfl⟩ : batchBlocks = 5 ∧ gate = ⟨false, 0⟩ ∧ fetchWindow = countingWindow := by
      simpa [twoBlocksBehind] using hmem
    exact fetches_countingWindow
  exact ⟨s, hrun, hlast, (run_catches_up hfetch hrun).2.1⟩

end Leani.P2p.AttestedAncestry
