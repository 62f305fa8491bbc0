import Leani.Library.Sums
import Leani.Library.Tiling
import Leani.P2p.Headers
import Mathlib.Data.List.Chain

/-!
# The anchored header proof

The hashes of a finalized range are proven from its anchor down. Segments of headers are fetched in
waves and arrive in any order; each is validated once the one above it is, by the parent that one
names. What fails or contradicts the proven chain is fetched again with the same builder.
-/

namespace Leani.P2p.HeaderProof

open Library Std Headers List Option Table

structure AnchoredHeaderProof where
  proof : BlockRange
  retained : BlockRange
  hashes : List BlockHash
  deriving DecidableEq

def AnchoredHeaderProof.expectedHash (proven : AnchoredHeaderProof) (number : Nat) :
    Option BlockHash :=
  if number < proven.retained.start ∨ proven.retained.last < number then none
  else proven.hashes[number - proven.retained.start]?

structure HeaderProofSegment where
  range : BlockRange
  firstParent : BlockHash
  hashes : List BlockHash

structure AnchoredHeaderProofBuilder where
  proof : BlockRange
  retained : BlockRange
  pending : List BlockRange
  segments : Table Nat (PeerId × HeaderProofSegment)
  nextEnd : Option Nat
  expectedHash : BlockHash
  retainedHashes : List BlockHash

def maxHistoryHeaderRequestBlocks : Nat := 1024

/-- The loop of `anchored_header_ranges`, with a bound on its rounds. -/
theorem le_lastFrom {proof : BlockRange} {requestBlocks start : Nat} (h : start ≤ proof.last) :
    start ≤ min (satAdd start (requestBlocks - 1)) proof.last := by
  have := proof.last_le
  unfold satAdd; omega

theorem lastFrom_le (proof : BlockRange) (requestBlocks start : Nat) :
    min (satAdd start (requestBlocks - 1)) proof.last ≤ u64Max :=
  Nat.le_trans (Nat.min_le_right ..) proof.last_le

def headerRangesFrom (requestBlocks : Nat) (proof : BlockRange) : Nat → Nat → List BlockRange
  | 0, _ => []
  | rounds + 1, start =>
    if h : start ≤ proof.last then
      let last := min (satAdd start (requestBlocks - 1)) proof.last
      ⟨start, last, le_lastFrom h, lastFrom_le proof requestBlocks start⟩ ::
        if last = u64Max then [] else headerRangesFrom requestBlocks proof rounds (last + 1)
    else []

def anchoredHeaderRanges (proof : BlockRange) (requestBlocks : Nat) : List BlockRange :=
  headerRangesFrom (max 1 (min requestBlocks maxHistoryHeaderRequestBlocks)) proof
    (proof.last + 1 - proof.start) proof.start

def headerProofSegment (hashing : Hashing) (range : BlockRange) (headers : List Header) :
    Except Headers.P2pError HeaderProofSegment := do
  validateHeaders hashing range headers none
  let first ← required headers.head? (.invalidResponse "anchored header request returned no headers")
  return ⟨range, first.parentHash, headers.map hashing.hashSlow⟩

namespace AnchoredHeaderProofBuilder

/-- `AnchoredHeaderProofBuilder::new`. Room for the retained hashes is reserved, which panics where
their bytes would not fit the address space. -/
def new? (proof retained : BlockRange) (requestBlocks : Nat) (anchor : BlockHash) :
    Option AnchoredHeaderProofBuilder :=
  if 32 * rangeLen retained ≤ i64Max then
    some
      { proof
        retained
        pending := (anchoredHeaderRanges proof requestBlocks).reverse
        segments := ∅
        nextEnd := some proof.last
        expectedHash := anchor
        retainedHashes := [] }
  else none

variable (builder : AnchoredHeaderProofBuilder)

def takeWave (concurrency : Nat) : List BlockRange × AnchoredHeaderProofBuilder :=
  let count := min builder.pending.length (max concurrency 1)
  (builder.pending.take count, { builder with pending := builder.pending.drop count })

def retainedOf (segment : HeaderProofSegment) : List BlockHash :=
  segment.hashes.zipIdx.reverse.filterMap fun (hash, offset) =>
    if builder.retained.contains (satAdd segment.range.start offset) then some hash else none

/-- The end of one round of `advance`: the segment is proven. -/
def accept (segment : HeaderProofSegment) : AnchoredHeaderProofBuilder :=
  { builder with
    retainedHashes := builder.retainedHashes ++ builder.retainedOf segment
    expectedHash := segment.firstParent
    nextEnd :=
      if builder.proof.start < segment.range.start then some (segment.range.start - 1) else none }

/-- The loop of `advance`: every round takes one of the segments. -/
def advanceFrom : Nat → AnchoredHeaderProofBuilder →
    AnchoredHeaderProofBuilder × List (PeerId × Headers.P2pError)
  | 0, builder => (builder, [])
  | rounds + 1, builder =>
    match builder.nextEnd with
    | none => (builder, [])
    | some nextEnd =>
      match builder.segments[nextEnd]? with
      | none => (builder, [])
      | some (peer, segment) =>
        let taken := { builder with segments := builder.segments.erase nextEnd }
        if segment.range.start < builder.proof.start ∨
            segment.hashes.getLast? ≠ some builder.expectedHash then
          ({ taken with pending := segment.range :: builder.pending },
            [(peer, .expectationMismatch ("anchored header proof segment ending at block " ++
              s!"{nextEnd} is not the parent of the proven chain above it"))])
        else advanceFrom rounds (taken.accept segment)

def advance : AnchoredHeaderProofBuilder × List (PeerId × Headers.P2pError) :=
  advanceFrom builder.segments.size builder

def record (range : BlockRange) (result : Except Headers.P2pError (PeerId × HeaderProofSegment)) :
    AnchoredHeaderProofBuilder × List (PeerId × Headers.P2pError) :=
  match result with
  | .ok (peer, segment) =>
    { builder with
      segments := builder.segments.insert segment.range.last (peer, segment) }.advance
  | .error _ => { builder with pending := range :: builder.pending }.advance

def finish : AnchoredHeaderProofBuilder × Except Headers.P2pError AnchoredHeaderProof :=
  if builder.nextEnd.isSome then
    (builder, .error (.invalidResponse "anchored header proof still has pending ranges"))
  else if builder.retainedHashes.length ≠ rangeLen builder.retained then
    (builder, .error (.invalidResponse "anchored header proof omitted retained material hashes"))
  else
    ({ builder with retainedHashes := [] },
      .ok ⟨builder.proof, builder.retained, builder.retainedHashes.reverse⟩)

end AnchoredHeaderProofBuilder

/-- A call of `fetch_anchored_headers` and the calls before it with the same builder. -/
structure Fetching where
  builder : AnchoredHeaderProofBuilder
  inFlight : List BlockRange
  lastError : Option Headers.P2pError
  reported : List PeerId
  returned : Option (Except Headers.P2pError AnchoredHeaderProof)

inductive FetchEvent where
  | wave (concurrency : Nat)
  | outcome (range : BlockRange) (result : Except Headers.P2pError (PeerId × List Header))
  | leave
  | retry

namespace Fetching

/-- `fetch_anchored_headers` is called with a new builder. -/
def start (builder : AnchoredHeaderProofBuilder) : Fetching := ⟨builder, [], none, [], none⟩

def recordOutcome (s : Fetching) (range : BlockRange)
    (result : Except Headers.P2pError (PeerId × HeaderProofSegment)) : Fetching :=
  let (builder, rejected) := s.builder.record range result
  let failed := match result with
    | .ok _ => s.lastError
    | .error error => some error
  { s with
    builder
    inFlight := s.inFlight.erase range
    reported := (rejected.filter fun rejection =>
      classifyResponseFailure rejection.2 .verified = .invalid).map (·.1) ++ s.reported
    lastError := (rejected.map (·.2)).getLast?.or failed }

def step (hashing : Hashing) (s : Fetching) : FetchEvent → Option Fetching
  | .wave concurrency =>
    if s.returned = none ∧ s.inFlight = [] ∧ s.lastError = none ∧ s.builder.pending ≠ [] then
      let (wave, builder) := s.builder.takeWave concurrency
      some { s with builder, inFlight := wave }
    else none
  | .outcome range result =>
    if s.returned = none ∧ range ∈ s.inFlight then
      match (do
          let (peer, headers) ← result
          let segment ← headerProofSegment hashing range headers
          return (peer, segment)) with
      | .error .cancelled => some { s with returned := some (.error .cancelled) }
      | result => some (s.recordOutcome range result)
    else none
  | .leave =>
    if s.returned = none ∧ s.inFlight = [] then
      match s.lastError with
      | some error =>
        some { s with returned := some (.error (.request "anchored headers" error.toString)) }
      | none =>
        if s.builder.pending = [] then
          let (builder, result) := s.builder.finish
          some { s with builder, returned := some result }
        else none
    else none
  | .retry =>
    match s.returned with
    | some (.error .cancelled) => none
    | some (.error _) => some { s with returned := none, lastError := none }
    | _ => none

def run (hashing : Hashing) (s : Fetching) : List FetchEvent → Option Fetching
  | [] => some s
  | event :: events => (s.step hashing event).bind fun s' => run hashing s' events

end Fetching

def heights (range : BlockRange) : List Nat :=
  List.range' range.start (range.last + 1 - range.start)

namespace AnchoredHeaderProofBuilder

variable (builder : AnchoredHeaderProofBuilder)

def fetched : List BlockRange := builder.segments.toList.map fun row => row.2.2.range

def provenFrom : Nat := builder.nextEnd.elim builder.proof.start (· + 1)

def validated : List Nat :=
  List.range' builder.provenFrom (builder.proof.last + 1 - builder.provenFrom)

end AnchoredHeaderProofBuilder

def Fetching.Partitioned (s : Fetching) : Prop :=
  ((s.builder.pending ++ s.inFlight ++ s.builder.fetched).flatMap heights ++
    s.builder.validated).Perm (heights s.builder.proof)

def ancestor (parentOf : BlockHash → BlockHash) (proof : BlockRange) (anchor : BlockHash)
    (number : Nat) : BlockHash :=
  parentOf^[proof.last - number] anchor

structure Linked (parentOf : BlockHash → BlockHash) (segment : HeaderProofSegment) : Prop where
  length_eq : segment.hashes.length = segment.range.last + 1 - segment.range.start
  chain : (segment.firstParent :: segment.hashes).IsChain fun a b => parentOf b = a

section Segments

variable {hashing : Hashing} {parentOf : BlockHash → BlockHash} {proof range : BlockRange}
  {anchor : BlockHash} {headers : List Header} {segment : HeaderProofSegment}

theorem headerProofSegment_eq_ok (h : headerProofSegment hashing range headers = .ok segment)
    (hbind : ∀ header ∈ headers, parentOf (hashing.hashSlow header) = header.parentHash)
    (hsmall : range.last - range.start < u64Max) : segment.range =
    range ∧ segment.hashes = headers.map hashing.hashSlow ∧ Linked parentOf segment := by
  simp only [headerProofSegment, validateHeaders, eq_ok, exists_const] at h
  obtain ⟨⟨hlength, _, hfrom, -⟩, _, hfirst, rfl⟩ := h
  obtain ⟨-, hchain⟩ := validateHeadersFrom_eq_ok.1 hfrom
  have hlen : rangeLen range = range.last + 1 - range.start := by
    have := range.start_le_last; rw [rangeLen, satAdd_eq (by omega)]; omega
  refine ⟨rfl, rfl, ⟨by rw [length_map, hlength, hlen], ?_⟩⟩
  cases headers with
  | nil => cases hfirst
  | cons header rest =>
    obtain rfl := some.inj hfirst
    rw [map_cons, isChain_cons_cons]
    refine ⟨hbind header mem_cons_self, ?_⟩
    rw [← map_cons (f := hashing.hashSlow), isChain_map]
    refine List.IsChain.imp_of_mem_imp (fun _ b _ hb hab => ?_) hchain
    rw [hbind b hb, hab]

theorem reverse_heights : (heights range).reverse =
    (List.range (range.last + 1 - range.start)).map fun k => range.last - k := by
  refine List.ext_getElem (by simp [heights]) fun _ hi _ => ?_
  simp only [heights, List.length_reverse, List.length_range'] at hi
  simp only [heights, getElem_reverse, getElem_range', length_range', getElem_map, getElem_range]
  omega

theorem iterate_ancestor {num k : Nat} (hk : k ≤ num) (hle : num ≤ proof.last) : parentOf^[k]
    (ancestor parentOf proof anchor num) = ancestor parentOf proof anchor (num - k) := by
  rw [ancestor, ancestor, ← Function.iterate_add_apply]
  congr 2
  omega

theorem Linked.hashes_eq (h : Linked parentOf segment) (hle : segment.range.last ≤ proof.last)
    (hlast : segment.hashes.getLast? = some (ancestor parentOf proof anchor segment.range.last)) :
    segment.hashes = (heights segment.range).map (ancestor parentOf proof anchor) := by
  obtain ⟨hreverse, -⟩ := Tiling.reverse_eq_iterate h.chain hlast
  rw [← List.reverse_inj, hreverse, ← List.map_reverse, reverse_heights, h.length_eq,
    ← List.range_map_iterate, List.map_map]
  refine List.map_congr_left fun _ hk => ?_
  rw [List.mem_range] at hk; exact iterate_ancestor (by omega) hle

theorem Linked.firstParent_eq (h : Linked parentOf segment)
    (hle : segment.range.last ≤ proof.last) (hpos : 0 < segment.range.start)
    (hlast : segment.hashes.getLast? = some (ancestor parentOf proof anchor segment.range.last)) :
    segment.firstParent = ancestor parentOf proof anchor (segment.range.start - 1) := by
  obtain ⟨-, hpar⟩ := Tiling.reverse_eq_iterate h.chain hlast
  have hstart := segment.range.start_le_last
  rw [hpar, h.length_eq, iterate_ancestor (by omega) hle]
  congr 1
  omega

end Segments

/-- What holds between any two steps: the ranges `todo` are what is not validated, from the highest
down, and each of them is in one place. -/
structure Proving (hashing : Hashing) (parentOf : BlockHash → BlockHash) (anchor : BlockHash)
    (Served : PeerId → BlockRange → List Header → Prop) (builder : AnchoredHeaderProofBuilder)
    (inFlight todo : List BlockRange) : Prop where
  tiles : Tiling.Down BlockRange.start BlockRange.last builder.provenFrom todo builder.proof.start
  le : builder.provenFrom ≤ builder.proof.last + 1
  small : ∀ range ∈ todo, range.last - range.start < u64Max
  placed : (builder.pending ++ inFlight ++ builder.fetched).Perm todo
  nextEnd : builder.nextEnd = todo.head?.map (·.last)
  stored : ∀ {last : Nat} {peer segment}, builder.segments[last]? =
    some (peer, segment) → segment.range.last = last ∧ Linked parentOf segment ∧
    ∃ headers, Served peer segment.range headers ∧ segment.hashes = headers.map hashing.hashSlow
  expected : ∀ last, builder.nextEnd = some last →
    builder.expectedHash = ancestor parentOf builder.proof anchor last
  retained : builder.retainedHashes =
    (builder.validated.reverse.filter builder.retained.contains).map
      (ancestor parentOf builder.proof anchor)

section Builder

variable {hashing : Hashing} {parentOf : BlockHash → BlockHash} {anchor : BlockHash}
  {Served : PeerId → BlockRange → List Header → Prop} {builder : AnchoredHeaderProofBuilder}
  {inFlight todo : List BlockRange}

open AnchoredHeaderProofBuilder

theorem Proving.partitioned (h : Proving hashing parentOf anchor Served builder inFlight todo) :
    ((builder.pending ++ inFlight ++ builder.fetched).flatMap heights ++ builder.validated).Perm
      (heights builder.proof) := by
  have hdown : (todo.flatMap heights).Perm
      (range' builder.proof.start (builder.provenFrom - builder.proof.start)) := by
    refine List.Perm.trans ?_ (reverse_perm _)
    rw [← h.tiles.flatMap_numbersDown]
    exact List.Perm.flatMap_left _ fun _ _ => (reverse_perm _).symm
  have hle := h.tiles.le
  have htop := h.le
  have hsplit : heights builder.proof =
      range' builder.proof.start (builder.provenFrom - builder.proof.start) ++ builder.validated := by
    have hfrom : builder.proof.start + (builder.provenFrom - builder.proof.start) =
        builder.provenFrom := by omega
    rw [validated, heights, show builder.proof.last + 1 - builder.proof.start =
      (builder.provenFrom - builder.proof.start) +
        (builder.proof.last + 1 - builder.provenFrom) by omega, ← range'_append_1, hfrom]
  rw [hsplit]; exact ((h.placed.flatMap_right heights).trans hdown).append_right _

variable {last : Nat} {peer : PeerId}

variable {segment : HeaderProofSegment}

theorem Proving.mem_of_stored (h : Proving hashing parentOf anchor Served builder inFlight todo)
    (hrow : builder.segments[last]? = some (peer, segment)) : segment.range ∈ todo := by
  refine h.placed.subset (mem_append_right _ (mem_map.2 ?_))
  exact ⟨(last, peer, segment), mem_toList.2 hrow, rfl⟩

theorem fetched_of_get? (hrow : builder.segments[last]? = some (peer, segment)) :
    builder.fetched.Perm (segment.range ::
      { builder with segments := builder.segments.erase last }.fetched) :=
  (toList_perm_of_get? hrow).map _

theorem stored_of_erase {last' : Nat} {row : PeerId × HeaderProofSegment}
    (hrow : (builder.segments.erase last)[last']? = some row) :
    builder.segments[last']? = some row := by
  obtain ⟨-, hrow⟩ := erase_cases hrow; exact hrow

variable {f : Nat → BlockHash}

theorem retainedOf_eq (h : segment.hashes = (heights segment.range).map f) :
    builder.retainedOf segment =
      ((heights segment.range).reverse.filter builder.retained.contains).map f := by
  have hzip : segment.hashes.zipIdx =
      (List.range (segment.range.last + 1 - segment.range.start)).map fun off =>
        (f (segment.range.start + off), off) := by
    refine List.ext_getElem (by simp [h, heights]) fun _ _ _ => ?_
    simp [h, heights]
  have hheights : heights segment.range =
      (List.range (segment.range.last + 1 - segment.range.start)).map (segment.range.start + ·) := by
    rw [heights, List.range'_eq_map_range]
  have hbound := segment.range.last_le
  rw [retainedOf, hzip, hheights, ← List.map_reverse, ← List.map_reverse, List.filterMap_map,
    List.filter_map, List.map_map, ← List.filterMap_eq_map', List.filterMap_filter]
  refine List.filterMap_congr fun off hoff => ?_
  rw [List.mem_reverse, List.mem_range] at hoff
  simp only [Function.comp_apply, satAdd_eq (show segment.range.start + off ≤ u64Max by omega)]

theorem Proving.todo_eq (h : Proving hashing parentOf anchor Served builder inFlight todo)
    (hnext : builder.nextEnd = some last) (hrow : builder.segments[last]? = some (peer, segment)) :
    ∃ rest, todo = segment.range :: rest := by
  have hmem := h.mem_of_stored hrow
  have hhead := h.nextEnd
  cases todo with
  | nil => cases hmem
  | cons range rest =>
    rw [hnext, head?_cons, map_some, some.injEq] at hhead
    have heq := h.tiles.eq_of_last_eq hmem mem_cons_self ((h.stored hrow).1.trans hhead)
    exact ⟨rest, by rw [heq]⟩

theorem Proving.putBack (h : Proving hashing parentOf anchor Served builder inFlight todo)
    (hrow : builder.segments[last]? = some (peer, segment)) :
    Proving hashing parentOf anchor Served { builder with
        segments := builder.segments.erase last
        pending := segment.range :: builder.pending } inFlight todo := by
  refine { h with placed := ?_, stored := fun hrow' => h.stored (stored_of_erase hrow') }
  refine List.Perm.trans ?_ h.placed
  refine List.Perm.symm (((fetched_of_get? hrow).append_left _).trans ?_)
  exact perm_middle

theorem Proving.accept {rest : List BlockRange}
    (h : Proving hashing parentOf anchor Served builder inFlight (segment.range :: rest))
    (hrow : builder.segments[segment.range.last]? = some (peer, segment))
    (hnext : builder.nextEnd = some segment.range.last)
    (hlast : segment.hashes.getLast? = some builder.expectedHash) :
    Proving hashing parentOf anchor Served (AnchoredHeaderProofBuilder.accept
        { builder with segments := builder.segments.erase segment.range.last } segment)
      inFlight rest := by
  obtain ⟨-, hlink, -⟩ := h.stored hrow
  obtain ⟨htop, _, htiles⟩ := h.tiles
  have hbottom := htiles.le
  have hle := h.le
  have hproof : segment.range.last ≤ builder.proof.last := by omega
  rw [h.expected _ hnext] at hlast
  have hfrom : ∀ b : AnchoredHeaderProofBuilder, b.proof = builder.proof →
      b.nextEnd = (if builder.proof.start < segment.range.start then
        some (segment.range.start - 1) else none) → b.provenFrom = segment.range.start := by
    intro b hb hbnext
    rw [provenFrom, hbnext, hb]
    split
    · simp only [elim_some]; omega
    · simp only [elim_none]; omega
  have hnew := hfrom (AnchoredHeaderProofBuilder.accept
    { builder with segments := builder.segments.erase segment.range.last } segment) rfl rfl
  refine ⟨?_, ?_, fun range hrng => h.small range (mem_cons_of_mem _ hrng), ?_, ?_,
    fun hrow' => h.stored (stored_of_erase hrow'), ?_, ?_⟩
  · rw [hnew]; exact htiles
  · rw [hnew]
    change _ ≤ builder.proof.last + 1; omega
  · refine (perm_cons segment.range).1 (List.Perm.trans ?_ h.placed)
    refine List.Perm.symm (((fetched_of_get? hrow).append_left _).trans ?_)
    exact perm_middle
  · change (if builder.proof.start < segment.range.start then some (segment.range.start - 1)
      else none) = _
    cases rest with
    | nil =>
      obtain hend : segment.range.start = builder.proof.start := htiles; rw [if_neg (by omega)]; rfl
    | cons next rest =>
      obtain ⟨_, _, hrest⟩ := htiles
      have := hrest.le; rw [if_pos (by omega), head?_cons, map_some, some.injEq]; omega
  · intro last hlast'
    change (if builder.proof.start < segment.range.start then some (segment.range.start - 1)
      else none) = _ at hlast'
    split at hlast'
    · cases hlast'; exact hlink.firstParent_eq hproof (by omega) hlast
    · cases hlast'
  · have hsplit : (AnchoredHeaderProofBuilder.accept { builder with
        segments := builder.segments.erase segment.range.last } segment).validated.reverse =
          builder.validated.reverse ++ (heights segment.range).reverse := by
      rw [validated, validated, hnew, heights, ← htop]
      exact Tiling.reverse_range'_split (by omega) (htop.trans_le hle)
    rw [hsplit, filter_append, map_append]
    change builder.retainedHashes ++ _ = _
    rw [h.retained, retainedOf_eq (hlink.hashes_eq hproof hlast)]; rfl

def OffChain (hashing : Hashing) (parentOf : BlockHash → BlockHash) (proof : BlockRange)
    (anchor : BlockHash) (Served : PeerId → BlockRange → List Header → Prop) (peer : PeerId) : Prop :=
  ∃ range headers, Served peer range headers ∧
    headers.map hashing.hashSlow ≠ (heights range).map (ancestor parentOf proof anchor)

structure Onward (builder builder' : AnchoredHeaderProofBuilder) : Prop where
  proof : builder'.proof = builder.proof
  retained : builder'.retained = builder.retained
  provenFrom : builder'.provenFrom ≤ builder.provenFrom

theorem Onward.refl (builder : AnchoredHeaderProofBuilder) : Onward builder builder :=
  ⟨rfl, rfl, le_rfl⟩

theorem getLast?_of_hashes_eq (h : segment.hashes = (heights segment.range).map f) :
    segment.hashes.getLast? = some (f segment.range.last) := by
  have hstart := segment.range.start_le_last
  rw [h, heights, getLast?_map, getLast?_range', if_neg (by omega), map_some]
  congr 2
  omega

variable {rounds : Nat}

theorem Proving.advanceFrom : ∀ {bldr : AnchoredHeaderProofBuilder} {todo : List BlockRange}
      {bldr' : AnchoredHeaderProofBuilder} {rejected : List (PeerId × Headers.P2pError)},
      Proving hashing parentOf anchor Served bldr inFlight todo →
      AnchoredHeaderProofBuilder.advanceFrom rounds bldr = (bldr', rejected) → (∃ todo',
      Proving hashing parentOf anchor Served bldr' inFlight todo') ∧ Onward bldr bldr' ∧
      ∀ rejection ∈ rejected, OffChain hashing parentOf bldr.proof anchor Served rejection.1 := by
  induction rounds with
  | zero =>
    intro bldr todo bldr' rejected h hstep; cases hstep; exact ⟨⟨todo, h⟩, .refl _, nofun⟩
  | succ rounds ih =>
    intro bldr todo bldr' rejected h hstep
    rw [AnchoredHeaderProofBuilder.advanceFrom] at hstep
    split at hstep
    · cases hstep; exact ⟨⟨todo, h⟩, .refl _, nofun⟩
    · rename_i last hnext
      split at hstep
      · cases hstep; exact ⟨⟨todo, h⟩, .refl _, nofun⟩
      · rename_i peer seg hrow
        obtain ⟨rest, rfl⟩ := h.todo_eq hnext hrow
        obtain ⟨rfl, _, headers, hserv, hhdrs⟩ := h.stored hrow
        have hbounds := h.tiles.mem_bounds mem_cons_self
        split at hstep
        · rename_i hbad
          cases hstep
          refine ⟨⟨_, h.putBack hrow⟩, ⟨rfl, rfl, le_rfl⟩, ?_⟩
          intro rejection hrejection
          obtain rfl := mem_singleton.1 hrejection
          refine ⟨seg.range, headers, hserv, fun heq => ?_⟩
          rcases hbad with hlow | hlast
          · exact absurd hbounds.1 (Nat.not_le.2 hlow)
          · rw [h.expected _ hnext] at hlast; exact hlast (getLast?_of_hashes_eq (hhdrs.trans heq))
        · rename_i hgood
          simp only [not_or, not_not] at hgood
          have haccept := h.accept hrow hnext hgood.2
          obtain ⟨hproving, honward, hrejected⟩ := ih haccept hstep
          refine ⟨hproving, ⟨honward.proof, honward.retained, honward.provenFrom.trans ?_⟩, hrejected⟩
          obtain ⟨_, -, htiles⟩ := h.tiles
          have htop' := haccept.tiles
          cases rest with
          | nil =>
            obtain hend : _ = bldr.proof.start := htop'; omega
          | cons next rest =>
            obtain ⟨_, -, -⟩ := htop'
            obtain ⟨_, _, -⟩ := htiles; omega

variable {builder' : AnchoredHeaderProofBuilder}

section

variable (h : Proving hashing parentOf anchor Served builder inFlight todo)

include h

theorem Proving.advance {rejected : List (PeerId × Headers.P2pError)}
    (hstep : builder.advance = (builder', rejected)) : (∃ todo',
    Proving hashing parentOf anchor Served builder' inFlight todo') ∧ Onward builder builder' ∧
    ∀ rejection ∈ rejected, OffChain hashing parentOf builder.proof anchor Served rejection.1 :=
  Proving.advanceFrom h hstep

theorem Proving.pushFailed {range : BlockRange} (hrng : range ∈ inFlight) :
    Proving hashing parentOf anchor Served { builder with pending := range :: builder.pending }
      (inFlight.erase range) todo := by
  refine { h with placed := ?_ }
  refine List.Perm.trans ?_ h.placed
  refine List.Perm.append_right _ ?_
  have hmove : (builder.pending ++ inFlight).Perm
      (range :: (builder.pending ++ inFlight.erase range)) :=
    ((perm_cons_erase hrng).append_left _).trans perm_middle
  exact hmove.symm

theorem Proving.segments_of_inFlight {range : BlockRange} (hrng : range ∈ inFlight) :
    builder.segments[range.last]? = none := by
  cases hrow : builder.segments[range.last]? with
  | none => rfl
  | some row =>
    have hin := h.placed.subset (mem_append_left _ (mem_append_right _ hrng))
    have heq := h.tiles.eq_of_last_eq (h.mem_of_stored hrow) hin (h.stored hrow).1
    have hnodup := h.placed.nodup_iff.2 h.tiles.nodup
    rw [nodup_append] at hnodup
    refine absurd rfl (hnodup.2.2 range (mem_append_right _ hrng) range ?_)
    exact mem_map.2 ⟨_, mem_toList.2 hrow, heq⟩

theorem Proving.insertFetched {seg : HeaderProofSegment} {hdrs : List Header}
    (hrng : seg.range ∈ inFlight) (hlink : Linked parentOf seg) (hserv : Served peer seg.range hdrs)
    (hhashes : seg.hashes = hdrs.map hashing.hashSlow) :
    Proving hashing parentOf anchor Served { builder with
        segments := builder.segments.insert seg.range.last (peer, seg) }
      (inFlight.erase seg.range) todo := by
  refine { h with placed := ?_, stored := ?_ }
  · refine List.Perm.trans ?_ h.placed
    have hnone := h.segments_of_inFlight hrng
    have hfetched : { builder with
        segments := builder.segments.insert seg.range.last (peer, seg) }.fetched.Perm
          (seg.range :: builder.fetched) := by
      refine (fetched_of_get? (getElem?_insert_self _ _ _)).trans ?_
      refine List.Perm.of_eq ?_
      congr 3
      refine ext fun last => ?_
      rw [get?_erase_ite, get?_insert_ite]
      split
      · rename_i heq; rw [heq, hnone]
      · rfl
    refine (hfetched.append_left _).trans ?_
    refine perm_middle.trans ?_
    rw [← cons_append]
    refine List.Perm.append_right _ ?_
    exact (perm_middle.symm.trans ((perm_cons_erase hrng).symm.append_left _))
  · intro last _ _ hrow
    rw [get?_insert_ite] at hrow
    split at hrow
    · rename_i heq; cases hrow; exact ⟨heq.symm, hlink, hdrs, hserv, hhashes⟩
    · exact h.stored hrow

end

theorem Proving.takeWave (h : Proving hashing parentOf anchor Served builder [] todo)
    (concurrency : Nat) : Proving hashing parentOf anchor Served (builder.takeWave concurrency).2
      (builder.takeWave concurrency).1 todo := by
  refine { h with placed := ?_ }
  refine List.Perm.trans ?_ h.placed
  refine List.Perm.append_right _ ?_
  rw [append_nil]
  refine perm_append_comm.trans (List.Perm.of_eq ?_)
  exact take_append_drop _ _

variable {requestBlocks : Nat}

variable {proof : BlockRange}

theorem headerRangesFrom_spec (hpos : 0 < requestBlocks)
    (hmax : requestBlocks ≤ maxHistoryHeaderRequestBlocks) :
    ∀ {start : Nat}, start ≤ proof.last + 1 → proof.last + 1 - start ≤ rounds →
      Tiling.Down BlockRange.start BlockRange.last (proof.last + 1)
        (headerRangesFrom requestBlocks proof rounds start).reverse start ∧
      ∀ range ∈ headerRangesFrom requestBlocks proof rounds start,
        range.last - range.start < u64Max := by
  induction rounds with
  | zero =>
    intro start hstart hrounds; exact ⟨show proof.last + 1 = start by omega, nofun⟩
  | succ rounds ih =>
    intro start hstart hrounds
    rw [headerRangesFrom]
    by_cases h : start ≤ proof.last
    · rw [dif_pos h]
      have hbound := proof.last_le
      have hlast : start ≤ min (satAdd start (requestBlocks - 1)) proof.last := by
        rw [satAdd]; omega
      have hlen : min (satAdd start (requestBlocks - 1)) proof.last - start < u64Max := by
        have hadd := satAdd_le start (requestBlocks - 1)
        rw [maxHistoryHeaderRequestBlocks] at hmax; rw [u64Max]; omega
      -- The first range, whose end is the number before the next one's start.
      have hrng : ∀ range : BlockRange, range.start = start → range.last ≤ proof.last →
          range.last - range.start < u64Max →
          Tiling.Down BlockRange.start BlockRange.last (proof.last + 1)
            (range :: if range.last = u64Max then []
              else headerRangesFrom requestBlocks proof rounds (range.last + 1)).reverse start ∧
          ∀ range' ∈ (range :: if range.last = u64Max then []
              else headerRangesFrom requestBlocks proof rounds (range.last + 1)),
            range'.last - range'.start < u64Max := by
        intro range hfst _ hsmall
        have hord := range.start_le_last
        rw [reverse_cons]
        split
        · refine ⟨⟨by omega, hord, hfst⟩, ?_⟩
          rw [forall_mem_singleton]; exact hsmall
        · obtain ⟨htiles, hrest⟩ := @ih (range.last + 1) (by omega) (by omega)
          exact ⟨htiles.concat rfl hord hfst, forall_mem_cons.2 ⟨hsmall, hrest⟩⟩
      exact hrng ⟨start, _, hlast, _⟩ rfl (Nat.min_le_right ..) hlen
    · rw [dif_neg h]; exact ⟨show proof.last + 1 = start by omega, nofun⟩

theorem proving_new {ret : BlockRange} (h : new? proof ret requestBlocks anchor =
    some builder) : builder.proof = proof ∧ builder.retained = ret ∧ 32 * rangeLen ret ≤
    i64Max ∧ ∃ todo, Proving hashing parentOf anchor Served builder [] todo := by
  rw [new?] at h
  split at h
  · rename_i hroom
    cases h
    refine ⟨rfl, rfl, hroom, (anchoredHeaderRanges proof requestBlocks).reverse, ?_⟩
    obtain ⟨htiles, hsmall⟩ := headerRangesFrom_spec
      (show 0 < max 1 (min requestBlocks maxHistoryHeaderRequestBlocks) by omega)
      (by rw [maxHistoryHeaderRequestBlocks]; omega) (Nat.le_succ_of_le proof.start_le_last)
      le_rfl
    refine ⟨htiles, le_rfl, fun range hrng => hsmall range (mem_reverse.1 hrng),
      ?_, ?_, fun hrow => (not_mem_empty hrow).elim, ?_, ?_⟩
    · have hnone : (∅ : Table Nat (PeerId × HeaderProofSegment)).toList = [] := rfl
      simp only [fetched, hnone, map_nil, append_nil]; rfl
    · cases hranges : (anchoredHeaderRanges proof requestBlocks).reverse with
      | nil =>
        rw [anchoredHeaderRanges] at hranges
        rw [hranges] at htiles
        have hempty : proof.last + 1 = proof.start := htiles
        have := proof.start_le_last; omega
      | cons range rest =>
        rw [anchoredHeaderRanges] at hranges
        rw [hranges] at htiles
        rw [head?_cons, map_some, some.injEq]; exact (Nat.succ.inj htiles.1).symm
    · intro last hlast; cases hlast; simp [ancestor]
    · simp [validated, provenFrom]
  · cases h

theorem filter_heights_eq {ret : BlockRange}
    (h : ((heights proof).filter ret.contains).length = (heights ret).length) :
    (heights proof).filter ret.contains = heights ret := by
  have hsort : ∀ range : BlockRange, (heights range).Pairwise (· < ·) :=
    fun range => pairwise_lt_range'
  have hfilter := (hsort proof).filter ret.contains
  refine List.Perm.eq_of_pairwise (fun _ _ _ _ hab hba => absurd hab (Nat.lt_asymm hba)) hfilter
    (hsort ret) ?_
  refine List.Subperm.perm_of_length_le (List.Nodup.subperm (hfilter.imp Nat.ne_of_lt) ?_) h.ge
  intro _ hnum
  have hin := BlockRange.contains_iff.1 (mem_filter.1 hnum).2; rw [heights, mem_range'_1]; omega

theorem finish_eq_error {error : Headers.P2pError}
    (h : builder.finish = (builder', .error error)) : builder' = builder := by
  rw [AnchoredHeaderProofBuilder.finish] at h
  split at h
  · exact (Prod.mk.inj h).1.symm
  split at h
  · exact (Prod.mk.inj h).1.symm
  · cases h

theorem Proving.finish {prv : AnchoredHeaderProof}
    (h : Proving hashing parentOf anchor Served builder inFlight todo)
    (hroom : 32 * rangeLen builder.retained ≤ i64Max)
    (hfinish : builder.finish = (builder', .ok prv)) :
    builder.validated = heights builder.proof ∧ builder' = { builder with retainedHashes := [] } ∧
      prv = ⟨builder.proof, builder.retained,
        (heights builder.retained).map (ancestor parentOf builder.proof anchor)⟩ := by
  rw [AnchoredHeaderProofBuilder.finish] at hfinish
  split at hfinish
  · cases hfinish
  split at hfinish
  · cases hfinish
  rename_i hnext hlength
  cases hfinish
  have hnone : builder.nextEnd = none := by
    cases hcase : builder.nextEnd with
    | none => rfl
    | some last => exact absurd (by rw [hcase]; rfl) hnext
  have hvald : builder.validated = heights builder.proof := by
    rw [validated, provenFrom, hnone]; rfl
  have hexact : rangeLen builder.retained = (heights builder.retained).length := by
    have hle := builder.retained.start_le_last
    have hlt : rangeLen builder.retained < u64Max := by
      rw [i64Max] at hroom; rw [u64Max]; omega
    have hlen := satAdd_of_lt hlt; rw [rangeLen, hlen, heights, length_range']; omega
  refine ⟨hvald, rfl, ?_⟩
  rw [h.retained, hvald, length_map, filter_reverse, length_reverse, hexact,
    ne_eq, not_not] at hlength
  rw [h.retained, hvald, filter_reverse, filter_heights_eq hlength, map_reverse, reverse_reverse]

end Builder

/-- What holds of the calls with one builder. Once the proof is handed out, only the retained hashes
are gone from the builder. -/
structure Kept (hashing : Hashing) (parentOf : BlockHash → BlockHash) (proof retained : BlockRange)
    (anchor : BlockHash) (Served : PeerId → BlockRange → List Header → Prop) (s : Fetching) :
    Prop where
  proof_eq : s.builder.proof = proof
  retained_eq : s.builder.retained = retained
  proving : ∃ retainedHashes todo, Proving hashing parentOf anchor Served
    { s.builder with retainedHashes := retainedHashes } s.inFlight todo ∧
      ((∀ proven, s.returned ≠ some (.ok proven)) → s.builder.retainedHashes = retainedHashes)
  returned : ∀ proven, s.returned = some (.ok proven) → s.builder.validated = heights proof ∧
    proven = ⟨proof, retained, (heights retained).map (ancestor parentOf proof anchor)⟩
  reported : ∀ peer ∈ s.reported, OffChain hashing parentOf proof anchor Served peer

theorem Fetching.Partitioned.notMem_of_validated {s : Fetching} (h : s.Partitioned) {num : Nat}
    (hnum : num ∈ s.builder.validated) {range : BlockRange} (hrng : range ∈ s.inFlight) :
    num ∉ heights range := by
  intro hmem
  have hnodup := h.nodup_iff.2 nodup_range'
  rw [nodup_append] at hnodup
  refine hnodup.2.2 num ?_ num hnum rfl
  exact mem_flatMap.2 ⟨range, mem_append_left _ (mem_append_right _ hrng), hmem⟩

section Runs

variable {hashing : Hashing} {parentOf : BlockHash → BlockHash} {proof retained : BlockRange}
  {anchor : BlockHash} {Served : PeerId → BlockRange → List Header → Prop} {s s' : Fetching}

section

variable (h : Kept hashing parentOf proof retained anchor Served s)

include h

theorem Kept.partitioned : s.Partitioned := by
  obtain ⟨_, _, hproving, -⟩ := h.proving; exact hproving.partitioned

theorem Kept.proving_of_running (hrunning : ∀ proven, s.returned ≠ some (.ok proven)) :
    ∃ todo, Proving hashing parentOf anchor Served s.builder s.inFlight todo := by
  obtain ⟨_, todo, hproving, heq⟩ := h.proving
  obtain rfl := heq hrunning; exact ⟨todo, hproving⟩

theorem Kept.of_running {bldr : AnchoredHeaderProofBuilder} {inFlight todo : List BlockRange}
    {lastError : Option Headers.P2pError} {reported : List PeerId}
    {returned : Option (Except Headers.P2pError AnchoredHeaderProof)}
 (honward : Onward s.builder bldr)
    (hproving : Proving hashing parentOf anchor Served bldr inFlight todo)
    (hreturned : ∀ proven, returned ≠ some (.ok proven))
    (hreported : ∀ peer ∈ reported, OffChain hashing parentOf proof anchor Served peer) :
    Kept hashing parentOf proof retained anchor Served
      ⟨bldr, inFlight, lastError, reported, returned⟩ where
  proof_eq := honward.proof.trans h.proof_eq
  retained_eq := honward.retained.trans h.retained_eq
  proving := ⟨bldr.retainedHashes, todo, hproving, fun _ => rfl⟩
  returned proven hprv := absurd hprv (hreturned proven)
  reported := hreported

theorem Kept.recordOutcome {range : BlockRange}
    {res : Except Headers.P2pError (PeerId × HeaderProofSegment)} (hrunning : s.returned = none)
    (hrng : range ∈ s.inFlight)
    (hres : ∀ peer segment, res = .ok (peer, segment) → segment.range = range ∧
      Linked parentOf segment ∧ ∃ headers, Served peer range headers ∧
        segment.hashes = headers.map hashing.hashSlow) :
    Kept hashing parentOf proof retained anchor Served (s.recordOutcome range res) ∧
      (s.recordOutcome range res).builder.provenFrom ≤ s.builder.provenFrom := by
  have hnot : ∀ prv, s.returned ≠ some (.ok prv) := by
    intro prv hprv; rw [hrunning] at hprv; cases hprv
  obtain ⟨_, hproving⟩ := h.proving_of_running hnot
  -- Both ways the builder goes on from a state in which the range is no longer in flight.
  have hrcd : ∃ todo', Proving hashing parentOf anchor Served (s.builder.record range res).1
        (s.inFlight.erase range) todo' ∧ Onward s.builder (s.builder.record range res).1 ∧
      ∀ rejection ∈ (s.builder.record range res).2,
        OffChain hashing parentOf s.builder.proof anchor Served rejection.1 := by
    cases res with
    | error error =>
      obtain ⟨⟨todo', hproving'⟩, honward, hrejected⟩ := (hproving.pushFailed hrng).advance rfl
      exact ⟨todo', hproving', ⟨honward.proof, honward.retained, honward.provenFrom⟩, hrejected⟩
    | ok fetched =>
      obtain ⟨peer, segment⟩ := fetched
      obtain ⟨rfl, hlink, headers, hserv, hhashes⟩ := hres peer segment rfl
      obtain ⟨⟨todo', hproving'⟩, honward, hrejected⟩ :=
        (hproving.insertFetched hrng hlink hserv hhashes).advance rfl
      exact ⟨todo', hproving', ⟨honward.proof, honward.retained, honward.provenFrom⟩, hrejected⟩
  obtain ⟨todo', hproving', honward, hrejected⟩ := hrcd
  refine ⟨h.of_running honward hproving' hnot fun peer hpeer => ?_, honward.provenFrom⟩
  rcases mem_append.1 hpeer with hnew | hold
  · obtain ⟨rejection, hrejection, rfl⟩ := mem_map.1 hnew
    rw [← h.proof_eq]; exact hrejected rejection (mem_filter.1 hrejection).1
  · exact h.reported peer hold

theorem Kept.step {event : FetchEvent} (hroom : 32 * rangeLen retained ≤ i64Max)
    (hserv : ∀ range peer headers, event = .outcome range (.ok (peer, headers)) →
      Served peer range headers ∧
        ∀ header ∈ headers, parentOf (hashing.hashSlow header) = header.parentHash)
    (hstep : s.step hashing event = some s') :
    Kept hashing parentOf proof retained anchor Served s' ∧
      s'.builder.provenFrom ≤ s.builder.provenFrom := by
  cases event with
  | wave concurrency =>
    simp only [Fetching.step] at hstep
    split at hstep
    · rename_i hready
      obtain ⟨hrunning, hempty, -⟩ := hready
      cases hstep
      have hnot : ∀ prv, s.returned ≠ some (.ok prv) := by
        intro prv hprv; rw [hrunning] at hprv; cases hprv
      obtain ⟨todo, hproving⟩ := h.proving_of_running hnot
      rw [hempty] at hproving
      exact ⟨h.of_running ⟨rfl, rfl, le_rfl⟩ (hproving.takeWave concurrency) hnot h.reported, le_rfl⟩
    · cases hstep
  | outcome range result =>
    simp only [Fetching.step] at hstep
    split at hstep
    · rename_i hready
      obtain ⟨hrunning, hrange⟩ := hready
      split at hstep
      · cases hstep
        obtain ⟨todo, hproving⟩ := h.proving_of_running (by rw [hrunning]; simp)
        exact ⟨h.of_running (.refl _) hproving (by simp) h.reported, le_rfl⟩
      · cases hstep
        refine h.recordOutcome hrunning hrange fun peer _ hres => ?_
        simp only [eq_ok, Prod.mk.injEq] at hres
        obtain ⟨⟨peer', headers⟩, rfl, _, hseg, rfl, rfl⟩ := hres
        obtain ⟨hresponse, hbind⟩ := hserv range peer' headers rfl
        obtain ⟨todo, hproving⟩ := h.proving_of_running (by rw [hrunning]; simp)
        have hsmall := hproving.small range
          (hproving.placed.subset (mem_append_left _ (mem_append_right _ hrange)))
        obtain ⟨hrangeEq, hhashes, hlink⟩ := headerProofSegment_eq_ok hseg hbind hsmall
        exact ⟨hrangeEq, hlink, headers, hresponse, hhashes⟩
    · cases hstep
  | leave =>
    simp only [Fetching.step] at hstep
    split at hstep
    · rename_i hready
      obtain ⟨todo, hproving⟩ := h.proving_of_running (by rw [hready.1]; simp)
      split at hstep
      · cases hstep; exact ⟨h.of_running (.refl _) hproving (by simp) h.reported, le_rfl⟩
      · split at hstep
        · cases hstep
          cases hfinish : s.builder.finish with
          | mk builder result =>
            cases result with
            | error error =>
              obtain rfl := finish_eq_error hfinish
              exact ⟨h.of_running (.refl _) hproving (by simp) h.reported, le_rfl⟩
            | ok prv =>
              obtain rfl := h.proof_eq
              obtain rfl := h.retained_eq
              obtain ⟨hvald, rfl, rfl⟩ := hproving.finish hroom hfinish
              refine ⟨⟨rfl, rfl, ⟨_, todo, hproving, ?_⟩, ?_, h.reported⟩, le_rfl⟩
              · exact fun hnot => absurd rfl (hnot _)
              · rintro prv hprv
                obtain rfl := Except.ok.inj (some.inj hprv); exact ⟨hvald, rfl⟩
        · cases hstep
    · cases hstep
  | retry =>
    simp only [Fetching.step] at hstep
    split at hstep
    · cases hstep
    · rename_i error _ hreturned
      cases hstep
      obtain ⟨todo, hproving⟩ := h.proving_of_running (by rw [hreturned]; simp)
      exact ⟨h.of_running (.refl _) hproving (by simp) h.reported, le_rfl⟩
    · cases hstep

end

theorem Kept.run {evs : List FetchEvent} (hroom : 32 * rangeLen retained ≤ i64Max)
    (hserv : ∀ range peer hdrs, FetchEvent.outcome range (.ok (peer, hdrs)) ∈ evs →
      Served peer range hdrs ∧
        ∀ header ∈ hdrs, parentOf (hashing.hashSlow header) = header.parentHash) :
    ∀ {s : Fetching}, Kept hashing parentOf proof retained anchor Served s →
      s.run hashing evs = some s' → Kept hashing parentOf proof retained anchor Served s' ∧
        s'.builder.provenFrom ≤ s.builder.provenFrom := by
  induction evs with
  | nil =>
    intro s h hrun; cases hrun; exact ⟨h, le_rfl⟩
  | cons event evs ih =>
    intro s h hrun
    rw [Fetching.run, bind_eq_some_iff] at hrun
    obtain ⟨_, hstep, hrun⟩ := hrun
    obtain ⟨hnext, hle⟩ := h.step hroom (fun range peer hdrs heq =>
      hserv range peer hdrs (heq ▸ mem_cons_self)) hstep
    obtain ⟨hlast, hle'⟩ := ih (fun range peer hdrs hmem =>
      hserv range peer hdrs (mem_cons_of_mem _ hmem)) hnext hrun
    exact ⟨hlast, hle'.trans hle⟩

theorem kept_start {requestBlocks : Nat} {bldr : AnchoredHeaderProofBuilder}
    (h : AnchoredHeaderProofBuilder.new? proof retained requestBlocks anchor = some bldr) :
    Kept hashing parentOf proof retained anchor Served (.start bldr) ∧
      32 * rangeLen retained ≤ i64Max := by
  obtain ⟨hproof, hret, hroom, todo, hproving⟩ := proving_new h
  exact ⟨⟨hproof, hret, ⟨bldr.retainedHashes, todo, hproving, fun _ => rfl⟩, nofun, nofun⟩, hroom⟩

theorem run_append {evs evs' : List FetchEvent} : ∀ {s : Fetching}, s.run hashing (evs ++ evs') =
      (s.run hashing evs).bind fun s' => s'.run hashing evs' := by
  induction evs with
  | nil => exact fun {_} => rfl
  | cons event evs ih =>
    intro s
    rw [cons_append, Fetching.run, Fetching.run, bind_assoc]; exact bind_congr fun _ _ => ih

end Runs

/-- In every run with one builder, whatever the peers answer and in whatever order: what is pending,
in flight, fetched and validated partition the proof; what was validated is never requested again;
a proof is handed out only with everything validated, and has the anchor's ancestors at the retained
heights; and a peer is reported only for headers that are not the proven chain. -/
theorem run_proves_ancestors {hashing : Hashing} {parentOf : BlockHash → BlockHash}
    {proof retained : BlockRange} {requestBlocks : Nat} {anchor : BlockHash}
    {builder : AnchoredHeaderProofBuilder} {events : List FetchEvent} {s : Fetching}
    (hnew : AnchoredHeaderProofBuilder.new? proof retained requestBlocks anchor = some builder)
    (hbind : ∀ range peer headers, FetchEvent.outcome range (.ok (peer, headers)) ∈ events →
      ∀ header ∈ headers, parentOf (hashing.hashSlow header) = header.parentHash)
    (hrun : (Fetching.start builder).run hashing events = some s) :
    s.builder.proof = proof ∧ s.Partitioned ∧
      (∀ before later, before ++ later = events → ∃ s₀,
        (Fetching.start builder).run hashing before = some s₀ ∧
          ∀ number ∈ s₀.builder.validated, number ∈ s.builder.validated ∧
            ∀ range ∈ s.inFlight, number ∉ heights range) ∧
      (∀ proven, s.returned = some (.ok proven) → s.builder.validated = heights proof ∧
        proven = ⟨proof, retained, (heights retained).map (ancestor parentOf proof anchor)⟩) ∧
      ∀ peer ∈ s.reported, OffChain hashing parentOf proof anchor
        (fun peer range headers => FetchEvent.outcome range (.ok (peer, headers)) ∈ events)
        peer := by
  have hserved : ∀ range peer headers, FetchEvent.outcome range (.ok (peer, headers)) ∈ events →
        FetchEvent.outcome range (.ok (peer, headers)) ∈ events ∧
          ∀ header ∈ headers, parentOf (hashing.hashSlow header) = header.parentHash :=
    fun range peer headers hmem => ⟨hmem, hbind range peer headers hmem⟩
  obtain ⟨hstart, hroom⟩ := @kept_start hashing parentOf proof retained anchor
    (fun peer range headers => FetchEvent.outcome range (.ok (peer, headers)) ∈ events)
    requestBlocks builder hnew
  obtain ⟨hkept, -⟩ := hstart.run hroom hserved hrun
  refine ⟨hkept.proof_eq, hkept.partitioned, ?_, hkept.returned, hkept.reported⟩
  rintro before later rfl
  rw [run_append, bind_eq_some_iff] at hrun
  obtain ⟨s₀, hbefore, hlater⟩ := hrun
  obtain ⟨hkept₀, -⟩ := hstart.run hroom (fun range peer headers hmem =>
    hserved range peer headers (mem_append_left _ hmem)) hbefore
  obtain ⟨-, _⟩ := hkept₀.run hroom (fun range peer headers hmem =>
    hserved range peer headers (mem_append_right _ hmem)) hlater
  refine ⟨s₀, hbefore, fun number hnumber => ?_⟩
  have hvalidated : number ∈ s.builder.validated := by
    rw [AnchoredHeaderProofBuilder.validated, mem_range'_1] at hnumber ⊢
    rw [hkept₀.proof_eq] at hnumber; rw [hkept.proof_eq]; omega
  exact ⟨hvalidated, fun range hrange => hkept.partitioned.notMem_of_validated hvalidated hrange⟩

def sampleHashing : Hashing := ⟨fun header => header.parentHash + 1, fun _ => ""⟩

theorem sample_le {start last : Nat} (h : start ≤ last ∧ last ≤ u64Max) : start ≤ last := h.1

theorem sample_last_le {start last : Nat} (h : start ≤ last ∧ last ≤ u64Max) : last ≤ u64Max := h.2

def sampleRange (start last : Nat) (h : start ≤ last ∧ last ≤ u64Max) : BlockRange :=
  ⟨start, last, sample_le h, sample_last_le h⟩

def sampleEvents (peer liar : PeerId) : List FetchEvent :=
  let low := sampleRange 1 1 (by decide)
  let high := sampleRange 2 2 (by decide)
  [.wave 2, .outcome low (.ok (peer, [⟨1, 0, []⟩])), .outcome high (.ok (liar, [⟨2, 7, []⟩])),
    .leave, .retry, .wave 2, .outcome high (.ok (peer, [⟨2, 1, []⟩])), .leave]

theorem run_proves_ancestors_sample :
    ∃ builder s, AnchoredHeaderProofBuilder.new? (sampleRange 1 2 (by decide))
        (sampleRange 1 2 (by decide)) 1 2 = some builder ∧
      (Fetching.start builder).run sampleHashing
        (sampleEvents ⟨.replicate 64 0⟩ ⟨.replicate 64 1⟩) = some s ∧
      s.reported = [⟨.replicate 64 1⟩] ∧
      s.returned = some (.ok ⟨sampleRange 1 2 (by decide), sampleRange 1 2 (by decide), [1, 2]⟩) ∧
      s.Partitioned := by
  have hsome : ((AnchoredHeaderProofBuilder.new? (sampleRange 1 2 (by decide))
      (sampleRange 1 2 (by decide)) 1 2).bind fun builder => ((Fetching.start builder).run sampleHashing
          (sampleEvents ⟨.replicate 64 0⟩ ⟨.replicate 64 1⟩)).map fun s =>
            (s.reported, s.returned.bind Except.toOption)) =
      some ([⟨.replicate 64 1⟩],
        some ⟨sampleRange 1 2 (by decide), sampleRange 1 2 (by decide), [1, 2]⟩) := by
    decide +kernel
  obtain ⟨builder, hnew, hrun⟩ := bind_eq_some_iff.1 hsome
  obtain ⟨s, hrun, hs⟩ := map_eq_some_iff.1 hrun
  simp only [Prod.mk.injEq] at hs
  obtain ⟨hreported, hreturned⟩ := hs
  obtain ⟨result, hresult, hproven⟩ := bind_eq_some_iff.1 hreturned
  cases result with
  | error error => cases hproven
  | ok proven =>
    cases hproven
    refine ⟨builder, s, hnew, hrun, hreported, hresult, ?_⟩
    refine (@run_proves_ancestors _ (fun hash => hash - 1) _ _ _ _ _ _ _ hnew ?_ hrun).2.1
    intro _ _ _ _ _ _; simp only [sampleHashing]; exact BitVec.add_sub_cancel _ _

end Leani.P2p.HeaderProof
