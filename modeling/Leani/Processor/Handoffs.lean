import Leani.Canonical.Model
import Leani.Processor.Compaction

/-!
# Handoffs from the historical to the live lane

`verify_hot_cold_handoff` compares what a processor covered with the canonical chain over an overlap
of the two lanes and records the verdict. An exact row is compared block by block. A compact segment
keeps the hash of its last block only; what it says of the blocks below follows from their parents.
-/

namespace Leani.Processor

open Library Std Delivery Canonical Instance List Option Table

structure HandoffRow where
  chainId : Nat
  inst : String
  overlapFrom : Nat
  overlapTo : Nat
  anchorHash : BlockHash
  state : HandoffState
  comparedBlocks : Nat
  failure : Option String
  updatedAt : Nat
  deriving DecidableEq

structure HotColdHandoffRecord where
  id : String
  chainId : Nat
  processorId : String
  processorVersion : String
  overlap : BlockRange
  anchorHash : BlockHash
  state : HandoffState
  comparedBlocks : Nat
  failure : Option String
  updatedAt : Nat

structure HandoffStore (μ : Type) where
  recent : RecentStore μ
  processor : Store
  handoffs : Table String HandoffRow

structure HandoffRequest where
  id : String
  descriptor : ProcessorDescriptor
  chainId : Nat
  overlap : BlockRange
  anchorHash : BlockHash

def HandoffRequest.recordOf (request : HandoffRequest) (overlap : BlockRange) (row : HandoffRow) :
    HotColdHandoffRecord :=
  ⟨request.id, row.chainId, request.descriptor.id, request.descriptor.version, overlap,
    row.anchorHash, row.state, row.comparedBlocks, row.failure, row.updatedAt⟩

variable {μ : Type}

namespace HandoffStore

variable (s : HandoffStore μ) (request : HandoffRequest)

def loadHandoff : Except StoreError (Option HotColdHandoffRecord) :=
  match s.handoffs[request.id]? with
  | none => .ok none
  | some row => do
    ensure (row.inst = request.descriptor.inst)
      (.handoffMismatch request.id "handoff belongs to another processor instance")
    let overlap ← required (BlockRange.new? row.overlapFrom row.overlapTo)
      (.invariant "block range end precedes start")
    pure (some (request.recordOf overlap row))

def validateHandoffIdentity (existing : HotColdHandoffRecord) : Except StoreError Unit :=
  ensure (existing.chainId = request.chainId ∧ existing.overlap.start = request.overlap.start ∧
    existing.overlap.last = request.overlap.last ∧ existing.anchorHash = request.anchorHash)
    (.handoffMismatch existing.id "handoff identity was reused with different bounds or anchor")

def supersede (now : Nat) : Table String HandoffRow :=
  s.handoffs.updateWhere (fun _ row => row.inst = request.descriptor.inst ∧ row.state = .running)
    fun row => { row with
      state := .failed
      failure := some ("superseded by handoff " ++ request.id.quote ++ " before verification")
      updatedAt := now }

/-- `begin_hot_cold_handoff`, where `registration` is what `register_processor` answers. -/
def beginHotColdHandoff (registration : Except StoreError Unit) (now : Nat) :
    Except StoreError (HandoffStore μ × HotColdHandoffRecord) := do
  ensure (request.id ≠ "" ∧ request.overlap.start ≤ request.overlap.last)
    (.invalidConfig "hot/cold handoff identity and overlap must be valid")
  registration
  match ← s.loadHandoff request with
  | some existing => do
    validateHandoffIdentity request existing
    pure (s, existing)
  | none => do
    let updatedAt ← u64I64 now "updated_at_unix_ms"
    let chain ← u64I64 request.chainId "chain_id"
    let overlapFrom ← u64I64 request.overlap.start "overlap_from"
    let overlapTo ← u64I64 request.overlap.last "overlap_to"
    let row : HandoffRow := ⟨chain, request.descriptor.inst, overlapFrom, overlapTo,
      request.anchorHash, .running, 0, none, updatedAt⟩
    pure ({ s with handoffs := (s.supersede request updatedAt).insert request.id row },
      request.recordOf request.overlap row)

structure JoinedRow where
  number : Nat
  canonicalHash : BlockHash
  coverageHash : Option BlockHash
  segmentEndHash : Option BlockHash
  segmentTipHash : Option BlockHash
  deriving DecidableEq

def joinRow (chainId number : Nat) (row : CanonicalRow) : List JoinedRow :=
  let coverageHash := (s.processor.coverage[number]?).map CoverageRow.hash
  match Table.rowsWhere s.processor.segments fun segmentEnd segment =>
    segment.segmentStart ≤ number && number ≤ segmentEnd with
  | [] => [⟨number, row.hash, coverageHash, none, none⟩]
  | segments => segments.map fun (segmentEnd, segment) =>
    ⟨number, row.hash, coverageHash, some segment.endHash,
      (s.recent.row chainId segmentEnd).map CanonicalRow.hash⟩

def joinedRows (chainId first last : Nat) : List JoinedRow :=
  (s.recent.canonical.rowsWhere fun key _ =>
    key.1 = chainId ∧ first ≤ key.2 ∧ key.2 ≤ last).flatMap fun row => s.joinRow chainId row.1.2 row.2

def JoinedRow.mismatch (row : JoinedRow) : Option String :=
  match row.coverageHash, row.segmentEndHash with
  | some coverageHash, _ =>
    if coverageHash = row.canonicalHash then none
    else some s!"block {row.number} differs: live {row.canonicalHash}, historical {coverageHash}"
  | none, some endHash =>
    if row.segmentTipHash = some endHash then none
    else some (s!"compact historical coverage of block {row.number} ends at {endHash}, " ++
      "which the live canonical chain does not contain")
  | none, none => some s!"historical processor coverage is missing block {row.number}"

structure Comparison where
  expected : Nat
  comparedBlocks : Nat
  failure : Option String

def compareRows : Comparison → List JoinedRow → Comparison
  | state, [] => state
  | state, row :: rows =>
    if row.number ≠ state.expected then
      { state with failure := some s!"live canonical overlap is missing block {state.expected}" }
    else
      match row.mismatch with
      | some failure => { state with failure := some failure }
      | none => compareRows { state with
          comparedBlocks := satAdd state.comparedBlocks 1
          expected := satAdd state.expected 1 } rows

def overlapLen : Nat := satAdd (request.overlap.last - request.overlap.start) 1

def compareOverlap (chain first last : Nat) : Nat × Option String :=
  let compared := compareRows ⟨request.overlap.start, 0, none⟩ (s.joinedRows chain first last)
  let failure := compared.failure.or (if compared.comparedBlocks ≠ overlapLen request then
      some (s!"live canonical overlap ended at {compared.expected - 1}; " ++
        s!"expected {request.overlap.last}")
    else if (s.recent.row chain last).map CanonicalRow.hash ≠ some request.anchorHash then
      some "overlap tip does not match the verified anchor"
    else none)
  (compared.comparedBlocks, failure)

def recordVerdict (state : HandoffState) (comparedBlocks : Nat) (failure : Option String)
    (now : Nat) : HandoffStore μ :=
  { s with
    handoffs := s.handoffs.updateWhere (fun id _ => id = request.id) fun row =>
      { row with
        state := state
        comparedBlocks := comparedBlocks
        failure := failure
        updatedAt := now } }

def judgeHandoff (now : Nat) :
    Except StoreError (HandoffStore μ × Except StoreError HotColdHandoffRecord) := do
  let chain ← u64I64 request.chainId "chain_id"
  let first ← u64I64 request.overlap.start "overlap_from"
  let last ← u64I64 request.overlap.last "overlap_to"
  let (comparedBlocks, failure) := s.compareOverlap request chain first last
  let state : HandoffState := if failure.isSome then .failed else .verified
  let comparedBlocks ← u64I64 comparedBlocks "compared_blocks"
  let updatedAt ← u64I64 now "updated_at_unix_ms"
  let judged := s.recordVerdict request state comparedBlocks failure updatedAt
  match failure with
  | some detail => pure (judged, .error (.handoffMismatch request.id detail))
  | none => pure (judged, .ok ⟨request.id, request.chainId, request.descriptor.id,
      request.descriptor.version, request.overlap, request.anchorHash, state, comparedBlocks, none,
      updatedAt⟩)

/-- `verify_hot_cold_handoff`. The lock is free between its two parts; `interleaved` is what others
do to the tables there. -/
def verifyHotColdHandoff (registration : Except StoreError Unit) (began judged : Nat)
    (interleaved : HandoffStore μ → HandoffStore μ) :
    HandoffStore μ × Except StoreError HotColdHandoffRecord :=
  match s.beginHotColdHandoff request registration began with
  | .error e => (s, .error e)
  | .ok (s, existing) =>
    if existing.state = .verified then (s, .ok existing)
    else
      let s := interleaved s
      match s.judgeHandoff request judged with
      | .error e => (s, .error e)
      | .ok outcome => outcome

end HandoffStore

section Segments

-- The parent of the block with a hash: the hash of a block commits to its parent's.
variable (parentOf : BlockHash → BlockHash)

/-- The block at a height of the segment that ends at `segmentEnd`. -/
def CoverageSegment.blockAt (segment : CoverageSegment) (segmentEnd number : Nat) : BlockHash :=
  parentOf^[segmentEnd - number] segment.endHash

variable {parentOf}

theorem blockAt_of_pathDown {s : RecentStore μ} {cid e n : Nat} {seg : CoverageSegment}
    {tip row : CanonicalRow} (hpath : s.PathDown cid e n)
    (hparents : ∀ k r, n < k → k ≤ e → s.row cid k = some r → r.parentHash = parentOf r.hash)
    (htip : s.row cid e = some tip) (hend : tip.hash = seg.endHash)
    (hrow : s.row cid n = some row) : seg.blockAt parentOf e n = row.hash := by
  rw [CoverageSegment.blockAt, ← hend]; exact hpath.iterate hparents htip hrow

end Segments

open HandoffStore

inductive Agrees (s : HandoffStore μ) (chainId n : Nat) (row : CanonicalRow) : Prop where
  | exact {covered : CoverageRow} (hcovered : s.processor.coverage[n]? = some covered)
      (hash : covered.hash = row.hash) : Agrees s chainId n row
  | compact {segmentEnd : Nat} {segment : CoverageSegment} {tip : CanonicalRow}
      (uncovered : s.processor.coverage[n]? = none)
      (hsegment : s.processor.segments[segmentEnd]? = some segment)
      (start : segment.segmentStart ≤ n) (last : n ≤ segmentEnd)
      (htip : s.recent.row chainId segmentEnd = some tip) (hend : tip.hash = segment.endHash) :
      Agrees s chainId n row

variable {row : CanonicalRow} {joined : JoinedRow}

theorem Agrees.of_joinRow {s : HandoffStore μ} {cid n : Nat}
 (hjoined : joined ∈ s.joinRow cid n row)
    (h : joined.mismatch = none) : joined.number = n ∧ Agrees s cid n row := by
  unfold HandoffStore.joinRow at hjoined
  cases hcov : s.processor.coverage[n]? with
  | some covered =>
    have hexact : joined.coverageHash = some covered.hash ∧ joined.canonicalHash = row.hash ∧
        joined.number = n := by
      rw [hcov] at hjoined
      split at hjoined
      · rw [mem_singleton] at hjoined
        subst hjoined; exact ⟨rfl, rfl, rfl⟩
      · obtain ⟨_, -, rfl⟩ := mem_map.1 hjoined; exact ⟨rfl, rfl, rfl⟩
    obtain ⟨hc, hr, hn⟩ := hexact
    refine ⟨hn, .exact hcov ?_⟩
    rw [JoinedRow.mismatch, hc, hr] at h
    dsimp only at h
    split at h
    · assumption
    · cases h
  | none =>
    rw [hcov] at hjoined
    split at hjoined
    · rw [mem_singleton] at hjoined
      subst hjoined; cases h
    · rename_i segs _
      obtain ⟨⟨_, _⟩, hmem, rfl⟩ := mem_map.1 hjoined
      obtain ⟨hseg, hbounds⟩ := mem_rowsWhere.1 hmem
      rw [Bool.and_eq_true, decide_eq_true_iff, decide_eq_true_iff] at hbounds
      refine ⟨rfl, ?_⟩
      simp only [JoinedRow.mismatch, map_none] at h
      split at h
      · rename_i htip
        obtain ⟨_, htip, hend⟩ := map_eq_some_iff.1 htip
        exact .compact hcov hseg hbounds.1 hbounds.2 htip hend
      · cases h

theorem compareRows_spec {rows : List JoinedRow} : ∀ {state : Comparison}, state.failure =
    none → state.comparedBlocks ≤ state.expected → (∀ row ∈ rows, row.number ≤ i64Max) →
    (compareRows state rows).failure = none → (compareRows state rows).comparedBlocks =
    state.comparedBlocks + rows.length ∧ ∀ n, state.expected ≤
    n → n < state.expected + rows.length → ∃ row ∈ rows, row.number = n ∧ row.mismatch = none := by
  induction rows with
  | nil => exact fun _ _ _ _ => ⟨rfl, fun n hle hlt => absurd hlt (Nat.not_lt.2 hle)⟩
  | cons row rows ih =>
    intro state hfailure hle hmax h
    rw [compareRows] at h ⊢
    split at h
    · cases h
    · rename_i hnum
      rw [if_neg hnum]
      rw [ne_eq, not_not] at hnum
      cases hrow : row.mismatch with
      | some failure =>
        rw [hrow] at h; cases h
      | none =>
        rw [hrow] at h
        -- Heights fit a signed column, so nothing saturates.
        have hfits : i64Max + 1 ≤ u64Max := by decide
        have hexp := hmax row mem_cons_self
        rw [satAdd_eq (by omega), satAdd_eq (by omega)] at h ⊢
        obtain ⟨hcompared, hrows⟩ := @ih ⟨state.expected + 1, state.comparedBlocks + 1, _⟩ hfailure
          (Nat.succ_le_succ hle) (forall_mem_cons.1 hmax).2 h
        dsimp only at hrows
        refine ⟨by rw [hcompared, length_cons]; dsimp only; omega, fun n hn hn' => ?_⟩
        rw [length_cons] at hn'
        rcases Nat.eq_or_lt_of_le hn with rfl | hlt
        · exact ⟨row, mem_cons_self, hnum, hrow⟩
        · obtain ⟨r, hr, hr'⟩ := hrows n (by omega) (by omega); exact ⟨r, mem_cons_of_mem _ hr, hr'⟩

theorem mem_joinedRows {s : HandoffStore μ}
    {cid first last : Nat} (h : joined ∈ s.joinedRows cid first last) : ∃ n row,
    s.recent.row cid n = some row ∧ first ≤ n ∧ n ≤ last ∧ joined ∈ s.joinRow cid n row := by
  obtain ⟨⟨⟨_, n⟩, row⟩, hmem, hjoined⟩ := mem_flatMap.1 h
  obtain ⟨hrow, hbounds⟩ := mem_rowsWhere.1 hmem
  obtain ⟨rfl, hfirst, hlast⟩ := of_decide_eq_true hbounds
  exact ⟨n, row, hrow, hfirst, hlast, hjoined⟩

theorem number_of_mem_joinRow {s : HandoffStore μ} {cid n : Nat}
 (h : joined ∈ s.joinRow cid n row) : joined.number = n := by
  unfold HandoffStore.joinRow at h
  split at h
  · rw [mem_singleton] at h; rw [h]
  · obtain ⟨_, -, rfl⟩ := mem_map.1 h; rfl

structure VerifiedHandoff (s : HandoffStore μ) (request : HandoffRequest) : Prop where
  nonempty : request.overlap.start ≤ request.overlap.last
  agrees : ∀ n, request.overlap.start ≤ n → n ≤ request.overlap.last →
    ∃ row, s.recent.row request.chainId n = some row ∧ Agrees s request.chainId n row
  anchored : ∃ row, s.recent.row request.chainId request.overlap.last = some row ∧
    row.hash = request.anchorHash

/-- A handoff that is true: the processor covers every block of the overlap with the canonical one,
and the overlap ends in the anchor. -/
structure TrueHandoff (parentOf : BlockHash → BlockHash) (s : HandoffStore μ)
    (request : HandoffRequest) : Prop where
  nonempty : request.overlap.start ≤ request.overlap.last
  covered : ∀ n, request.overlap.start ≤ n → n ≤ request.overlap.last →
    ∃ row, s.recent.row request.chainId n = some row ∧
      ((∃ covered, s.processor.coverage[n]? = some covered ∧ covered.hash = row.hash) ∨
        ∃ e segment, s.processor.segments[e]? = some segment ∧ segment.segmentStart ≤ n ∧ n ≤ e ∧
          segment.blockAt parentOf e n = row.hash)
  anchored : ∃ row, s.recent.row request.chainId request.overlap.last = some row ∧
    row.hash = request.anchorHash

/-- From every block of the overlap in a segment, canonical rows lead up to the segment's end, and
they name their blocks' parents. -/
def LinkedToEnds (parentOf : BlockHash → BlockHash) (s : HandoffStore μ)
    (request : HandoffRequest) : Prop :=
  ∀ n e segment, request.overlap.start ≤ n → n ≤ request.overlap.last → s.processor.segments[e]? =
    some segment → segment.segmentStart ≤ n → n ≤ e → s.recent.PathDown request.chainId e n ∧
    ∀ k r, n < k → k ≤ e → s.recent.row request.chainId k = some r → r.parentHash = parentOf r.hash

theorem VerifiedHandoff.genuine {parentOf : BlockHash → BlockHash} {s : HandoffStore μ}
    {req : HandoffRequest} (h : VerifiedHandoff s req)
    (hlink : LinkedToEnds parentOf s req) : TrueHandoff parentOf s req where
  nonempty := h.nonempty
  covered n hn hn' := by
    obtain ⟨row, hrow, hagree⟩ := h.agrees n hn hn'
    refine ⟨row, hrow, ?_⟩
    cases hagree with
    | exact hcov hash => exact .inl ⟨_, hcov, hash⟩
    | compact _ hseg start last htip hend =>
      obtain ⟨hpath, hparents⟩ := hlink n _ _ hn hn' hseg start last
      exact .inr ⟨_, _, hseg, start, last, blockAt_of_pathDown hpath hparents htip hend hrow⟩
  anchored := h.anchored

theorem compareOverlap_eq_none {s : HandoffStore μ} {req : HandoffRequest} {k : Nat}
    (hmax : req.overlap.last ≤ i64Max)
    (h : s.compareOverlap req req.chainId req.overlap.start req.overlap.last =
      (k, none)) : VerifiedHandoff s req := by
  simp only [compareOverlap, Prod.mk.injEq, or_eq_none_iff] at h
  obtain ⟨-, hcompared, hrest⟩ := h
  split at hrest
  · cases hrest
  · rename_i hlen
    split at hrest
    · cases hrest
    · rename_i hanch
      rw [ne_eq, not_not] at hlen hanch
      obtain ⟨hk, hrows⟩ := compareRows_spec rfl (Nat.zero_le _) (fun joined hjoined => by
        obtain ⟨n, row, -, -, hn, hmem⟩ := mem_joinedRows hjoined
        rw [number_of_mem_joinRow hmem]; omega) hcompared
      have hle := req.overlap.start_le_last
      have hfits : i64Max + 1 ≤ u64Max := by decide
      rw [hk, overlapLen, satAdd_eq (by omega)] at hlen
      dsimp only at hlen hrows
      refine ⟨hle, fun n hn hn' => ?_, map_eq_some_iff.1 hanch⟩
      obtain ⟨joined, hjoined, hnum, hmatch⟩ := hrows n hn (by omega)
      obtain ⟨_, row, hrow, -, -, hmem⟩ := mem_joinedRows hjoined
      obtain ⟨hn', hagree⟩ := Agrees.of_joinRow hmem hmatch
      rw [hnum] at hn'
      subst hn'; exact ⟨row, hrow, hagree⟩

def HandoffRow.IsFor (row : HandoffRow) (request : HandoffRequest) : Prop :=
  row.inst = request.descriptor.inst ∧ row.chainId = request.chainId ∧ row.overlapFrom =
    request.overlap.start ∧ row.overlapTo = request.overlap.last ∧ row.anchorHash = request.anchorHash

def RecordedVerified (s : HandoffStore μ) (request : HandoffRequest) : Prop :=
  ∃ row, s.handoffs[request.id]? = some row ∧ row.state = .verified ∧ row.IsFor request

variable {s s' : HandoffStore μ} {request : HandoffRequest}

theorem VerifiedHandoff.congr (h : VerifiedHandoff s request) (hrec : s'.recent = s.recent)
    (hproc : s'.processor = s.processor) : VerifiedHandoff s' request where
  nonempty := h.nonempty
  agrees n hn hn' := by
    obtain ⟨row, hrow, hagree⟩ := h.agrees n hn hn'
    refine ⟨row, hrec ▸ hrow, ?_⟩
    cases hagree with
    | exact hcov hash => exact .exact (hproc ▸ hcov) hash
    | compact uncovered hseg start last htip hend =>
      exact .compact (hproc ▸ uncovered) (hproc ▸ hseg) start last (hrec ▸ htip) hend
  anchored := hrec ▸ h.anchored

variable {existing : HotColdHandoffRecord}

theorem loadHandoff_eq_some (h : s.loadHandoff request = .ok (some existing)) :
    ∃ row, s.handoffs[request.id]? = some row ∧ row.inst = request.descriptor.inst ∧
      row.overlapFrom = existing.overlap.start ∧ row.overlapTo = existing.overlap.last ∧
      existing = request.recordOf existing.overlap row := by
  unfold loadHandoff at h
  split at h
  · cases h
  · rename_i row hrow
    simp only [eq_ok, some.injEq] at h
    obtain ⟨-, hinst, overlap, hoverlap, rfl⟩ := h
    unfold BlockRange.new? at hoverlap
    split at hoverlap
    · cases hoverlap; exact ⟨row, hrow, hinst, rfl, rfl, rfl⟩
    · cases hoverlap

theorem beginHotColdHandoff_ok {reg : Except StoreError Unit}
    {now : Nat} (h : s.beginHotColdHandoff request reg now = .ok (s', existing)) :
    (existing.state = .verified → RecordedVerified s request) ∧ ∀ (id : String) (row : HandoffRow),
    s'.handoffs[id]? = some row → row.state = .verified → s.handoffs[id]? = some row := by
  simp only [beginHotColdHandoff, bind_eq_ok] at h
  obtain ⟨-, -, -, -, loaded, hload, h⟩ := h
  cases loaded with
  | some loaded =>
    simp only [eq_ok, Prod.mk.injEq, validateHandoffIdentity] at h
    obtain ⟨-, ⟨hchain, hstart, hlast, hanch⟩, rfl, rfl⟩ := h
    refine ⟨fun hst => ?_, fun _ _ hrow _ => hrow⟩
    obtain ⟨row, hrow, hinst, hfrom, hto, hrcd⟩ := loadHandoff_eq_some hload
    rw [hrcd] at hchain hanch hst
    exact ⟨row, hrow, hst, hinst, hchain, hfrom.trans hstart, hto.trans hlast, hanch⟩
  | none =>
    simp only [eq_ok, Prod.mk.injEq] at h
    obtain ⟨_, -, _, -, _, -, _, -, rfl, rfl⟩ := h
    refine ⟨fun hst => (by cases hst), fun id row hrow hst => ?_⟩
    rcases insert_cases hrow with ⟨-, rfl⟩ | ⟨-, hrow⟩
    · cases hst
    · rw [supersede, get?_updateWhere_eq_some] at hrow
      obtain ⟨_, hold, rfl⟩ := hrow
      split at hst
      · cases hst
      · rename_i hkept; rw [if_neg hkept]; exact hold

theorem judgeHandoff_ok {now : Nat} {answer : Except StoreError HotColdHandoffRecord}
    (h : s.judgeHandoff request now = .ok (s', answer)) :
    (∀ rcd, answer = .ok rcd → VerifiedHandoff s' request) ∧
      ∀ (id : String) (row : HandoffRow), s'.handoffs[id]? = some row → row.state = .verified →
        id = request.id ∧ VerifiedHandoff s' request ∨ s.handoffs[id]? = some row := by
  simp only [judgeHandoff, bind_eq_ok, u64I64_eq_ok] at h
  obtain ⟨_, ⟨-, rfl⟩, _, ⟨-, rfl⟩, _, ⟨hmax, rfl⟩, _, ⟨-, rfl⟩, updatedAt, -, h⟩ := h
  generalize hcompare : s.compareOverlap request request.chainId request.overlap.start
    request.overlap.last = verdict at h
  obtain ⟨k, failure⟩ := verdict
  have hverif : failure = none → VerifiedHandoff s request := by
    rintro rfl; exact compareOverlap_eq_none hmax hcompare
  have hjudged : s' = s.recordVerdict request (if failure.isSome then .failed else .verified) k
      failure updatedAt ∧ ∀ rcd, answer = .ok rcd → failure = none := by
    cases failure with
    | some detail =>
      rw [pure_eq_ok, Prod.mk.injEq] at h
      exact ⟨h.1.symm, fun rcd hrcd => by rw [← h.2] at hrcd; cases hrcd⟩
    | none =>
      rw [pure_eq_ok, Prod.mk.injEq] at h; exact ⟨h.1.symm, fun _ _ => rfl⟩
  obtain ⟨rfl, hans⟩ := hjudged
  refine ⟨fun rcd hrcd => (hverif (hans rcd hrcd)).congr rfl rfl, fun id row hrow hst => ?_⟩
  rw [recordVerdict, get?_updateWhere_eq_some] at hrow
  obtain ⟨_, hold, rfl⟩ := hrow
  split at hst
  · rename_i hid
    refine .inl ⟨of_decide_eq_true hid, (hverif ?_).congr rfl rfl⟩
    cases failure with
    | none => rfl
    | some detail => cases hst
  · rename_i hkept; rw [if_neg hkept]; exact .inr hold

/-- What is answered and recorded as verified. The tables of a new verdict are those it leaves
behind: only handoffs are written. -/
structure SoundVerification (s : HandoffStore μ) (request : HandoffRequest)
    (registration : Except StoreError Unit) (began judged : Nat)
    (interleaved : HandoffStore μ → HandoffStore μ) : Prop where
  returned : ∀ s' record, s.verifyHotColdHandoff request registration began judged interleaved = (s',
    .ok record) → record.state = .verified → RecordedVerified s request ∨ VerifiedHandoff s' request
  recorded : ∀ s' answer, s.verifyHotColdHandoff request registration began judged interleaved =
    (s', answer) → ∀ (id : String) (row : HandoffRow), s'.handoffs[id]? = some row → row.state =
    .verified → id = request.id ∧ VerifiedHandoff s' request ∨ s.handoffs[id]? = some row ∨
        -- Another task recorded it in between.
        ∃ t existing, s.beginHotColdHandoff request registration began = .ok (t, existing) ∧
          (interleaved t).handoffs[id]? = some row
  genuine : ∀ parentOf (s' : HandoffStore μ), VerifiedHandoff s' request →
    LinkedToEnds parentOf s' request → TrueHandoff parentOf s' request

/-- A handoff becomes verified only where the processor and the canonical chain agree over the
overlap and the anchor is its end. -/
theorem verifyHotColdHandoff_sound (s : HandoffStore μ) (request : HandoffRequest)
    (registration : Except StoreError Unit) (began judged : Nat)
    (interleaved : HandoffStore μ → HandoffStore μ) :
    SoundVerification s request registration began judged interleaved := by
  refine ⟨fun s' record h hstate => ?_, fun s' _ h id row hrow hstate => ?_,
    fun _ s' h hlinked => h.genuine hlinked⟩
  all_goals
    unfold verifyHotColdHandoff at h
    split at h
  · cases h
  · rename_i t existing hbegin
    split at h
    · rename_i hverified; exact .inl ((beginHotColdHandoff_ok hbegin).1 hverified)
    · dsimp only at h
      split at h
      · cases h
      · rename_i outcome hjudge
        subst h; exact .inr ((judgeHandoff_ok hjudge).1 record rfl)
  · cases h; exact .inr (.inl hrow)
  · rename_i t existing hbegin
    split at h
    · cases h; exact .inr (.inl ((beginHotColdHandoff_ok hbegin).2 id row hrow hstate))
    · dsimp only at h
      split at h
      · cases h; exact .inr (.inr ⟨t, existing, hbegin, hrow⟩)
      · rename_i outcome hjudge
        subst h
        rcases (judgeHandoff_ok hjudge).2 id row hrow hstate with hnew | hold
        · exact .inl hnew
        · exact .inr (.inr ⟨t, existing, hbegin, hold⟩)

theorem verifyHotColdHandoff_keeps {reg : Except StoreError Unit} {began judged : Nat}
    {interleaved : HandoffStore μ → HandoffStore μ}
    (hkeeps : ∀ t, (interleaved t).recent = t.recent ∧ (interleaved t).processor = t.processor) :
    (s.verifyHotColdHandoff request reg began judged interleaved).1.recent = s.recent ∧
      (s.verifyHotColdHandoff request reg began judged interleaved).1.processor = s.processor := by
  unfold verifyHotColdHandoff
  split
  · exact ⟨rfl, rfl⟩
  · rename_i t existing hbegin
    have ht : t.recent = s.recent ∧ t.processor = s.processor := by
      simp only [beginHotColdHandoff, bind_eq_ok] at hbegin
      obtain ⟨-, -, -, -, loaded, -, hbegin⟩ := hbegin
      cases loaded with
      | some loaded =>
        simp only [eq_ok, Prod.mk.injEq] at hbegin
        obtain ⟨-, -, rfl, -⟩ := hbegin; exact ⟨rfl, rfl⟩
      | none =>
        simp only [eq_ok, Prod.mk.injEq] at hbegin
        obtain ⟨_, -, _, -, _, -, _, -, rfl, -⟩ := hbegin; exact ⟨rfl, rfl⟩
    obtain ⟨hrec, hproc⟩ := hkeeps t
    rw [ht.1] at hrec
    rw [ht.2] at hproc
    split
    · exact ht
    · dsimp only
      split
      · exact ⟨hrec, hproc⟩
      · rename_i outcome hjudge
        simp only [judgeHandoff, bind_eq_ok] at hjudge
        obtain ⟨_, -, _, -, _, -, _, -, _, -, hjudge⟩ := hjudge
        split at hjudge
        all_goals
          rw [pure_eq_ok, Prod.mk.injEq] at hjudge; rw [← hjudge.1]; exact ⟨hrec, hproc⟩

def foldedDescriptor : ProcessorDescriptor where
  id := "transfers"
  inst := "transfers"
  version := "1"
  configHash := 0
  deltaVersion := 1
  mode := .blockLocal
  deliveryOrdering := .canonical
  publication := .finalized
  delivery := .none
  output := ⟨.none, none⟩
  undoMode := .none
  safetyBlocks := 0

def foldedStore : Store :=
  { Store.registered foldedDescriptor with
    intervals := (∅ : Table Nat Nat).insert 5 8
    segments := (∅ : Table Nat CoverageSegment).insert 8 ⟨5, 5, 4, 8⟩ }

def branchedRecent : RecentStore Unit :=
  let branch := commit .empty (storeCanonicalAnchor .empty 1 ⟨5, 50, 49, 0⟩ .unattested)
  commit branch (storeCanonicalAnchor branch 1 ⟨8, 8, 7, 0⟩ .finalized)

def branchedRequest : HandoffRequest :=
  ⟨"handoff", foldedDescriptor, 1, ⟨5, 5, by decide, by decide⟩, 50⟩

theorem foldedStore_covers {s : HandoffStore Unit} (hproc : s.processor = foldedStore)
    (h : TrueHandoff (fun hash => hash - 1) s branchedRequest) :
    (s.recent.row 1 5).map CanonicalRow.hash = some 5 := by
  obtain ⟨row, hrow, hcov⟩ := h.covered 5 (by decide) (by decide)
  rw [show s.recent.row 1 5 = some row from hrow, map_some, some.injEq]
  rcases hcov with ⟨covered, hcov, -⟩ | ⟨_, _, hseg, -, -, hblock⟩
  · rw [hproc] at hcov; cases not_mem_empty hcov
  · rw [hproc, foldedStore, get?_insert_ite] at hseg
    split at hseg
    · rename_i he
      rw [some.injEq] at hseg; rw [← hblock, ← hseg, he]; decide
    · cases not_mem_empty hseg

theorem not_true_of_verified {s : HandoffStore Unit} (hproc : s.processor = foldedStore)
    (hrow : (s.recent.row 1 5).map CanonicalRow.hash ≠ some 5)
    (hans : ((s.verifyHotColdHandoff branchedRequest (.ok ()) 0 0 id).2.toOption).map (·.state) =
      some .verified) :
    ∃ s' rcd, s.verifyHotColdHandoff branchedRequest (.ok ()) 0 0 id = (s', .ok rcd) ∧
      rcd.state = .verified ∧ ¬ TrueHandoff (fun hash => hash - 1) s' branchedRequest := by
  obtain ⟨hrec, hkept⟩ := @verifyHotColdHandoff_keeps _ s branchedRequest (.ok ()) 0 0 id
    fun _ => ⟨rfl, rfl⟩
  obtain ⟨rcd, hrcd, hstate⟩ := map_eq_some_iff.1 hans
  generalize s.verifyHotColdHandoff branchedRequest (.ok ()) 0 0 id = outcome at *
  obtain ⟨s', answer⟩ := outcome
  cases answer with
  | error e => cases hrcd
  | ok answer =>
    cases hrcd
    refine ⟨s', rcd, rfl, hstate, fun h => hrow ?_⟩
    rw [← hrec]; exact foldedStore_covers (hkept.trans hproc) h

/-- The segment has another block at 5 than the canonical chain, and the handoff is verified. So is a
handoff that was verified before, when its canonical rows are gone. -/
theorem verifyHotColdHandoff_of_branch :
    (∃ s' record, verifyHotColdHandoff ⟨branchedRecent, foldedStore, ∅⟩ branchedRequest (.ok ()) 0 0
        id = (s', .ok record) ∧ record.state = .verified ∧
      ¬ TrueHandoff (fun hash => hash - 1) s' branchedRequest) ∧
    ∃ s' record, verifyHotColdHandoff (⟨.empty, foldedStore,
        (∅ : Table String HandoffRow).insert "handoff"
          ⟨1, "transfers", 5, 5, 50, .verified, 1, none, 0⟩⟩ : HandoffStore Unit) branchedRequest
        (.ok ()) 0 0 id = (s', .ok record) ∧ record.state = .verified ∧
      ¬ TrueHandoff (fun hash => hash - 1) s' branchedRequest := by
  constructor
  · apply not_true_of_verified rfl
    · decide +kernel
    · decide +kernel
  · apply not_true_of_verified rfl
    · decide +kernel
    · decide +kernel

end Leani.Processor
