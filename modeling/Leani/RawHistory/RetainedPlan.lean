import Leani.Library.Tiling
import Leani.RawHistory.Catalog
import Mathlib.Data.List.Induction

/-!
# Plans over retained segments

A plan of the retained source cuts a request into chunks that retained segments serve. The segments that
satisfy the request are checked for gaps and then chosen greedily: each chunk goes on to the furthest end
of a segment that has its first block. Encoding errors of a partition and the operations of the physical
plan, which only describe the chunks, are left out.
-/

namespace Leani.RawHistory.Retained

open Library Filtering List BlockRange

structure RetainedRequest extends DataRequest where
  projection : FieldProjection
  verificationPolicy : VerificationClass

structure RetainedHistorySourceConfig where
  chainId : Nat
  materialShape : Digest
  capabilities : CapabilitySet
  logFields : LogFieldSet
  trust : TrustModel
  verification : VerificationClass
  requiredProfile : RawHistoryProfile
  materialProfile : Option RawHistoryMaterialProfile

structure SegmentRecord where
  id : String
  descriptor : SegmentDescriptor
  profile : RawHistoryProfile
  physicalBytes : Nat
  firstParentHash : BlockHash

inductive SourceError where
  | missingRange (range : BlockRange)
  | missingMaterial (gaps : List BlockRange) (required available : BitVec 16)
  | invalidPlan (message : String)
  deriving DecidableEq

structure SourceChunk where
  range : BlockRange
  segmentId : String
  required : CapabilitySet
  expectedParent : Option BlockHash
  estimatedBytes : Option Nat
  deriving DecidableEq

structure SourcePlan where
  range : BlockRange
  chunks : List SourceChunk
  estimatedBytes : Option Nat
  supplied : CapabilitySet
  complete : CapabilitySet
  trust : TrustModel
  deriving DecidableEq

def allCapabilities : CapabilitySet := ⟨BitVec.allOnes 16⟩

def containsAllFields (fields required : LogFieldSet) : Bool := fields.bits &&& required.bits = required.bits

def minimumTrust : VerificationClass → TrustModel
  | .cryptographic => .protocolVerified
  | .trustedDataset => .trustedDataset
  | .bestEffort => .untrusted

def maxByKey {α : Type} (key : α → Nat) (items : List α) : Option α :=
  items.foldl (fun best a => match best with
    | none => some a
    | some b => if key b ≤ key a then some a else some b) none

section Plan

variable (shapeId : RawHistoryMaterialProfile → Digest) (config : RetainedHistorySourceConfig)
  (request : RetainedRequest)

def materialCovers : Bool :=
  config.materialShape = shapeId .complete || shapeId ⟨request.allowFiltered,
    request.projection, request.logFields, request.filters⟩ = config.materialShape ||
    match config.materialProfile with
    | none => false
    | some profile =>
      request.required = .of .logs && request.allowFiltered &&
        containsAllFields profile.logFields request.logFields && profile.projection.logFields.isEmpty &&
        profile.filters.senders.isEmpty && profile.filters.recipients.isEmpty &&
        profile.filters.scope.covers request.filters.scope

def concerns (record : SegmentRecord) : Bool :=
  record.descriptor.chainId = request.chainId && record.descriptor.materialShape =
    config.materialShape && record.profile.satisfies config.requiredProfile && request.range.start ≤
    record.descriptor.range.last && record.descriptor.range.start ≤ request.range.last

def suppliedBy (record : SegmentRecord) : CapabilitySet :=
  if request.allowFiltered && request.verificationPolicy ≠ .cryptographic then
    record.descriptor.presentCapabilities.withDerivable
  else record.descriptor.completeCapabilities.withDerivable

def compatible (record : SegmentRecord) : Bool :=
  concerns config request record && (suppliedBy request record).containsAll request.required &&
    max request.verificationPolicy config.verification ≤ record.descriptor.verification &&
    minimumTrust request.verificationPolicy ≤ record.descriptor.trust &&
    config.trust ≤ record.descriptor.trust

def sortsBefore (a b : SegmentRecord) : Bool :=
  a.descriptor.range.start < b.descriptor.range.start ||
    (a.descriptor.range.start = b.descriptor.range.start &&
      (b.descriptor.range.last < a.descriptor.range.last ||
        (a.descriptor.range.last = b.descriptor.range.last && a.id ≤ b.id)))

def compatibleSegments (records : List SegmentRecord) : List SegmentRecord × CapabilitySet :=
  if containsAllFields config.logFields request.logFields then
    ((records.filter (compatible config request)).mergeSort sortsBefore,
      (records.filter (concerns config request)).foldl
        (fun available record => available.union (suppliedBy request record)) .none)
  else ([], .none)

/-- The loop of `coverage_gaps` over the ranges by start. -/
def gapsLoop (requested : BlockRange) : Nat → List Range → List BlockRange
  | next, [] => if next ≤ requested.last then (BlockRange.new? next requested.last).toList else []
  | next, range :: ranges =>
    let start := max range.start requested.start
    let last := min range.last requested.last
    let gap := if next < start then (BlockRange.new? next (start - 1)).toList else []
    if last = u64Max then gap
    else
      let next := max next (last + 1)
      gap ++ if requested.last < next then [] else gapsLoop requested next ranges

def coverageGaps (requested : BlockRange) (covered : List Range) : List BlockRange :=
  gapsLoop requested requested.start
    ((covered.filter fun range => requested.start ≤ range.last && range.start ≤ requested.last).mergeSort
      fun a b => a.start ≤ b.start)

def selectCover (requested : BlockRange) (segments : List SegmentRecord) (next : Nat) :
    Except SourceError (List (SegmentRecord × BlockRange)) :=
  match maxByKey (·.descriptor.range.last) (segments.filter fun record =>
        record.descriptor.range.start ≤ next && next ≤ record.descriptor.range.last) with
  | none =>
    .error (match BlockRange.new? next requested.last with
      | some gap => .missingRange gap
      | none => .invalidPlan "block range end precedes start")
  | some record =>
    let last := min record.descriptor.range.last requested.last
    if hrange : next ≤ last ∧ last ≤ u64Max then
      let range : BlockRange := ⟨next, last, hrange.1, hrange.2⟩
      if last = requested.last then .ok [(record, range)]
      else if last = u64Max then .error (.invalidPlan "block range overflow")
      else (selectCover requested segments (last + 1)).map ((record, range) :: ·)
    else .error (.invalidPlan "block range end precedes start")
termination_by requested.last + 1 - next
decreasing_by omega

def len (start last : Nat) : Nat := min (last - start + 1) u64Max

def estimate (record : SegmentRecord) (range : BlockRange) : Option Nat :=
  let bytes := record.physicalBytes * len range.start range.last
  let blocks := len record.descriptor.range.start record.descriptor.range.last
  if bytes ≤ u64Max then some ((bytes + blocks - 1) / blocks) else none

def chunkOf (selected : SegmentRecord × BlockRange) : SourceChunk where
  range := selected.2
  segmentId := selected.1.id
  required := request.required
  expectedParent :=
    if selected.2.start = selected.1.descriptor.range.start then some selected.1.firstParentHash else none
  estimatedBytes := estimate selected.1 selected.2

/-- `SourcePlan::validate`; every chunk has the source's name and schema. -/
def validateLoop (requested : BlockRange) : Nat → List SourceChunk → Except SourceError Unit
  | next, [] => ensure (next = satAdd requested.last 1)
      (.invalidPlan "chunks do not cover the complete request")
  | next, chunk :: chunks => do
    ensure (chunk.range.start = next ∧ chunk.range.last ≤ requested.last)
      (.invalidPlan "chunks are not an exact ordered cover")
    validateLoop requested (satAdd chunk.range.last 1) chunks

def validate (plan : SourcePlan) : Except SourceError Unit := do
  ensure (plan.chunks ≠ []) (.invalidPlan "plan contains no chunks")
  validateLoop plan.range plan.range.start plan.chunks

def planOf (selected : List (SegmentRecord × BlockRange)) : SourcePlan where
  range := request.range
  chunks := selected.map (chunkOf request)
  estimatedBytes := selected.foldl (fun total item => do
    let total ← total
    let bytes ← estimate item.1 item.2
    if total + bytes ≤ u64Max then some (total + bytes) else none) (some 0)
  supplied := selected.foldl (fun supplied item =>
    supplied.intersection item.1.descriptor.presentCapabilities.withDerivable) allCapabilities
  complete := selected.foldl (fun complete item =>
    complete.intersection item.1.descriptor.completeCapabilities.withDerivable) allCapabilities
  trust := selected.foldl (fun trust item => min trust item.1.descriptor.trust) config.trust

def plan (records : List SegmentRecord) : Except SourceError SourcePlan := do
  ensure (request.chainId = config.chainId) (.missingRange request.range)
  ensure (config.capabilities.withDerivable.containsAll request.required = true)
    (.missingMaterial [request.range] request.required.bits config.capabilities.withDerivable.bits)
  ensure (materialCovers shapeId config request = true)
    (.missingMaterial [request.range] request.required.bits 0)
  let segments := compatibleSegments config request records
  let gaps := coverageGaps request.range (segments.1.map (·.descriptor.range))
  ensure (gaps = []) (.missingMaterial gaps request.required.bits segments.2.bits)
  let selected ← selectCover request.range segments.1 request.range.start
  validate (planOf config request selected)
  pure (planOf config request selected)

structure Serves : Prop where
  chain : request.chainId = config.chainId
  capabilities : config.capabilities.withDerivable.containsAll request.required = true
  material : materialCovers shapeId config request = true
  logFields : containsAllFields config.logFields request.logFields = true

def Cuts (segments : List SegmentRecord) : Nat → List (SegmentRecord × BlockRange) → Nat → Prop
  | next, [], top => next = top
  | next, item :: rest, top =>
    item.2.start = next ∧ item.2.last < top ∧ item.1 ∈ segments ∧ item.1.descriptor.range.start ≤
      next ∧ item.2.last ≤ item.1.descriptor.range.last ∧ Cuts segments (item.2.last + 1) rest top

end Plan

variable {shapeId : RawHistoryMaterialProfile → Digest} {config : RetainedHistorySourceConfig}
  {request : RetainedRequest} {requested : BlockRange} {segments : List SegmentRecord}

theorem maxByKey_spec {α : Type} {key : α → Nat} {items : List α} : match maxByKey key items with
    | none => items = []
    | some a => a ∈ items ∧ ∀ b ∈ items, key b ≤ key a := by
  induction items using reverseRecOn with
  | nil => rfl
  | append_singleton items a ih =>
    rw [maxByKey, foldl_append, foldl_cons, foldl_nil]
    rw [maxByKey] at ih
    generalize items.foldl _ none = best at ih ⊢
    cases best with
    | none => simp [show items = [] from ih]
    | some b =>
      obtain ⟨hmem, hle⟩ : b ∈ items ∧ ∀ c ∈ items, key c ≤ key b := ih
      dsimp only
      by_cases hbest : key b ≤ key a
      · rw [if_pos hbest]
        refine ⟨mem_append_right _ (mem_singleton.2 rfl), fun c hc => ?_⟩
        rcases mem_append.1 hc with hc | hc
        · exact (hle c hc).trans hbest
        · rw [mem_singleton.1 hc]
      · rw [if_neg hbest]
        refine ⟨mem_append_left _ hmem, fun c hc => ?_⟩
        rcases mem_append.1 hc with hc | hc
        · exact hle c hc
        · rw [mem_singleton.1 hc]; omega

variable {records : List SegmentRecord} {record : SegmentRecord}

theorem mem_compatibleSegments : record ∈ (compatibleSegments config request records).1 ↔
      containsAllFields config.logFields request.logFields = true ∧ record ∈ records ∧
        compatible config request record = true := by
  rw [compatibleSegments]
  split
  · rename_i h; rw [mem_mergeSort, mem_filter, h]; simp
  · rename_i h; simp [h]

/-- The blocks of the request from `next` on that no range has, as separated ranges. -/
structure Gaps (requested : BlockRange) (ranges : List Range) (next : Nat) (gaps : List BlockRange) :
    Prop where
  inside : ∀ gap ∈ gaps, next ≤ gap.start ∧ gap.last ≤ requested.last
  separated : gaps.Pairwise fun a b => a.last + 1 < b.start
  mem : ∀ block, (∃ gap ∈ gaps, gap.start ≤ block ∧ block ≤ gap.last) ↔
    next ≤ block ∧ block ≤ requested.last ∧ ∀ range ∈ ranges, block ∉ range

variable {ranges : List Range} {next : Nat}

theorem gaps_of_lt (h : requested.last < next) : Gaps requested ranges next [] :=
  ⟨nofun, .nil, fun _ => iff_of_false (fun ⟨_, hgap, _⟩ => nomatch hgap) (by omega)⟩

theorem gapsLoop_spec : ∀ {next : Nat}, requested.start ≤ next → next ≤
    requested.last → (∀ range ∈ ranges, range.start ≤ requested.last) → ranges.Pairwise (fun a b =>
    a.start ≤ b.start) → Gaps requested ranges next (gapsLoop requested next ranges) := by
  have hnew : ∀ {start last : Nat}, start ≤ last → last ≤ requested.last → ∃ gap : BlockRange,
      (new? start last).toList = [gap] ∧ gap.start = start ∧ gap.last = last := by
    intro start last hle hlast
    rw [new?, dif_pos ⟨hle, hlast.trans requested.last_le⟩]; exact ⟨_, rfl, rfl, rfl⟩
  induction ranges with
  | nil =>
    intro next _ hnext _ _
    obtain ⟨gap, hgap, hfst, hlast⟩ := hnew hnext le_rfl
    rw [gapsLoop, if_pos hnext, hgap]
    exact ⟨by simp [hfst, hlast], pairwise_singleton .., by simp [hfst, hlast]⟩
  | cons range ranges ih =>
    intro next _ hnext hbound hsort
    obtain ⟨hfst, hsort⟩ := pairwise_cons.1 hsort
    have hhigh := hbound range mem_cons_self
    have hle := range.start_le_last
    generalize hnext' : max next (min range.last requested.last + 1) = next'
    have hrest : Gaps requested ranges next' (if min range.last requested.last = u64Max then [] else
          if requested.last < next' then [] else gapsLoop requested next' ranges) := by
      split
      · have := requested.last_le; exact gaps_of_lt (by omega)
      · split
        · exact gaps_of_lt ‹_›
        · exact ih (by omega) (by omega) (fun r hr => hbound r (mem_cons_of_mem _ hr)) hsort
    have hgap : ∃ gap : List BlockRange, (if next < max range.start requested.start then
          (new? next (max range.start requested.start - 1)).toList else []) = gap ∧
        gap.Pairwise (fun a b => a.last + 1 < b.start) ∧
        (∀ g ∈ gap, next ≤ g.start ∧ g.last + 1 = range.start) ∧
        ∀ block, (∃ g ∈ gap, g.start ≤ block ∧ block ≤ g.last) ↔ next ≤ block ∧ block < range.start := by
      split
      · obtain ⟨gap, hgap, hfst, hlast⟩ := @hnew next (max range.start requested.start - 1)
          (by omega) (by omega)
        refine ⟨_, hgap, pairwise_singleton .., ?_, fun block => ?_⟩
        · simp [hfst]; omega
        · simp [hfst, hlast]; omega
      · exact ⟨_, rfl, .nil, nofun, fun block => iff_of_false (fun ⟨_, h, _⟩ => nomatch h) (by omega)⟩
    obtain ⟨gap, hgap, hpair, hends, hblocks⟩ := hgap
    have hloop : gapsLoop requested next (range :: ranges) = gap ++
        (if min range.last requested.last = u64Max then [] else
          if requested.last < next' then [] else gapsLoop requested next' ranges) := by
      rw [gapsLoop]
      dsimp only
      rw [hgap, hnext']
      split
      · exact (append_nil _).symm
      · rfl
    rw [hloop]
    refine ⟨fun g hg => ?_, pairwise_append.2 ⟨hpair, hrest.separated, fun a ha b hb => ?_⟩, fun block => ?_⟩
    · rcases mem_append.1 hg with hg | hg
      · have := hends g hg; omega
      · have := hrest.inside g hg; omega
    · have := hends a ha
      have := hrest.inside b hb; omega
    · -- Below the range's end only the blocks before its start are uncovered.
      simp only [mem_append, or_and_right, exists_or, hblocks, hrest.mem, forall_mem_cons]
      have hnone : block < range.start → ∀ r ∈ ranges, block ∉ r := fun hlt r hr hmem =>
        absurd ((hfst r hr).trans hmem.1) (Nat.not_le.2 hlt)
      constructor
      · rintro (⟨h, hlt⟩ | ⟨h, hlast, hout⟩)
        · exact ⟨h, by omega, fun hin => absurd hin.1 (Nat.not_le.2 hlt), hnone hlt⟩
        · exact ⟨by omega, hlast, fun hin => by have := hin.2; omega, hout⟩
      · rintro ⟨h, hlast, hnot, hout⟩
        by_cases hlt : block < range.start
        · exact .inl ⟨h, hlt⟩
        · have := Nat.lt_of_not_le fun hle => hnot ⟨Nat.not_lt.1 hlt, hle⟩
          exact .inr ⟨by omega, hlast, hout⟩

theorem coverageGaps_spec {covered : List Range} :
    Gaps requested covered requested.start (coverageGaps requested covered) := by
  have hsort := @pairwise_mergeSort _ (fun a b : Range => decide (a.start ≤ b.start))
    (by simp; omega) (by simp; omega)
    (covered.filter fun range => requested.start ≤ range.last && range.start ≤ requested.last)
  have hgaps := @gapsLoop_spec requested _ _ le_rfl requested.start_le_last (fun range hrng =>
    by simp at hrng; exact hrng.2.2) (hsort.imp fun h => of_decide_eq_true h)
  refine ⟨hgaps.inside, hgaps.separated, fun block => (hgaps.mem block).trans ?_⟩
  simp only [mem_mergeSort, mem_filter, Bool.and_eq_true, decide_eq_true_iff]
  refine and_congr_right fun hstart => and_congr_right fun hlast => ?_
  exact ⟨fun h range hrng hin => h range ⟨hrng, hstart.trans hin.2, hin.1.trans hlast⟩ hin,
    fun h range hrng => h range hrng.1⟩

theorem coverageGaps_eq_nil {covered : List Range} : coverageGaps requested covered = [] ↔
    ∀ block, requested.start ≤ block → block ≤ requested.last → ∃ range ∈ covered, block ∈ range := by
  have hmem := (@coverageGaps_spec requested covered).mem
  constructor
  · intro h block hstart hlast
    by_contra hout
    obtain ⟨gap, hgap, -⟩ := (hmem block).2 ⟨hstart, hlast, fun range hrng hin =>
      hout ⟨range, hrng, hin⟩⟩
    rw [h] at hgap; cases hgap
  · refine fun h => eq_nil_iff_forall_not_mem.2 fun gap hgap => ?_
    obtain ⟨hstart, hlast, hout⟩ := (hmem gap.start).1 ⟨gap, hgap, Nat.le_refl _, gap.start_le_last⟩
    obtain ⟨range, hrng, hin⟩ := h gap.start hstart hlast; exact hout range hrng hin

/-- The gaps of any covered ranges are the uncovered blocks of the request, as sorted ranges with covered
blocks between them. -/
theorem gaps_are_uncovered (requested : BlockRange) (covered : List Range) :
    (coverageGaps requested covered).Pairwise (fun a b => a.last + 1 < b.start) ∧
    (∀ gap ∈ coverageGaps requested covered,
      requested.start ≤ gap.start ∧ gap.last ≤ requested.last) ∧
    ∀ block, (∃ gap ∈ coverageGaps requested covered, gap.start ≤ block ∧ block ≤ gap.last) ↔
      requested.start ≤ block ∧ block ≤ requested.last ∧ ∀ range ∈ covered, block ∉ range :=
  have h := @coverageGaps_spec requested covered
  ⟨h.separated, h.inside, h.mem⟩

variable {top : Nat}

theorem length_le_of_furthest {next count : Nat} (hnext : next < top)
    (hfurthest : ∀ other ∈ segments, next ∈ other.descriptor.range →
      other.descriptor.range.last ≤ record.descriptor.range.last)
    (hrest : ∀ {other : List (SegmentRecord × BlockRange)} {b : Nat},
      b ≤ min (record.descriptor.range.last + 1) top → Cuts segments b other top →
        count ≤ other.length) :
    ∀ {other : List (SegmentRecord × BlockRange)} {b : Nat}, b ≤ next → Cuts segments b other top →
      count + 1 ≤ other.length := by
  intro other
  induction other with
  | nil =>
    intro b hb hcuts
    have : b = top := hcuts; omega
  | cons item other ih =>
    intro b hb hcuts
    obtain ⟨-, _, hmem, _, _, hcuts⟩ := hcuts
    rw [length_cons]
    by_cases hbelow : item.2.last < next
    · have := ih hbelow hcuts; omega
    · have hle := hfurthest item.1 hmem ⟨by omega, by omega⟩
      exact Nat.succ_le_succ (hrest (by omega) hcuts)

theorem selectCover_spec : ∀ {next : Nat},
    next ≤ requested.last → (∀ block, next ≤ block → block ≤ requested.last → ∃ rcd ∈ segments,
    block ∈ rcd.descriptor.range) → ∃ sel, selectCover requested segments next = .ok sel ∧
    Cuts segments next sel (requested.last + 1) ∧ ∀ {other : List (SegmentRecord × BlockRange)}
    {b : Nat}, b ≤ next → Cuts segments b other (requested.last + 1) → sel.length ≤ other.length := by
  intro next
  induction h : requested.last - next using Nat.strongRecOn generalizing next with
  | ind remaining ih =>
    intro hnext hcov
    have hspec := @maxByKey_spec _ (fun r : SegmentRecord => r.descriptor.range.last)
      (segments.filter fun rcd =>
        rcd.descriptor.range.start ≤ next && next ≤ rcd.descriptor.range.last)
    rw [selectCover]
    cases hrcd : maxByKey (fun r : SegmentRecord => r.descriptor.range.last)
        (segments.filter fun rcd =>
          rcd.descriptor.range.start ≤ next && next ≤ rcd.descriptor.range.last) with
    | none =>
      rw [hrcd] at hspec
      obtain ⟨rcd, hmem, hblock⟩ := hcov next le_rfl hnext
      have hin : rcd ∈ segments.filter fun rcd =>
          rcd.descriptor.range.start ≤ next && next ≤ rcd.descriptor.range.last :=
        mem_filter.2 ⟨hmem, by simp [hblock.1, hblock.2]⟩
      rw [hspec] at hin; cases hin
    | some rcd =>
      rw [hrcd] at hspec
      obtain ⟨hmem, hfurthest⟩ := hspec
      obtain ⟨hmem, hblock⟩ := mem_filter.1 hmem
      rw [Bool.and_eq_true, decide_eq_true_iff, decide_eq_true_iff] at hblock
      have hlast := requested.last_le
      have hreaches : ∀ other ∈ segments, next ∈ other.descriptor.range →
          other.descriptor.range.last ≤ rcd.descriptor.range.last := fun other hother hin =>
        hfurthest other (mem_filter.2 ⟨hother, by simp [hin.1, hin.2]⟩)
      dsimp only
      rw [dif_pos ⟨by omega, by omega⟩]
      by_cases hend : min rcd.descriptor.range.last requested.last = requested.last
      · rw [if_pos hend]
        refine ⟨_, rfl, ⟨rfl, by dsimp only; omega, hmem, hblock.1, by dsimp only; omega, ?_⟩, ?_⟩
        · exact congrArg (· + 1) hend
        · exact length_le_of_furthest (by omega) hreaches fun _ _ => Nat.zero_le _
      · rw [if_neg hend, if_neg (by omega)]
        obtain ⟨sel, hsel, hcuts, hleast⟩ := @ih _ (by omega)
          (min rcd.descriptor.range.last requested.last + 1) rfl (by omega)
          fun block _ => hcov block (by omega)
        rw [hsel]
        refine ⟨_, rfl, ⟨rfl, by dsimp only; omega, hmem, hblock.1, by dsimp only; omega, hcuts⟩, ?_⟩
        exact length_le_of_furthest (by omega) hreaches fun _ => hleast (by omega)

variable {selected : List (SegmentRecord × BlockRange)}

theorem Cuts.mono {other : List SegmentRecord} (hsub : ∀ record ∈ segments, record ∈ other) :
    ∀ {next : Nat}, Cuts segments next selected top → Cuts other next selected top := by
  induction selected with
  | nil => exact fun h => h
  | cons item rest ih =>
    intro next ⟨hnext, hlt, hmem, hstart, hlast, h⟩
    exact ⟨hnext, hlt, hsub _ hmem, hstart, hlast, ih h⟩

theorem Cuts.mem {item : SegmentRecord × BlockRange} (hitem : item ∈ selected) :
    ∀ {next : Nat}, Cuts segments next selected top → item.1 ∈ segments ∧
      item.1.descriptor.range.start ≤ item.2.start ∧ item.2.last ≤ item.1.descriptor.range.last := by
  induction selected with
  | nil => cases hitem
  | cons first rest ih =>
    rintro next ⟨_, -, hmem, _, hlast, h⟩
    rcases mem_cons.1 hitem with rfl | hitem
    · exact ⟨hmem, by omega, hlast⟩
    · exact ih hitem h

theorem Cuts.up : ∀ {next : Nat}, Cuts segments next selected top →
      Tiling.Up (fun chunk : SourceChunk => chunk.range.start) (fun chunk => chunk.range.last) next
        (selected.map (chunkOf request)) top := by
  induction selected with
  | nil => exact fun h => h
  | cons item rest ih =>
    intro next ⟨hnext, _, _, _, _, h⟩; exact ⟨hnext, item.2.start_le_last, ih h⟩

theorem Cuts.validateLoop_eq {sel : List (SegmentRecord × BlockRange)} :
    ∀ {next : Nat}, Cuts segments next sel (requested.last + 1) →
      validateLoop requested (min next u64Max) (sel.map (chunkOf request)) = .ok () := by
  induction sel with
  | nil =>
    intro next h
    obtain rfl : next = requested.last + 1 := h; exact if_pos rfl
  | cons item rest ih =>
    intro next ⟨hnext, htop, _, _, _, h⟩
    have hfit := item.2.start_le_last.trans item.2.last_le
    have hstep : item.2.start = min next u64Max ∧ item.2.last ≤ requested.last := by omega
    rw [map_cons, validateLoop]
    change ensure (item.2.start = min next u64Max ∧ item.2.last ≤ requested.last) _ >>= _ = _
    rw [ensure, if_pos hstep]; exact ih h

theorem contains_foldl_intersection {α : Type} {f : α → CapabilitySet} {cap : Capability}
    {items : List α} : ∀ {start : CapabilitySet},
      (items.foldl (fun set a => set.intersection (f a)) start).contains cap = true →
        ∀ a ∈ items, (f a).contains cap = true := by
  suffices h : ∀ {start : CapabilitySet},
      (items.foldl (fun set a => set.intersection (f a)) start).contains cap = true →
        start.contains cap = true ∧ ∀ a ∈ items, (f a).contains cap = true by
    intro start hall; exact (h hall).2
  induction items with
  | nil => exact fun h => ⟨h, nofun⟩
  | cons a items ih =>
    intro start hall
    obtain ⟨hstart, hrest⟩ := ih hall
    rw [CapabilitySet.contains_intersection] at hstart
    exact ⟨hstart.1, forall_mem_cons.2 ⟨hstart.2, hrest⟩⟩

structure Planned (config : RetainedHistorySourceConfig) (request : RetainedRequest)
    (records : List SegmentRecord) (plan : SourcePlan) : Prop where
  ordered : Tiling.Up (fun chunk : SourceChunk => chunk.range.start) (fun chunk => chunk.range.last)
    request.range.start plan.chunks (request.range.last + 1)
  inside : ∀ chunk ∈ plan.chunks, ∃ record ∈ records, record.id = chunk.segmentId ∧
    compatible config request record = true ∧
    record.descriptor.range.start ≤ chunk.range.start ∧
    chunk.range.last ≤ record.descriptor.range.last ∧
    (∀ capability, plan.supplied.contains capability = true →
      record.descriptor.presentCapabilities.withDerivable.contains capability = true) ∧
    ∀ capability, plan.complete.contains capability = true →
      record.descriptor.completeCapabilities.withDerivable.contains capability = true
  fewest : ∀ other : List (SegmentRecord × BlockRange),
    Cuts (records.filter (compatible config request)) request.range.start other
      (request.range.last + 1) → plan.chunks.length ≤ other.length

def Covered (config : RetainedHistorySourceConfig) (request : RetainedRequest)
    (records : List SegmentRecord) : Prop :=
  ∀ block, request.range.start ≤ block → block ≤ request.range.last →
    ∃ record ∈ records, compatible config request record = true ∧ block ∈ record.descriptor.range

theorem plan_of_covered (hserves : Serves shapeId config request)
    (hcov : Covered config request records) :
    ∃ p, plan shapeId config request records = .ok p ∧ Planned config request records p := by
  have hmem : ∀ rcd, rcd ∈ (compatibleSegments config request records).1 ↔
      rcd ∈ records ∧ compatible config request rcd = true := fun rcd => by
    rw [mem_compatibleSegments]; exact and_iff_right hserves.logFields
  have hblks : ∀ block, request.range.start ≤ block → block ≤ request.range.last →
      ∃ rcd ∈ (compatibleSegments config request records).1, block ∈ rcd.descriptor.range := by
    intro block hstart hlast
    obtain ⟨rcd, hrcd, hcompat, hin⟩ := hcov block hstart hlast
    exact ⟨rcd, (hmem rcd).2 ⟨hrcd, hcompat⟩, hin⟩
  have hgaps : coverageGaps request.range
      ((compatibleSegments config request records).1.map (·.descriptor.range)) = [] := by
    refine coverageGaps_eq_nil.2 fun block hstart hlast => ?_
    obtain ⟨rcd, hrcd, hin⟩ := hblks block hstart hlast
    exact ⟨_, mem_map.2 ⟨rcd, hrcd, rfl⟩, hin⟩
  obtain ⟨sel, hsel, hcuts, hleast⟩ :=
    selectCover_spec request.range.start_le_last hblks
  have hne : sel ≠ [] := by
    rintro rfl
    have : request.range.start = request.range.last + 1 := hcuts
    have := request.range.start_le_last; omega
  have hvalid : validate (planOf config request sel) = .ok () := by
    have hloop := @Cuts.validateLoop_eq request _ _ _ _ hcuts
    rw [Nat.min_eq_left (request.range.start_le_last.trans request.range.last_le)] at hloop
    have hchunks : (planOf config request sel).chunks ≠ [] := by
      simpa [planOf] using hne
    rw [validate, ensure, if_pos hchunks]; exact hloop
  refine ⟨planOf config request sel, ?_, hcuts.up, ?_, fun _ hother => ?_⟩
  · simp only [plan, ensure, if_pos hserves.chain, if_pos hserves.capabilities,
      if_pos hserves.material, if_pos hgaps, hsel, hvalid, ok_bind]
    rfl
  · intro _ hchunk
    obtain ⟨item, hitem, rfl⟩ := mem_map.1 hchunk
    obtain ⟨hrcd, hstart, hlast⟩ := hcuts.mem hitem
    obtain ⟨hrcd, hcompat⟩ := (hmem _).1 hrcd
    exact ⟨item.1, hrcd, rfl, hcompat, hstart, hlast, fun _ h =>
      contains_foldl_intersection h item hitem, fun _ h => contains_foldl_intersection h item hitem⟩
  · change (sel.map _).length ≤ _
    rw [length_map]
    refine hleast le_rfl (hother.mono fun rcd hrcd => ?_)
    exact (hmem rcd).2 (mem_filter.1 hrcd)

/-- A plan exists exactly when the source serves such requests and segments that satisfy the request
cover its blocks. It cuts the request in order into the fewest chunks that segments serve, and declares
only capabilities that every chunk's segment has. -/
theorem plans_cover (shapeId : RawHistoryMaterialProfile → Digest)
    (config : RetainedHistorySourceConfig) (request : RetainedRequest) (records : List SegmentRecord) :
    ((∃ p, plan shapeId config request records = .ok p) ↔
      Serves shapeId config request ∧ Covered config request records) ∧
    ∀ p, plan shapeId config request records = .ok p →
      Planned config request records p := by
  have hneeds : ∀ {p}, plan shapeId config request records = .ok p →
      Serves shapeId config request ∧ Covered config request records := by
    intro p h
    simp only [plan, eq_ok] at h
    obtain ⟨-, hchain, -, hcapabilities, -, hmaterial, -, hgaps, -⟩ := h
    rw [coverageGaps_eq_nil] at hgaps
    have hrecord : ∀ block, request.range.start ≤ block → block ≤ request.range.last →
        ∃ record ∈ (compatibleSegments config request records).1,
          block ∈ record.descriptor.range := by
      intro block hstart hlast
      obtain ⟨range, hrange, hin⟩ := hgaps block hstart hlast
      obtain ⟨record, hrecord, rfl⟩ := mem_map.1 hrange; exact ⟨record, hrecord, hin⟩
    obtain ⟨_, hfirst, -⟩ :=
      hrecord request.range.start le_rfl request.range.start_le_last
    refine ⟨⟨hchain, hcapabilities, hmaterial, (mem_compatibleSegments.1 hfirst).1⟩,
      fun block hstart hlast => ?_⟩
    obtain ⟨record, hmem, hin⟩ := hrecord block hstart hlast
    obtain ⟨-, hmem, hcompatible⟩ := mem_compatibleSegments.1 hmem
    exact ⟨record, hmem, hcompatible, hin⟩
  refine ⟨⟨fun h => h.elim fun _ => hneeds, fun h => ?_⟩, fun p h => ?_⟩
  · obtain ⟨p, h, -⟩ := plan_of_covered h.1 h.2; exact ⟨p, h⟩
  · obtain ⟨_, h', hplanned⟩ := plan_of_covered (hneeds h).1 (hneeds h).2
    rw [h] at h'; cases h'; exact hplanned

def logsSource : RetainedHistorySourceConfig where
  chainId := 1
  materialShape := 0
  capabilities := .of .logs
  logFields := ⟨1⟩
  trust := .untrusted
  verification := .bestEffort
  requiredProfile := .processorReuse
  materialProfile := none

theorem receipts_ordered : 5 ≤ 6 := by
  decide

theorem receipts_le : 6 ≤ u64Max := by
  decide

theorem segment_le : 0 ≤ 9 := by
  decide

def receiptsRequest : RetainedRequest where
  chainId := 1
  range := ⟨5, 6, receipts_ordered, receipts_le⟩
  required := .of .receipts
  logFields := ⟨0⟩
  allowFiltered := false
  filters := .wildcard
  minimumFinality := .finalized
  projection := ⟨[], [], [], []⟩
  verificationPolicy := .bestEffort

def receiptsSegment : SegmentRecord where
  id := "segment"
  descriptor := ⟨1, ⟨0, 9, segment_le⟩, 0, .of .receipts, .of .receipts, .bestEffort, .untrusted⟩
  profile := .processorReuse
  physicalBytes := 10
  firstParentHash := 0

/-- The blocks are covered, and the source refuses what it does not advertise. -/
theorem unadvertised_refused :
    Covered logsSource receiptsRequest [receiptsSegment] ∧
      plan (fun _ => 0) logsSource receiptsRequest [receiptsSegment] =
        .error (.missingMaterial [receiptsRequest.range] 16 32) := by
  refine ⟨fun _ _ hlast => ⟨_, mem_singleton.2 rfl, by decide, ?_⟩, by decide +kernel⟩
  exact ⟨Nat.zero_le _, hlast.trans (by decide)⟩

end Leani.RawHistory.Retained
