import Leani.Filtering.Acceptance

/-!
# Live requests

The request that covers the requirements of several processors, and that each of them accepts the
frames it obtains.
-/

namespace Leani.Filtering

open Library List DataRequirement FilterScope FrameCapabilityReport

structure FilterSet where
  scope : FilterScope
  senders : List Address
  recipients : List Address

namespace FilterSet

def wildcard : FilterSet := ⟨.wildcard, [], []⟩

def effectiveScope (filters : FilterSet) : FilterScope :=
  { filters.scope with
    senders :=
      if filters.scope.senders.isEmpty then filters.senders else filters.scope.senders
    recipients :=
      if filters.scope.recipients.isEmpty then filters.recipients else filters.scope.recipients }

end FilterSet

structure DataRequest where
  chainId : Nat
  range : BlockRange
  required : CapabilitySet
  logFields : LogFieldSet
  allowFiltered : Bool
  filters : FilterSet
  minimumFinality : Finality

inductive LiveStart where
  | head
  | block (block : BlockRef)
  | anchoredOverlap (anchor : BlockRef) (overlapBlocks : Nat)
  | retainedCanonical (canonical : List BlockRef)
  | cursor (blockNumber : Nat)

inductive RuntimeError where
  | invalidConfig (message : String)
  deriving DecidableEq

/-- `BlockRange::new`; a single block number always is a range. -/
def blockRange (start last : Nat) : Except RuntimeError BlockRange :=
  required (BlockRange.new? start last) (.invalidConfig "block range end precedes start")

def LiveStart.range : LiveStart → Except RuntimeError BlockRange
  | .head => blockRange 0 0
  | .block tip => blockRange tip.number tip.number
  | .anchoredOverlap anchor overlapBlocks =>
    blockRange (anchor.number - (overlapBlocks - 1)) anchor.number
  | .retainedCanonical canonical =>
    match canonical.head?, canonical.getLast? with
    | some first, some last => blockRange first.number last.number
    | _, _ =>
      .error (.invalidConfig "retained live start requires a non-empty canonical suffix")
  | .cursor blockNumber => blockRange blockNumber blockNumber

def compileLiveRequest (processors : List (List DataRequirement)) (chainId : Nat)
    (start : LiveStart) : Except RuntimeError DataRequest := do
  let range ← start.range
  let requirements := processors.flatten
  let _ ← required requirements.head?
    (.invalidConfig "live processors require at least one data requirement")
  let allowFiltered := requirements.all (·.allowFiltered)
  let scope := coveringFilterScope (requirements.map (·.filter))
  pure {
    chainId
    range
    required := requirements.foldl (fun all requirement => all.union requirement.capabilities) .none
    logFields := requirements.foldl (fun all requirement => all.union requirement.logFields) .none
    allowFiltered
    filters := if allowFiltered then ⟨scope, scope.senders, scope.recipients⟩ else .wildcard
    minimumFinality := requirements.foldl
      (fun all requirement => max all requirement.minimumFinality) .unattested }

/-- A frame is one the request obtains when it meets its level and checks, has the requested
material and fields, and the filtered components that can supply something requested are complete
for the effective scope. -/
structure DataRequest.Obtains (request : DataRequest) (frame : BlockFrame) : Prop where
  finality : request.minimumFinality ≤ frame.finality
  verified : frame.verification.hasFailures = false
  material : frame.capabilities.satisfies request.required request.allowFiltered = true
  claims : ∀ component scope completeness, frame.claimAt component =
    some (scope, completeness) → (∃ capability, request.required.contains capability = true ∧
    (component = capability ∨ component.derives capability = true)) → completeness ≠ .bestEffort ∧
    scope.coversAt request.filters.effectiveScope frame.block.number = true
  logFields : request.logFields.contains .transactionHash = true → frame.lacksTransactionHash = false
  groups : frame.groupViolation request.required.withDerivable = none

theorem mem_foldl_union {σ τ : Type} {contains : σ → Bool} {union : σ → σ → σ} {f : τ → σ}
    (hunion : ∀ s t, contains (union s t) = true ↔ contains s = true ∨ contains t = true) {x : τ}
    {xs : List τ} : ∀ {s : σ}, contains s = true ∨ x ∈ xs ∧ contains (f x) = true →
      contains (xs.foldl (fun all x => union all (f x)) s) = true := by
  induction xs with
  | nil => exact fun h => h.resolve_right fun hx => nomatch hx.1
  | cons y ys ih =>
    intro s h
    apply ih
    rcases h with h | ⟨hx, h⟩
    · exact .inl ((hunion _ _).2 (.inl h))
    · rcases mem_cons.1 hx with rfl | hx
      · exact .inl ((hunion _ _).2 (.inr h))
      · exact .inr ⟨hx, h⟩

theorem le_foldl_max {τ : Type} {f : τ → Finality} {x : τ} {xs : List τ} : ∀ {level low : Finality},
    low ≤ level ∨ x ∈ xs ∧ low ≤ f x → low ≤ xs.foldl (fun all x => max all (f x)) level := by
  induction xs with
  | nil => exact fun h => h.resolve_right fun hx => nomatch hx.1
  | cons y ys ih =>
    intro level low h
    apply ih
    rcases h with h | ⟨hx, h⟩
    · exact .inl (le_trans h (le_max_left _ _))
    · rcases mem_cons.1 hx with rfl | hx
      · exact .inl (le_trans h (le_max_right _ _))
      · exact .inr ⟨hx, h⟩

theorem wildcard_covers (filter : FilterScope) : wildcard.covers filter = true := by
  rw [covers_iff, coversValues_iff]; exact ⟨nofun, rfl, rfl, rfl, rfl, rfl, rfl⟩

theorem coversAt_trans {scope middle filter : FilterScope} {block : Nat}
    (h : scope.coversAt middle block = true) (hmid : middle.covers filter = true) :
    scope.coversAt filter block = true := by
  rw [coversAt_iff] at *
  intro hblk
  obtain ⟨hscope, hvals⟩ := h (matchesBlock_of_covers hmid hblk)
  exact ⟨hscope, coversValues_trans hvals (coversValues_of_covers hmid)⟩

structure DataRequest.Covers (request : DataRequest) (requirement : DataRequirement) : Prop where
  finality : requirement.minimumFinality ≤ request.minimumFinality
  required : ∀ capability, requirement.capabilities.contains capability = true →
    request.required.contains capability = true
  allowFiltered : request.allowFiltered = true → requirement.allowFiltered = true
  logFields : requirement.logFields.contains .transactionHash = true →
    request.logFields.contains .transactionHash = true
  filter : request.filters.effectiveScope.covers requirement.filter = true

variable {request : DataRequest} {requirement : DataRequirement}

theorem compileLiveRequest_covers {processors : List (List DataRequirement)} {cid : Nat}
    {start : LiveStart} (h : compileLiveRequest processors cid start = .ok request)
    {requirements : List DataRequirement} (hproc : requirements ∈ processors)
 (hrequirement : requirement ∈ requirements) : request.Covers requirement := by
  have hmem := mem_flatten.2 ⟨_, hproc, hrequirement⟩
  simp only [compileLiveRequest, eq_ok] at h
  obtain ⟨_, -, -, -, rfl⟩ := h
  refine ⟨le_foldl_max (.inr ⟨hmem, le_refl _⟩), fun cap hcap => ?_, fun hallow => ?_,
    fun hfld => ?_, ?_⟩
  · exact @mem_foldl_union _ _ (·.contains cap) CapabilitySet.union capabilities (fun _ _ =>
      CapabilitySet.contains_union) _ _ _ (.inr ⟨hmem, hcap⟩)
  · exact all_eq_true.1 hallow requirement hmem
  · exact @mem_foldl_union _ _ (·.contains .transactionHash)
      LogFieldSet.union logFields (fun _ _ => LogFieldSet.contains_union) _ _ _ (.inr ⟨hmem, hfld⟩)
  · split
    · -- The separate lists repeat those of the scope.
      have hcovers := coveringFilterScope_covers (mem_map_of_mem (f := DataRequirement.filter) hmem)
      have heffective : ∀ scope : FilterScope,
          (FilterSet.mk scope scope.senders scope.recipients).effectiveScope = scope := by
        intro scope; simp only [FilterSet.effectiveScope, ite_self]
      rwa [heffective]
    · exact wildcard_covers _

theorem DataRequest.Covers.accepts {frame : BlockFrame} (h : request.Covers requirement)
    (hobtains : request.Obtains frame) : requirement.Accepts frame where
  finality := le_trans h.finality hobtains.finality
  material cap hcap := by
    obtain ⟨src, hsrc, hsup⟩ := satisfies_iff.1 hobtains.material cap (h.required cap hcap)
    refine ⟨src, ?_, hsup⟩
    rw [components] at *
    split at hsrc
    · rename_i hallow; rwa [if_pos (h.allowFiltered hallow)]
    · split
      · exact BlockFrame.contains_present.2 (.inl (BlockFrame.contains_complete.1 hsrc))
      · exact hsrc
  claims _ component scope completeness hclaim hsup := by
    obtain ⟨cap, hcap, hsup⟩ := hsup
    obtain ⟨hcompln, hcovers⟩ := hobtains.claims component scope completeness hclaim
      ⟨cap, h.required cap hcap, hsup⟩
    exact ⟨hcompln, coversAt_trans hcovers h.filter⟩
  verified := hobtains.verified
  logFields hfield := hobtains.logFields (h.logFields hfield)
  groups := BlockFrame.groupViolation_mono
    (fun _ => CapabilitySet.withDerivable_mono h.required) hobtains.groups

/-- A truthful frame that a requirement accepts holds, for each required capability but the block
size, every item of its block that the filter matches; and every processor accepts the frames that
their compiled request obtains. -/
structure FrameAcceptance : Prop where
  sound : ∀ (requirement : DataRequirement) (contents : BlockContents) (frame : BlockFrame),
    BlockFrame.Truthful contents frame → requirement.validateFrame frame = .ok () →
    ∀ capability, requirement.capabilities.contains capability = true → capability ≠ .blockSize →
    ∀ item, capability.asks item = true → contents.Has item →
      item.matchesAt requirement.filter frame.block.number = true →
      frame.Contains requirement.capabilities.withDerivable requirement.logFields item
  blockSize : ∀ (requirement : DataRequirement) (contents : BlockContents) (frame : BlockFrame),
    BlockFrame.Truthful contents frame → requirement.validateFrame frame = .ok () →
    requirement.capabilities.contains .blockSize = true →
      frame.Contains requirement.capabilities.withDerivable requirement.logFields .header ∨
      frame.header.asPresent = none ∧ ∀ t ∈ contents.transactions,
        (BlockItem.transaction t).matchesAt requirement.filter frame.block.number = true →
        frame.Contains requirement.capabilities.withDerivable requirement.logFields (.transaction t)
  accepted : ∀ (processors : List (List DataRequirement)) (chainId : Nat) (start : LiveStart)
    (request : DataRequest) (frame : BlockFrame), compileLiveRequest processors chainId start =
    .ok request → request.Obtains frame → ∀ requirements ∈ processors,
    ∀ requirement ∈ requirements, requirement.validateFrame frame = .ok ()

theorem frame_acceptance : FrameAcceptance where
  sound _ _ _ htruthful h _ hrequired hne _ hasks hitem hmatches :=
    (validateFrame_eq_ok.1 h).contains htruthful hrequired hne hasks hitem hmatches
  blockSize _ _ _ htruthful h hrequired :=
    (validateFrame_eq_ok.1 h).blockSize htruthful hrequired
  accepted _ _ _ _ _ h hobtains _ hprocessor _ hrequirement :=
    validateFrame_eq_ok.2 ((compileLiveRequest_covers h hprocessor hrequirement).accepts hobtains)

def headerlessFrame : BlockFrame where
  block := ⟨1, 1, 0, 0⟩
  finality := .finalized
  header := .missing
  transactions := .complete []
  receipts := .missing
  logs := .missing
  withdrawals := .missing
  blobSidecars := .missing
  traces := .missing
  stateDiffs := .missing
  verification := ⟨.verified, .verified, .verified, .notChecked, .verified, .notChecked, none⟩

def sizeRequirement : DataRequirement :=
  ⟨.of .blockSize, .none, false, .wildcard, .unattested⟩

/-- Transactions stand for the block size, so a frame without the header that has it is accepted. -/
theorem validateFrame_without_size :
    BlockFrame.Truthful ⟨[], [], []⟩ headerlessFrame ∧
    sizeRequirement.validateFrame headerlessFrame = .ok () ∧
    sizeRequirement.capabilities.contains .blockSize = true ∧
    Capability.blockSize.asks .header = true ∧ (⟨[], [], []⟩ : BlockContents).Has .header ∧
    BlockItem.header.matchesAt sizeRequirement.filter headerlessFrame.block.number = true ∧
    ¬ headerlessFrame.Contains sizeRequirement.capabilities.withDerivable
      sizeRequirement.logFields .header := by
  refine ⟨⟨fun component item hcarries hitem hcomplete => ?_,
    fun component item _ _ _ _ hclaim => ?_⟩, by decide, by decide, rfl, trivial,
    rfl, fun ⟨_, h, _⟩ => nomatch h⟩
  · cases component <;> cases hcomplete
    cases item <;> first | exact absurd hcarries Bool.false_ne_true | cases hitem
  · cases component <;> cases hclaim

end Leani.Filtering
