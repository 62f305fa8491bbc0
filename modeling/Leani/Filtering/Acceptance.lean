import Leani.Filtering.Frames
import Leani.Filtering.Union

/-!
# Accepted frames hold what the processor asked for

`BlockContents` is what a block really holds. A frame is truthful when each component holds what it
claims of them; then a frame that a requirement accepts holds every item the requirement's filter
matches. The request compiled for several processors asks for enough that each accepts its frames.
-/

namespace Leani.Filtering

open Library Capability List Option FilterScope FrameCapabilityReport

structure BlockTransaction where
  hash : TransactionHash
  transactionType : UInt8
  sender : Address
  recipient : Option Address
  logs : List Log
  sidecars : List BlobSidecar
  traces : List Trace

structure BlockContents where
  transactions : List BlockTransaction
  withdrawals : List Withdrawal
  stateDiffs : List StateDiff

inductive BlockItem where
  | header
  | transaction (transaction : BlockTransaction)
  | receipt (transaction : BlockTransaction)
  | log (transaction : BlockTransaction) (log : Log)
  | sidecar (transaction : BlockTransaction) (sidecar : BlobSidecar)
  | trace (transaction : BlockTransaction) (trace : Trace)
  | withdrawal (withdrawal : Withdrawal)
  | stateDiff (stateDiff : StateDiff)

def BlockContents.Has (contents : BlockContents) : BlockItem → Prop
  | .header => True
  | .transaction t | .receipt t => t ∈ contents.transactions
  | .log t log => t ∈ contents.transactions ∧ log ∈ t.logs
  | .sidecar t sidecar => t ∈ contents.transactions ∧ sidecar ∈ t.sidecars
  | .trace t trace => t ∈ contents.transactions ∧ trace ∈ t.traces
  | .withdrawal withdrawal => withdrawal ∈ contents.withdrawals
  | .stateDiff stateDiff => stateDiff ∈ contents.stateDiffs

def BlockTransaction.satisfies (t : BlockTransaction) (scope : FilterScope) : Bool :=
  scope.matchesTransaction t.transactionType t.recipient t.hash && scope.matchesSender (some t.sender)

/-- What sources select: transactions with what belongs to them, logs of selected transactions by
their own fields, and the rest with the block. -/
def BlockItem.matchesAt (scope : FilterScope) (block : Nat) : BlockItem → Bool
  | .header | .withdrawal _ | .stateDiff _ => scope.matchesBlock block
  | .transaction t | .receipt t | .sidecar t _ | .trace t _ =>
    scope.matchesBlock block && t.satisfies scope
  | .log t entry => scope.matchesBlock block && t.satisfies scope &&
    scope.matchesLog entry.address (entry.topics.map Vector.toList)

variable {item : BlockItem}

theorem BlockItem.matchesAt_of_coversAt {scope filter : FilterScope} {block : Nat}
 (h : scope.coversAt filter block = true) (hm : item.matchesAt filter block = true) :
    item.matchesAt scope block = true := by
  have hblk : filter.matchesBlock block = true := by
    cases item with
    | header => exact hm
    | withdrawal w => exact hm
    | stateDiff d => exact hm
    | log t log =>
      simp only [matchesAt, Bool.and_eq_true] at hm; exact hm.1.1
    | transaction t | receipt t | sidecar t s | trace t s =>
      simp only [matchesAt, Bool.and_eq_true] at hm; exact hm.1
  obtain ⟨hscope, hvals⟩ := coversAt_iff.1 h hblk
  have htx : ∀ t : BlockTransaction, t.satisfies filter = true → t.satisfies scope = true := by
    intro t ht
    rw [BlockTransaction.satisfies, Bool.and_eq_true] at *
    have hmatched : filter.matchesItem (.transaction t.transactionType t.recipient t.hash) = true :=
      ht.1
    have hsender : filter.matchesItem (.sender t.sender) = true := ht.2
    exact ⟨matchesItem_of_coversValues hvals hmatched, matchesItem_of_coversValues hvals hsender⟩
  cases item with
  | header => exact hscope
  | withdrawal w => exact hscope
  | stateDiff d => exact hscope
  | log t log =>
    simp only [matchesAt, Bool.and_eq_true] at hm ⊢
    exact ⟨⟨hscope, htx t hm.1.2⟩, matchesLog_of_coversValues hvals hm.2⟩
  | transaction t | receipt t | sidecar t s | trace t s =>
    simp only [matchesAt, Bool.and_eq_true] at hm ⊢; exact ⟨hscope, htx t hm.2⟩

def Capability.carries : Capability → BlockItem → Bool
  | .header, .header => true
  | .transactions, .transaction _ => true
  | .receipts, .receipt _ | .receipts, .log _ _ => true
  | .logs, .log _ _ => true
  | .withdrawals, .withdrawal _ => true
  | .blobSidecars, .sidecar _ _ => true
  | .traces, .trace _ _ => true
  | .stateDiffs, .stateDiff _ => true
  | _, _ => false

def Log.same (log other : Log) : Prop :=
  log.address = other.address ∧ log.topics = other.topics ∧ log.data = other.data ∧
    log.transactionIndex = other.transactionIndex ∧ log.logIndex = other.logIndex

def Log.Shows (given log : Log) : Prop :=
  given.same log ∧ ∀ hash, given.transactionHash = some hash → log.transactionHash = some hash

namespace BlockFrame

variable (frame : BlockFrame)

def Carries : Capability → BlockItem → Prop
  | .header, .header => frame.header.asPresent.isSome
  | .transactions, .transaction t => ∃ e ∈ frame.transactions.asPresent.getD [], e.hash = t.hash
  | .receipts, .receipt t => ∃ r ∈ frame.receipts.asPresent.getD [], r.transactionHash = t.hash
  | .receipts, .log t log => ∃ r ∈ frame.receipts.asPresent.getD [], r.transactionHash = t.hash ∧
    ∃ l ∈ r.logs, l.same log
  | .logs, .log _ log => ∃ l ∈ frame.logs.asPresent.getD [], l.same log
  | .withdrawals, .withdrawal w => w ∈ frame.withdrawals.asPresent.getD []
  | .blobSidecars, .sidecar _ s => s ∈ frame.blobSidecars.asPresent.getD []
  | .traces, .trace _ t => t ∈ frame.traces.asPresent.getD []
  | .stateDiffs, .stateDiff d => d ∈ frame.stateDiffs.asPresent.getD []
  | _, _ => False

def isCompleteAt : Capability → Bool
  | .header => frame.header.isComplete
  | .transactions => frame.transactions.isComplete
  | .receipts => frame.receipts.isComplete
  | .logs => frame.logs.isComplete
  | .withdrawals => frame.withdrawals.isComplete
  | .blobSidecars => frame.blobSidecars.isComplete
  | .traces => frame.traces.isComplete
  | .stateDiffs => frame.stateDiffs.isComplete
  | .consensusFinality => frame.verification.consensusAnchor.isSome
  | _ => false

def claimAt : Capability → Option (FilterScope × Completeness)
  | .header => frame.header.filterClaim
  | .transactions => frame.transactions.filterClaim
  | .receipts => frame.receipts.filterClaim
  | .logs => frame.logs.filterClaim
  | .withdrawals => frame.withdrawals.filterClaim
  | .blobSidecars => frame.blobSidecars.filterClaim
  | .traces => frame.traces.filterClaim
  | .stateDiffs => frame.stateDiffs.filterClaim
  | _ => none

/-- Each component holds what it claims: all items of the block when it is complete, those its scope
matches when it is filtered; a best-effort subset claims nothing. -/
structure Truthful (contents : BlockContents) (frame : BlockFrame) : Prop where
  complete : ∀ component item, component.carries item = true → contents.Has item →
    frame.isCompleteAt component = true → frame.Carries component item
  filtered : ∀ component item scope completeness, component.carries item = true → contents.Has item →
    frame.claimAt component = some (scope, completeness) → completeness ≠ .bestEffort →
    item.matchesAt scope frame.block.number = true → frame.Carries component item

variable {frame}

theorem isPresent_iff {α : Type} {mat : Material α} : mat.isPresent = true ↔
    mat.isComplete = true ∨ mat.filterClaim.isSome = true := by
  cases mat <;> simp [Material.isPresent, Material.isComplete, Material.filterClaim]

variable {c : Capability}

theorem contains_ite_including {p : Bool} {s : CapabilitySet} {d : Capability} : (if p =
    true then s.including d else s).contains c = true ↔ s.contains c = true ∨ p = true ∧ c = d := by
  cases p <;> simp

section Report

variable {α : Type} {report : FrameCapabilityReport} {material : Material α} {c d : Capability}
  {anchored : Bool}

theorem complete_addMaterial : (report.addMaterial material d).complete.contains c = true ↔
    report.complete.contains c = true ∨ material.isComplete = true ∧ c = d :=
  contains_ite_including

theorem present_addMaterial : (report.addMaterial material d).present.contains c = true ↔
    report.present.contains c = true ∨ material.isPresent = true ∧ c = d :=
  contains_ite_including

theorem complete_addAnchor : (report.addAnchor anchored).complete.contains c = true ↔
    report.complete.contains c = true ∨ anchored = true ∧ c = .consensusFinality := by
  cases anchored <;> simp [addAnchor]

theorem present_addAnchor : (report.addAnchor anchored).present.contains c = true ↔
    report.present.contains c = true ∨ anchored = true ∧ c = .consensusFinality := by
  cases anchored <;> simp [addAnchor]

end Report

theorem contains_complete :
    frame.capabilities.complete.contains c = true ↔ frame.isCompleteAt c = true := by
  simp only [capabilities, complete_addAnchor, complete_addMaterial, CapabilitySet.contains_none,
    Bool.false_eq_true, false_or]
  cases c <;> simp [isCompleteAt]

theorem contains_present : frame.capabilities.present.contains c = true ↔
    frame.isCompleteAt c = true ∨ (frame.claimAt c).isSome = true := by
  simp only [capabilities, present_addAnchor, present_addMaterial, CapabilitySet.contains_none,
    Bool.false_eq_true, false_or, isPresent_iff]
  cases c <;> simp [isCompleteAt, claimAt]

theorem mem_filterClaims {claim : FilterScope × Completeness} :
    (c, some claim) ∈ frame.filterClaims ↔ frame.claimAt c = some claim := by
  cases c <;> simp [filterClaims, claimAt, eq_comm]

end BlockFrame

/-- Component `source` supplies the capability; the header supplies the block size. -/
def Capability.supplies (source capability : Capability) : Prop :=
  source = capability ∨ source.derives capability = true ∨ source = .header ∧ capability = .blockSize

theorem FrameCapabilityReport.satisfies_iff {report : FrameCapabilityReport}
    {required : CapabilitySet} {allowFiltered : Bool} :
    report.satisfies required allowFiltered = true ↔ ∀ cap, required.contains cap = true → ∃ src,
        (report.components allowFiltered).contains src = true ∧ src.supplies cap := by
  rw [satisfies, CapabilitySet.containsAll_iff]
  refine forall₂_congr fun cap _ => ?_
  simp only [BlockFrame.contains_ite_including, CapabilitySet.contains_withDerivable]
  constructor
  · rintro (⟨src, hsrc, hder⟩ | ⟨hhdr, rfl⟩)
    · exact ⟨src, hsrc, hder.imp_right .inl⟩
    · exact ⟨.header, hhdr, .inr (.inr ⟨rfl, rfl⟩)⟩
  · rintro ⟨src, hsrc, hsup | hder | ⟨rfl, rfl⟩⟩
    · exact .inl ⟨src, hsrc, .inl hsup⟩
    · exact .inl ⟨src, hsrc, .inr hder⟩
    · exact .inr ⟨hsrc, rfl⟩

namespace DataRequirement

variable {requirement : DataRequirement} {frame : BlockFrame}

theorem validateClaim_eq_ok {block : Nat} {comp : Capability} {scope : FilterScope}
    {completeness : Completeness} :
    requirement.validateClaim block (comp, some (scope, completeness)) = .ok () ↔
      ((∃ cap, requirement.capabilities.contains cap = true ∧
        (comp = cap ∨ comp.derives cap = true)) →
      completeness ≠ .bestEffort ∧ scope.coversAt requirement.filter block = true) := by
  have hdisjoint :
      ((CapabilitySet.of comp).withDerivable.intersection requirement.capabilities = .none) ↔ ¬ ∃ cap, requirement.capabilities.contains cap = true ∧
        (comp = cap ∨ comp.derives cap = true) := by
    rw [CapabilitySet.intersection_eq_none, not_exists]
    refine forall_congr' fun cap => ?_
    simp only [CapabilitySet.contains_withDerivable, CapabilitySet.contains_of, exists_eq_left,
      not_and, ← Bool.not_eq_true]
    exact ⟨fun h hasked hsup => h hsup hasked, fun h hsup hasked => h hasked hsup⟩
  rw [validateClaim]
  split
  · rename_i hnone; exact iff_of_true rfl fun h => absurd h (hdisjoint.1 hnone)
  · rename_i hsome
    rw [hdisjoint, not_not] at hsome; simp only [eq_ok, exists_const, forall_const, hsome]

theorem validateFilteredMaterial_eq_ok : requirement.validateFilteredMaterial frame = .ok () ↔
    ∀ comp scope completeness, frame.claimAt comp = some (scope, completeness) →
      (∃ capability, requirement.capabilities.contains capability = true ∧
        (comp = capability ∨ comp.derives capability = true)) →
      completeness ≠ .bestEffort ∧ scope.coversAt requirement.filter frame.block.number = true := by
  constructor
  · intro h comp scope completeness hclaim
    exact validateClaim_eq_ok.1 (forall_of_foldExcept_eq_ok h _ (BlockFrame.mem_filterClaims.2 hclaim))
  · intro h
    refine foldExcept_eq_ok_of_forall fun claim hclaim => ?_
    obtain ⟨comp, claim⟩ := claim
    cases claim with
    | none => rfl
    | some claim =>
      obtain ⟨scope, completeness⟩ := claim
      exact validateClaim_eq_ok.2 (h comp scope completeness (BlockFrame.mem_filterClaims.1 hclaim))

structure Accepts (requirement : DataRequirement) (frame : BlockFrame) : Prop where
  finality : requirement.minimumFinality ≤ frame.finality
  material : ∀ capability, requirement.capabilities.contains capability = true → ∃ source,
    (frame.capabilities.components requirement.allowFiltered).contains source = true ∧
      source.supplies capability
  claims : requirement.allowFiltered = true → ∀ component scope completeness,
    frame.claimAt component = some (scope, completeness) →
      (∃ capability, requirement.capabilities.contains capability = true ∧
        (component = capability ∨ component.derives capability = true)) →
      completeness ≠ .bestEffort ∧ scope.coversAt requirement.filter frame.block.number = true
  verified : frame.verification.hasFailures = false
  logFields : requirement.logFields.contains .transactionHash = true →
    frame.lacksTransactionHash = false
  groups : frame.groupViolation requirement.capabilities.withDerivable = none

theorem validateFrame_eq_ok : requirement.validateFrame frame = .ok () ↔ requirement.Accepts frame := by
  have hclaims : requirement.validateClaims frame = .ok () ↔ (requirement.allowFiltered = true →
      requirement.validateFilteredMaterial frame = .ok ()) := by
    rw [validateClaims]
    split
    · rename_i h; exact ⟨fun hok _ => hok, fun hok => hok h⟩
    · rename_i h; exact iff_of_true rfl fun hallow => absurd hallow h
  have hgroups : requirement.validateGroups frame = .ok () ↔
      frame.groupViolation requirement.capabilities.withDerivable = none := by
    rw [validateGroups]
    cases frame.groupViolation requirement.capabilities.withDerivable with
    | none => exact iff_of_true rfl rfl
    | some reason => exact iff_of_false nofun nofun
  rw [validateFrame]
  simp only [eq_ok, exists_const, hclaims, hgroups, not_and, Bool.not_eq_true, satisfies_iff,
    validateFilteredMaterial_eq_ok]
  constructor
  · rintro ⟨hfin, hmat, hclaims, hverif, hlogs, hgroups⟩
    exact ⟨hfin, hmat, hclaims, hverif, hlogs, hgroups⟩
  · rintro ⟨hfin, hmat, hclaims, hverif, hlogs, hgroups⟩
    exact ⟨hfin, hmat, hclaims, hverif, hlogs, hgroups⟩

end DataRequirement

structure HeaderEnvelope.Fills (groups : CapabilitySet) (header : HeaderEnvelope) : Prop where
  gas : groups.contains .header = true → header.gasLimit.isSome ∧ header.gasUsed.isSome
  count : groups.contains .body = true → header.transactionCount.isSome
  size : groups.contains .blockSize = true → header.sizeBytes.isSome ∧ header.transactionCount.isSome

structure TransactionEnvelope.Fills (groups : CapabilitySet) (transaction : TransactionEnvelope) :
    Prop where
  body : groups.contains .body = true →
    transaction.nonce.isSome ∧ transaction.gasLimit.isSome ∧ transaction.value.isSome
  calldata : groups.contains .calldata = true → transaction.input.isSome
  senders : groups.contains .senders = true → transaction.sender.isSome
  blobFields : groups.contains .blobFields = true → transaction.transactionType = 3 →
    transaction.blobVersionedHashes ≠ [] ∧ transaction.maxFeePerBlobGas.isSome

structure ReceiptEnvelope.Fills (groups : CapabilitySet) (receipt : ReceiptEnvelope) : Prop where
  outcome : groups.contains .receiptOutcome = true →
    receipt.success.isSome ∧ receipt.gasUsed.isSome ∧ receipt.effectiveGasPrice.isSome
  blobFields : groups.contains .blobFields = true → receipt.transactionType = 3 →
    receipt.blobGasUsed.isSome

namespace BlockFrame

variable {frame : BlockFrame} {groups : CapabilitySet}

theorem groupViolation_eq_none : frame.groupViolation groups = none ↔
    ∀ check ∈ frame.groupChecks groups, check.1 = false := by
  rw [groupViolation, map_eq_none_iff, find?_eq_none]
  exact forall₂_congr fun check _ => by rw [Bool.not_eq_true]

theorem groupViolation_mono {fewer : CapabilitySet}
    (hsub : ∀ c, fewer.contains c = true → groups.contains c = true)
    (h : frame.groupViolation groups = none) : frame.groupViolation fewer = none := by
  have hcheck : ∀ {c : Capability} {lacks : Bool}, (groups.contains c && lacks) = false →
      (fewer.contains c && lacks) = false := by
    intro c lacks hlacks
    rw [Bool.and_eq_false_iff] at *
    refine hlacks.imp_left fun hgroups => ?_
    by_contra hfewer
    rw [Bool.not_eq_false] at hfewer; rw [hsub c hfewer] at hgroups; cases hgroups
  rw [groupViolation_eq_none] at *
  simp only [groupChecks, forall_mem_cons] at h ⊢
  obtain ⟨h₁, h₂, h₃, h₄, h₅, h₆, h₇, h₈, h₉, h₁₀, h₁₁, h₁₂⟩ := h
  exact ⟨hcheck h₁, hcheck h₂, hcheck h₃, hcheck h₄, hcheck h₅, hcheck h₆, hcheck h₇, hcheck h₈,
    hcheck h₉, hcheck h₁₀, hcheck h₁₁, h₁₂⟩

theorem fills_header (h : frame.groupViolation groups = none) {hdr : HeaderEnvelope}
    (hhdr : frame.header.asPresent = some hdr) : hdr.Fills groups := by
  rw [groupViolation_eq_none] at h
  simp only [groupChecks, forall_mem_cons, hhdr, any_some, Bool.and_eq_false_iff,
    Bool.or_eq_false_iff, isNone_eq_false_iff] at h
  obtain ⟨hgas, -, hcount, -, -, -, -, -, -, hsize, hcount', -⟩ := h
  exact ⟨fun hg => hgas.resolve_left (by rw [hg]; exact Bool.noConfusion),
    fun hg => hcount.resolve_left (by rw [hg]; exact Bool.noConfusion),
    fun hg => ⟨hsize.resolve_left (by rw [hg]; exact Bool.noConfusion),
      hcount'.resolve_left (by rw [hg]; exact Bool.noConfusion)⟩⟩

theorem fills_transaction (h : frame.groupViolation groups = none) {tx : TransactionEnvelope}
    (htx : tx ∈ frame.transactions.asPresent.getD []) : tx.Fills groups := by
  have hall : ∀ {c : Capability} {lacks : TransactionEnvelope → Bool},
      (groups.contains c && (frame.transactions.asPresent.getD []).any lacks) = false →
      groups.contains c = true → lacks tx = false := by
    intro c lacks hlacks hc
    rw [hc, Bool.true_and, List.any_eq_false] at hlacks
    exact Bool.not_eq_true _ ▸ hlacks tx htx
  rw [groupViolation_eq_none] at h
  simp only [groupChecks, forall_mem_cons] at h
  obtain ⟨-, hbody, -, hcalldata, hsenders, hblobs, -⟩ := h
  refine ⟨fun hc => ?_, fun hc => ?_, fun hc => ?_, fun hc htype => ?_⟩
  · have := hall hbody hc
    simpa only [Bool.or_eq_false_iff, isNone_eq_false_iff, and_assoc] using this
  · exact isNone_eq_false_iff.1 (hall hcalldata hc)
  · exact isNone_eq_false_iff.1 (hall hsenders hc)
  · have := hall hblobs hc
    simpa only [htype, decide_true, Bool.true_and, Bool.or_eq_false_iff,
      isEmpty_eq_false_iff, isNone_eq_false_iff] using this

theorem fills_receipt (h : frame.groupViolation groups = none) {rcpt : ReceiptEnvelope}
    (hrcpt : rcpt ∈ frame.receipts.asPresent.getD []) : rcpt.Fills groups := by
  have hall : ∀ {c : Capability} {lacks : ReceiptEnvelope → Bool},
      (groups.contains c && frame.receipts.asPresent.any fun rcpts => rcpts.any lacks) =
        false → groups.contains c = true → lacks rcpt = false := by
    intro c lacks hlacks hc
    rw [hc, Bool.true_and] at hlacks
    cases hrcpts : frame.receipts.asPresent with
    | none =>
      rw [hrcpts] at hrcpt; cases hrcpt
    | some rcpts =>
      rw [hrcpts, Option.any_some, List.any_eq_false] at hlacks
      rw [hrcpts] at hrcpt; exact Bool.not_eq_true _ ▸ hlacks rcpt hrcpt
  rw [groupViolation_eq_none] at h
  simp only [groupChecks, forall_mem_cons] at h
  obtain ⟨-, -, -, -, -, -, hblobs, houtc, -⟩ := h
  refine ⟨fun hc => ?_, fun hc htype => ?_⟩
  · have := hall houtc hc
    simpa only [Bool.or_eq_false_iff, isNone_eq_false_iff, and_assoc] using this
  · have := hall hblobs hc
    simpa only [htype, decide_true, Bool.true_and, isNone_eq_false_iff] using this

end BlockFrame

def Capability.asks : Capability → BlockItem → Bool
  | .header, .header | .blockSize, .header => true
  | .body, .transaction _ | .transactions, .transaction _ | .calldata, .transaction _
  | .senders, .transaction _ | .blobFields, .transaction _ => true
  | .receipts, .receipt _ | .receipts, .log _ _ | .receiptOutcome, .receipt _ => true
  | .logs, .log _ _ => true
  | .withdrawals, .withdrawal _ => true
  | .blobSidecars, .sidecar _ _ => true
  | .traces, .trace _ _ => true
  | .stateDiffs, .stateDiff _ => true
  | _, _ => false

def Capability.isComponent : Capability → Bool
  | .header | .transactions | .receipts | .logs | .withdrawals | .blobSidecars | .traces
  | .stateDiffs | .consensusFinality => true
  | _ => false

theorem Capability.carries_of_supplies {src cap : Capability}
    (hcomponent : src.isComponent = true) (h : src.supplies cap)
    (hne : cap ≠ .blockSize) (hasks : cap.asks item = true) : src.carries item = true := by
  rcases h with rfl | hder | ⟨-, rfl⟩
  · cases src <;> first | exact absurd hcomponent Bool.false_ne_true | skip
    all_goals cases item <;> first | rfl | exact absurd hasks Bool.false_ne_true
  · cases src with
    | transactions =>
      cases cap <;> first | exact absurd hder Bool.false_ne_true | skip
      all_goals cases item <;> first
        | rfl
        | exact absurd hasks Bool.false_ne_true
        | exact absurd rfl hne
    | receipts =>
      cases cap <;> first | exact absurd hder Bool.false_ne_true | skip
      all_goals cases item <;> first | rfl | exact absurd hasks Bool.false_ne_true
    | _ => cases cap <;> exact absurd hder Bool.false_ne_true
  · exact absurd rfl hne

namespace BlockFrame

variable {frame : BlockFrame}

theorem isComponent_of_present {c : Capability}
    (h : frame.isCompleteAt c = true ∨ (frame.claimAt c).isSome = true) : c.isComponent = true := by
  cases c <;> first | rfl | (rcases h with h | h <;> cases h)

def Contains (frame : BlockFrame) (groups : CapabilitySet) (fields : LogFieldSet) : BlockItem → Prop
  | .header => ∃ header, frame.header.asPresent = some header ∧ header.Fills groups
  | .transaction t => ∃ e ∈ frame.transactions.asPresent.getD [], e.hash = t.hash ∧ e.Fills groups
  | .receipt t =>
    ∃ r ∈ frame.receipts.asPresent.getD [], r.transactionHash = t.hash ∧ r.Fills groups
  | .log t log => ∃ l, (l ∈ frame.logs.asPresent.getD [] ∨
      ∃ r ∈ frame.receipts.asPresent.getD [], r.transactionHash = t.hash ∧ l ∈ r.logs) ∧
    l.same log ∧ (fields.contains .transactionHash = true → l.transactionHash.isSome)
  | .sidecar _ sidecar => sidecar ∈ frame.blobSidecars.asPresent.getD []
  | .trace _ trace => trace ∈ frame.traces.asPresent.getD []
  | .withdrawal withdrawal => withdrawal ∈ frame.withdrawals.asPresent.getD []
  | .stateDiff stateDiff => stateDiff ∈ frame.stateDiffs.asPresent.getD []

theorem transactionHash_of_mem_logs (h : frame.lacksTransactionHash = false) {l : Log}
    (hl : l ∈ frame.logs.asPresent.getD []) : l.transactionHash.isSome := by
  rw [lacksTransactionHash, Bool.or_eq_false_iff] at h
  cases hlogs : frame.logs.asPresent with
  | none =>
    rw [hlogs] at hl; cases hl
  | some logs =>
    rw [hlogs] at hl
    rw [hlogs, Option.any_some, List.any_eq_false] at h
    exact Option.isNone_eq_false_iff.1 (Bool.not_eq_true _ ▸ h.1 l hl)

theorem transactionHash_of_mem_receipts (h : frame.lacksTransactionHash = false) {l : Log}
    {r : ReceiptEnvelope} (hr : r ∈ frame.receipts.asPresent.getD []) (hl : l ∈ r.logs) :
    l.transactionHash.isSome := by
  rw [lacksTransactionHash, Bool.or_eq_false_iff] at h
  cases hrcpts : frame.receipts.asPresent with
  | none =>
    rw [hrcpts] at hr; cases hr
  | some receipts =>
    rw [hrcpts] at hr
    rw [hrcpts, Option.any_some, List.any_eq_false] at h
    have hlogs := Bool.not_eq_true _ ▸ h.2 r hr
    rw [List.any_eq_false] at hlogs
    exact Option.isNone_eq_false_iff.1 (Bool.not_eq_true _ ▸ hlogs l hl)

theorem contains_of_carries {groups : CapabilitySet} {fields : LogFieldSet} {comp : Capability}
    {item : BlockItem} (hgroups : frame.groupViolation groups = none)
    (hflds : fields.contains .transactionHash = true → frame.lacksTransactionHash = false)
    (h : frame.Carries comp item) : frame.Contains groups fields item := by
  unfold Carries at h
  split at h
  · obtain ⟨hdr, hhdr⟩ := isSome_iff_exists.1 h; exact ⟨hdr, hhdr, fills_header hgroups hhdr⟩
  · obtain ⟨e, he, hhash⟩ := h; exact ⟨e, he, hhash, fills_transaction hgroups he⟩
  · obtain ⟨r, hr, hhash⟩ := h; exact ⟨r, hr, hhash, fills_receipt hgroups hr⟩
  · obtain ⟨r, hr, hhash, l, hl, hsame⟩ := h
    exact ⟨l, .inr ⟨r, hr, hhash, hl⟩, hsame,
      fun hf => transactionHash_of_mem_receipts (hflds hf) hr hl⟩
  · obtain ⟨l, hl, hsame⟩ := h
    exact ⟨l, .inl hl, hsame, fun hf => transactionHash_of_mem_logs (hflds hf) hl⟩
  · exact h
  · exact h
  · exact h
  · exact h
  · exact h.elim

end BlockFrame

namespace DataRequirement

open Leani.Filtering.BlockFrame

variable {requirement : DataRequirement} {frame : BlockFrame} {contents : BlockContents}

theorem present_of_components {c : Capability}
    (h : (frame.capabilities.components requirement.allowFiltered).contains c = true) :
    frame.isCompleteAt c = true ∨
      requirement.allowFiltered = true ∧ (frame.claimAt c).isSome = true := by
  rw [components] at h
  split at h
  · rename_i hallow; exact (contains_present.1 h).imp_right fun hclaim => ⟨hallow, hclaim⟩
  · exact .inl (contains_complete.1 h)

variable {item : BlockItem}

section

variable (h : requirement.Accepts frame) (htruthful : Truthful contents frame)

include h htruthful

theorem Accepts.carries {src cap : Capability} (hreqd : requirement.capabilities.contains cap =
    true) (hpres : (frame.capabilities.components requirement.allowFiltered).contains src = true)
    (hsup : src = cap ∨ src.derives cap = true) (hcarries : src.carries item = true)
    (hitem : contents.Has item) (hmatch : item.matchesAt requirement.filter frame.block.number =
    true) : frame.Carries src item := by
  rcases present_of_components hpres with hcompl | ⟨hallow, hclaim⟩
  · exact htruthful.complete src item hcarries hitem hcompl
  · obtain ⟨⟨scope, completeness⟩, hclaim⟩ := isSome_iff_exists.1 hclaim
    obtain ⟨hcompln, hcovers⟩ := h.claims hallow src scope completeness hclaim ⟨cap, hreqd, hsup⟩
    exact htruthful.filtered src item scope completeness hcarries hitem hclaim hcompln
      (BlockItem.matchesAt_of_coversAt hcovers hmatch)

theorem Accepts.contains {cap : Capability} (hreqd : requirement.capabilities.contains cap = true)
    (hne : cap ≠ .blockSize) (hasks : cap.asks item = true) (hitem : contents.Has item)
    (hmatch : item.matchesAt requirement.filter frame.block.number = true) :
    frame.Contains requirement.capabilities.withDerivable requirement.logFields item := by
  obtain ⟨_, hpres, hsup⟩ := h.material cap hreqd
  have hcomponent := isComponent_of_present ((present_of_components hpres).imp_right And.right)
  have hcarries := carries_of_supplies hcomponent hsup hne hasks
  have hsup := hsup.imp_right fun hder => hder.resolve_right fun hhdr => hne hhdr.2
  apply contains_of_carries h.groups h.logFields
  exact h.carries htruthful hreqd hpres hsup hcarries hitem hmatch

theorem Accepts.blockSize (hreqd : requirement.capabilities.contains .blockSize = true) :
    frame.Contains requirement.capabilities.withDerivable requirement.logFields .header ∨
    frame.header.asPresent = none ∧ ∀ t ∈ contents.transactions,
    (BlockItem.transaction t).matchesAt requirement.filter frame.block.number = true →
    frame.Contains requirement.capabilities.withDerivable requirement.logFields (.transaction t) := by
  cases hhdr : frame.header.asPresent with
  | some header => exact .inl ⟨header, hhdr, fills_header h.groups hhdr⟩
  | none =>
    refine .inr ⟨rfl, fun t ht hmatch => ?_⟩
    obtain ⟨src, hpres, hsup⟩ := h.material _ hreqd
    have hsrc := present_of_components hpres
    apply contains_of_carries h.groups h.logFields
    rcases hsup with rfl | hder | ⟨rfl, -⟩
    · rcases hsrc with hcompl | ⟨-, hclaim⟩
      · cases hcompl
      · cases hclaim
    · have htxs : src = .transactions := by
        cases src <;> first | rfl | cases hder
      subst htxs; exact h.carries htruthful hreqd hpres (.inr hder) rfl ht hmatch
    · -- A header that is complete or makes a claim is there.
      exfalso
      cases hmat : frame.header with
      | complete value =>
        rw [hmat] at hhdr; cases hhdr
      | filtered value scope completeness =>
        rw [hmat] at hhdr; cases hhdr
      | missing =>
        simp only [isCompleteAt, claimAt, hmat] at hsrc
        rcases hsrc with hcompl | ⟨-, hclaim⟩
        · cases hcompl
        · cases hclaim

end

end DataRequirement

end Leani.Filtering
