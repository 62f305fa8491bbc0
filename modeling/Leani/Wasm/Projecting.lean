import Leani.Wasm.Frame

/-!
# What guests see of a block

Frames of one block that a projection's requirement accepts show the guest the same transactions and
logs. Receipts keep the order of their logs, withdrawals their own, and a header shows when a source
supplied it: the guest sees one block exactly when the sources agree in these.
-/

namespace Leani.Wasm.Frame

open Library Filtering List BlockFrame FilterScope Projection SourceFrame

structure TrueTransaction where
  envelope : Transaction
  receipt : ReceiptEnvelope

structure TrueBlock where
  chainId : Nat
  block : BlockRef
  header : Header
  transactions : List TrueTransaction
  withdrawals : List Withdrawal

namespace TrueBlock

variable (truth : TrueBlock)

def logs : List (TrueTransaction × Log) :=
  truth.transactions.flatMap fun transaction => transaction.receipt.logs.map (transaction, ·)

structure WellFormed : Prop where
  receipts : ∀ transaction ∈ truth.transactions,
    transaction.receipt.transactionIndex = transaction.envelope.index
  logs : ∀ entry ∈ truth.logs, entry.2.transactionIndex = entry.1.envelope.index
  indexes : (truth.transactions.map fun transaction => transaction.envelope.index).Nodup
  logIndexes : (truth.logs.map fun entry => entry.2.logIndex).Nodup
  withdrawalIndexes : (truth.withdrawals.map Withdrawal.index).Nodup

end TrueBlock

variable (groups : CapabilitySet)

structure HeaderAgrees (given truth : Header) : Prop where
  header : groups.contains .header = true → given.gasLimit = truth.gasLimit ∧
    given.gasUsed = truth.gasUsed ∧ given.baseFeePerGas = truth.baseFeePerGas ∧
      given.blobGasUsed = truth.blobGasUsed ∧ given.excessBlobGas = truth.excessBlobGas
  blockSize : groups.contains .blockSize = true → given.sizeBytes = truth.sizeBytes ∧
    given.transactionCount = truth.transactionCount

structure TransactionAgrees (given truth : Transaction) : Prop where
  identity : given.hash = truth.hash ∧ given.index = truth.index ∧
    given.transactionType = truth.transactionType
  senders : groups.contains .senders = true → given.sender = truth.sender
  body : groups.contains .body = true → given.recipient = truth.recipient ∧
    given.nonce = truth.nonce ∧ given.gasLimit = truth.gasLimit ∧ given.value = truth.value
  calldata : groups.contains .calldata = true → given.input = truth.input
  blobFields : groups.contains .blobFields = true → given.maxFeePerBlobGas =
    truth.maxFeePerBlobGas ∧ given.blobVersionedHashes = truth.blobVersionedHashes

structure ReceiptAgrees (given truth : ReceiptEnvelope) : Prop where
  identity : given.transactionHash = truth.transactionHash ∧
    given.transactionIndex = truth.transactionIndex ∧ given.transactionType = truth.transactionType
  receiptOutcome : groups.contains .receiptOutcome = true → given.success = truth.success ∧
    given.gasUsed = truth.gasUsed ∧ given.effectiveGasPrice = truth.effectiveGasPrice
  blobFields : groups.contains .blobFields = true → given.blobGasUsed = truth.blobGasUsed

structure Holds {α τ : Type} (items : List α) (truths : List τ) (relates : α → τ → Prop)
    (selected : τ → Prop) (key : α → Nat) : Prop where
  genuine : ∀ item ∈ items, ∃ t ∈ truths, relates item t
  all : ∀ t ∈ truths, selected t → ∃ item ∈ items, relates item t
  once : (items.map key).Nodup

def SuppliedBy {α : Type} (material : Filtering.Material α) (supplied : α → FilterScope → Prop) :
    Prop :=
  match material with
  | .missing => True
  | .complete value => supplied value .wildcard
  | .filtered value scope completeness => completeness ≠ .bestEffort ∧ supplied value scope

def Selects (scope : FilterScope) (block : Nat) (transaction : TrueTransaction) : Prop :=
  scope.matchesBlock block = true ∧
    scope.matchesTransaction transaction.envelope.transactionType transaction.envelope.recipient
      transaction.envelope.hash = true ∧
        scope.matchesSender transaction.envelope.sender = true

def SelectsLog (scope : FilterScope) (log : Log) : Prop :=
  scope.matchesLog log.address (log.topics.map Vector.toList) = true

/-- A frame of the block that the projection's requirement accepts: each material is missing,
complete, or filtered to a scope that covers the filter, and the fields of required groups are those
of the block. -/
structure FrameOf (projection : Projection) (truth : TrueBlock) (frame : SourceFrame) : Prop where
  accepted : projection.requirement.validateFrame frame.base = .ok ()
  chainId : frame.chainId = truth.chainId
  block : frame.block = truth.block
  header : ∀ header, frame.header.asPresent = some header →
    HeaderAgrees projection.groups header truth.header
  transactions : SuppliedBy frame.transactions fun items scope =>
    scope.coversAt projection.filter truth.block.number = true ∧
      Holds items truth.transactions
        (fun given t => TransactionAgrees projection.groups given t.envelope)
        (Selects scope truth.block.number) fun given => given.index
  receipts : SuppliedBy frame.receipts fun items scope =>
    scope.coversAt projection.filter truth.block.number = true ∧
      Holds items truth.transactions (fun given t => ReceiptAgrees projection.groups given t.receipt ∧
      Holds given.logs t.receipt.logs Log.Shows (SelectsLog scope) Log.logIndex)
      (Selects scope truth.block.number) ReceiptEnvelope.transactionIndex
  logs : SuppliedBy frame.logs fun items scope =>
    scope.coversAt projection.filter truth.block.number =
      true ∧ Holds items truth.logs (fun given entry => given.Shows entry.2)
      (fun entry => Selects scope truth.block.number entry.1 ∧ SelectsLog scope entry.2) Log.logIndex
  withdrawals : SuppliedBy frame.withdrawals fun items scope =>
    scope.coversAt projection.filter truth.block.number = true ∧
      Holds items truth.withdrawals (fun given withdrawal => given = withdrawal)
        (fun _ => scope.matchesBlock truth.block.number = true) Withdrawal.index

variable {α : Type} {key : α → Nat} {items : List α}

theorem sortBy_eq_of_mem {items' : List α}
    (hnodup : (items.map key).Nodup) (hnodup' : (items'.map key).Nodup)
    (h : ∀ item, item ∈ items ↔ item ∈ items') : sortBy key items = sortBy key items' := by
  have htrans : ∀ a b c : α, decide (key a ≤ key b) = true → decide (key b ≤ key c) = true →
      decide (key a ≤ key c) = true := by
    intro a b c hab _; rw [decide_eq_true_iff] at *; omega
  have htotal : ∀ a b : α, (decide (key a ≤ key b) || decide (key b ≤ key a)) = true := by
    intro a b; rw [Bool.or_eq_true, decide_eq_true_iff, decide_eq_true_iff]; omega
  have hperm : (sortBy key items).Perm (sortBy key items') :=
    (mergeSort_perm _ _).trans (((perm_ext_iff_of_nodup hnodup.of_map hnodup'.of_map).2 h).trans
        (mergeSort_perm _ _).symm)
  refine List.Perm.eq_of_pairwise ?_ (pairwise_mergeSort htrans htotal items)
    (pairwise_mergeSort htrans htotal items') hperm
  intro a b ha hb hab hba
  rw [decide_eq_true_iff] at hab hba
  have ha := (mergeSort_perm _ _).mem_iff.1 ha
  have hb := (h b).2 ((mergeSort_perm _ _).mem_iff.1 hb)
  exact inj_on_of_nodup_map hnodup ha hb (by omega)

theorem mem_sortBy {item : α} : item ∈ sortBy key items ↔ item ∈ items :=
  (mergeSort_perm _ _).mem_iff

theorem Holds.mem_iff {τ β : Type} {truths : List τ} {relates : α → τ → Prop}
    {sel : τ → Prop} (h : Holds items truths relates sel key)
    {keep : α → Bool} {keepTrue : τ → Bool} {view : α → β} {viewTrue : τ → β}
    (hshows : ∀ item ∈ items, ∀ t ∈ truths, relates item t →
      keep item = keepTrue t ∧ (keepTrue t = true → view item = viewTrue t))
    (hsel : ∀ t ∈ truths, keepTrue t = true → sel t) (x : β) :
    x ∈ (items.filter keep).map view ↔ x ∈ (truths.filter keepTrue).map viewTrue := by
  simp only [mem_map, mem_filter]
  constructor
  · rintro ⟨item, ⟨hitem, hkeep⟩, rfl⟩
    obtain ⟨t, ht, hshow⟩ := h.genuine item hitem
    obtain ⟨hsame, hview⟩ := hshows item hitem t ht hshow
    rw [hsame] at hkeep; exact ⟨t, ⟨ht, hkeep⟩, (hview hkeep).symm⟩
  · rintro ⟨t, ⟨ht, hkeep⟩, rfl⟩
    obtain ⟨item, hitem, hshow⟩ := h.all t ht (hsel t ht hkeep)
    obtain ⟨hsame, hview⟩ := hshows item hitem t ht hshow
    exact ⟨item, ⟨hitem, by rw [hsame]; exact hkeep⟩, hview hkeep⟩

structure Projection.Checked (projection : Projection) : Prop where
  blockRange : projection.filter.blockRange = none
  transactionHashes : projection.filter.transactionHashes = []
  transactions : projection.filter.constrainsTransactions = true →
    transactionGroups.any projection.has = true
  senders : projection.filter.senders ≠ [] → projection.has .senders = true
  recipients : projection.filter.recipients ≠ [] → projection.has .body = true
  logTransactionHash : projection.logTransactionHash = true → projection.has .logs = true
  groups : ∃ declared : CapabilitySet, projection.groups = declared.withDerivable ∧
    projection.capabilities = if declared = .none then .of .header else declared

theorem checked_of_new {requires : Guest.Requirements} {proj : Projection}
    (h : new requires = .ok proj) : proj.Checked := by
  simp only [new, bind_eq_ok, ensure_eq_ok] at h
  obtain ⟨-, htxs, -, hsenders, -, hrecips, -, -, -, hhash, h⟩ := h
  cases pure_eq_ok.1 h; exact ⟨rfl, rfl, htxs, hsenders, hrecips, hhash, _, rfl, rfl⟩

variable {projection : Projection} {truth : TrueBlock} {frame frame' : SourceFrame}

theorem exists_asPresent {mat : Filtering.Material α} (h : mat ≠ .missing) :
    ∃ items, mat.asPresent = some items := by
  cases mat with
  | missing => exact absurd rfl h
  | complete items => exact ⟨items, rfl⟩
  | filtered items scope completeness => exact ⟨items, rfl⟩

section

variable (hchecked : projection.Checked)

include hchecked

variable {scope : FilterScope} {block : Nat}

theorem selects_of_covers
    (hcovers : scope.coversAt projection.filter block = true) {t : TrueTransaction}
    (h : projection.matchesTransaction t.envelope = true) : Selects scope block t := by
  have hblk : projection.filter.matchesBlock block = true := by
    rw [FilterScope.matchesBlock, hchecked.blockRange]; rfl
  obtain ⟨hscope, hvals⟩ := FilterScope.coversAt_iff.1 hcovers hblk
  rw [Projection.matchesTransaction, Bool.and_eq_true] at h
  refine ⟨hscope, ?_, ?_⟩
  · exact @FilterScope.matchesItem_of_coversValues _ _ (.transaction _ _ _) hvals h.1
  · exact @FilterScope.matchesItem_of_coversValues _ _ (.sender _) hvals h.2

theorem selectsLog_of_covers (hcovers : scope.coversAt projection.filter block = true) {log : Log}
    (h : projection.matchesLog log = true) : SelectsLog scope log := by
  have hblk : projection.filter.matchesBlock block = true := by
    rw [matchesBlock, hchecked.blockRange]; rfl
  exact matchesLog_of_coversValues (coversAt_iff.1 hcovers hblk).2 h

theorem matchesTransaction_of_agrees {given true_ : Transaction}
    (h : TransactionAgrees projection.groups given true_) :
    projection.matchesTransaction given = projection.matchesTransaction true_ := by
  have hrecip : listMatches projection.filter.recipients given.recipient =
      listMatches projection.filter.recipients true_.recipient := by
    by_cases hnone : projection.filter.recipients = []
    · rw [hnone]; rfl
    · rw [(h.body (hchecked.recipients hnone)).1]
  have hsender : projection.filter.matchesSender given.sender =
      projection.filter.matchesSender true_.sender := by
    unfold matchesSender
    by_cases hnone : projection.filter.senders = []
    · rw [hnone]; rfl
    · rw [h.senders (hchecked.senders hnone)]
  unfold Projection.matchesTransaction FilterScope.matchesTransaction
  rw [hrecip, hsender, h.identity.1, h.identity.2.2]

omit hchecked in
theorem field_eq {α : Type} {group : Capability} {value value' : Option α}
    (h : projection.groups.contains group = true → value = value') :
    projection.field group value = projection.field group value' := by
  unfold field has
  split
  · rename_i hgrp; exact h hgrp
  · rfl

omit hchecked in
theorem projectTransaction_of_agrees {given true_ : Transaction}
    (h : TransactionAgrees projection.groups given true_) :
    projection.projectTransaction given = projection.projectTransaction true_ := by
  have hblobs : (if projection.has .blobFields then given.blobVersionedHashes else []) =
      if projection.has .blobFields then true_.blobVersionedHashes else [] := by
    split
    · rename_i hgrp; exact (h.blobFields hgrp).2
    · rfl
  unfold projectTransaction
  rw [hblobs, h.identity.1, h.identity.2.1, h.identity.2.2, field_eq h.senders, field_eq h.calldata,
    field_eq fun hgrp => (h.body hgrp).1, field_eq fun hgrp => (h.body hgrp).2.1,
    field_eq fun hgrp => (h.body hgrp).2.2.1, field_eq fun hgrp => (h.body hgrp).2.2.2,
    field_eq fun hgrp => (h.blobFields hgrp).1]

omit hchecked in
theorem projectHeader_of_agrees {given true_ : Header}
    (h : HeaderAgrees projection.groups given true_) :
    projection.projectHeader given = projection.projectHeader true_ := by
  unfold projectHeader
  rw [field_eq fun hgrp => (h.header hgrp).1,
    field_eq fun hgrp => (h.header hgrp).2.1, field_eq fun hgrp => (h.header hgrp).2.2.1,
    field_eq fun hgrp => (h.header hgrp).2.2.2.1, field_eq fun hgrp => (h.header hgrp).2.2.2.2,
    field_eq fun hgrp => (h.blockSize hgrp).1, field_eq fun hgrp => (h.blockSize hgrp).2]

omit hchecked in
theorem projectReceipt_of_agrees {given true_ : ReceiptEnvelope}
    (h : ReceiptAgrees projection.groups given true_) : projection.projectReceipt given =
    { projection.projectReceipt true_ with logs := (projection.projectReceipt given).logs } := by
  unfold projectReceipt
  simp only [h.identity.1, h.identity.2.1, h.identity.2.2,
    field_eq fun hgrp => (h.receiptOutcome hgrp).1, field_eq fun hgrp => (h.receiptOutcome hgrp).2.1,
    field_eq fun hgrp => (h.receiptOutcome hgrp).2.2, field_eq h.blobFields]

section

variable (haccepts : projection.requirement.Accepts frame.base)

include haccepts

theorem exists_supplier {c : Capability} (hhas : projection.has c = true) :
    ∃ src : Capability, src.isComponent = true ∧ (frame.base.isCompleteAt src =
    true ∨ (frame.base.claimAt src).isSome = true) ∧ src.supplies c := by
  obtain ⟨declared, hgroups, hcaps⟩ := hchecked.groups
  rw [has, hgroups, CapabilitySet.contains_withDerivable] at hhas
  obtain ⟨d, hd, hdc⟩ := hhas
  have hne : declared ≠ .none := by
    rintro rfl; rw [CapabilitySet.contains_none] at hd; cases hd
  rw [if_neg hne] at hcaps
  obtain ⟨src, hsrc, hsup⟩ := haccepts.material d (by
    rw [requirement, hcaps]; exact hd)
  have hpres := contains_present.1 hsrc
  have hcomponent := isComponent_of_present hpres
  refine ⟨src, hcomponent, hpres, ?_⟩
  -- A group that a bundle derives derives no other.
  have hleaf : ∀ a b c : Capability, a.derives b = true → b.derives c = true → False := by
    intro a b c hab hbc
    cases a <;> cases b <;> cases hab <;> cases c <;> cases hbc
  have hleaf' : ∀ c : Capability, Capability.derives .blockSize c = true → False := by
    intro c hc
    cases c <;> cases hc
  rcases hdc with rfl | hder
  · exact hsup
  · rcases hsup with rfl | hder' | ⟨-, rfl⟩
    · exact .inr (.inl hder)
    · exact (hleaf _ _ _ hder' hder).elim
    · exact (hleaf' _ hder).elim

theorem transactions_present (hhas : transactionGroups.any projection.has = true) :
    ∃ items, frame.transactions.asPresent = some items := by
  obtain ⟨c, hc, hhas⟩ := any_eq_true.1 hhas
  obtain ⟨src, hcomponent, hpres, hsup⟩ := exists_supplier hchecked haccepts hhas
  have hsrc : src = .transactions := by
    have hc : c = .body ∨ c = .transactions ∨ c = .calldata ∨ c = .senders ∨ c = .blobFields := by
      simpa [transactionGroups] using hc
    rcases hc with rfl | rfl | rfl | rfl | rfl <;> rcases hsup with rfl | h | ⟨-, h⟩ <;>
      first | rfl | cases hcomponent | cases h | (cases src <;> first | rfl | cases h)
  subst hsrc
  refine exists_asPresent fun hmat => ?_
  simp only [isCompleteAt, claimAt, base, mapMaterial, hmat] at hpres
  rcases hpres with h | h <;> cases h

theorem receipts_present (hhas : projection.has .receipts = true ∨
    projection.has .receiptOutcome = true) : ∃ items, frame.receipts.asPresent = some items := by
  obtain ⟨src, hsrc, hpres⟩ : ∃ src : Capability, src = .receipts ∧
      (frame.base.isCompleteAt src = true ∨ (frame.base.claimAt src).isSome = true) := by
    rcases hhas with hhas | hhas
    · obtain ⟨src, hcomponent, hpres, hsup⟩ := exists_supplier hchecked haccepts hhas
      refine ⟨src, ?_, hpres⟩
      rcases hsup with rfl | h | ⟨-, h⟩
      · rfl
      · cases src <;> cases h
      · cases h
    · obtain ⟨src, hcomponent, hpres, hsup⟩ := exists_supplier hchecked haccepts hhas
      refine ⟨src, ?_, hpres⟩
      rcases hsup with rfl | h | ⟨-, h⟩
      · cases hcomponent
      · cases src <;> first | rfl | cases h
      · cases h
  subst hsrc
  refine exists_asPresent fun hmat => ?_
  simp only [isCompleteAt, claimAt, base, hmat] at hpres
  rcases hpres with h | h <;> cases h

theorem logs_present (hhas : projection.has .logs = true) (hnone : frame.logs.asPresent = none) :
    ∃ items, frame.receipts.asPresent = some items := by
  obtain ⟨src, _, hpres, hsup⟩ := exists_supplier hchecked haccepts hhas
  have hlogs : frame.logs = .missing := by
    by_contra hne
    obtain ⟨items, hitems⟩ := exists_asPresent hne; cases hnone.symm.trans hitems
  have hsrc : src = .receipts := by
    rcases hsup with rfl | h | ⟨-, h⟩
    · simp only [isCompleteAt, claimAt, base, hlogs] at hpres
      rcases hpres with h | h <;> cases h
    · cases src <;> first | rfl | cases h
    · cases h
  subst hsrc
  refine exists_asPresent fun hmat => ?_
  simp only [isCompleteAt, claimAt, base, hmat] at hpres
  rcases hpres with h | h <;> cases h

theorem withdrawals_present (hhas : projection.has .withdrawals = true) :
    ∃ items, frame.withdrawals.asPresent = some items := by
  obtain ⟨src, _, hpres, hsup⟩ := exists_supplier hchecked haccepts hhas
  have hsrc : src = .withdrawals := by
    rcases hsup with rfl | h | ⟨-, h⟩
    · rfl
    · cases src <;> cases h
    · cases h
  subst hsrc
  refine exists_asPresent fun hmat => ?_
  simp only [isCompleteAt, claimAt, base, hmat] at hpres
  rcases hpres with h | h <;> cases h

end

end

end Leani.Wasm.Frame
