import Leani.Wasm.Projecting

/-!
# Deriving from the frames of a block

What the processors that derive a delta of one block share: the material of an accepted frame, its
receipts by hash, and a loop over transactions that some scope selected. The loop collects the same
rows from any frame of a block as from the block itself.
-/

namespace Leani.Deltas

open Library Filtering Wasm.Frame List BlockFrame CapabilitySet DataRequirement ReceiptEnvelope SourceFrame

inductive ProcessorError where
  | input (message : String)
  | missingReceipt (message : String) (hash : TransactionHash)
  | invariant (message : String)
  deriving DecidableEq

def validateFrame (requirement : DataRequirement) (frame : SourceFrame) :
    Except ProcessorError Unit :=
  (requirement.validateFrame frame.base).mapError .input

def acceptedMaterial {α : Type} (material : Filtering.Material α) (label : String) :
    Except ProcessorError α :=
  match material with
  | .complete value => .ok value
  | .filtered _ _ .bestEffort => .error (.input s!"{label} projection is only partial")
  | .filtered value _ _ => .ok value
  | .missing => .error (.input s!"{label} material is missing")

def requiredField {α : Type} (value : Option α) (field : String) : Except ProcessorError α :=
  required value (.input s!"{field} is required")

/-- `receipt_map`: the receipts, when no two have one hash. -/
def receiptMap (receipts : List ReceiptEnvelope) : Except ProcessorError (List ReceiptEnvelope) := do
  ensure (receipts.map ReceiptEnvelope.transactionHash).Nodup
    (.invariant "duplicate projected receipt")
  pure receipts

def receiptOf (receipts : List ReceiptEnvelope) (hash : TransactionHash) : Option ReceiptEnvelope :=
  receipts.find? fun receipt => receipt.transactionHash = hash

def checkedMul (left right : Nat) (error : String) : Except ProcessorError Nat := do
  ensure (left * right < 2 ^ 256) (.invariant error)
  pure (left * right)

theorem validateFrame_eq_ok {requirement : DataRequirement} {frame : SourceFrame}
    (h : requirement.validateFrame frame.base = .ok ()) : validateFrame requirement frame = .ok () := by
  rw [validateFrame, h]; rfl

theorem checkedMul_eq_ok {left right product : Nat} {error : String} :
    checkedMul left right error = .ok product ↔ left * right < 2 ^ 256 ∧ left * right = product := by
  simp only [checkedMul, eq_ok, exists_const]

theorem receiptOf_eq_some {rcpts : List ReceiptEnvelope} {rcpt : ReceiptEnvelope}
    (hnodup : (rcpts.map transactionHash).Nodup) (h : rcpt ∈ rcpts) :
    receiptOf rcpts rcpt.transactionHash = some rcpt := by
  cases hfind : receiptOf rcpts rcpt.transactionHash with
  | none =>
    have hnot := find?_eq_none.1 hfind rcpt h; simp at hnot
  | some found =>
    have hmem := mem_of_find?_eq_some hfind
    have hhash : found.transactionHash = rcpt.transactionHash := by
      simpa using find?_some hfind
    rw [inj_on_of_nodup_map hnodup hmem h hhash]

structure Paired (truth : TrueBlock) : Prop where
  receipts : ∀ t ∈ truth.transactions, t.receipt.transactionHash = t.envelope.hash ∧
    t.receipt.transactionIndex = t.envelope.index ∧
      t.receipt.transactionType = t.envelope.transactionType
  indexes : (truth.transactions.map fun t => t.envelope.index).Nodup
  hashes : (truth.transactions.map fun t => t.envelope.hash).Nodup

structure Supplies {α : Type} (projection : Projection) (truth : TrueBlock) (items : List α)
    (relates : FilterScope → α → TrueTransaction → Prop) (key : α → Nat) (scope : FilterScope) :
    Prop where
  covers : scope.coversAt projection.filter truth.block.number = true
  holds : Holds items truth.transactions (relates scope) (Selects scope truth.block.number) key

theorem acceptedMaterial_of_supplied {α : Type} {mat : Filtering.Material α} {supplied : α →
    FilterScope → Prop} (h : SuppliedBy mat supplied) {value : α} (hpres : mat.asPresent = some value)
    (label : String) : acceptedMaterial mat label = .ok value ∧ ∃ scope, supplied value scope := by
  cases mat with
  | missing => cases hpres
  | complete value =>
    cases hpres; exact ⟨rfl, _, h⟩
  | filtered value scope completeness =>
    cases hpres
    obtain ⟨hcompln, hsupp⟩ := h
    refine ⟨?_, scope, hsupp⟩
    cases completeness with
    | bestEffort => exact (hcompln rfl).elim
    | verifiedPredicate => rfl
    | datasetDeclared => rfl

variable {projection : Projection} {truth : TrueBlock} {frame : SourceFrame}

section

variable (hchecked : projection.Checked) (hframe : FrameOf projection truth frame)

include hchecked hframe

theorem exists_header (hhas : projection.has .header = true) : ∃ header : Header,
    acceptedMaterial frame.header "header" = .ok header ∧
      HeaderAgrees projection.groups header truth.header := by
  have haccepts := DataRequirement.validateFrame_eq_ok.1 hframe.accepted
  obtain ⟨src, _, hpres, hsup⟩ := exists_supplier hchecked haccepts hhas
  have hsrc : src = .header := by
    rcases hsup with rfl | h | ⟨-, h⟩
    · rfl
    · cases src <;> cases h
    · cases h
  subst hsrc
  cases hmat : frame.header with
  | missing =>
    simp only [isCompleteAt, claimAt, base, mapMaterial, hmat] at hpres
    rcases hpres with h | h <;> cases h
  | complete header => exact ⟨header, rfl, hframe.header header (by rw [hmat]; rfl)⟩
  | filtered header scope completeness =>
    refine ⟨header, ?_, hframe.header header (by rw [hmat]; rfl)⟩
    obtain ⟨_, hgroups, hcaps⟩ := hchecked.groups
    have hclaim : frame.base.claimAt .header = some (scope, completeness) := by
      simp only [claimAt, base, mapMaterial, hmat]; rfl
    have hreqd : projection.requirement.capabilities.contains .header = true := by
      rw [Projection.has, hgroups, contains_withDerivable] at hhas
      obtain ⟨src, hcontains, hsup⟩ := hhas
      have hsrc : src = .header := by
        rcases hsup with rfl | h
        · rfl
        · cases src <;> cases h
      subst hsrc
      change projection.capabilities.contains .header = true
      rw [hcaps]
      split
      · exact contains_of.2 rfl
      · exact hcontains
    obtain ⟨hcompln, -⟩ := haccepts.claims rfl .header scope completeness hclaim
      ⟨.header, hreqd, .inl rfl⟩
    cases completeness with
    | bestEffort => exact (hcompln rfl).elim
    | verifiedPredicate => rfl
    | datasetDeclared => rfl

theorem exists_transactions (hhas : projection.has .body = true) :
    ∃ items scope, acceptedMaterial frame.transactions "transactions" = .ok items ∧
      Supplies projection truth items
        (fun _ given t => TransactionAgrees projection.groups given t.envelope)
        (fun given => given.index) scope := by
  have haccepts := DataRequirement.validateFrame_eq_ok.1 hframe.accepted
  obtain ⟨items, hitems⟩ := transactions_present hchecked haccepts
    (any_eq_true.2 ⟨.body, mem_cons_self, hhas⟩)
  obtain ⟨hacc, scope, hcovers, hholds⟩ :=
    acceptedMaterial_of_supplied hframe.transactions hitems "transactions"
  exact ⟨items, scope, hacc, hcovers, hholds⟩

theorem exists_receipts (hhas : projection.has .receiptOutcome = true) :
    ∃ items scope, acceptedMaterial frame.receipts "receipts" = .ok items ∧
    Supplies projection truth items (fun _ given t => ReceiptAgrees projection.groups given t.receipt)
    ReceiptEnvelope.transactionIndex scope := by
  have haccepts := DataRequirement.validateFrame_eq_ok.1 hframe.accepted
  obtain ⟨items, hitems⟩ := receipts_present hchecked haccepts (.inr hhas)
  obtain ⟨hacc, scope, hcovers, hholds⟩ :=
    acceptedMaterial_of_supplied hframe.receipts hitems "receipts"
  refine ⟨items, scope, hacc, hcovers, ?_, ?_, hholds.once⟩
  · intro item hitem
    obtain ⟨t, ht, hagree, -⟩ := hholds.genuine item hitem; exact ⟨t, ht, hagree⟩
  · intro t ht hsel
    obtain ⟨item, hitem, hagree, -⟩ := hholds.all t ht hsel; exact ⟨item, hitem, hagree⟩

end

section

variable (hpaired : Paired truth) {receipts : List ReceiptEnvelope} {scope : FilterScope}
  (hreceipts : Supplies projection truth receipts
    (fun _ given t => ReceiptAgrees projection.groups given t.receipt)
    ReceiptEnvelope.transactionIndex scope)

include hpaired hreceipts

theorem Supplies.receipts_nodup : (receipts.map transactionHash).Nodup := by
  refine List.Nodup.map_on ?_ hreceipts.holds.once.of_map
  intro r hr r' hr' hhash
  obtain ⟨t, ht, hagree⟩ := hreceipts.holds.genuine r hr
  obtain ⟨t', ht', hagree'⟩ := hreceipts.holds.genuine r' hr'
  have hsame : t = t' := by
    refine inj_on_of_nodup_map hpaired.hashes ht ht' ?_
    rw [← (hpaired.receipts t ht).1, ← (hpaired.receipts t' ht').1, ← hagree.identity.1,
      ← hagree'.identity.1, hhash]
  subst hsame
  refine inj_on_of_nodup_map hreceipts.holds.once hr hr' ?_
  rw [hagree.identity.2.1, hagree'.identity.2.1]

theorem Supplies.receiptMap_eq : receiptMap receipts = .ok receipts := by
  rw [receiptMap, ensure_of _ (hreceipts.receipts_nodup hpaired)]; rfl

theorem Supplies.exists_receiptOf {t : TrueTransaction} (ht : t ∈ truth.transactions)
    (hsel : Selects scope truth.block.number t) : ∃ rcpt, receiptOf receipts t.envelope.hash =
    some rcpt ∧ ReceiptAgrees projection.groups rcpt t.receipt := by
  obtain ⟨rcpt, hmem, hagree⟩ := hreceipts.holds.all t ht hsel
  refine ⟨rcpt, ?_, hagree⟩
  rw [← (hpaired.receipts t ht).1, ← hagree.identity.1]
  exact receiptOf_eq_some (hreceipts.receipts_nodup hpaired) hmem

end

section

variable {α τ β κ : Type} {items : List α} {truths : List τ} {relates : α → τ → Prop}
  {selected : τ → Prop} {key : α → Nat} {row : α → Except ProcessorError (Option β)}
  {rowTrue : τ → Except ProcessorError (Option β)}

variable {rows : List (Option β)}

theorem nodup_rows {itemKey : α → κ} {rowKey : β → κ} (hkey : ∀ item ∈ items,
    ∀ x, row item = .ok (some x) → rowKey x = itemKey item) (h : items.mapM row = .ok rows)
    (hnodup : (items.map itemKey).Nodup) : ((rows.filterMap id).map rowKey).Nodup := by
  have hsublist : ∀ (items : List α) {rows : List (Option β)},
      (∀ item ∈ items, ∀ x, row item = .ok (some x) → rowKey x = itemKey item) →
        items.mapM row = .ok rows → ((rows.filterMap id).map rowKey).Sublist (items.map itemKey) := by
    intro items
    induction items with
    | nil =>
      intro rows _ h; cases h; exact List.Sublist.refl _
    | cons item items ih =>
      intro rows hkey h
      obtain ⟨answer, _, hans, hrest, rfl⟩ := mapM_cons_eq_ok.1 h
      have htail := ih (forall_mem_cons.1 hkey).2 hrest
      cases answer with
      | none => exact htail.cons _
      | some x =>
        simp only [filterMap_cons, id, map_cons, hkey item mem_cons_self x hans]
        exact htail.cons_cons _
  exact hnodup.sublist (hsublist items hkey h)

variable (hholds : Holds items truths relates selected key)
  (hsame : ∀ item ∈ items, ∀ t ∈ truths, relates item t → row item = rowTrue t)
  (hnone : ∀ t ∈ truths, ¬ selected t → rowTrue t = .ok none)

include hholds hsame hnone

omit hnone in
theorem rows_of_truth {rowsTrue : List (Option β)} (h : truths.mapM rowTrue = .ok rowsTrue) :
    ∃ rows, items.mapM row = .ok rows := by
  apply exists_mapM_eq_ok
  intro item hitem
  obtain ⟨t, ht, hrelates⟩ := hholds.genuine item hitem
  obtain ⟨answer, -, hans⟩ := answer_of_mapM_eq_ok h t ht
  exact ⟨answer, (hsame item hitem t ht hrelates).trans hans⟩

theorem truth_of_rows (h : items.mapM row = .ok rows) :
    ∃ rowsTrue, truths.mapM rowTrue = .ok rowsTrue := by
  apply exists_mapM_eq_ok
  intro t ht
  by_cases hsel : selected t
  · obtain ⟨item, hitem, hrelates⟩ := hholds.all t ht hsel
    obtain ⟨answer, -, hans⟩ := answer_of_mapM_eq_ok h item hitem
    exact ⟨answer, (hsame item hitem t ht hrelates).symm.trans hans⟩
  · exact ⟨none, hnone t ht hsel⟩

variable {rowsTrue : List (Option β)}

theorem mem_rows_iff (h : items.mapM row = .ok rows) (hTrue : truths.mapM rowTrue = .ok rowsTrue)
    (x : β) : x ∈ rows.filterMap id ↔ x ∈ rowsTrue.filterMap id := by
  simp only [mem_filterMap, id, exists_eq_right, mem_of_mapM_eq_ok h, mem_of_mapM_eq_ok hTrue]
  constructor
  · rintro ⟨item, hitem, hrow⟩
    obtain ⟨t, ht, hrelates⟩ := hholds.genuine item hitem
    exact ⟨t, ht, (hsame item hitem t ht hrelates).symm.trans hrow⟩
  · rintro ⟨t, ht, hrow⟩
    by_cases hsel : selected t
    · obtain ⟨item, hitem, hrelates⟩ := hholds.all t ht hsel
      exact ⟨item, hitem, (hsame item hitem t ht hrelates).trans hrow⟩
    · rw [hnone t ht hsel] at hrow; cases hrow

theorem sortBy_rows_eq {rowKey : β → Nat} {itemKey : α → Nat} {trueKey : τ → Nat}
    (hitems : (items.map itemKey).Nodup) (htruths : (truths.map trueKey).Nodup) (hrelated : ∀ item t,
    relates item t → itemKey item = trueKey t) (hkey : ∀ t x, rowTrue t = .ok (some x) → rowKey x =
    trueKey t) (h : items.mapM row = .ok rows) (hTrue : truths.mapM rowTrue = .ok rowsTrue) :
    sortBy rowKey (rows.filterMap id) = sortBy rowKey (rowsTrue.filterMap id) := by
  have hitemKey : ∀ item ∈ items, ∀ x, row item = .ok (some x) → rowKey x = itemKey item := by
    intro item hitem x hx
    obtain ⟨t, ht, hrelates⟩ := hholds.genuine item hitem
    rw [hsame item hitem t ht hrelates] at hx; rw [hkey t x hx, hrelated item t hrelates]
  exact sortBy_eq_of_mem (nodup_rows hitemKey h hitems)
    (nodup_rows (fun t _ x hx => hkey t x hx) hTrue htruths) (mem_rows_iff hholds hsame hnone h hTrue)

end

end Leani.Deltas
