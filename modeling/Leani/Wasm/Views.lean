import Leani.Wasm.Projecting

/-!
# The guest's view of a block

What a frame projects to, told from the block itself: the header when there is one, the receipts and
the withdrawals of the frame, and all else of the block. Two frames of one block show the guest the
same block exactly when these agree.
-/

namespace Leani.Wasm.Frame

open Library Filtering List Option BlockFrame Bool Except FilterScope Log Projection ReceiptEnvelope SourceFrame Withdrawal

variable {projection : Projection} {truth : TrueBlock} {frame frame' : SourceFrame}

theorem SuppliedBy.of_asPresent {α : Type} {mat : Filtering.Material α}
    {supplied : α → FilterScope → Prop} (h : SuppliedBy mat supplied) {value : α}
    (hval : mat.asPresent = some value) : ∃ scope, supplied value scope := by
  cases mat with
  | missing => cases hval
  | complete given =>
    cases hval; exact ⟨_, h⟩
  | filtered given scope completeness =>
    cases hval; exact ⟨scope, h.2⟩

theorem FrameOf.accepts (hfrm : FrameOf projection truth frame) :
    projection.requirement.Accepts frame.base :=
  DataRequirement.validateFrame_eq_ok.1 hfrm.accepted

theorem requiredMaterial_eq {α : Type} {mat : Filtering.Material α} {name : String} {value : α}
    (h : mat.asPresent = some value) : requiredMaterial mat name = .ok value := by
  rw [requiredMaterial, h]; rfl

theorem Holds.sortBy_eq {α τ β : Type} {items : List α} {truths : List τ} {relates : α → τ → Prop}
    {sel : τ → Prop} {key : α → Nat} (h : Holds items truths relates sel key) {keep : α → Bool}
    {keepTrue : τ → Bool} {view : α → β} {viewTrue : τ → β} {keyView : β → Nat} {keyTrue : τ → Nat}
    (hkeys : ∀ item, keyView (view item) = key item) (hkeysTrue : ∀ t, keyView (viewTrue t) =
    keyTrue t) (honce : (truths.map keyTrue).Nodup) (hshows : ∀ item ∈ items, ∀ t ∈ truths,
    relates item t → keep item = keepTrue t ∧ (keepTrue t = true → view item = viewTrue t))
    (hsel : ∀ t ∈ truths, keepTrue t = true → sel t) : sortBy keyView ((items.filter keep).map view) =
    sortBy keyView ((truths.filter keepTrue).map viewTrue) := by
  refine sortBy_eq_of_mem ?_ ?_ (h.mem_iff hshows hsel)
  · have hkeep : ((items.filter keep).map view).map keyView = (items.filter keep).map key := by
      rw [List.map_map]; exact List.map_congr_left fun item _ => hkeys item
    rw [hkeep]; exact h.once.sublist (filter_sublist.map key)
  · have hkeep : ((truths.filter keepTrue).map viewTrue).map keyView =
        (truths.filter keepTrue).map keyTrue := by
      rw [List.map_map]; exact List.map_congr_left fun t _ => hkeysTrue t
    rw [hkeep]; exact honce.sublist (filter_sublist.map keyTrue)

theorem map_eq_of_keys {α β : Type} {key : α → Nat} {view : α → β}
    {items items' : List α} (hkeys : items.map key = items'.map key) (hviews : ∀ a ∈ items,
    ∀ b ∈ items', key a = key b → view a = view b) : items.map view = items'.map view := by
  induction items generalizing items' with
  | nil =>
    cases items' with
    | nil => rfl
    | cons b items' => cases hkeys
  | cons a items ih =>
    cases items' with
    | nil => cases hkeys
    | cons b items' =>
      rw [map_cons, map_cons, cons.injEq] at hkeys
      have hhead := hviews a mem_cons_self b mem_cons_self hkeys.1
      have htail := ih hkeys.2 fun a' ha b' hb =>
        hviews a' (mem_cons_of_mem _ ha) b' (mem_cons_of_mem _ hb)
      rw [map_cons, map_cons, hhead, htail]

variable (projection truth) in
def transactionsView : List Guest.Transaction :=
  sortBy Guest.Transaction.index
    ((truth.transactions.filter fun t => projection.matchesTransaction t.envelope).map
      fun t => projection.projectTransaction t.envelope)

variable (projection truth) in
def transactionsPart : Option (List Guest.Transaction) :=
  if transactionGroups.any projection.has then some (transactionsView projection truth) else none

variable (projection truth) in
def logsView : List Guest.Log :=
  sortBy Guest.Log.logIndex ((truth.logs.filter fun entry =>
    projection.matchesTransaction entry.1.envelope && projection.matchesLog entry.2).map
      fun entry => projection.projectLog entry.2)

variable (projection truth frame) in
def receiptsView : List Guest.Receipt :=
  sortBy Guest.Receipt.transactionIndex (((frame.receipts.asPresent.getD []).filter fun receipt =>
      projection.keptIndex (transactionsPart projection truth) receipt.transactionIndex).map
        projection.projectReceipt)

variable (projection truth frame) in
def view : Guest.Block where
  chainId := truth.chainId
  number := truth.block.number
  hash := truth.block.hash
  parentHash := truth.block.parentHash
  timestamp := truth.block.timestamp
  header := if projection.has .header || projection.has .blockSize then
    frame.header.asPresent.map fun _ => projection.projectHeader truth.header else none
  transactions := transactionsPart projection truth
  receipts := if projection.has .receipts || projection.has .receiptOutcome then
    some (receiptsView projection truth frame) else none
  logs := if projection.has .logs then some (logsView projection truth) else none
  withdrawals := if projection.has .withdrawals then
    some (frame.withdrawals.asPresent.getD []) else none

section

variable (hchecked : projection.Checked)

include hchecked

omit hchecked in
theorem listMatches_of_isEmpty {α : Type} [Ord α] [DecidableEq α] {list : List α}
    {value : Option α} (h : list.isEmpty = true) : listMatches list value = true := by
  rw [listMatches, h, Bool.true_or]

omit hchecked in
theorem matchesTransaction_of_not_constrains (h : projection.filter.constrainsTransactions = false)
    (tx : Transaction) : projection.matchesTransaction tx = true := by
  simp only [constrainsTransactions, or_eq_false_iff, not_eq_false'] at h
  obtain ⟨⟨⟨htypes, hhashes⟩, hsenders⟩, hrecips⟩ := h
  unfold Projection.matchesTransaction FilterScope.matchesTransaction FilterScope.matchesSender
  rw [listMatches_of_isEmpty htypes, listMatches_of_isEmpty hrecips,
    listMatches_of_isEmpty hsenders, hhashes]
  rfl

theorem keptIndex_eq (hwell : truth.WellFormed) {t : TrueTransaction} (ht : t ∈ truth.transactions) :
    projection.keptIndex (transactionsPart projection truth) t.envelope.index =
      projection.matchesTransaction t.envelope := by
  cases hconstr : projection.filter.constrainsTransactions with
  | false =>
    rw [matchesTransaction_of_not_constrains hconstr]
    unfold keptIndex
    split
    · rw [hconstr]; rfl
    · rfl
  | true =>
    rw [transactionsPart, if_pos (hchecked.transactions hconstr), Projection.keptIndex,
      hconstr, Bool.not_true, Bool.false_or, Bool.eq_iff_iff, List.any_eq_true]
    constructor
    · rintro ⟨_, hshown, hindex⟩
      obtain ⟨_, ht', rfl⟩ := mem_map.1 (mem_sortBy.1 hshown)
      obtain ⟨ht', hmatch⟩ := mem_filter.1 ht'
      have hsame := inj_on_of_nodup_map hwell.indexes ht' ht (of_decide_eq_true hindex)
      rw [← hsame]; exact hmatch
    · intro hmatch
      have hmem : t ∈ truth.transactions.filter
          fun t => projection.matchesTransaction t.envelope := mem_filter.2 ⟨ht, hmatch⟩
      exact ⟨projection.projectTransaction t.envelope,
        mem_sortBy.2 (mem_map.2 ⟨t, hmem, rfl⟩), decide_eq_true rfl⟩

theorem transactions_eq (hwell : truth.WellFormed) (hfrm : FrameOf projection truth frame) :
    part (transactionGroups.any projection.has)
        ((projection.transactions frame).map (sortBy Guest.Transaction.index)) =
      .ok (transactionsPart projection truth) := by
  rw [part, transactionsPart]
  split
  · rename_i hasked
    obtain ⟨items, hitems⟩ := transactions_present hchecked hfrm.accepts hasked
    obtain ⟨_, hcovers, hholds⟩ := hfrm.transactions.of_asPresent hitems
    have hsort : sortBy Guest.Transaction.index
        ((items.filter projection.matchesTransaction).map projection.projectTransaction) =
          transactionsView projection truth := by
      refine hholds.sortBy_eq (fun _ => rfl) (fun _ => rfl) hwell.indexes ?_ ?_
      · intro _ _ t ht hagree
        exact ⟨matchesTransaction_of_agrees hchecked hagree,
          fun _ => projectTransaction_of_agrees hagree⟩
      · intro t ht hmatch; exact selects_of_covers hchecked hcovers hmatch
    rw [Projection.transactions, requiredMaterial_eq hitems]
    exact congrArg (fun sorted => Except.ok (some sorted)) hsort
  · rfl

omit hchecked in
theorem projectLog_of_shows {given log : Log}
    (hhash : projection.logTransactionHash = true → given.transactionHash.isSome)
    (h : given.Shows log) : projection.projectLog given = projection.projectLog log := by
  obtain ⟨⟨haddr, htopics, hdata, htx, hindex⟩, htells⟩ := h
  have hhashes : (if projection.logTransactionHash then given.transactionHash else none) =
      if projection.logTransactionHash then log.transactionHash else none := by
    split
    · rename_i hasked
      obtain ⟨hash, hgiven⟩ := isSome_iff_exists.1 (hhash hasked); rw [hgiven, htells hash hgiven]
    · rfl
  unfold projectLog; rw [haddr, htopics, hdata, htx, hindex, hhashes]

omit hchecked in
theorem FrameOf.hashed (hfrm : FrameOf projection truth frame)
    (hasked : projection.logTransactionHash = true) : frame.base.lacksTransactionHash = false := by
  refine hfrm.accepts.logFields ?_
  rw [requirement, if_pos hasked]
  exact (by decide : (⟨LogField.transactionHash.bit⟩ : LogFieldSet).contains .transactionHash = true)

omit hchecked in
theorem matchesLog_of_shows {given log : Log} (h : given.Shows log) :
    projection.matchesLog given = projection.matchesLog log := by
  rw [Projection.matchesLog, Projection.matchesLog, h.1.1, h.1.2.1]

omit hchecked in
theorem mem_truthLogs {entry : TrueTransaction × Log} :
    entry ∈ truth.logs ↔ entry.1 ∈ truth.transactions ∧ entry.2 ∈ entry.1.receipt.logs := by
  obtain ⟨t, log⟩ := entry
  simp only [TrueBlock.logs, List.mem_flatMap, List.mem_map, Prod.mk.injEq]
  constructor
  · rintro ⟨_, ht, _, hlog, rfl, rfl⟩; exact ⟨ht, hlog⟩
  · rintro ⟨ht, hlog⟩; exact ⟨t, ht, log, hlog, rfl, rfl⟩

omit hchecked in
theorem holds_receiptLogs (hwell : truth.WellFormed) {rcpts : List ReceiptEnvelope}
    {scope : FilterScope} (h : Holds rcpts truth.transactions
      (fun given t => ReceiptAgrees projection.groups given t.receipt ∧
        Holds given.logs t.receipt.logs Log.Shows (SelectsLog scope) logIndex)
      (Selects scope truth.block.number) transactionIndex) :
    Holds (rcpts.flatMap logs) truth.logs (fun given entry => given.Shows entry.2)
      (fun entry => Selects scope truth.block.number entry.1 ∧ SelectsLog scope entry.2)
      logIndex := by
  -- Each log of a receipt is one of its transaction.
  have hgenuine : ∀ rcpt ∈ rcpts, ∀ given ∈ rcpt.logs, ∃ entry ∈ truth.logs,
      given.Shows entry.2 ∧ entry.1.envelope.index = rcpt.transactionIndex := by
    intro rcpt hrcpt given hgiven
    obtain ⟨t, ht, hagree, hlogs⟩ := h.genuine rcpt hrcpt
    obtain ⟨log, hlog, hshows⟩ := hlogs.genuine given hgiven
    refine ⟨(t, log), mem_truthLogs.2 ⟨ht, hlog⟩, hshows, ?_⟩
    rw [hagree.identity.2.1, hwell.receipts t ht]
  constructor
  · intro given hgiven
    obtain ⟨rcpt, hrcpt, hgiven⟩ := mem_flatMap.1 hgiven
    obtain ⟨entry, hentry, hshows, -⟩ := hgenuine rcpt hrcpt given hgiven
    exact ⟨entry, hentry, hshows⟩
  · rintro entry hentry ⟨hselects, hselectsLog⟩
    obtain ⟨ht, hlog⟩ := mem_truthLogs.1 hentry
    obtain ⟨rcpt, hrcpt, -, hlogs⟩ := h.all entry.1 ht hselects
    obtain ⟨given, hgiven, hshows⟩ := hlogs.all entry.2 hlog hselectsLog
    exact ⟨given, mem_flatMap.2 ⟨rcpt, hrcpt, hgiven⟩, hshows⟩
  · rw [map_flatMap, nodup_flatMap]
    constructor
    · intro rcpt hrcpt
      obtain ⟨t, ht, -, hlogs⟩ := h.genuine rcpt hrcpt; exact hlogs.once
    · have hindexes := pairwise_map.1 h.once
      refine hindexes.imp_of_mem fun {rcpt rcpt'} hrcpt hrcpt' hne => ?_
      intro index hidx hidx'
      obtain ⟨given, hgiven, rfl⟩ := mem_map.1 hidx
      obtain ⟨given', hgiven', hsame⟩ := mem_map.1 hidx'
      obtain ⟨entry, hentry, hshows, howner⟩ := hgenuine rcpt hrcpt given hgiven
      obtain ⟨entry', hentry', hshows', howner'⟩ := hgenuine rcpt' hrcpt' given' hgiven'
      have hentries : entry = entry' := by
        refine inj_on_of_nodup_map hwell.logIndexes hentry hentry' ?_
        rw [← hshows.1.2.2.2.2, ← hshows'.1.2.2.2.2, hsame]
      rw [← howner, ← howner', hentries] at hne; exact hne rfl

theorem sortBy_logs_eq (hwell : truth.WellFormed) {items : List Log} {scope : FilterScope}
    (hcovers : scope.coversAt projection.filter truth.block.number = true)
    (hholds : Holds items truth.logs (fun given entry => given.Shows entry.2)
      (fun entry => Selects scope truth.block.number entry.1 ∧ SelectsLog scope entry.2)
      logIndex)
    (hhashed : projection.logTransactionHash = true → ∀ log ∈ items, log.transactionHash.isSome) :
    sortBy Guest.Log.logIndex (((items.filter fun log =>
        projection.keptIndex (transactionsPart projection truth) log.transactionIndex).filter
          projection.matchesLog).map projection.projectLog) = logsView projection truth := by
  rw [List.filter_filter]
  refine hholds.sortBy_eq (fun _ => rfl) (fun _ => rfl) hwell.logIndexes ?_ ?_
  · intro given hgiven entry hentry hshows
    obtain ⟨ht, -⟩ := mem_truthLogs.1 hentry
    constructor
    · rw [hshows.1.2.2.2.1, hwell.logs entry hentry, keptIndex_eq hchecked hwell ht,
        matchesLog_of_shows hshows, Bool.and_comm]
    · intro hmatch; exact projectLog_of_shows (fun hasked => hhashed hasked given hgiven) hshows
  · intro entry hentry hmatch
    rw [and_eq_true] at hmatch
    exact ⟨selects_of_covers hchecked hcovers hmatch.1,
      selectsLog_of_covers hchecked hcovers hmatch.2⟩

theorem logs_eq (hwell : truth.WellFormed) (hfrm : FrameOf projection truth frame) :
    part (projection.has .logs) (projection.logs frame
        (projection.keptIndex (transactionsPart projection truth))) =
      .ok (if projection.has .logs then some (logsView projection truth) else none) := by
  rw [part]
  split
  · rename_i hasked
    cases hlogs : frame.logs.asPresent with
    | some items =>
      obtain ⟨scope, hcovers, hholds⟩ := hfrm.logs.of_asPresent hlogs
      have hsort := sortBy_logs_eq hchecked hwell hcovers hholds fun hhash log hlog =>
        transactionHash_of_mem_logs (hfrm.hashed hhash) (by
          rw [base, hlogs]; exact hlog)
      rw [Projection.logs, Projection.sourceLogs, hlogs]
      exact congrArg (fun sorted => Except.ok (some sorted)) hsort
    | none =>
      obtain ⟨rcpts, hrcpts⟩ := logs_present hchecked hfrm.accepts hasked hlogs
      obtain ⟨scope, hcovers, hholds⟩ := hfrm.receipts.of_asPresent hrcpts
      have hsort := sortBy_logs_eq hchecked hwell hcovers (holds_receiptLogs hwell hholds)
        fun hhash log hlog => by
          obtain ⟨_, hrcpt, hlog⟩ := mem_flatMap.1 hlog
          refine transactionHash_of_mem_receipts (hfrm.hashed hhash) ?_ hlog
          rw [base, hrcpts]; exact hrcpt
      rw [Projection.logs, Projection.sourceLogs, hlogs]
      simp only [requiredMaterial_eq hrcpts]; exact congrArg (fun sorted => ok (some sorted)) hsort
  · rfl

theorem receipts_eq (hfrm : FrameOf projection truth frame) :
    part (projection.has .receipts || projection.has .receiptOutcome) (projection.receipts frame
        (projection.keptIndex (transactionsPart projection truth))) =
      .ok (if projection.has .receipts || projection.has .receiptOutcome then
        some (receiptsView projection truth frame) else none) := by
  rw [part]
  split
  · rename_i hasked
    obtain ⟨_, hitems⟩ :=
      receipts_present hchecked hfrm.accepts ((Bool.or_eq_true _ _).mp hasked)
    rw [Projection.receipts, receiptsView, requiredMaterial_eq hitems, hitems]; rfl
  · rfl

theorem withdrawals_eq (hfrm : FrameOf projection truth frame) : part (projection.has .withdrawals)
    (requiredMaterial frame.withdrawals "withdrawals") = .ok (if projection.has .withdrawals then
        some (frame.withdrawals.asPresent.getD []) else none) := by
  rw [part]
  split
  · rename_i hasked
    obtain ⟨_, hitems⟩ := withdrawals_present hchecked hfrm.accepts hasked
    rw [requiredMaterial_eq hitems, hitems]; rfl
  · rfl

omit hchecked in
theorem header_eq (hfrm : FrameOf projection truth frame) :
    frame.header.asPresent.map projection.projectHeader =
      frame.header.asPresent.map fun _ => projection.projectHeader truth.header := by
  cases hhdr : frame.header.asPresent with
  | none => rfl
  | some header => exact congrArg some (projectHeader_of_agrees (hfrm.header header hhdr))

theorem project_eq_view (hwell : truth.WellFormed) (hfrm : FrameOf projection truth frame) :
    projection.project frame = .ok (view projection truth frame) := by
  rw [project, transactions_eq hchecked hwell hfrm]
  simp only [ok_bind]
  rw [receipts_eq hchecked hfrm, logs_eq hchecked hwell hfrm, withdrawals_eq hchecked hfrm,
    header_eq hfrm, hfrm.chainId, hfrm.block]
  rfl

end

def SameLogOrder (projection : Projection) (truth : TrueBlock) (frame frame' : SourceFrame) : Prop :=
  ∀ t ∈ truth.transactions, projection.matchesTransaction t.envelope = true →
    ∀ receipt ∈ frame.receipts.asPresent.getD [], ∀ receipt' ∈ frame'.receipts.asPresent.getD [],
      receipt.transactionIndex = t.envelope.index → receipt'.transactionIndex = t.envelope.index →
        (receipt.logs.filter projection.matchesLog).map Log.logIndex =
          (receipt'.logs.filter projection.matchesLog).map Log.logIndex

/-- Where two frames can show a guest one block apart: whether a header is there, in which order
receipts hold their logs, and in which order withdrawals come. -/
structure SameView (projection : Projection) (truth : TrueBlock) (frame frame' : SourceFrame) :
    Prop where
  header : projection.has .header = true ∨ projection.has .blockSize = true →
    frame.header.isPresent = frame'.header.isPresent
  receipts : projection.has .receipts = true → SameLogOrder projection truth frame frame'
  withdrawals : projection.has .withdrawals = true →
    (frame.withdrawals.asPresent.getD []).map Withdrawal.index =
      (frame'.withdrawals.asPresent.getD []).map Withdrawal.index

theorem SameLogOrder.symm (h : SameLogOrder projection truth frame frame') :
    SameLogOrder projection truth frame' frame := by
  intro t ht hmatch rcpt hrcpt rcpt' hrcpt' hidx hidx'
  exact (h t ht hmatch rcpt' hrcpt' rcpt hrcpt hidx' hidx).symm

theorem FrameOf.receipt_genuine (hwell : truth.WellFormed) (hfrm : FrameOf projection truth frame)
    {rcpt : ReceiptEnvelope} (hrcpt : rcpt ∈ frame.receipts.asPresent.getD []) :
    ∃ t ∈ truth.transactions, ReceiptAgrees projection.groups rcpt t.receipt ∧ rcpt.transactionIndex =
    t.envelope.index ∧ ∀ given ∈ rcpt.logs, ∃ log ∈ t.receipt.logs, given.Shows log := by
  cases hrcpts : frame.receipts.asPresent with
  | none =>
    rw [hrcpts] at hrcpt; cases hrcpt
  | some items =>
    rw [hrcpts] at hrcpt
    obtain ⟨_, -, hholds⟩ := hfrm.receipts.of_asPresent hrcpts
    obtain ⟨t, ht, hagree, hlogs⟩ := hholds.genuine rcpt hrcpt
    exact ⟨t, ht, hagree, hagree.identity.2.1.trans (hwell.receipts t ht), hlogs.genuine⟩

theorem FrameOf.receipt_once (hfrm : FrameOf projection truth frame) :
    ((frame.receipts.asPresent.getD []).map ReceiptEnvelope.transactionIndex).Nodup := by
  cases hrcpts : frame.receipts.asPresent with
  | none => exact nodup_nil
  | some items =>
    obtain ⟨_, -, hholds⟩ := hfrm.receipts.of_asPresent hrcpts; exact hholds.once

theorem projectLog_eq_of_logIndex (hwell : truth.WellFormed)
    (hfrm : FrameOf projection truth frame) (hfrm' : FrameOf projection truth frame')
    {rcpt rcpt' : ReceiptEnvelope} (hrcpt : rcpt ∈ frame.receipts.asPresent.getD [])
    (hrcpt' : rcpt' ∈ frame'.receipts.asPresent.getD []) {log log' : Log}
    (hlog : log ∈ rcpt.logs) (hlog' : log' ∈ rcpt'.logs) (hidx : log.logIndex = log'.logIndex) :
    projection.projectLog log = projection.projectLog log' := by
  obtain ⟨t, ht, -, -, hlogs⟩ := hfrm.receipt_genuine hwell hrcpt
  obtain ⟨t', ht', -, -, hlogs'⟩ := hfrm'.receipt_genuine hwell hrcpt'
  obtain ⟨told, htold, hshows⟩ := hlogs log hlog
  obtain ⟨told', htold', hshows'⟩ := hlogs' log' hlog'
  have hsame : (t, told) = (t', told') := by
    refine inj_on_of_nodup_map hwell.logIndexes (mem_truthLogs.2 ⟨ht, htold⟩)
      (mem_truthLogs.2 ⟨ht', htold'⟩) ?_
    rw [← hshows.1.2.2.2.2, ← hshows'.1.2.2.2.2, hidx]
  have hhash := fun hasked => transactionHash_of_mem_receipts (hfrm.hashed hasked) hrcpt hlog
  have hhash' := fun hasked => transactionHash_of_mem_receipts (hfrm'.hashed hasked) hrcpt' hlog'
  rw [projectLog_of_shows hhash hshows, projectLog_of_shows hhash' hshows', (Prod.mk.inj hsame).2]

section

variable (hchecked : projection.Checked) (hwell : truth.WellFormed)

include hchecked hwell

theorem mem_receiptsView (hfrm : FrameOf projection truth frame) {shown : Guest.Receipt} :
    shown ∈ receiptsView projection truth frame ↔ ∃ t ∈ truth.transactions,
      projection.matchesTransaction t.envelope = true ∧ ∃ rcpt ∈ frame.receipts.asPresent.getD [],
          rcpt.transactionIndex = t.envelope.index ∧ projection.projectReceipt rcpt = shown := by
  rw [receiptsView, mem_sortBy, List.mem_map]
  constructor
  · rintro ⟨rcpt, hrcpt, rfl⟩
    obtain ⟨hrcpt, hkept⟩ := mem_filter.1 hrcpt
    obtain ⟨t, ht, -, hindex, -⟩ := hfrm.receipt_genuine hwell hrcpt
    rw [hindex, keptIndex_eq hchecked hwell ht] at hkept
    exact ⟨t, ht, hkept, rcpt, hrcpt, hindex, rfl⟩
  · rintro ⟨t, ht, hmatch, rcpt, hrcpt, hindex, rfl⟩
    refine ⟨rcpt, mem_filter.2 ⟨hrcpt, ?_⟩, rfl⟩
    rw [hindex, keptIndex_eq hchecked hwell ht, hmatch]

theorem exists_receipt (hfrm : FrameOf projection truth frame) (hasked : projection.has .receipts =
    true ∨ projection.has .receiptOutcome = true) {t : TrueTransaction}
    (ht : t ∈ truth.transactions) (hmatch : projection.matchesTransaction t.envelope = true) :
    ∃ rcpt ∈ frame.receipts.asPresent.getD [], rcpt.transactionIndex = t.envelope.index := by
  obtain ⟨_, hitems⟩ := receipts_present hchecked hfrm.accepts hasked
  obtain ⟨_, hcovers, hholds⟩ := hfrm.receipts.of_asPresent hitems
  obtain ⟨rcpt, hrcpt, hagree, -⟩ :=
    hholds.all t ht (selects_of_covers hchecked hcovers hmatch)
  rw [hitems]; exact ⟨rcpt, hrcpt, hagree.identity.2.1.trans (hwell.receipts t ht)⟩

omit hchecked in
theorem projectReceipt_eq (hfrm : FrameOf projection truth frame)
    (hfrm' : FrameOf projection truth frame') {rcpt rcpt' : ReceiptEnvelope}
    (hrcpt : rcpt ∈ frame.receipts.asPresent.getD [])
    (hrcpt' : rcpt' ∈ frame'.receipts.asPresent.getD [])
    (hidx : rcpt.transactionIndex = rcpt'.transactionIndex)
    (horder : projection.has .receipts = true →
      (rcpt.logs.filter projection.matchesLog).map logIndex =
        (rcpt'.logs.filter projection.matchesLog).map logIndex) :
    projection.projectReceipt rcpt = projection.projectReceipt rcpt' := by
  obtain ⟨t, ht, hagree, howner, -⟩ := hfrm.receipt_genuine hwell hrcpt
  obtain ⟨t', ht', hagree', howner', -⟩ := hfrm'.receipt_genuine hwell hrcpt'
  have hsame : t = t' := by
    refine inj_on_of_nodup_map hwell.indexes ht ht' ?_
    rw [← howner, ← howner', hidx]
  have hlogs : (projection.projectReceipt rcpt).logs = (projection.projectReceipt rcpt').logs := by
    unfold projectReceipt
    split
    · rename_i hasked
      refine map_eq_of_keys (horder hasked) fun _ hlog _ hlog' hlogIndex => ?_
      exact projectLog_eq_of_logIndex hwell hfrm hfrm' hrcpt hrcpt'
        (mem_filter.1 hlog).1 (mem_filter.1 hlog').1 hlogIndex
    · rfl
  rw [projectReceipt_of_agrees hagree, projectReceipt_of_agrees hagree', hsame, hlogs]

theorem receiptsView_subset (hfrm : FrameOf projection truth frame)
    (hfrm' : FrameOf projection truth frame')
    (hasked : projection.has .receipts = true ∨ projection.has .receiptOutcome = true)
    (horder : projection.has .receipts = true → SameLogOrder projection truth frame frame') :
    ∀ shown ∈ receiptsView projection truth frame, shown ∈ receiptsView projection truth frame' := by
  intro shown hshown
  obtain ⟨t, ht, hmatch, receipt, hrcpt, hindex, rfl⟩ :=
    (mem_receiptsView hchecked hwell hfrm).1 hshown
  obtain ⟨receipt', hrcpt', hindex'⟩ := exists_receipt hchecked hwell hfrm' hasked ht hmatch
  refine (mem_receiptsView hchecked hwell hfrm').2 ⟨t, ht, hmatch, receipt', hrcpt', hindex', ?_⟩
  exact (projectReceipt_eq hwell hfrm hfrm' hrcpt hrcpt' (hindex.trans hindex'.symm)
    fun hrcpts => horder hrcpts t ht hmatch receipt hrcpt receipt' hrcpt' hindex hindex').symm

theorem receiptsView_eq_iff (hfrm : FrameOf projection truth frame)
    (hfrm' : FrameOf projection truth frame')
    (hasked : projection.has .receipts = true ∨ projection.has .receiptOutcome = true) :
    receiptsView projection truth frame = receiptsView projection truth frame' ↔
      (projection.has .receipts = true → SameLogOrder projection truth frame frame') := by
  constructor
  · intro hsame hrcpts t ht hmatch rcpt hrcpt _ hrcpt' hidx hidx'
    have hmem : projection.projectReceipt rcpt ∈ receiptsView projection truth frame' := by
      rw [← hsame]
      exact (mem_receiptsView hchecked hwell hfrm).2 ⟨t, ht, hmatch, rcpt, hrcpt, hidx, rfl⟩
    obtain ⟨_, -, -, other, hother, -, hshown⟩ :=
      (mem_receiptsView hchecked hwell hfrm').1 hmem
    have hotherIndex : other.transactionIndex = rcpt.transactionIndex :=
      congrArg Guest.Receipt.transactionIndex hshown
    cases inj_on_of_nodup_map hfrm'.receipt_once hother hrcpt' (by rw [hotherIndex, hidx, hidx'])
    have hlogs := congrArg (fun shown => shown.logs.map Guest.Log.logIndex) hshown
    simpa only [projectReceipt, if_pos hrcpts, List.map_map, Function.comp_def,
      projectLog] using hlogs.symm
  · intro horder
    have hsub := receiptsView_subset hchecked hwell hfrm hfrm' hasked horder
    have hsub' := receiptsView_subset hchecked hwell hfrm' hfrm hasked fun hrcpts =>
      (horder hrcpts).symm
    -- Each frame shows a transaction's receipt once.
    have hnodup : ∀ f : SourceFrame, FrameOf projection truth f →
        ((((f.receipts.asPresent.getD []).filter fun rcpt => projection.keptIndex
          (transactionsPart projection truth) rcpt.transactionIndex).map
            projection.projectReceipt).map Guest.Receipt.transactionIndex).Nodup := by
      intro f hf
      rw [List.map_map]; exact hf.receipt_once.sublist (List.filter_sublist.map _)
    refine sortBy_eq_of_mem (hnodup frame hfrm) (hnodup frame' hfrm') fun shown => ?_
    exact ⟨fun h => mem_sortBy.1 (hsub shown (mem_sortBy.2 h)),
      fun h => mem_sortBy.1 (hsub' shown (mem_sortBy.2 h))⟩

omit hchecked in
theorem withdrawals_eq_iff (hfrm : FrameOf projection truth frame)
    (hfrm' : FrameOf projection truth frame') : frame.withdrawals.asPresent.getD [] =
    frame'.withdrawals.asPresent.getD [] ↔ (frame.withdrawals.asPresent.getD []).map index =
    (frame'.withdrawals.asPresent.getD []).map index := by
  have hgenuine : ∀ f : SourceFrame, FrameOf projection truth f →
      ∀ wdr ∈ f.withdrawals.asPresent.getD [], wdr ∈ truth.withdrawals := by
    intro f hf wdr hwdr
    cases hitems : f.withdrawals.asPresent with
    | none =>
      rw [hitems] at hwdr; cases hwdr
    | some items =>
      rw [hitems] at hwdr
      obtain ⟨_, -, hholds⟩ := hf.withdrawals.of_asPresent hitems
      obtain ⟨_, htold, rfl⟩ := hholds.genuine wdr hwdr; exact htold
  constructor
  · intro hsame; rw [hsame]
  · intro hkeys
    have hviews := @map_eq_of_keys _ _ _ id _ _ hkeys fun a ha b hb hidx =>
      inj_on_of_nodup_map hwell.withdrawalIndexes (hgenuine frame hfrm a ha)
        (hgenuine frame' hfrm' b hb) hidx
    rwa [List.map_id, List.map_id] at hviews

omit hchecked hwell in
theorem header_eq_iff : (frame.header.asPresent.map fun _ => projection.projectHeader truth.header) =
      (frame'.header.asPresent.map fun _ => projection.projectHeader truth.header) ↔
    frame.header.isPresent = frame'.header.isPresent := by
  cases frame.header <;> cases frame'.header <;>
    simp [Filtering.Material.asPresent, Filtering.Material.isPresent]

theorem view_eq_iff (hfrm : FrameOf projection truth frame)
    (hfrm' : FrameOf projection truth frame') : view projection truth frame =
    view projection truth frame' ↔ SameView projection truth frame frame' := by
  rw [view, view, Guest.Block.mk.injEq]
  constructor
  · rintro ⟨-, -, -, -, -, hhdr, -, hrcpts, -, hwdrs⟩
    constructor
    · intro hasked
      rw [if_pos ((or_eq_true _ _).mpr hasked), if_pos ((or_eq_true _ _).mpr hasked)] at hhdr
      exact header_eq_iff.1 hhdr
    · intro hasked
      have hpart := (or_eq_true _ _).mpr (Or.inl (b := projection.has .receiptOutcome = true) hasked)
      rw [if_pos hpart, if_pos hpart, some.injEq] at hrcpts
      exact (receiptsView_eq_iff hchecked hwell hfrm hfrm' (.inl hasked)).1 hrcpts hasked
    · intro hasked
      rw [if_pos hasked, if_pos hasked, some.injEq] at hwdrs
      exact (withdrawals_eq_iff hwell hfrm hfrm').1 hwdrs
  · rintro ⟨hhdr, hrcpts, hwdrs⟩
    refine ⟨rfl, rfl, rfl, rfl, rfl, ?_, rfl, ?_, rfl, ?_⟩
    · split
      · rename_i hasked; exact header_eq_iff.mpr (hhdr ((or_eq_true _ _).mp hasked))
      · rfl
    · split
      · rename_i hasked
        rw [some.injEq, receiptsView_eq_iff hchecked hwell hfrm hfrm' ((or_eq_true _ _).mp hasked)]
        exact hrcpts
      · rfl
    · split
      · rename_i hasked
        rw [some.injEq, withdrawals_eq_iff hwell hfrm hfrm']; exact hwdrs hasked
      · rfl

end

/-- Two frames of one block that a manifest's projection accepts show the guest the same block
exactly when a header is in both or in neither, receipts hold their logs in one order and
withdrawals come in one order. -/
theorem projects_alike_iff {requires : Guest.Requirements}
    (hnew : Projection.new requires = .ok projection) (hwell : truth.WellFormed)
    (hframe : FrameOf projection truth frame) (hframe' : FrameOf projection truth frame') :
    ∃ block block', projection.project frame = .ok block ∧ projection.project frame' = .ok block' ∧
      (block = block' ↔ SameView projection truth frame frame') := by
  have hchecked := checked_of_new hnew
  exact ⟨_, _, project_eq_view hchecked hwell hframe, project_eq_view hchecked hwell hframe',
    view_eq_iff hchecked hwell hframe hframe'⟩

def pairLog (logIndex : Nat) : Log := ⟨.replicate 20 0, [], [], none, 0, logIndex⟩

def pairReceipt (logs : List Log) : ReceiptEnvelope :=
  ⟨.replicate 32 0, 0, 0, some true, some 1, some 1, none, logs⟩

def pairBlock : TrueBlock where
  chainId := 1
  block := ⟨7, 1, 0, 0⟩
  header := ⟨⟨none, none, none, none⟩, none, none, none⟩
  transactions :=
    [⟨⟨⟨.replicate 32 0, 0, 0, none, none, none, none, none, none, []⟩, none⟩,
      pairReceipt [pairLog 0, pairLog 1]⟩]
  withdrawals := []

def pairFrame (logs : List Log) : SourceFrame where
  chainId := 1
  block := ⟨7, 1, 0, 0⟩
  finality := .finalized
  header := .missing
  transactions := .missing
  receipts := .complete [pairReceipt logs]
  logs := .missing
  withdrawals := .missing
  blobSidecars := .missing
  traces := .missing
  stateDiffs := .missing
  verification := ⟨.verified, .verified, .verified, .verified, .verified, .verified, none⟩

def requiresReceipts : Guest.Requirements := ⟨[.receipts], false, ⟨[], [], [], [], []⟩⟩

def receiptsProjection : Projection where
  capabilities := .of .receipts
  groups := (CapabilitySet.of .receipts).withDerivable
  logTransactionHash := false
  filter := .wildcard

theorem new_requiresReceipts : new requiresReceipts = .ok receiptsProjection := by
  rfl

theorem pairBlock_wellFormed : pairBlock.WellFormed where
  receipts := by decide
  logs := by decide
  indexes := by decide
  logIndexes := by decide
  withdrawalIndexes := by decide

theorem pairFrame_of {logs : List Log} (hlogs : logs.Perm [pairLog 0, pairLog 1])
    (hacc : receiptsProjection.requirement.validateFrame (pairFrame logs).base = .ok ()) :
    FrameOf receiptsProjection pairBlock (pairFrame logs) := by
  have hshows : ∀ log : Log, log.Shows log := fun log => ⟨⟨rfl, rfl, rfl, rfl, rfl⟩, fun _ h => h⟩
  have hholds : Holds logs [pairLog 0, pairLog 1] Log.Shows (SelectsLog .wildcard) logIndex := by
    constructor
    · intro log hlog; exact ⟨log, hlogs.mem_iff.1 hlog, hshows log⟩
    · intro log hlog _; exact ⟨log, hlogs.mem_iff.2 hlog, hshows log⟩
    · exact (hlogs.map _).nodup_iff.2 (by decide)
  have hrcpt : ∀ t ∈ pairBlock.transactions,
      ReceiptAgrees receiptsProjection.groups (pairReceipt logs) t.receipt ∧
        Holds (pairReceipt logs).logs t.receipt.logs Log.Shows (SelectsLog .wildcard)
          logIndex := by
    intro t ht
    cases mem_singleton.1 ht
    exact ⟨⟨⟨rfl, rfl, rfl⟩, fun _ => ⟨rfl, rfl, rfl⟩, fun _ => rfl⟩, hholds⟩
  refine ⟨hacc, rfl, rfl, nofun, trivial, ⟨rfl, ?_, ?_, nodup_singleton _⟩, trivial,
    trivial⟩
  · intro rcpt hmem
    cases mem_singleton.1 hmem; exact ⟨_, mem_singleton_self _, hrcpt _ (mem_singleton_self _)⟩
  · intro t ht _; exact ⟨_, mem_singleton_self _, hrcpt t ht⟩

/-- The frames with the logs in either order project, to one block only if they were in one. -/
theorem projects_alike_iff_pair : ∃ block block',
    receiptsProjection.project (pairFrame [pairLog 0, pairLog 1]) = .ok block ∧
      receiptsProjection.project (pairFrame [pairLog 1, pairLog 0]) = .ok block' ∧
        (block = block' ↔ SameView receiptsProjection pairBlock
          (pairFrame [pairLog 0, pairLog 1]) (pairFrame [pairLog 1, pairLog 0])) :=
  projects_alike_iff new_requiresReceipts pairBlock_wellFormed
    (pairFrame_of (List.Perm.refl _) rfl) (pairFrame_of (List.Perm.swap _ _ _) rfl)

/-- Receipts show their logs in the order of the source. -/
theorem projects_apart : ¬ ∀ (requires : Guest.Requirements) (projection : Projection)
    (truth : TrueBlock) (frame frame' : SourceFrame), Projection.new requires = .ok projection →
      truth.WellFormed → FrameOf projection truth frame → FrameOf projection truth frame' →
        projection.project frame = projection.project frame' := by
  intro h
  have hsame := h _ _ _ _ _ new_requiresReceipts pairBlock_wellFormed
    (pairFrame_of (List.Perm.refl _) rfl) (pairFrame_of (List.Perm.swap _ _ _) rfl)
  revert hsame
  decide +kernel

end Leani.Wasm.Frame
