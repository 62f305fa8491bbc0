import Leani.Processor.Release

/-!
# Deletions of subscriptions

In every state a node can be in, its instances are sound and no two subscriptions share an id or a
stream. So a deletion lets go of what only the deleted subscription kept, and everything that
belongs to other subscriptions and instances is left as it was.
-/

namespace Leani.Processor

open Library Std Delivery Option Table Node

structure NodeSound (node : Node) : Prop where
  instances : ∀ {inst : String} {registered : Registered},
    node.instances[inst]? = some registered → Sound registered.rows
  apart : ∀ {job job' : String} {row row' : BackfillSubscriptionRecord},
    node.subscriptions[job]? = some row → node.subscriptions[job']? = some row' → job ≠ job' →
      row.subscriptionId ≠ row'.subscriptionId ∧ row.historyStreamId ≠ row'.historyStreamId

variable {node node' : Node}

variable {subscription : BackfillSubscriptionRecord}

theorem insertSubscription_spec (h : node.insertSubscription subscription = .ok node') :
    node' = node ∨ (∀ (job : String) (stored : BackfillSubscriptionRecord),
    node.subscriptions[job]? = some stored → ¬ stored.Conflicts subscription) ∧ node' = { node with
        subscriptions := node.subscriptions.insert subscription.jobId subscription } := by
  simp only [insertSubscription, bind_eq_ok] at h
  obtain ⟨-, -, h⟩ := h
  split at h
  · rw [pure_eq_ok] at h; exact .inl h.symm
  · rename_i hfree
    simp only [eq_ok] at h
    obtain ⟨-, -, rfl⟩ := h
    refine .inr ⟨fun job stored hstore hconflict => hfree ?_, rfl⟩
    exact isSome_firstWhere.2 ⟨job, stored, hstore, decide_eq_true hconflict⟩

theorem insertRanges_bounded {table table' : Table (String × Nat) (Nat × Nat)} {subId : String}
    {rngs : List Range} {conflict : StoreError} (h : insertRanges table subId rngs conflict =
    .ok table') : ∀ range ∈ rngs, range.last ≤ i64Max := by
  simp only [insertRanges, bind_eq_ok] at h
  obtain ⟨_, hranges, -⟩ := h
  intro range hrng
  have hfits := forall_of_foldExcept_eq_ok hranges range hrng
  simp only [bind_eq_ok, u64I64_eq_ok] at hfits
  obtain ⟨-, ⟨hle, -⟩, -⟩ := hfits; exact hle

theorem insertJob_spec {job : JobRecord} {requestIdentity : BlockHash}
    (h : node.insertJob job requestIdentity = .ok node') :
    node'.instances = node.instances ∧ node'.subscriptions = node.subscriptions := by
  simp only [insertJob, eq_ok] at h
  obtain ⟨-, -, -, -, -, -, rfl⟩ := h; exact ⟨rfl, rfl⟩

theorem NodeSound.insertSubscription (h : NodeSound node)
    (hi : node.insertSubscription subscription = .ok node') : NodeSound node' := by
  rcases insertSubscription_spec hi with rfl | ⟨hfree, rfl⟩
  · exact h
  refine ⟨h.instances, fun {job job' row row'} hrow hrow' hne => ?_⟩
  rw [get?_insert_ite] at hrow hrow'
  split at hrow
  · split at hrow'
    · rename_i hjob hjob'; exact absurd (hjob.trans hjob'.symm) hne
    · cases hrow
      have hdiffer := hfree job' row' hrow'
      exact ⟨fun he => hdiffer (.inl he.symm), fun he => hdiffer (.inr (.inr (.inl he.symm)))⟩
  · split at hrow'
    · cases hrow'
      have hdiffer := hfree job row hrow
      exact ⟨fun he => hdiffer (.inl he), fun he => hdiffer (.inr (.inr (.inl he)))⟩
    · exact h.apart hrow hrow' hne

theorem NodeSound.replace (h : NodeSound node) {inst : String} {registered : Registered}
    (hr : Sound registered.rows) :
    NodeSound { node with instances := node.instances.insert inst registered } := by
  refine ⟨fun {_ _} hrow => ?_, h.apart⟩
  rw [get?_insert_ite] at hrow
  split at hrow
  · rw [some.injEq] at hrow; rwa [← hrow]
  · exact h.instances hrow

theorem NodeSound.ownRanges (h : NodeSound node) {sub : BackfillSubscriptionRecord}
    {rngs : List Range} (hrngs : ∀ range ∈ rngs, range.last ≤ i64Max) :
    NodeSound (node.ownRanges sub rngs) := by
  unfold Node.ownRanges
  split
  · rename_i registered hrow; exact h.replace ((h.instances hrow).own hrngs)
  · exact h

theorem NodeSound.congr (h : NodeSound node) (hinstances : node'.instances = node.instances)
    (hsubs : node'.subscriptions = node.subscriptions) : NodeSound node' where
  instances hrow := h.instances (hinstances ▸ hrow)
  apart hrow hrow' := h.apart (hsubs ▸ hrow) (hsubs ▸ hrow')

theorem NodeSound.create (h : NodeSound node) {sub : BackfillSubscriptionRecord}
    {job stored : JobRecord} {requestIdentity : BlockHash}
    (hc : node.createBackfillSubscriptionJob sub job requestIdentity =
      .ok (node', stored)) : NodeSound node' := by
  simp only [createBackfillSubscriptionJob, bind_eq_ok, Prod.exists] at hc
  obtain ⟨_, _, -, hc⟩ := hc
  split at hc
  · simp only [eq_ok, Prod.mk.injEq] at hc
    obtain ⟨-, -, rfl, -⟩ := hc; exact h
  · simp only [eq_ok, Prod.mk.injEq] at hc
    obtain ⟨_, -, _, hinsert, -, -, _, hreq, _, -, _, hcreated, -, -, rfl, -⟩ := hc
    obtain ⟨hinstances, hsubs⟩ := insertJob_spec hcreated
    have howned := @NodeSound.ownRanges _ (h.insertSubscription hinsert) sub _
      (insertRanges_bounded hreq)
    exact howned.congr hinstances hsubs

def Registered.without (registered : Registered) (row : BackfillSubscriptionRecord) : Registered :=
  { registered with
    rows := (registered.rows.release registered.processor.descriptor
      row.subscriptionId).dropStream row.historyStreamId }

variable {unacknowledged : UnacknowledgedDelivery} {deletion : HistoricalWorkDeletion}

variable {jobId outcomeId : String}

theorem deleteSubscription_spec
    (h : node.deleteTerminalHistoricalWork jobId outcomeId true unacknowledged = .ok (node', deletion)) :
    ∃ row registered, node.subscriptions[jobId]? = some row ∧
      node.instances[row.processorInstance]? = some registered ∧ node' = { node with
        instances := node.instances.insert row.processorInstance (registered.without row)
        subscriptions := node.subscriptions.erase jobId
        ranges := deleteWhere node.ranges fun key _ => key.1 = row.subscriptionId
        preexistingRanges := deleteWhere node.preexistingRanges fun key _ =>
          key.1 = row.subscriptionId
        jobs := (node.jobs.erase jobId).erase outcomeId
        identities := (node.identities.erase jobId).erase outcomeId } := by
  simp only [deleteTerminalHistoricalWork, if_true, deleteSubscription, eq_ok, Prod.exists,
    Prod.mk.injEq] at h
  obtain ⟨-, -, _, _, ⟨row, hrow, -, -, registered, hreg, rfl, rfl⟩, rfl, -⟩ := h
  exact ⟨row, registered, hrow, hreg, rfl⟩

theorem NodeSound.delete (h : NodeSound node) {sub : Bool}
    (hd : node.deleteTerminalHistoricalWork jobId outcomeId sub unacknowledged = .ok (node', deletion)) :
    NodeSound node' := by
  cases sub with
  | true =>
    obtain ⟨row, registered, -, hreg, rfl⟩ := deleteSubscription_spec hd
    have hsound := (h.instances hreg).release registered.processor.descriptor row.subscriptionId
    have hreplaced := @NodeSound.replace _ h row.processorInstance (registered.without row)
      (hsound.dropStream row.historyStreamId)
    refine ⟨hreplaced.instances, fun {_ _ row _} hrow hrow' hne => ?_⟩
    rw [get?_erase_ite] at hrow hrow'
    split at hrow
    · cases hrow
    split at hrow'
    · cases hrow'
    · exact h.apart hrow hrow' hne
  | false =>
    simp only [deleteTerminalHistoricalWork, Bool.false_eq_true, if_false, eq_ok, Prod.exists,
      Prod.mk.injEq] at hd
    obtain ⟨-, -, _, _, ⟨-, -, rfl, rfl⟩, rfl, -⟩ := hd; exact h.congr rfl rfl

theorem nodeSound_empty : NodeSound .empty where
  instances h := (not_mem_empty h).elim
  apart h := (not_mem_empty h).elim

theorem nodeSound_nodeStep (h : NodeSound node) (event : NodeEvent) :
    NodeSound (nodeStep node event) := by
  cases event with
  | register p =>
    change NodeSound (if _ then _ else _)
    split
    · exact h
    · exact h.replace (sound_registered p.descriptor)
  | coverage inst event direct =>
    simp only [nodeStep]
    split
    · rename_i registered hrow; exact h.replace ((h.instances hrow).coverageStep direct)
    · exact h
  | create subscription job requestIdentity =>
    exact commit_keeps h fun node' _ hout => h.create hout
  | progress jobId state =>
    simp only [nodeStep]
    split
    · rename_i row hrow
      refine ⟨h.instances, fun {job _ _ _} hrow' hrow'' hne => ?_⟩
      rw [get?_insert_ite] at hrow' hrow''
      split at hrow'
      · rename_i hjob
        subst hjob
        cases hrow'
        rw [if_neg (Ne.symm hne)] at hrow''
        have happart := h.apart hrow hrow'' hne; exact happart
      · split at hrow''
        · rename_i hjob
          subst hjob
          rw [some.injEq] at hrow''
          subst hrow''
          have happart := h.apart hrow' hrow hne; exact happart
        · exact h.apart hrow' hrow'' hne
    · exact h
  | saveJob job =>
    refine commit_keeps h fun node' state hout => ?_
    simp only [saveJob, eq_ok, Prod.mk.injEq] at hout
    obtain ⟨-, -, -, -, rfl, -⟩ := hout; exact h.congr rfl rfl
  | delete jobId outcomeId subscription unacknowledged =>
    exact commit_keeps h fun node' _ hout => h.delete hout

theorem nodeSound_nodeRun (evs : List NodeEvent) :
    ∀ {node : Node}, NodeSound node → NodeSound (nodeRun node evs) := by
  induction evs with
  | nil => exact id
  | cons event evs ih => exact fun h => ih (nodeSound_nodeStep h event)

/-- Going from `node` to `node'` by deleting the subscription `row` of the job `jobId`, which belongs
to the instance with the rows `before`; `after` are its rows then. -/
structure Deleted (node node' : Node) (jobId outcomeId : String) (row : BackfillSubscriptionRecord)
    (registered : Registered) (after : Instance) : Prop where
  found : node.subscriptions[jobId]? = some row
  before : node.instances[row.processorInstance]? = some registered
  replaced : node'.instances[row.processorInstance]? = some { registered with rows := after }
  coverage : registered.processor.descriptor.output.mode = .none →
    LetsGo row.subscriptionId registered.rows after
  output : after.output = registered.rows.output
  deferred : after.deferred = registered.rows.deferred
  sharedOwner : after.sharedOwner = registered.rows.sharedOwner
  owners : ∀ (id : String) (start : Nat), after.subscriptionOwners[(id, start)]? =
    if id = row.subscriptionId then none else registered.rows.subscriptionOwners[(id, start)]?
  streams : ∀ id : String, after.streams[id]? =
    if id = row.historyStreamId then none else registered.rows.streams[id]?
  ranges : ∀ (id : String) (ordinal : Nat), node'.ranges[(id, ordinal)]? =
    if id = row.subscriptionId then none else node.ranges[(id, ordinal)]?
  preexistingRanges : ∀ (id : String) (ordinal : Nat), node'.preexistingRanges[(id, ordinal)]? =
    if id = row.subscriptionId then none else node.preexistingRanges[(id, ordinal)]?
  subscriptions : ∀ job : String, node'.subscriptions[job]? =
    if job = jobId then none else node.subscriptions[job]?
  apart : ∀ (job : String) (other : BackfillSubscriptionRecord), job ≠ jobId →
    node.subscriptions[job]? = some other →
    other.subscriptionId ≠ row.subscriptionId ∧ other.historyStreamId ≠ row.historyStreamId
  instances : ∀ inst : String, inst ≠ row.processorInstance →
    node'.instances[inst]? = node.instances[inst]?
  jobs : ∀ job : String, node'.jobs[job]? =
    if job = jobId ∨ job = outcomeId then none else node.jobs[job]?

theorem NodeSound.deleted (h : NodeSound node)
    (hd : node.deleteTerminalHistoricalWork jobId outcomeId true unacknowledged = .ok (node', deletion)) :
    ∃ row registered after, Deleted node node' jobId outcomeId row registered after := by
  obtain ⟨row, registered, hrow, hreg, rfl⟩ := deleteSubscription_spec hd
  have hsound := h.instances hreg
  refine ⟨row, registered, (registered.without row).rows, {
    found := hrow
    before := hreg
    replaced := getElem?_insert_self ..
    coverage := fun hmode => (hsound.letsGo hmode row.subscriptionId).dropStream row.historyStreamId
    output := (release_rest row.subscriptionId).1
    deferred := (release_rest row.subscriptionId).2.1
    sharedOwner := (release_rest row.subscriptionId).2.2.1
    owners := fun id start => ?_
    streams := fun id => ?_
    ranges := fun id ordinal => ?_
    preexistingRanges := fun id ordinal => ?_
    subscriptions := fun job => get?_erase_ite ..
    apart := fun job _ hne hother => h.apart hother hrow hne
    instances := fun _ hne => getElem?_insert_of_ne _ _ hne.symm
    jobs := fun job => ?_ }⟩
  · change (Instance.release _ _ _).subscriptionOwners[(id, start)]? = _
    rw [release_owners]
    change (deleteWhere _ _)[(id, start)]? = _
    simp only [get?_deleteWhere_key, decide_eq_true_iff]
  · change ((Instance.release _ _ _).streams.erase _)[id]? = _
    rw [get?_erase_ite, (release_rest row.subscriptionId).2.2.2]
  · simp only [get?_deleteWhere_key, decide_eq_true_iff]
  · simp only [get?_deleteWhere_key, decide_eq_true_iff]
  · rw [get?_erase_ite, get?_erase_ite]
    by_cases hjob : job = jobId
    · rw [if_pos hjob, ite_self, if_pos (.inl hjob)]
    · rw [if_neg hjob]; exact if_congr (or_iff_right hjob).symm rfl rfl

/-- In every state a node can be in, a deletion that succeeds lets go of what only the deleted
subscription kept and leaves what belongs to others; one that fails changes nothing. -/
theorem nodeRun_deleted (events : List NodeEvent) (jobId outcomeId : String)
    (unacknowledged : UnacknowledgedDelivery) :
    let node := nodeRun .empty events
    let r := Leani.settle node (node.deleteTerminalHistoricalWork jobId outcomeId true unacknowledged)
    (∀ deletion, r.2 = .ok deletion →
      ∃ row registered after, Deleted node r.1 jobId outcomeId row registered after) ∧
    ∀ e, r.2 = .error e → r.1 = node := by
  intro node r
  have hsound := nodeSound_nodeRun events nodeSound_empty
  cases hout : node.deleteTerminalHistoricalWork jobId outcomeId true unacknowledged with
  | error e =>
    have hr : r = (node, .error e) := by
      change Leani.settle node (deleteTerminalHistoricalWork _ _ _ _ _) = _; rw [hout]; rfl
    rw [hr]; exact ⟨nofun, fun _ _ => rfl⟩
  | ok out =>
    have hr : r = (out.1, .ok out.2) := by
      change Leani.settle node (deleteTerminalHistoricalWork _ _ _ _ _) = _; rw [hout]; rfl
    rw [hr]; exact ⟨fun _ _ => hsound.deleted hout, nofun⟩

def filled (number : Nat) : HistoricalBatchItem where
  delta := ⟨"silent", "1", 0, 1, 1, ⟨number, number, BitVec.ofNat 256 (number - 1), 0⟩, [], 0⟩
  finality := .finalized
  publishChanges := true

def subscriptionTo (name : String) (range : Range) : BackfillSubscriptionRecord where
  subscriptionId := name
  jobId := name
  processorInstance := "silent"
  historyStreamId := silent.descriptor.backfillStreamId name
  mode := .fillMissing
  publicationRevision := 0
  state := .queued
  consumerId := "reader"
  ranges := []
  range := range
  preexistingCoverage := []
  capturedFinalizedTarget := 100
  idempotencyKey := name
  effectiveBlockLimit := 1
  effectiveByteLimit := 1
  resumeBelowRatioMillionths := 1
  deliveryBatchLimits := ⟨1, 1, 1, 1, 1, 1, 1, .none⟩
  initialSequence := 0
  completionSequence := none
  processedWorkBlocks := 0

def backfill (name : String) (range : Range) (items : List HistoricalBatchItem) : List NodeEvent :=
  let streamId := silent.descriptor.backfillStreamId name
  let reader : Consumer := ⟨.required, .active, 0, 0, 0, 0, 0, 0⟩
  [.coverage "silent" (.operate (.subscribe name ⟨.historicalBackfill, name, 0⟩)) trivial,
    .coverage "silent" (.operate
      (.onStream streamId (.manage ((∅ : Table String Consumer).insert "reader" reader)) trivial))
      trivial,
    .create (subscriptionTo name range)
      ⟨name, "backfill_subscription_job", .queued, [], none, 0, 0⟩ 0,
    .coverage "silent" (.historical ⟨0, fun _ => 0, none⟩ .apply items streamId []
      ⟨10, 10, fun _ => 0⟩) trivial,
    .progress name .completeReclaimable]

theorem below_le : 1 ≤ 2 := by
  decide

theorem above_le : 3 ≤ 4 := by
  decide

def neighbours : Node :=
  nodeRun .empty ([.register silent] ++
    backfill "below" ⟨1, 2, below_le⟩ [filled 1, filled 2] ++
    backfill "above" ⟨3, 4, above_le⟩ [filled 3, filled 4] ++
    [.coverage "silent" (.compact ⟨0, [], [], fun _ => false⟩ 4 2 10) trivial])

def silentRows (node : Node) : Instance :=
  (node.instances["silent"]?).elim (.registered silent.descriptor) Registered.rows

/-- Block 1, which only the deleted subscription owned, stays covered by the interval it shares
with its neighbour's blocks. -/
theorem neighbours_stay_covered :
    let r := Leani.settle neighbours
      (neighbours.deleteTerminalHistoricalWork "below" "below:outcome" true .protect)
    r.2.toOption.isSome = true ∧ (silentRows neighbours).OnlyOwnedBy "below" 1 ∧
      Covered (silentRows neighbours).toStore 1 ∧ Covered (silentRows r.1).toStore 1 := by
  refine ⟨by decide +kernel, ?_, .inr ⟨1, 4, ?_, by decide, by decide⟩,
    .inr ⟨1, 4, ?_, by decide, by decide⟩⟩
  · rw [← Instance.orphaned_disowned]; decide +kernel
  · decide +kernel
  · decide +kernel

end Leani.Processor
