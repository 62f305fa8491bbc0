import Leani.LiveLane.Model

/-!
# Failed lanes

A failed lane is a latch. Whatever happens to it, it stays failed until an operator resets it, its
reason stays the first one unless the coverage turns out to contradict the canonical chain, and that
reason is never reset. A park leaves a failed lane alone, but for the one the store failed itself at
a delivery limit: as long as nothing marks its first unapplied block, a park does.
-/

namespace Leani.LiveLane

open Library Std Processor List Option Bool Prod

def Event.Resets : Event → Prop
  | .reset .. => True
  | _ => False

def Event.Parks : Event → Prop
  | .park .. | .parkAt .. => True
  | _ => False

def Event.Conflicts : Event → Prop
  | .fail _ reason => reason = finalityConflict
  | _ => False

namespace Lane

variable (lane : Lane)

def failedReason : Option (Option String) :=
  lane.runtime.bind fun row => if row.state = .failed then some row.reason else none

structure AwaitsMarker (reason : String) : Prop where
  limit : reason = singleBlockExceedsLimit ∨ reason = spoolHardLimit
  failed : lane.failedReason = some (some reason)
  unmarked : lane.gap = none

structure Parkable (block : BlockRef) (reason : String) (requiredDeliveryBytes : Nat) : Prop where
  reasoned : isBlank reason = false
  number : block.number ≤ i64Max
  timestamp : block.timestamp ≤ i64Max
  required : requiredDeliveryBytes ≤ i64Max

/-- What a park with a delta asks besides: one of the processor's deltas and, when it is to be kept,
no other that is pending for the block. -/
structure DeltaParkable (p : Processor) (delta : EncodedDelta) (persistDelta : Bool) : Prop where
  valid : validateDelta p delta = .ok ()
  agrees : persistDelta = true → ∀ stored,
    lane.pending[(delta.block.number, delta.block.hash)]? = some stored → stored = delta

structure Marked (before : Lane) (now : Nat) (block : BlockRef) (reason : String)
    (requiredDeliveryBytes : Nat) (after : Lane) : Prop where
  runtime : after.runtime = before.runtime
  gap : after.gap = some ⟨block, requiredDeliveryBytes, reason, now, now⟩

end Lane

structure Latched (p : Processor) (lane : Lane) : Prop where
  resetOnly : ∀ {reason event}, lane.failedReason = some reason → (step p lane event).failedReason = none →
    ∃ now maxBytes gap, event = .reset now maxBytes ∧ lane.gap = some gap ∧
      lane.resetFailedLiveLane p now maxBytes = .ok (step p lane event, gap)
  reasonKept : ∀ {reason reason' event}, lane.failedReason = some reason →
    (step p lane event).failedReason = some reason' → reason' = reason ∨ reason' = some finalityConflict
  failedKept : ∀ {reason events}, lane.failedReason = some reason → (∀ event ∈ events, ¬ event.Resets) →
    (run p lane events).failedReason = some reason ∨
      (run p lane events).failedReason = some (some finalityConflict)
  conflictKept : ∀ {events}, lane.failedReason = some (some finalityConflict) →
    (run p lane events).failedReason = some (some finalityConflict)
  markerKept : ∀ {reason event}, lane.failedReason = some reason → lane.gap ≠ none → event.Parks →
    step p lane event = lane
  limitFailure : ∀ {reason now demand}, lane.failedReason = none →
    (step p lane (.enforce now demand)).failedReason = some reason →
    (reason = some singleBlockExceedsLimit ∨ reason = some spoolHardLimit) ∧
      (step p lane (.enforce now demand)).gap = lane.gap
  awaits : ∀ {reason events}, lane.AwaitsMarker reason → (∀ event ∈ events,
    ¬ event.Resets ∧ ¬ event.Parks ∧ ¬ event.Conflicts) → (run p lane events).AwaitsMarker reason
  parkMarks : ∀ {reason now delta why requiredDeliveryBytes failed persistDelta},
    lane.AwaitsMarker reason → Lane.Parkable delta.block why requiredDeliveryBytes →
    lane.DeltaParkable p delta persistDelta →
    ∃ after, lane.parkProcessorLiveLane p now delta why requiredDeliveryBytes failed persistDelta =
        (after, .ok true) ∧ lane.Marked now delta.block why requiredDeliveryBytes after ∧
      (persistDelta = true → after.pending[(delta.block.number, delta.block.hash)]? = some delta)
  parkAtMarks : ∀ {reason now block why failed}, lane.AwaitsMarker reason →
    Lane.Parkable block why 0 → ∃ after, lane.parkProcessorLiveLaneAt now block why failed =
    (after, .ok true) ∧ lane.Marked now block why 0 after

namespace Lane

variable {lane : Lane} {reason : Option String}

theorem failedReason_eq_some :
    lane.failedReason = some reason ↔ ∃ since, lane.runtime = some ⟨.failed, reason, since⟩ := by
  unfold failedReason
  constructor
  · intro h
    obtain ⟨⟨state, _, since⟩, hrow, h⟩ := bind_eq_some_iff.1 h
    split at h
    · next hstate =>
      cases h
      obtain rfl : state = .failed := hstate; exact ⟨since, hrow⟩
    · cases h
  · rintro ⟨since, h⟩; rw [h]; rfl

theorem updateRuntime_of_not {p : ProcessorRuntimeState → Bool} {row old : ProcessorRuntimeState}
    (h : lane.runtime = some old) (hp : p old = false) : lane.updateRuntime p row = lane := by
  unfold updateRuntime; rw [h, map_some, if_neg (eq_false_iff.1 hp), ← h]

theorem registerProcessor_of_runtime {now : Nat} {row : ProcessorRuntimeState}
    (h : lane.runtime = some row) : lane.registerProcessor now = lane := by
  unfold registerProcessor; rw [h, some_or, ← h]

variable {lane' : Lane}

theorem insertGap_eq_ok {now required : Nat} {block : BlockRef} {why : String} :
    lane.insertGap now block required why = .ok lane' ↔
      block.number ≤ i64Max ∧ block.timestamp ≤ i64Max ∧ required ≤ i64Max ∧
        { lane with gap := lane.gap.or (some ⟨block, required, why, now, now⟩) } = lane' := by
  simp only [insertGap, eq_ok, u64I64_eq_ok]
  constructor
  · rintro ⟨_, ⟨hn, rfl⟩, _, ⟨ht, rfl⟩, _, ⟨hr, rfl⟩, h⟩; exact ⟨hn, ht, hr, h⟩
  · rintro ⟨hn, ht, hr, h⟩; exact ⟨_, ⟨hn, rfl⟩, _, ⟨ht, rfl⟩, _, ⟨hr, rfl⟩, h⟩

variable {delta : EncodedDelta}

theorem insertPendingDelta_eq_ok {field : String} : lane.insertPendingDelta delta field = .ok lane' ↔
      delta.block.number ≤ i64Max ∧
      lane.pending[(delta.block.number, delta.block.hash)]?.getD delta = delta ∧
      { lane with pending := lane.pending.insert (delta.block.number, delta.block.hash) delta } =
        lane' := by
  simp only [insertPendingDelta, eq_ok, u64I64_eq_ok]
  constructor
  · rintro ⟨_, ⟨hn, rfl⟩, _, heq, rfl⟩; exact ⟨hn, heq, by rw [heq]⟩
  · rintro ⟨hn, heq, rfl⟩; exact ⟨_, ⟨hn, rfl⟩, (), heq, by rw [heq]⟩

theorem recordDelta_runtime {now required : Nat} {why : String} {persist : Bool}
    (h : recordDelta now delta why required persist lane = .ok lane') :
    lane'.runtime = lane.runtime := by
  unfold recordDelta at h
  obtain ⟨_, hmid, h⟩ := bind_eq_ok.1 h
  obtain ⟨-, -, -, rfl⟩ := insertGap_eq_ok.1 h
  cases persist with
  | false =>
    cases hmid; rfl
  | true =>
    obtain ⟨-, -, rfl⟩ := insertPendingDelta_eq_ok.1 hmid; rfl

theorem liveLaneParkGuard_of_failed {since : Nat} (hrow : lane.runtime = some ⟨.failed, reason, since⟩) :
    lane.liveLaneParkGuard =
      if ([singleBlockExceedsLimit, spoolHardLimit].contains (reason.getD "") && lane.gap.isNone) = true
      then some true else none := by
  unfold liveLaneParkGuard; rw [hrow]; rfl

theorem liveLaneParkGuard_of_marked (h : lane.failedReason = some reason) (hgap : lane.gap ≠ none) :
    lane.liveLaneParkGuard = none := by
  obtain ⟨_, hrow⟩ := failedReason_eq_some.1 h
  rw [liveLaneParkGuard_of_failed hrow, if_neg]
  rw [and_eq_true, isNone_iff_eq_none]; exact fun h => hgap h.2

theorem AwaitsMarker.guard {limit : String} (h : lane.AwaitsMarker limit) :
    lane.liveLaneParkGuard = some true := by
  obtain ⟨_, hrow⟩ := failedReason_eq_some.1 h.failed
  rw [liveLaneParkGuard_of_failed hrow, if_pos]
  rw [and_eq_true, h.unmarked, contains_iff_mem]
  refine ⟨?_, rfl⟩
  rcases h.limit with rfl | rfl
  · exact mem_cons_self
  · exact mem_cons_of_mem _ mem_cons_self

theorem park_runtime {now : Nat} {why : String} {failed : Bool} {rcd : Lane → Except StoreError Lane}
    (hrcd : ∀ {lane'}, rcd lane = .ok lane' → lane'.runtime = lane.runtime)
    (h : lane.failedReason = some reason) :
    (commit lane (lane.park now why failed rcd)).runtime = lane.runtime := by
  obtain ⟨_, hrow⟩ := failedReason_eq_some.1 h
  unfold park
  cases hguard : lane.liveLaneParkGuard with
  | none => rfl
  | some alreadyFailed =>
    have hfailed : alreadyFailed = true := by
      rw [liveLaneParkGuard_of_failed hrow] at hguard
      split at hguard
      · exact (some.inj hguard).symm
      · cases hguard
    cases hmarked : rcd lane with
    | error e => rfl
    | ok marked =>
      show (marked.setParkedLaneState now alreadyFailed failed why).runtime = lane.runtime
      rw [setParkedLaneState, if_pos hfailed, hrcd hmarked]

theorem enforceLimits_spec (lane : Lane) (now : Nat) (demand : Demand) :
    (lane.enforceLimits now demand).1 = lane ∨ demand.processorScoped = true ∧
      ∃ state, (lane.enforceLimits now demand).1 =
        lane.setProcessorRunState now state (some spoolHardLimit) := by
  unfold enforceLimits
  split
  · exact .inl rfl
  · cases demand.budgetFailure with
    | error e => exact .inl rfl
    | ok budgetFailure =>
      dsimp only
      split
      · exact .inl rfl
      · cases hscope : demand.processorScoped with
        | true => exact .inr ⟨rfl, _, rfl⟩
        | false => exact .inl rfl

theorem enforce_of_failed {p : Processor} {now : Nat} {demand : Demand}
    (h : lane.failedReason = some reason) : (lane.enforceDeliveryCapacity p now demand).1 = lane := by
  obtain ⟨_, hrow⟩ := failedReason_eq_some.1 h
  unfold enforceDeliveryCapacity
  cases hscope : demand.processorScoped with
  | true =>
    rw [if_pos rfl, hrow]; rfl
  | false =>
    rw [if_neg Bool.false_ne_true]
    dsimp only
    split
    · rw [if_neg Bool.false_ne_true]
    · rw [if_neg nofun]
      exact (enforceLimits_spec lane now demand).resolve_right fun h => absurd (hscope ▸ h.1) nofun

theorem advance_runtime {p : Processor} {now : Nat} {applied next : BlockRef} :
    (commit lane (lane.advanceLiveLaneGap p now applied next)).runtime = lane.runtime := by
  cases h : lane.advanceLiveLaneGap p now applied next with
  | error e => rfl
  | ok out =>
    simp only [advanceLiveLaneGap, eq_ok] at h
    obtain ⟨_, -, _, -, _, -, _, -, rfl⟩ := h; rfl

theorem rebase_runtime {p : Processor} {now : Nat} {rev : BlockRef} {replacement : EncodedDelta} :
    (commit lane (lane.rebaseLiveLaneGap p now rev replacement)).runtime = lane.runtime := by
  cases h : lane.rebaseLiveLaneGap p now rev replacement with
  | error e => rfl
  | ok out =>
    simp only [rebaseLiveLaneGap, bind_eq_ok] at h
    obtain ⟨_, -, _, -, _, -, _, -, h⟩ := h
    split at h
    · obtain rfl := pure_eq_ok.1 h; rfl
    · obtain rfl := pure_eq_ok.1 h; rfl

theorem complete_runtime {p : Processor} {now : Nat} {exp : BlockRef}
    (h : lane.failedReason = some reason) :
    (commit lane (lane.completeLiveLaneGap p now exp)).runtime = lane.runtime := by
  obtain ⟨since, hrow⟩ := failedReason_eq_some.1 h
  cases hc : lane.completeLiveLaneGap p now exp with
  | error e => rfl
  | ok out =>
    simp only [completeLiveLaneGap, eq_ok] at hc
    obtain ⟨_, -, _, -, rfl⟩ := hc
    have hmarked : ({ lane with gap := none } : Lane).runtime = some ⟨.failed, reason, since⟩ := hrow
    rw [commit_ok, updateRuntime_of_not hmarked rfl]

theorem reset_spec {p : Processor} {now maxBytes : Nat} {gap : LiveLaneGap}
    (h : lane.resetFailedLiveLane p now maxBytes = .ok (lane', gap)) :
    lane.failedReason ≠ some (some finalityConflict) ∧ lane.gap = some gap ∧ lane'.failedReason = none := by
  simp only [resetFailedLiveLane, eq_ok, mk.injEq] at h
  obtain ⟨_, hconflict, _, hgap, _, -, _, hfailed, rfl, rfl⟩ := h
  refine ⟨fun hc => ?_, hgap, ?_⟩
  · obtain ⟨_, hrow⟩ := failedReason_eq_some.1 hc; rw [hrow] at hconflict; exact hconflict rfl
  · cases hrow : lane.runtime with
    | none =>
      rw [hrow] at hfailed; cases hfailed
    | some row =>
      rw [hrow, any_some] at hfailed; rw [updateRuntime, hrow, map_some, if_pos hfailed]; rfl

theorem fail_spec {p : Processor} {now : Nat} {why : String} (h : lane.failedReason = some reason) :
    commit lane (lane.failProcessorLiveLane p now why) = lane ∨ why = finalityConflict ∧
        (commit lane (lane.failProcessorLiveLane p now why)).failedReason = some (some finalityConflict) ∧
        (commit lane (lane.failProcessorLiveLane p now why)).gap = lane.gap := by
  obtain ⟨_, hrow⟩ := failedReason_eq_some.1 h
  cases hf : lane.failProcessorLiveLane p now why with
  | error e => exact .inl rfl
  | ok out =>
    simp only [failProcessorLiveLane, eq_ok] at hf
    obtain ⟨_, -, _, hrow', hf⟩ := hf
    obtain rfl := some.inj (hrow.symm.trans hrow')
    split at hf
    · obtain rfl := pure_eq_ok.1 hf; exact .inl rfl
    · next hcond =>
      obtain rfl := pure_eq_ok.1 hf
      have hwhy := not_not.1 fun hne => hcond ⟨rfl, hne⟩
      refine .inr ⟨hwhy, ?_, rfl⟩
      rw [commit_ok, hwhy, updateRuntime, hrow]; rfl

theorem pause_of_failed {p : Processor} {now : Nat} {why : String} (h : lane.failedReason = some reason) :
    commit lane (lane.pauseProcessorLiveLane p now why) = lane := by
  obtain ⟨_, hrow⟩ := failedReason_eq_some.1 h
  cases hp : lane.pauseProcessorLiveLane p now why with
  | error e => rfl
  | ok out =>
    simp only [pauseProcessorLiveLane, eq_ok, hrow] at hp
    obtain ⟨_, -, _, hstate, -⟩ := hp; cases hstate

theorem resume_of_failed {now : Nat} (h : lane.failedReason = some reason) :
    lane.resumeProcessorLiveLane now = lane := by
  obtain ⟨_, hrow⟩ := failedReason_eq_some.1 h; exact updateRuntime_of_not hrow rfl

theorem persistDelta_runtime {p : Processor} {now : Nat} (h : lane.failedReason = some reason) :
    (lane.persistDelta p now delta).1.runtime = lane.runtime := by
  obtain ⟨_, hrow⟩ := failedReason_eq_some.1 h
  unfold persistDelta
  cases validateDelta p delta with
  | error e => rfl
  | ok _ =>
    rw [registerProcessor_of_runtime hrow, settle_fst]
    cases hinsert : lane.insertPendingDelta delta "block_number" with
    | error e => rfl
    | ok lane' =>
      obtain ⟨-, -, rfl⟩ := insertPendingDelta_eq_ok.1 hinsert; rfl

theorem parkProcessorLiveLane_of_runtime {p : Processor} {now required : Nat} {delta : EncodedDelta}
    {why : String} {failed persist : Bool} {row : ProcessorRuntimeState} (hrow : lane.runtime =
    some row) : (∃ e, lane.parkProcessorLiveLane p now delta why required failed persist =
    (lane, .error e)) ∨ lane.parkProcessorLiveLane p now delta why required failed persist =
    settle lane (lane.park now why failed (recordDelta now delta why required persist)) := by
  unfold parkProcessorLiveLane
  split
  · exact .inl ⟨_, rfl⟩
  · right; rw [registerProcessor_of_runtime hrow]

theorem parkProcessorLiveLaneAt_of_runtime {now : Nat} {block : BlockRef} {why : String}
    {failed : Bool} {row : ProcessorRuntimeState} (hrow : lane.runtime = some row) :
    (∃ e, lane.parkProcessorLiveLaneAt now block why failed = (lane, .error e)) ∨
    lane.parkProcessorLiveLaneAt now block why failed =
      settle lane (lane.park now why failed fun lane => lane.insertGap now block 0 why) := by
  unfold parkProcessorLiveLaneAt
  split
  · exact .inl ⟨_, rfl⟩
  · right; rw [registerProcessor_of_runtime hrow]

end Lane

open Lane

variable {p : Processor} {lane : Lane} {reason : Option String}

theorem step_failed (h : lane.failedReason = some reason) (event : Event) :
    (step p lane event).runtime = lane.runtime ∨
    (event.Conflicts ∧ (step p lane event).failedReason = some (some finalityConflict)) ∨
    (reason ≠ some finalityConflict ∧ event.Resets ∧
      ∃ now maxBytes gap, event = .reset now maxBytes ∧ lane.gap = some gap ∧
        lane.resetFailedLiveLane p now maxBytes = .ok (step p lane event, gap) ∧
        (step p lane event).failedReason = none) := by
  obtain ⟨_, hrow⟩ := failedReason_eq_some.1 h
  cases event with
  | register now => exact .inl (congrArg Lane.runtime (registerProcessor_of_runtime hrow))
  | park now delta why required failed persistDelta =>
    left
    rcases @parkProcessorLiveLane_of_runtime lane p now required delta why failed
      persistDelta _ hrow with ⟨e, hp⟩ | hp
    · exact congrArg Lane.runtime (congrArg fst hp)
    · rw [step, hp, settle_fst]; exact park_runtime recordDelta_runtime h
  | parkAt now block why failed =>
    left
    rcases @parkProcessorLiveLaneAt_of_runtime lane now block why failed _ hrow with
      ⟨e, hp⟩ | hp
    · exact congrArg Lane.runtime (congrArg fst hp)
    · rw [step, hp, settle_fst]
      refine park_runtime (fun hrcd => ?_) h
      obtain ⟨-, -, -, rfl⟩ := insertGap_eq_ok.1 hrcd; rfl
  | advance now applied next => exact .inl advance_runtime
  | rebase now reverted replacement => exact .inl rebase_runtime
  | complete now expected => exact .inl (complete_runtime h)
  | reset now maxBytes =>
    cases hr : lane.resetFailedLiveLane p now maxBytes with
    | error e =>
      left; rw [step, hr, commit_error]
    | ok out =>
      obtain ⟨hconflict, hgap, hnone⟩ := reset_spec hr
      have hstep : step p lane (.reset now maxBytes) = out.1 := by rw [step, hr]; rfl
      refine .inr (.inr ⟨fun hc => hconflict (hc ▸ h), trivial, now, maxBytes, out.2, rfl, hgap, ?_, ?_⟩)
      · rw [hr, hstep]
      · rw [hstep, hnone]
  | fail now why =>
    rcases @fail_spec lane reason p now why h with hf | ⟨hwhy, hf, -⟩
    · exact .inl (congrArg Lane.runtime hf)
    · exact .inr (.inl ⟨hwhy, hf⟩)
  | pause now why => exact .inl (congrArg Lane.runtime (pause_of_failed h))
  | resume now => exact .inl (congrArg Lane.runtime (resume_of_failed h))
  | enforce now demand => exact .inl (congrArg Lane.runtime (enforce_of_failed h))
  | prune now liveBytes maxBytes =>
    left
    rw [step, resumePruned]
    split
    · rw [resume_of_failed h]
    · rfl
  | persistDelta now delta => exact .inl (persistDelta_runtime h)
  | deletePendingDeltas gone => exact .inl rfl

theorem failedReason_congr {lane lane' : Lane} (h : lane'.runtime = lane.runtime) :
    lane'.failedReason = lane.failedReason := by
  rw [failedReason, h, failedReason]

theorem enforce_spec {now : Nat}
    {demand : Demand} : (lane.enforceDeliveryCapacity p now demand).1.gap = lane.gap ∧
    (lane.failedReason = none → (lane.enforceDeliveryCapacity p now demand).1.failedReason =
    some reason → reason = some singleBlockExceedsLimit ∨ reason = some spoolHardLimit) := by
  have hset : ∀ {lane : Lane} {state : ProcessorRunState} {why reason : Option String},
      (lane.setProcessorRunState now state why).failedReason = some reason → reason = why := by
    intro lane state why reason h
    obtain ⟨_, hrow⟩ := failedReason_eq_some.1 h
    obtain ⟨_, -, hrow⟩ := map_eq_some_iff.1 hrow
    exact (congrArg ProcessorRuntimeState.reason hrow).symm
  have hlimits : ∀ lane : Lane, (lane.enforceLimits now demand).1.gap = lane.gap ∧
      (lane.failedReason = none → (lane.enforceLimits now demand).1.failedReason = some reason →
        reason = some singleBlockExceedsLimit ∨ reason = some spoolHardLimit) := by
    intro lane
    rcases enforceLimits_spec lane now demand with h | ⟨-, state, h⟩
    · rw [h]; exact ⟨rfl, fun hnone hsome => absurd (hnone.symm.trans hsome) nofun⟩
    · rw [h]; exact ⟨rfl, fun _ hsome => .inr (hset hsome)⟩
  unfold enforceDeliveryCapacity
  dsimp only
  split
  · exact ⟨rfl, fun hnone hsome => absurd (hnone.symm.trans hsome) nofun⟩
  · exact ⟨rfl, fun hnone hsome => absurd (hnone.symm.trans hsome) nofun⟩
  · split
    · split
      · exact ⟨rfl, fun _ hsome => .inl (hset hsome)⟩
      · exact ⟨rfl, fun hnone hsome => absurd (hnone.symm.trans hsome) nofun⟩
    · split
      · split
        · exact ⟨rfl, fun hnone hsome => absurd (hnone.symm.trans hsome) nofun⟩
        · obtain ⟨hgap, hfailure⟩ := hlimits (lane.setProcessorRunState now .running none)
          refine ⟨hgap, fun _ => hfailure ?_⟩
          cases hrow : lane.runtime <;> simp [failedReason, setProcessorRunState, updateRuntime, hrow]
      · exact hlimits lane

theorem commit_unmarked {α : Type} {r : Except StoreError (Lane × α)} (hgap : lane.gap = none)
    (h : ∀ {lane' : Lane} {a : α}, r = .ok (lane', a) → lane'.gap = none) :
    (commit lane r).gap = none := by
  cases r with
  | error e => exact hgap
  | ok out => exact h rfl

variable {event : Event}

theorem step_unmarked (hgap : lane.gap = none) (h : ¬ event.Parks) :
    (step p lane event).gap = none := by
  have hmarked : ∀ block, lane.markedAt block = false := fun block => by rw [markedAt, hgap]; rfl
  cases event with
  | park | parkAt => exact absurd trivial h
  | register | resume | deletePendingDeltas => exact hgap
  | advance now applied next =>
    refine commit_unmarked hgap fun ha => ?_
    simp only [advanceLiveLaneGap, eq_ok, hmarked, false_eq_true] at ha
    obtain ⟨_, -, _, -, _, -, _, ha, -⟩ := ha; exact ha.elim
  | rebase now reverted replacement =>
    refine commit_unmarked hgap fun hr => ?_
    simp only [rebaseLiveLaneGap, bind_eq_ok, hmarked] at hr
    obtain ⟨_, -, _, -, _, -, _, -, hr⟩ := hr; rw [← (mk.inj (pure_eq_ok.1 hr)).1, hgap]
  | complete now expected =>
    refine commit_unmarked hgap fun hc => ?_
    simp only [completeLiveLaneGap, eq_ok, hmarked, false_eq_true] at hc
    obtain ⟨_, -, _, hc, -⟩ := hc; exact hc.elim
  | reset now maxBytes =>
    refine commit_unmarked hgap fun hr => ?_
    cases (reset_spec hr).2.1.symm.trans hgap
  | fail now why =>
    refine commit_unmarked hgap fun hf => ?_
    simp only [failProcessorLiveLane, bind_eq_ok] at hf
    obtain ⟨_, -, _, -, hf⟩ := hf
    split at hf <;> rw [← (mk.inj (pure_eq_ok.1 hf)).1, ← hgap]
    rfl
  | pause now why =>
    refine commit_unmarked hgap fun hp => ?_
    simp only [pauseProcessorLiveLane, bind_eq_ok] at hp
    obtain ⟨_, -, _, -, hp⟩ := hp; rw [← (mk.inj (pure_eq_ok.1 hp)).1, ← hgap]; rfl
  | enforce now demand => exact (@enforce_spec p lane none now demand).1.trans hgap
  | prune now liveBytes maxBytes =>
    rw [step, resumePruned]
    split <;> exact hgap
  | persistDelta now delta =>
    rw [step, Lane.persistDelta]
    split
    · exact hgap
    · rw [settle_fst]
      refine commit_unmarked hgap fun hinsert => ?_
      obtain ⟨_, hinsert, hd⟩ := bind_eq_ok.1 hinsert
      obtain ⟨-, -, rfl⟩ := insertPendingDelta_eq_ok.1 hinsert
      rw [← (mk.inj (pure_eq_ok.1 hd)).1, ← hgap]; rfl

theorem step_failedReason (h : lane.failedReason = some reason) (hreset : ¬ event.Resets) :
    (step p lane event).failedReason = some reason ∨
      (step p lane event).failedReason = some (some finalityConflict) := by
  rcases step_failed (p := p) h event with hr | ⟨-, hc⟩ | ⟨-, hr, -⟩
  · exact .inl ((failedReason_congr hr).trans h)
  · exact .inr hc
  · exact absurd hr hreset

theorem step_conflict (h : lane.failedReason = some (some finalityConflict)) (event : Event) :
    (step p lane event).failedReason = some (some finalityConflict) := by
  rcases step_failed (p := p) h event with hr | ⟨-, hc⟩ | ⟨hne, -⟩
  · exact (failedReason_congr hr).trans h
  · exact hc
  · exact absurd rfl hne

variable {events : List Event}

theorem run_conflict : ∀ {lane : Lane}, lane.failedReason = some (some finalityConflict) →
      (run p lane events).failedReason = some (some finalityConflict) := by
  induction events with
  | nil => exact fun h => h
  | cons event events ih => exact fun h => ih (step_conflict h event)

theorem run_failedReason : ∀ {lane : Lane}, lane.failedReason =
    some reason → (∀ event ∈ events, ¬ event.Resets) → (run p lane events).failedReason =
    some reason ∨ (run p lane events).failedReason = some (some finalityConflict) := by
  induction events with
  | nil => exact fun h _ => .inl h
  | cons event events ih =>
    intro lane h hreset
    rcases step_failedReason (p := p) h (hreset event mem_cons_self) with h | h
    · exact ih h (forall_mem_cons.1 hreset).2
    · exact .inr (run_conflict h :)

theorem Lane.AwaitsMarker.settled_step {limit : String} (h : lane.AwaitsMarker limit)
    (hreset : ¬ event.Resets) (hpark : ¬ event.Parks) (hconflict : ¬ event.Conflicts) :
    (step p lane event).AwaitsMarker limit where
  limit := h.limit
  failed := by
    rcases step_failed (p := p) h.failed event with hr | ⟨hc, -⟩ | ⟨-, hr, -⟩
    · exact (failedReason_congr hr).trans h.failed
    · exact absurd hc hconflict
    · exact absurd hr hreset
  unmarked := step_unmarked h.unmarked hpark

theorem run_awaits {limit : String} : ∀ {lane : Lane}, lane.AwaitsMarker limit →
      (∀ event ∈ events, ¬ event.Resets ∧ ¬ event.Parks ∧ ¬ event.Conflicts) →
      (run p lane events).AwaitsMarker limit := by
  induction events with
  | nil => exact fun h _ => h
  | cons event events ih =>
    intro lane h hquiet
    obtain ⟨hreset, hpark, hconflict⟩ := hquiet event mem_cons_self
    exact ih (h.settled_step hreset hpark hconflict) (forall_mem_cons.1 hquiet).2

theorem step_marked (h : lane.failedReason = some reason) (hgap : lane.gap ≠ none)
    (hpark : event.Parks) : step p lane event = lane := by
  obtain ⟨_, hrow⟩ := failedReason_eq_some.1 h
  have hstays : ∀ {now why failed rcd},
      (settle lane (lane.park now why failed rcd)).1 = lane := by
    intro now why failed rcd; rw [Lane.park, liveLaneParkGuard_of_marked h hgap]; rfl
  cases event with
  | park now delta why required failed persistDelta =>
    rcases @parkProcessorLiveLane_of_runtime lane p now required delta why failed
      persistDelta _ hrow with ⟨e, hp⟩ | hp
    · rw [step, hp]
    · rw [step, hp, hstays]
  | parkAt now block why failed =>
    rcases @parkProcessorLiveLaneAt_of_runtime lane now block why failed _ hrow with
      ⟨e, hp⟩ | hp
    · rw [step, hp]
    · rw [step, hp, hstays]
  | _ => exact hpark.elim

variable {limit why : String} {now requiredDeliveryBytes : Nat} {block : BlockRef}

variable {failed : Bool}

theorem Lane.AwaitsMarker.park_eq (h : lane.AwaitsMarker limit)
    {rcd : Lane → Except StoreError Lane} {marked : Lane} (hrcd : rcd lane = .ok marked) :
    settle lane (lane.park now why failed rcd) = (marked, .ok true) := by
  rw [Lane.park, h.guard]; rw [hrcd]; rfl

theorem Lane.Parkable.insertGap (h : Parkable block why requiredDeliveryBytes) (hgap : lane.gap = none) :
    lane.insertGap now block requiredDeliveryBytes why =
      .ok { lane with gap := some ⟨block, requiredDeliveryBytes, why, now, now⟩ } := by
  rw [insertGap_eq_ok, hgap]; exact ⟨h.number, h.timestamp, h.required, rfl⟩

theorem park_marks {delta : EncodedDelta} {persist : Bool} (h : lane.AwaitsMarker limit)
    (hpark : Parkable delta.block why requiredDeliveryBytes)
    (hdelta : lane.DeltaParkable p delta persist) :
    ∃ after, lane.parkProcessorLiveLane p now delta why requiredDeliveryBytes failed persist =
        (after, .ok true) ∧ lane.Marked now delta.block why requiredDeliveryBytes after ∧
      (persist = true → after.pending[(delta.block.number, delta.block.hash)]? = some delta) := by
  obtain ⟨_, hrow⟩ := failedReason_eq_some.1 h.failed
  have hchecks : (do checkParkReason why; validateDelta p delta) = .ok () := by
    rw [checkParkReason, ensure_of _ hpark.reasoned, ok_bind, hdelta.valid]
  have hpark' : lane.parkProcessorLiveLane p now delta why requiredDeliveryBytes failed persist =
      settle lane (lane.park now why failed
        (recordDelta now delta why requiredDeliveryBytes persist)) := by
    rw [Lane.parkProcessorLiveLane, hchecks]; rw [registerProcessor_of_runtime hrow]
  rw [hpark']
  cases persist with
  | false =>
    have hrcd : recordDelta now delta why requiredDeliveryBytes false lane =
        .ok { lane with gap := some ⟨delta.block, requiredDeliveryBytes, why, now, now⟩ } :=
      hpark.insertGap h.unmarked
    exact ⟨_, h.park_eq hrcd, ⟨rfl, rfl⟩, nofun⟩
  | true =>
    have hstore : lane.pending[(delta.block.number, delta.block.hash)]?.getD delta = delta := by
      cases hs : lane.pending[(delta.block.number, delta.block.hash)]? with
      | none => rfl
      | some stored => exact hdelta.agrees rfl stored hs
    have hinsert : lane.insertPendingDelta delta "live gap block number" = .ok { lane with
        pending := lane.pending.insert (delta.block.number, delta.block.hash) delta } :=
      insertPendingDelta_eq_ok.2 ⟨hpark.number, hstore, rfl⟩
    have hrcd : recordDelta now delta why requiredDeliveryBytes true lane = .ok { lane with
          pending := lane.pending.insert (delta.block.number, delta.block.hash) delta
          gap := some ⟨delta.block, requiredDeliveryBytes, why, now, now⟩ } := by
      rw [recordDelta, if_pos rfl, hinsert, ok_bind, hpark.insertGap]; exact h.unmarked
    exact ⟨_, h.park_eq hrcd, ⟨rfl, rfl⟩, fun _ => Table.getElem?_insert_self ..⟩

theorem parkAt_marks (h : lane.AwaitsMarker limit) (hpark : Parkable block why 0) :
    ∃ after, lane.parkProcessorLiveLaneAt now block why failed = (after, .ok true) ∧
      lane.Marked now block why 0 after := by
  obtain ⟨_, hrow⟩ := failedReason_eq_some.1 h.failed
  have hpark' : lane.parkProcessorLiveLaneAt now block why failed =
      settle lane (lane.park now why failed fun lane => lane.insertGap now block 0 why) := by
    rw [Lane.parkProcessorLiveLaneAt, checkParkReason, ensure_of _ hpark.reasoned]
    rw [registerProcessor_of_runtime hrow]
  rw [hpark']; exact ⟨_, h.park_eq (hpark.insertGap h.unmarked), ⟨rfl, rfl⟩⟩

/-- In every interleaving, what a failure means holds of the lane that results. -/
theorem run_latched (p : Processor) (events : List Event) : Latched p (run p .new events) where
  resetOnly h hleft := by
    rcases step_failed (p := p) h _ with hr | ⟨-, hc⟩ | ⟨-, -, now, maxBytes, gap, he, hgap, hok, -⟩
    · exact absurd (hleft.symm.trans ((failedReason_congr hr).trans h)) nofun
    · exact absurd (hleft.symm.trans hc) nofun
    · exact ⟨now, maxBytes, gap, he, hgap, hok⟩
  reasonKept h h' := by
    rcases step_failed (p := p) h _ with hr | ⟨-, hc⟩ | ⟨-, -, _, _, _, -, -, -, hnone⟩
    · exact .inl (some.inj (h'.symm.trans ((failedReason_congr hr).trans h)))
    · exact .inr (some.inj (h'.symm.trans hc))
    · exact absurd (hnone.symm.trans h') nofun
  failedKept := run_failedReason
  conflictKept := run_conflict
  markerKept h hgap hpark := step_marked h hgap hpark
  limitFailure h h' := ⟨enforce_spec.2 h h', (@enforce_spec _ _ none _ _).1⟩
  awaits := run_awaits
  parkMarks := park_marks
  parkAtMarks := parkAt_marks

example (p : Processor) :
    (run p .new [.register 0, .enforce 1 ⟨.live, none, 0, 11, 1, 10, .pause, .ok none⟩]).AwaitsMarker
      singleBlockExceedsLimit := ⟨.inl rfl, rfl, rfl⟩

end Leani.LiveLane
