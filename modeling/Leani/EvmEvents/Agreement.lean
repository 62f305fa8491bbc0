import Leani.EvmEvents.Mapping

/-!
# One block, one delta

Frames of one block map to one delta, whether their logs are complete or filtered to a scope that
covers the processor's filter, and in whatever order they come. The deltas of the block at other
finality levels are its variants.
-/

namespace Leani.EvmEvents

open Library Std Filtering List Option Table BigEndian EventDelta EvmEventsProcessor

/-! ## Traversals -/

namespace MappedLog

def event? : MappedLog → Option MappedEvent
  | event e => some e
  | ignored | skipped => none

def isSkipped : MappedLog → Bool
  | skipped => true
  | ignored | event _ => false

def withFinality (finality : Finality) : MappedLog → MappedLog
  | ignored => ignored
  | skipped => skipped
  | event e => event { e with entity := { e.entity with finality } }

end MappedLog

def skippedMax : Nat := 2 ^ 32 - 1

variable {tools : Tools} {processor : EvmEventsProcessor} {block block' : ChainFrame}

variable {logs : List Log}

theorem mapLogs_eq_ok {evs : List MappedEvent} {skipped : Nat} {delta : EventDelta}
    (hskipped : skipped ≤ skippedMax) : processor.mapLogs tools block logs evs skipped =
    .ok delta ↔ ∃ outcomes, logs.mapM (processor.mapLog tools block) =
    .ok outcomes ∧ delta = ⟨evs ++ outcomes.filterMap MappedLog.event?,
    min (skipped + outcomes.countP MappedLog.isSkipped) skippedMax⟩ := by
  induction logs generalizing evs skipped with
  | nil =>
    rw [mapLogs, pure_eq_ok, mapM_nil]
    constructor
    · rintro rfl
      refine ⟨[], rfl, ?_⟩
      rw [filterMap_nil, append_nil, countP_nil, Nat.add_zero, Nat.min_eq_left hskipped]
    · rintro ⟨_, h, rfl⟩
      cases h; rw [filterMap_nil, append_nil, countP_nil, Nat.add_zero, Nat.min_eq_left hskipped]
  | cons log logs ih =>
    simp only [mapLogs, bind_eq_ok, mapM_cons_eq_ok]
    constructor
    · rintro ⟨outcome, houtc, h⟩
      cases outcome with
      | ignored =>
        obtain ⟨outcomes, houtcs, rfl⟩ := (ih hskipped).1 h
        exact ⟨_, ⟨_, _, houtc, houtcs, rfl⟩, rfl⟩
      | skipped =>
        obtain ⟨outcomes, houtcs, rfl⟩ := (ih (Nat.min_le_right _ _)).1 h
        refine ⟨_, ⟨_, _, houtc, houtcs, rfl⟩, ?_⟩
        rw [countP_cons_of_pos rfl, EventDelta.mk.injEq]
        refine ⟨rfl, ?_⟩
        rw [skippedMax]; omega
      | event event =>
        obtain ⟨outcomes, houtcs, rfl⟩ := (ih hskipped).1 h
        refine ⟨_, ⟨_, _, houtc, houtcs, rfl⟩, ?_⟩
        rw [append_assoc]; rfl
    · rintro ⟨_, ⟨outcome, outcomes, houtc, houtcs, rfl⟩, rfl⟩
      refine ⟨outcome, houtc, ?_⟩
      cases outcome with
      | ignored => exact (ih hskipped).2 ⟨outcomes, houtcs, rfl⟩
      | skipped =>
        refine (ih (Nat.min_le_right _ _)).2 ⟨outcomes, houtcs, ?_⟩
        rw [countP_cons_of_pos rfl, EventDelta.mk.injEq]
        refine ⟨rfl, ?_⟩
        rw [skippedMax]; omega
      | event event =>
        refine (ih hskipped).2 ⟨outcomes, houtcs, ?_⟩
        rw [append_assoc]; rfl

/-! ## Order -/

theorem sortEvents_of_perm {evs evs' : List MappedEvent} (h : evs.Perm evs')
    (hnodup : (evs.map fun event => event.entity.logIndex).Nodup) :
    sortEvents evs = sortEvents evs' := by
  have htrans : ∀ a b c : MappedEvent, decide (a.sortKey ≤ b.sortKey) = true →
      decide (b.sortKey ≤ c.sortKey) = true → decide (a.sortKey ≤ c.sortKey) = true := by
    intro a b c hab hbc; rw [decide_eq_true_iff] at *; exact hab.trans hbc
  have htotal : ∀ a b : MappedEvent,
      (decide (a.sortKey ≤ b.sortKey) || decide (b.sortKey ≤ a.sortKey)) = true := by
    intro a b
    rw [Bool.or_eq_true, decide_eq_true_iff, decide_eq_true_iff]; exact le_total _ _
  have hperm : (sortEvents evs).Perm (sortEvents evs') :=
    (mergeSort_perm _ _).trans (h.trans (mergeSort_perm _ _).symm)
  refine List.Perm.eq_of_pairwise ?_ (pairwise_mergeSort htrans htotal evs)
    (pairwise_mergeSort htrans htotal evs') hperm
  intro a b ha hb hab hba
  rw [decide_eq_true_iff] at hab hba
  have hkey := hab.antisymm hba
  have hindex := congrArg (fun key => (ofLex (ofLex key).2).1) hkey
  have ha := (mergeSort_perm _ _).mem_iff.1 ha
  have hb := h.mem_iff.2 ((mergeSort_perm _ _).mem_iff.1 hb)
  exact inj_on_of_nodup_map hnodup ha hb hindex

theorem sortEvents_withFinality (evs : List MappedEvent) (finality : Finality) :
    sortEvents (evs.map fun event => { event with entity := { event.entity with finality } }) =
      (sortEvents evs).map fun event => { event with entity := { event.entity with finality } } := by
  unfold sortEvents
  rw [map_mergeSort]
  intro _ _ _ _; rfl

/-! ## Outcomes -/

structure SameBlock (block block' : ChainFrame) : Prop where
  blockRef : block'.block = block.block
  chainId : block'.chainId = block.chainId

theorem outputKey_entityOf (h : SameBlock block block') (event : ParsedEvent) (log : Log)
    (hash : TransactionHash) (vals : Table String String) :
    outputKey tools event (entityOf block' event log hash vals) =
      outputKey tools event (entityOf block event log hash vals) := by
  have hfld : ∀ field, keyFieldValue (entityOf block' event log hash vals) field =
        keyFieldValue (entityOf block event log hash vals) field := by
    intro field
    unfold keyFieldValue entityOf; rw [h.blockRef]
  unfold outputKey; simp only [hfld]; rfl

variable {log : Log} {outcome : MappedLog}

theorem mapLog_eq_ok (h : SameBlock block block')
    (hmap : processor.mapLog tools block log = .ok outcome) :
    processor.mapLog tools block' log = .ok (outcome.withFinality block'.finality) := by
  unfold mapLog at *
  cases hevent : processor.eventOf log with
  | none =>
    simp only [hevent, pure_eq_ok] at hmap ⊢; rw [← hmap]; rfl
  | some event =>
    simp only [hevent, eq_ok] at hmap ⊢
    obtain ⟨hash, hhash, hmap⟩ := hmap
    refine ⟨hash, hhash, ?_⟩
    cases hvals : logValues tools event log with
    | none =>
      simp only [hvals, pure_eq_ok] at hmap ⊢; rw [← hmap]; rfl
    | some values =>
      simp only [hvals, eq_ok] at hmap ⊢
      obtain ⟨key, hkey, rfl⟩ := hmap
      refine ⟨key, (outputKey_entityOf h event log hash values).trans hkey, ?_⟩
      simp only [MappedLog.withFinality, entityOf, h.blockRef]

theorem mapLog_ignored (h : processor.eventOf log = none) :
    processor.mapLog tools block log = .ok .ignored := by
  unfold mapLog; rw [h]; rfl

theorem of_mapLog_event {event : MappedEvent}
    (h : processor.mapLog tools block log = .ok (.event event)) :
    event.entity.logIndex = log.logIndex ∧ event.entity.finality = block.finality := by
  unfold mapLog at h
  cases hevent : processor.eventOf log with
  | none =>
    rw [hevent] at h; cases h
  | some parsed =>
    simp only [hevent, bind_eq_ok] at h
    obtain ⟨_, -, h⟩ := h
    cases hvals : logValues tools parsed log with
    | none =>
      rw [hvals] at h; cases h
    | some values =>
      simp only [hvals, eq_ok, MappedLog.event.injEq] at h
      obtain ⟨_, -, rfl⟩ := h; exact ⟨rfl, rfl⟩

def outcomeOf (tools : Tools) (processor : EvmEventsProcessor) (block : ChainFrame) (log : Log) :
    MappedLog :=
  match processor.mapLog tools block log with
  | .ok outcome => outcome
  | .error _ => .ignored

theorem outcomeOf_eq (h : processor.mapLog tools block log = .ok outcome) :
    outcomeOf tools processor block log = outcome := by
  rw [outcomeOf, h]

theorem outcomeOf_ignored (h : processor.eventOf log = none) :
    outcomeOf tools processor block log = .ignored :=
  outcomeOf_eq (mapLog_ignored h)

def AllMap (tools : Tools) (processor : EvmEventsProcessor) (block : ChainFrame) (logs : List Log) :
    Prop :=
  ∀ log ∈ logs, ∃ outcome, processor.mapLog tools block log = .ok outcome

theorem mapM_mapLog_eq_ok {outcomes : List MappedLog} :
    logs.mapM (processor.mapLog tools block) = .ok outcomes ↔
      AllMap tools processor block logs ∧ outcomes = logs.map (outcomeOf tools processor block) := by
  induction logs generalizing outcomes with
  | nil =>
    rw [mapM_nil, pure_eq_ok]; exact ⟨fun h => ⟨nofun, h.symm⟩, fun h => h.2.symm⟩
  | cons log logs ih =>
    rw [mapM_cons_eq_ok]
    constructor
    · rintro ⟨outcome, outcomes, hlog, hlogs, rfl⟩
      obtain ⟨hall, rfl⟩ := ih.1 hlogs
      refine ⟨forall_mem_cons.2 ⟨⟨outcome, hlog⟩, hall⟩, ?_⟩
      rw [map_cons, outcomeOf_eq hlog]
    · rintro ⟨hall, rfl⟩
      obtain ⟨⟨outcome, hlog⟩, hlogs⟩ := forall_mem_cons.1 hall
      refine ⟨outcome, _, hlog, ih.2 ⟨hlogs, rfl⟩, ?_⟩
      rw [map_cons, outcomeOf_eq hlog]

def eventsOf (tools : Tools) (processor : EvmEventsProcessor) (block : ChainFrame)
    (logs : List Log) : List MappedEvent :=
  logs.filterMap fun log => (outcomeOf tools processor block log).event?

def deltaOf (tools : Tools) (processor : EvmEventsProcessor) (block : ChainFrame)
    (logs : List Log) : EventDelta where
  events := sortEvents (eventsOf tools processor block logs)
  skippedLogs :=
    min (logs.countP fun log => (outcomeOf tools processor block log).isSkipped) skippedMax

variable {delta : EncodedDelta}

theorem map_eq_ok : processor.map tools block = .ok delta ↔
    processor.descriptor.requirement.validateFrame block.toBlockFrame = .ok () ∧
      ∃ logs, acceptedLogs block.logs = .ok logs ∧ AllMap tools processor block logs ∧
        delta = EncodedDelta.new tools processor.descriptor block.chainId block.block
          (tools.encodeDelta (deltaOf tools processor block logs)) := by
  have hvalidate : ∀ {u : Unit},
      (processor.descriptor.requirement.validateFrame block.toBlockFrame).mapError
        ProcessorError.input = .ok u ↔
          processor.descriptor.requirement.validateFrame block.toBlockFrame = .ok () := by
    intro u
    cases processor.descriptor.requirement.validateFrame block.toBlockFrame with
    | ok v => exact iff_of_true rfl rfl
    | error e => exact iff_of_false nofun nofun
  simp only [EvmEventsProcessor.map, eq_ok, hvalidate, mapLogs_eq_ok (Nat.zero_le _),
    mapM_mapLog_eq_ok]
  constructor
  · rintro ⟨_, hfrm, logs, hlogs, _, ⟨_, ⟨hall, rfl⟩, rfl⟩, rfl⟩
    refine ⟨hfrm, logs, hlogs, hall, ?_⟩
    simp only [deltaOf, eventsOf, nil_append, filterMap_map, countP_map, Nat.zero_add]; rfl
  · rintro ⟨hfrm, logs, hlogs, hall, rfl⟩
    refine ⟨(), hfrm, logs, hlogs, _, ⟨_, ⟨hall, rfl⟩, rfl⟩, ?_⟩
    simp only [deltaOf, eventsOf, nil_append, filterMap_map, countP_map, Nat.zero_add]; rfl

/-! ## Lists of logs -/

structure SameLogs (processor : EvmEventsProcessor) (logs logs' : List Log) : Prop where
  perm : (logs.filter fun log => (processor.eventOf log).isSome).Perm
    (logs'.filter fun log => (processor.eventOf log).isSome)
  nodup : (logs.map Log.logIndex).Nodup

theorem filterMap_relevant {β : Type} {f : Log → Option β}
    (h : ∀ log, processor.eventOf log = none → f log = none) (logs : List Log) :
    (logs.filter fun log => (processor.eventOf log).isSome).filterMap f = logs.filterMap f := by
  rw [filterMap_filter]
  refine filterMap_congr fun log _ => ?_
  cases hevent : processor.eventOf log with
  | none => rw [h log hevent]; rfl
  | some event => rfl

theorem countP_relevant {p : Log → Bool}
    (h : ∀ log, processor.eventOf log = none → p log = false) (logs : List Log) :
    (logs.filter fun log => (processor.eventOf log).isSome).countP p = logs.countP p := by
  rw [countP_filter]
  refine countP_congr fun log _ => ?_
  cases hevent : processor.eventOf log with
  | none => simp [h log hevent]
  | some event => simp

theorem nodup_eventsOf (hnodup : (logs.map Log.logIndex).Nodup)
    (hall : AllMap tools processor block logs) :
    ((eventsOf tools processor block logs).map fun event => event.entity.logIndex).Nodup := by
  have hsub : ((eventsOf tools processor block logs).map fun event => event.entity.logIndex).Sublist
      (logs.map Log.logIndex) := by
    unfold eventsOf
    induction logs with
    | nil => exact List.Sublist.refl _
    | cons log logs ih =>
      obtain ⟨⟨outcome, hlog⟩, hlogs⟩ := forall_mem_cons.1 hall
      rw [map_cons, nodup_cons] at hnodup
      rw [filterMap_cons, outcomeOf_eq hlog]
      cases outcome with
      | ignored => exact (ih hnodup.2 hlogs).cons _
      | skipped => exact (ih hnodup.2 hlogs).cons _
      | event event =>
        simp only [MappedLog.event?, map_cons, (of_mapLog_event hlog).1]
        exact (ih hnodup.2 hlogs).cons_cons _
  exact hnodup.sublist hsub

variable {logs' : List Log}

theorem deltaOf_of_sameLogs (h : SameLogs processor logs logs')
    (hall : AllMap tools processor block logs) :
    deltaOf tools processor block logs = deltaOf tools processor block logs' := by
  have hevs : (eventsOf tools processor block logs).Perm (eventsOf tools processor block logs') := by
    have hnone : ∀ log, processor.eventOf log = none →
        (outcomeOf tools processor block log).event? = none := by
      intro log hlog; rw [outcomeOf_ignored hlog]; rfl
    unfold eventsOf
    rw [← filterMap_relevant hnone logs, ← filterMap_relevant hnone logs']; exact h.perm.filterMap _
  have hskipped : ∀ log, processor.eventOf log = none →
      (outcomeOf tools processor block log).isSkipped = false := by
    intro log hlog; rw [outcomeOf_ignored hlog]; rfl
  unfold deltaOf
  rw [sortEvents_of_perm hevs (nodup_eventsOf h.nodup hall),
    ← countP_relevant hskipped logs, ← countP_relevant hskipped logs', h.perm.countP_eq]

theorem allMap_of_sameLogs (h : SameLogs processor logs logs')
    (hall : AllMap tools processor block logs) : AllMap tools processor block logs' := by
  intro log hlog
  cases hevent : processor.eventOf log with
  | none => exact ⟨_, mapLog_ignored hevent⟩
  | some event =>
    have hmem := h.perm.mem_iff.2 (mem_filter.2 ⟨hlog, by rw [hevent]; rfl⟩)
    exact hall log (mem_of_mem_filter hmem)

theorem allMap_of_sameBlock (h : SameBlock block block')
    (hall : AllMap tools processor block logs) : AllMap tools processor block' logs := by
  intro log hlog
  obtain ⟨_, hmap⟩ := hall log hlog; exact ⟨_, mapLog_eq_ok h hmap⟩

theorem deltaOf_of_sameBlock (h : SameBlock block block') (hall : AllMap tools processor block logs) :
    deltaOf tools processor block' logs =
      (deltaOf tools processor block logs).withFinality block'.finality := by
  have houtc : ∀ log ∈ logs, outcomeOf tools processor block' log =
      (outcomeOf tools processor block log).withFinality block'.finality := by
    intro log hlog
    obtain ⟨_, hmap⟩ := hall log hlog; rw [outcomeOf_eq (mapLog_eq_ok h hmap), outcomeOf_eq hmap]
  have hevs : eventsOf tools processor block' logs =
      (eventsOf tools processor block logs).map fun event =>
        { event with entity := { event.entity with finality := block'.finality } } := by
    unfold eventsOf
    rw [map_filterMap]
    refine filterMap_congr fun log hlog => ?_
    rw [houtc log hlog]
    cases outcomeOf tools processor block log <;> rfl
  have hskipped : (logs.countP fun log => (outcomeOf tools processor block' log).isSkipped) =
      logs.countP fun log => (outcomeOf tools processor block log).isSkipped := by
    refine countP_congr fun log hlog => ?_
    rw [houtc log hlog]
    cases outcomeOf tools processor block log <;> rfl
  unfold deltaOf withFinality; rw [hevs, hskipped, sortEvents_withFinality]

/-! ## Construction -/

structure ParsedEvent.Checked (tools : Tools) (event : ParsedEvent) : Prop where
  keys : ∃ keys : ExtTreeSet String, (event.abi = none ∧ keys = .ofList ["data"] ∨ ∃ abi fragment,
    event.abi = some abi ∧ parse tools.alloy fragment = .ok abi ∧ keys = abi.valueKeys) ∧
    ∀ field ∈ event.output.keyFields, if field = "_bucket_start" then
      event.output.bucketSeconds ≠ none else field ∈ keys

variable {event : ParsedEvent}

theorem parseEvent_checked {definition : EventDefinition}
    (h : parseEvent tools definition = .ok event) : event.Checked tools := by
  simp only [parseEvent, bind_eq_ok] at h
  obtain ⟨-, -, ⟨_, keys⟩, hread, _, hflds, h⟩ := h
  cases pure_eq_ok.1 h
  have hchk : ∀ field ∈ definition.output.keyFields, if field = "_bucket_start" then
      definition.output.bucketSeconds ≠ none else field ∈ keys := by
    intro field hfld
    have hok := forall_of_foldExcept_eq_ok hflds field hfld
    simp only [eq_ok] at hok
    obtain ⟨-, hkey, hbucket⟩ := hok
    split
    · rename_i hname; exact hbucket hname
    · rename_i hname; exact hkey.resolve_left hname
  unfold parseFragment at hread
  split at hread
  · cases pure_eq_ok.1 hread; exact ⟨⟨_, .inl ⟨rfl, rfl⟩, hchk⟩⟩
  · simp only [bind_eq_ok] at hread
    obtain ⟨abi, habi, hread⟩ := hread
    cases pure_eq_ok.1 hread
    cases hparse : tools.readEvent definition.abi >>= parse tools.alloy with
    | error e =>
      rw [hparse] at habi; cases habi
    | ok result =>
      rw [hparse] at habi
      cases habi
      obtain ⟨fragment, -, hfragment⟩ := bind_eq_ok.1 hparse
      exact ⟨⟨_, .inr ⟨_, fragment, rfl, hfragment, rfl⟩, hchk⟩⟩

structure EvmEventsProcessor.Built (tools : Tools) (processor : EvmEventsProcessor) : Prop where
  requirement : processor.descriptor.requirement = {
    capabilities := .of .logs
    logFields := ⟨LogField.transactionHash.bit⟩
    allowFiltered := true
    filter := { FilterScope.wildcard with
      addresses := processor.addresses.toList
      topics := if processor.log0.isSome then [] else [⟨0, processor.events.keys⟩] }
    minimumFinality := .unattested }
  events : ∀ (topic : Topic) (event : ParsedEvent), processor.events[topic]? = some event →
    event.Checked tools
  log0 : ∀ event, processor.log0 = some event → event.Checked tools

variable {config : EvmEventsConfig}

theorem built_of_new (h : new tools config = .ok processor) : processor.Built tools := by
  simp only [new, bind_eq_ok] at h
  obtain ⟨-, -, ⟨evs, log0⟩, hfold, -, -, h⟩ := h
  cases pure_eq_ok.1 h
  have hall : (∀ (topic : Topic) (event : ParsedEvent), evs[topic]? = some event →
      event.Checked tools) ∧ ∀ event, log0 = some event → event.Checked tools := by
    refine foldExcept_invariant (fun parsed : Table Topic ParsedEvent × Option ParsedEvent =>
        (∀ (topic : Topic) (event : ParsedEvent), parsed.1[topic]? = some event →
          event.Checked tools) ∧ ∀ event, parsed.2 = some event → event.Checked tools)
      ?_ ⟨fun topic event h => (not_mem_empty h).elim, fun event h => by cases h⟩ hfold
    rintro ⟨evs, log0⟩ _ ⟨_, _⟩ - ⟨hevs, hlog0⟩ hadd
    simp only [addDefinition, bind_eq_ok] at hadd
    obtain ⟨event, hevent, hadd⟩ := hadd
    have hchk := parseEvent_checked hevent
    split at hadd
    · simp only [bind_eq_ok] at hadd
      obtain ⟨-, -, hadd⟩ := hadd
      cases pure_eq_ok.1 hadd; exact ⟨hevs, fun _ h => some.inj h ▸ hchk⟩
    · simp only [bind_eq_ok] at hadd
      obtain ⟨-, -, hadd⟩ := hadd
      cases pure_eq_ok.1 hadd
      refine ⟨fun topic other hother => ?_, hlog0⟩
      rw [get?_insert_ite] at hother
      split at hother
      · exact some.inj hother ▸ hchk
      · exact hevs topic other hother
  exact ⟨rfl, hall.1, hall.2⟩

theorem EvmEventsProcessor.Built.matchesLog (hbuilt : processor.Built tools)
    (h : (processor.eventOf log).isSome) : processor.descriptor.requirement.filter.matchesLog
      log.address (log.topics.map Vector.toList) = true := by
  unfold eventOf at h
  split at h
  · rename_i haddr
    rw [Bool.or_eq_true] at haddr
    rw [hbuilt.requirement, FilterScope.matchesLog, Bool.and_eq_true]
    refine ⟨?_, ?_⟩
    · rw [FilterScope.matchesLogAddress, listMatches_iff]
      rcases haddr with hempty | hmem
      · left; rw [← List.isEmpty_iff, ExtTreeSet.isEmpty_toList]; exact hempty
      · right; exact ⟨log.address, ExtTreeSet.mem_toList.2 hmem, rfl⟩
    · cases hlog0 : processor.log0 with
      | some event => rfl
      | none =>
        cases htopics : log.topics with
        | nil =>
          rw [htopics, hlog0] at h; cases h
        | cons topic0 topics =>
          rw [htopics] at h
          obtain ⟨event, hevent⟩ := isSome_iff_exists.1 h
          simp only [isSome_none, Bool.false_eq_true, if_false, all_cons, all_nil,
            Bool.and_true, map_cons]
          rw [show (0 : UInt8).toNat = 0 from rfl, List.getElem?_cons_zero, Option.any_some,
            List.any_eq_true]
          exact ⟨topic0, ExtTreeMap.mem_keys.2 (Table.mem_of_getElem? hevent), by simp⟩
  · cases h

/-! ## Frames -/

def Indexed (contents : BlockContents) : Prop :=
  ((contents.transactions.flatMap BlockTransaction.logs).map Log.logIndex).Nodup

/-- A frame of the block that the requirement accepts, with logs: all of them, or those a scope
matches that covers the filter, in any order. -/
structure Given (processor : EvmEventsProcessor) (contents : BlockContents) (block : ChainFrame) :
    Prop where
  accepted : processor.descriptor.requirement.validateFrame block.toBlockFrame = .ok ()
  present : block.logs.isPresent = true
  truthful : block.toBlockFrame.Truthful contents
  genuine : ∀ given ∈ block.logs.asPresent.getD [], ∃ transaction ∈ contents.transactions,
    ∃ log ∈ transaction.logs, given.Shows log
  nodup : ((block.logs.asPresent.getD []).map Log.logIndex).Nodup

variable {contents : BlockContents}

theorem eq_of_index (hidx : Indexed contents) {tx tx' : BlockTransaction} {log' : Log}
    (ht : tx ∈ contents.transactions) (hlog : log ∈ tx.logs) (ht' : tx' ∈ contents.transactions)
    (hlog' : log' ∈ tx'.logs) (h : log.logIndex = log'.logIndex) : log = log' :=
  inj_on_of_nodup_map hidx (mem_flatMap.2 ⟨_, ht, hlog⟩) (mem_flatMap.2 ⟨_, ht', hlog'⟩) h

theorem Given.accepts (h : Given processor contents block) :
    processor.descriptor.requirement.Accepts block.toBlockFrame :=
  DataRequirement.validateFrame_eq_ok.1 h.accepted

section

variable (hbuilt : processor.Built tools)

include hbuilt

theorem Given.transactionHash (h : Given processor contents block) {log : Log}
    (hlog : log ∈ block.logs.asPresent.getD []) : log.transactionHash.isSome := by
  have hfld : (⟨LogField.transactionHash.bit⟩ : LogFieldSet).contains .transactionHash = true := by
    decide
  refine BlockFrame.transactionHash_of_mem_logs (h.accepts.logFields ?_) hlog
  rw [hbuilt.requirement]; exact hfld

theorem Given.acceptedLogs (h : Given processor contents block) :
    acceptedLogs block.logs = .ok (block.logs.asPresent.getD []) := by
  have hclaims := h.accepts.claims (by rw [hbuilt.requirement])
  have hpres := h.present
  cases hlogs : block.logs with
  | complete logs => rfl
  | filtered logs scope completeness =>
    have hclaim := hclaims .logs scope completeness (show block.logs.filterClaim = _ by rw [hlogs]; rfl)
      ⟨.logs, by rw [hbuilt.requirement]; exact CapabilitySet.contains_of.2 rfl, .inl rfl⟩
    simp only [EvmEvents.acceptedLogs, Filtering.Material.asPresent, eq_ok]
    exact ⟨(), hclaim.1, rfl⟩
  | missing =>
    rw [hlogs] at hpres; cases hpres

theorem Given.mem (hidx : Indexed contents) (h : Given processor contents block)
    (h' : Given processor contents block') {log : Log} (hlog : log ∈ block.logs.asPresent.getD [])
    (hev : (processor.eventOf log).isSome) : log ∈ block'.logs.asPresent.getD [] := by
  obtain ⟨tx, ht, true_, htrue, hshows⟩ := h.genuine log hlog
  have hmatch : (BlockItem.log tx true_).matchesAt
      processor.descriptor.requirement.filter block'.block.number = true := by
    have hlogMatches := hbuilt.matchesLog hev
    rw [hshows.1.1, hshows.1.2.1] at hlogMatches
    simp only [BlockItem.matchesAt, Bool.and_eq_true]
    refine ⟨⟨?_, ?_⟩, hlogMatches⟩
    · rw [hbuilt.requirement]; rfl
    · rw [hbuilt.requirement]; rfl
  have hpres : (block'.toBlockFrame.capabilities.components
      processor.descriptor.requirement.allowFiltered).contains .logs = true := by
    rw [hbuilt.requirement]
    refine BlockFrame.contains_present.2 ?_
    exact BlockFrame.isPresent_iff.1 h'.present
  obtain ⟨given, hgiven, hsame⟩ : block'.toBlockFrame.Carries .logs (.log tx true_) :=
    h'.accepts.carries h'.truthful (by rw [hbuilt.requirement]; exact CapabilitySet.contains_of.2 rfl)
      hpres (.inl rfl) rfl ⟨ht, htrue⟩ hmatch
  obtain ⟨_, ht', _, hother, hshows'⟩ := h'.genuine given hgiven
  have hindex := hshows'.1.2.2.2.2.symm.trans hsame.2.2.2.2
  obtain rfl := eq_of_index hidx ht' hother ht htrue hindex
  obtain ⟨hash, hhash⟩ := isSome_iff_exists.1 (h.transactionHash hbuilt hlog)
  obtain ⟨hash', hhash'⟩ := isSome_iff_exists.1 (h'.transactionHash hbuilt hgiven)
  have hequal := some.inj ((hshows.2 hash hhash).symm.trans (hshows'.2 hash' hhash'))
  have heq : log = given := by
    obtain ⟨⟨_, _, _, _, _⟩, -⟩ := hshows
    obtain ⟨_, _, _, _, _⟩ := hsame
    cases log
    cases given
    simp_all
  rwa [heq]

theorem Given.sameLogs (hidx : Indexed contents) (h : Given processor contents block)
    (h' : Given processor contents block') :
    SameLogs processor (block.logs.asPresent.getD []) (block'.logs.asPresent.getD []) := by
  refine ⟨?_, h.nodup⟩
  rw [perm_ext_iff_of_nodup (h.nodup.of_map.filter _) (h'.nodup.of_map.filter _)]
  intro _
  rw [mem_filter, mem_filter]
  exact ⟨fun ⟨hlog, hevent⟩ => ⟨h.mem hbuilt hidx h' hlog hevent, hevent⟩,
    fun ⟨hlog, hevent⟩ => ⟨h'.mem hbuilt hidx h hlog hevent, hevent⟩⟩

end

/-! ## Every accepted log maps -/

theorem checked_of_eventOf (hbuilt : processor.Built tools)
    (h : processor.eventOf log = some event) : event.Checked tools := by
  unfold eventOf at h
  split at h
  · cases htopics : log.topics.head? with
    | none =>
      rw [htopics] at h; exact hbuilt.log0 event h
    | some topic0 =>
      rw [htopics] at h; exact hbuilt.events topic0 event h
  · cases h

theorem mem_logValues (hresolves : tools.alloy.Resolves) (hcodes : ∀ abi, event.abi =
    some abi → tools.alloy.Codes abi) {keys : ExtTreeSet String} (hkeys : event.abi = none ∧ keys =
    .ofList ["data"] ∨ ∃ abi fragment, event.abi = some abi ∧ parse tools.alloy fragment = .ok abi ∧
    keys = abi.valueKeys) {vals : Table String String} (h : logValues tools event log = some vals)
    {key : String} (hkey : key ∈ keys) : key ∈ vals := by
  unfold logValues at h
  rcases hkeys with ⟨hnone, rfl⟩ | ⟨abi, fragment, hsome, hparsed, rfl⟩
  · rw [hnone, some.injEq] at h
    rw [ExtTreeSet.mem_ofList, contains_iff_mem, mem_singleton] at hkey
    rw [← h, hkey]; exact mem_insert_iff.2 (.inl rfl)
  · rw [hsome] at h
    cases hdec : abi.decode tools.alloy log.topics log.data with
    | error e =>
      simp only [hdec, Except.toOption] at h; cases h
    | ok decoded =>
      simp only [hdec, Except.toOption, some.injEq] at h
      have hacc := fields_accepted hresolves hparsed
      obtain ⟨_, hlog, rfl⟩ :=
        encodesLog_of_decode hparsed hacc.valid (hcodes abi hsome) hdec
      rw [← h]; exact (mem_insertRows_argumentEntries hlog.inRange).2 hkey

theorem exists_outputKey {ent : DecodedEvent}
    (h : ∀ field ∈ event.output.keyFields, if field = "_bucket_start" then
      ent.bucketStartTimestamp ≠ none else field ∈ ent.values) :
    ∃ key, outputKey tools event ent = .ok key := by
  have hflds : ∀ field ∈ event.output.keyFields, ∃ text, (do
      pure (hashedText field ++ hashedText (← keyFieldValue ent field)) :
        Except ProcessorError (List UInt8)) = .ok text := by
    intro field hfield
    have hfield := h field hfield
    have hval : ∃ value, keyFieldValue ent field = .ok value := by
      unfold keyFieldValue
      split at hfield
      · rename_i hname
        obtain ⟨_, hbucket⟩ := ne_none_iff_exists'.1 hfield
        rw [if_pos hname, hbucket]; exact ⟨_, rfl⟩
      · rename_i hname
        obtain ⟨text, htext⟩ : ∃ text, ent.values[field]? = some text :=
          isSome_iff_exists.1 (by rwa [ExtTreeMap.isSome_getElem?_iff_mem])
        rw [if_neg hname, htext]; exact ⟨_, rfl⟩
    obtain ⟨value, hval⟩ := hval; rw [hval]; exact ⟨_, rfl⟩
  obtain ⟨_, htexts⟩ := exists_mapM_eq_ok hflds
  unfold outputKey
  split
  · exact ⟨_, rfl⟩
  · rw [htexts]; exact ⟨_, rfl⟩

theorem Given.allMap (hbuilt : processor.Built tools) (hresolves : tools.alloy.Resolves)
    (hcodes : ∀ log event abi, processor.eventOf log = some event → event.abi = some abi →
      tools.alloy.Codes abi) (h : Given processor contents block) :
    AllMap tools processor block (block.logs.asPresent.getD []) := by
  intro log hlog
  cases hevent : processor.eventOf log with
  | none => exact ⟨_, mapLog_ignored hevent⟩
  | some event =>
    obtain ⟨hash, hhash⟩ := isSome_iff_exists.1 (h.transactionHash hbuilt hlog)
    unfold mapLog
    rw [hevent]
    simp only [hhash, required, ok_bind]
    cases hvals : logValues tools event log with
    | none => exact ⟨_, rfl⟩
    | some values =>
      obtain ⟨⟨_, hkeys, hflds⟩⟩ := checked_of_eventOf hbuilt hevent
      obtain ⟨key, hkey⟩ : ∃ key, outputKey tools event
          (entityOf block event log hash values) = .ok key := by
        refine exists_outputKey fun field hfld => ?_
        have hchk := hflds field hfld
        split at hchk
        · rename_i hname
          rw [if_pos hname]; simp only [entityOf, ne_eq, map_eq_none_iff]; exact hchk
        · rename_i hname
          rw [if_neg hname]
          exact mem_logValues hresolves (fun abi habi => hcodes log event abi hevent habi) hkeys
            hvals hchk
      simp only [hkey, ok_bind]; exact ⟨_, rfl⟩

/-! ## Variants -/

def Tools.Codes (tools : Tools) (delta : EventDelta) : Prop :=
  tools.decodeDelta (tools.encodeDelta delta) = .ok delta

def variant (tools : Tools) (processor : EvmEventsProcessor) (delta : EncodedDelta)
    (decoded : EventDelta) (finality : Finality) : EncodedDelta :=
  EncodedDelta.new tools processor.descriptor delta.chainId delta.block
    (tools.encodeDelta (decoded.withFinality finality))

theorem finalityVariantChecksums_eq_ok {checksums : List BlockHash} :
    processor.finalityVariantChecksums tools delta = .ok checksums ↔
    delta.validate tools processor.descriptor = .ok () ∧ ∃ decoded, tools.decodeDelta delta.payload =
    .ok decoded ∧ (([Finality.unattested, .attested, .finalized].map fun fin =>
            (variant tools processor delta decoded fin).checksum).mergeSort
              fun a b => decide (a.toNat ≤ b.toNat)).dedup = checksums := by
  simp only [finalityVariantChecksums, eq_ok]
  constructor
  · rintro ⟨_, hvalidate, decoded, hdecd, rfl⟩
    cases hpay : tools.decodeDelta delta.payload with
    | error e =>
      rw [hpay] at hdecd; cases hdecd
    | ok result =>
      rw [hpay] at hdecd; cases hdecd; exact ⟨hvalidate, _, rfl, rfl⟩
  · rintro ⟨hvalidate, decoded, hdecd, rfl⟩
    refine ⟨(), hvalidate, decoded, ?_, rfl⟩
    rw [hdecd]; rfl

theorem mem_checksums {f : Finality → BlockHash} {csum : BlockHash} :
    csum ∈ (([Finality.unattested, .attested, .finalized].map f).mergeSort
      fun a b => decide (a.toNat ≤ b.toNat)).dedup ↔ ∃ fin, f fin = csum := by
  rw [List.mem_dedup, List.mem_mergeSort, List.mem_map]
  constructor
  · rintro ⟨fin, -, h⟩; exact ⟨fin, h⟩
  · rintro ⟨fin, h⟩
    exact ⟨fin, by cases fin <;> simp, h⟩

theorem validate_new {cid : Nat} {reference : BlockRef} {pay : List UInt8} :
    (EncodedDelta.new tools processor.descriptor cid reference pay).validate tools
      processor.descriptor = .ok () := by
  simp only [EncodedDelta.validate, eq_ok]; exact ⟨(), ⟨rfl, rfl, rfl, rfl⟩, rfl⟩

theorem length_hashBytes (bs : List UInt8) : (hashBytes bs).length = 8 + bs.length := by
  rw [hashBytes, length_append, length_bytes]

theorem payload_of_checksumInput {other : EncodedDelta} (hid : other.processorId = delta.processorId)
    (hver : other.processorVersion = delta.processorVersion)
    (h : other.checksumInput = delta.checksumInput) : other.payload = delta.payload := by
  have hlast := (append_inj h (by
    simp only [length_append, length_bytes, length_hashBytes, hid, hver])).2
  exact (append_inj hlast (by rw [length_bytes, length_bytes])).2

def Collide (tools : Tools) (input other : List UInt8) : Prop :=
  input ≠ other ∧ tools.blake3 input = tools.blake3 other

structure MapsAlike (tools : Tools) (processor : EvmEventsProcessor) (contents : BlockContents) :
    Prop where
  alike : ∀ {block block' : ChainFrame}, Given processor contents block →
    Given processor contents block' → SameBlock block block' → block'.finality = block.finality →
      ∀ delta, processor.map tools block = .ok delta ↔ processor.map tools block' = .ok delta
  maps : tools.alloy.Resolves → (∀ log event abi, processor.eventOf log = some event →
    event.abi = some abi → tools.alloy.Codes abi) → ∀ {block : ChainFrame},
      Given processor contents block → ∃ delta, processor.map tools block = .ok delta
  variants : ∀ {block block' : ChainFrame} {delta delta' : EncodedDelta},
    Given processor contents block → Given processor contents block' → SameBlock block block' →
    processor.map tools block = .ok delta → processor.map tools block' = .ok delta' →
    (∀ decoded, tools.encodeDelta decoded = delta.payload → tools.Codes decoded) → ∃ checksums,
    processor.finalityVariantChecksums tools delta = .ok checksums ∧ delta'.checksum ∈ checksums
  others : ∀ {delta other : EncodedDelta} {decoded decoded' : EventDelta}
    {checksums : List BlockHash},
      processor.finalityVariantChecksums tools delta = .ok checksums →
        tools.decodeDelta delta.payload = .ok decoded →
          (∀ finality, tools.Codes (decoded.withFinality finality)) →
            other.validate tools processor.descriptor = .ok () →
              tools.decodeDelta other.payload = .ok decoded' →
                (decoded'.withFinality .finalized).events ≠
                  (decoded.withFinality .finalized).events →
                    (∀ finality, ¬ Collide tools other.checksumInput
                      (variant tools processor delta decoded finality).checksumInput) →
                        other.checksum ∉ checksums

theorem map_given (hbuilt : processor.Built tools) (h : Given processor contents block)
 : processor.map tools block = .ok delta ↔ AllMap tools processor block (block.logs.asPresent.getD []) ∧
        delta = EncodedDelta.new tools processor.descriptor block.chainId block.block
          (tools.encodeDelta (deltaOf tools processor block (block.logs.asPresent.getD []))) := by
  rw [map_eq_ok]
  constructor
  · rintro ⟨-, logs, hlogs, hall, rfl⟩
    rw [h.acceptedLogs hbuilt, Except.ok.injEq] at hlogs
    subst hlogs; exact ⟨hall, rfl⟩
  · rintro ⟨hall, rfl⟩; exact ⟨h.accepted, _, h.acceptedLogs hbuilt, hall, rfl⟩

theorem map_other (hbuilt : processor.Built tools) (hidx : Indexed contents)
    (h : Given processor contents block) (h' : Given processor contents block')
    (hsame : SameBlock block block')
    (hall : AllMap tools processor block (block.logs.asPresent.getD [])) :
    processor.map tools block' = .ok (EncodedDelta.new tools processor.descriptor block.chainId
      block.block (tools.encodeDelta ((deltaOf tools processor block
        (block.logs.asPresent.getD [])).withFinality block'.finality))) := by
  have hlogs := h.sameLogs hbuilt hidx h'
  have hall' := allMap_of_sameLogs hlogs hall
  rw [map_given hbuilt h', deltaOf_of_sameLogs hlogs hall, ← deltaOf_of_sameBlock hsame hall',
    hsame.blockRef, hsame.chainId]
  exact ⟨allMap_of_sameBlock hsame hall', rfl⟩

theorem SameBlock.symm (h : SameBlock block block') : SameBlock block' block :=
  ⟨h.blockRef.symm, h.chainId.symm⟩

theorem SameBlock.refl (block : ChainFrame) : SameBlock block block := ⟨rfl, rfl⟩

theorem maps_alike (hnew : new tools config = .ok processor)
    (hindexed : Indexed contents) : MapsAlike tools processor contents := by
  have hbuilt := built_of_new hnew
  have halike : ∀ {block block' : ChainFrame}, Given processor contents block →
      Given processor contents block' → SameBlock block block' → block'.finality = block.finality →
      ∀ delta, processor.map tools block = .ok delta → processor.map tools block' = .ok delta := by
    intro block block' h h' hsame hfinality delta hmap
    obtain ⟨hall, rfl⟩ := (map_given hbuilt h).1 hmap
    rw [map_other hbuilt hindexed h h' hsame hall, hfinality,
      ← deltaOf_of_sameBlock (SameBlock.refl block) hall]
  refine ⟨?_, ?_, ?_, ?_⟩
  · intro block block' h h' hsame hfinality delta
    exact ⟨halike h h' hsame hfinality delta, halike h' h hsame.symm hfinality.symm delta⟩
  · intro hresolves hcodes block h
    exact ⟨_, (map_given hbuilt h).2 ⟨h.allMap hbuilt hresolves hcodes, rfl⟩⟩
  · intro block block' delta _ h h' hsame hmap hmap' hcodes
    obtain ⟨hall, rfl⟩ := (map_given hbuilt h).1 hmap
    rw [map_other hbuilt hindexed h h' hsame hall, Except.ok.injEq] at hmap'
    refine ⟨_, finalityVariantChecksums_eq_ok.2 ⟨validate_new, _, hcodes _ rfl, rfl⟩, ?_⟩
    rw [mem_checksums]; exact ⟨block'.finality, by rw [← hmap']; rfl⟩
  · intro delta other decoded _ _ hvariants hdecoded hcodes hvalidate hdecoded' hne hcollide hmem
    obtain ⟨-, _, hdecoded₀, rfl⟩ := finalityVariantChecksums_eq_ok.1 hvariants
    rw [hdecoded, Except.ok.injEq] at hdecoded₀
    subst hdecoded₀
    obtain ⟨finality, hchecksum⟩ := mem_checksums.1 hmem
    simp only [EncodedDelta.validate, eq_ok] at hvalidate
    obtain ⟨-, ⟨hid, hversion, -, -⟩, hhash⟩ := hvalidate
    have hhashes : tools.blake3 other.checksumInput =
        tools.blake3 (variant tools processor delta decoded finality).checksumInput := by
      rw [hhash] at hchecksum; exact hchecksum.symm
    have hinput : other.checksumInput =
        (variant tools processor delta decoded finality).checksumInput := by
      by_contra hinputs
      exact hcollide finality ⟨hinputs, hhashes⟩
    have hpayload := payload_of_checksumInput hid hversion hinput
    have hcodec : tools.decodeDelta other.payload = .ok (decoded.withFinality finality) := by
      rw [hpayload]; exact hcodes _
    rw [hdecoded', Except.ok.injEq] at hcodec
    apply hne
    rw [hcodec]; simp only [withFinality, List.map_map]; rfl

def depositTools : Tools where
  alloy := numberAlloy
  readEvent _ := .ok deposit
  keccak256 _ := Vector.replicate 32 7
  blake3 bytes := BitVec.ofNat 256 (BigEndian.number bytes)
  encodeConfig _ := [0]
  encodeDelta delta := [UInt8.ofNat delta.events.length, UInt8.ofNat delta.skippedLogs]
  decodeDelta
    | [0, skipped] => .ok ⟨[], skipped.toNat⟩
    | _ => .error "unexpected end"

def depositConfig : EvmEventsConfig :=
  ⟨0, [], [⟨"event Deposit(address indexed owner, uint256 amount)",
    ⟨"deposits", "deposit", ["owner"], none⟩⟩]⟩

def depositBlock : BlockContents :=
  let hash := Vector.replicate 32 1
  let log : Log := ⟨Vector.replicate 20 2, [Vector.replicate 32 7, Vector.replicate 32 0],
    ContractAbi.word 5, some hash, 0, 0⟩
  ⟨[⟨hash, 2, Vector.replicate 20 3, none, [log], [], []⟩], [], []⟩

theorem new_deposit : ∃ processor, new depositTools depositConfig = .ok processor := ⟨_, rfl⟩

theorem maps_alike_deposit : ∃ processor, new depositTools depositConfig = .ok processor ∧
    MapsAlike depositTools processor depositBlock := by
  obtain ⟨processor, hnew⟩ := new_deposit
  exact ⟨processor, hnew, maps_alike hnew (nodup_singleton 0)⟩

end Leani.EvmEvents
