import Leani.EvmEvents.Reducing

/-!
# Collections and views agree

Each collection holds under each key the newest event of the applied blocks, and a view for each kind
holds the entries written with that kind, as long as events of one key share a collection exactly when
they share a kind. A block's undo record takes both back.
-/

namespace Leani.EvmEvents

open Library Std Filtering Table BigEndian EvmEventsProcessor Except ExtTreeMap Feed MappedEvent Prod
open Processor (Bytes EntityKey ReducerProgram ReducerOverlay MutationBatch Mutation Output
  OverlayValue ProcessorCursor Stamp Values applyMutations buildInverseChanges writeRows)
open Delivery (DomainChange)

variable {tools : Tools} {processor : EvmEventsProcessor} {entity : Codec DecodedEvent}

/-! ## The reducer's batch -/

theorem lastEvents_eq (evs : List MappedEvent) : lastEvents evs = keepNewest slot evs := by
  have hrows : evs.zipIdx.foldl (fun t item => t.insert item.1.slot item.2)
      (∅ : Table EntityKey Nat) = insertRows ∅ (indexRows slot evs 0) := by
    rw [indexRows, insertRows, List.foldl_map]
  rw [lastEvents, hrows]; exact keepNewest_eq_filter

def MappedEvent.payload (entity : Codec DecodedEvent) (event : MappedEvent) : Bytes :=
  entity.encode event.entity

def putEvent (entity : Codec DecodedEvent) (db : Values) (overlay : ReducerOverlay)
    (event : MappedEvent) : ReducerOverlay :=
  { overlay.putEntity db event.slot (event.payload entity) with
    changes := overlay.changes ++ [event.change entity] }

variable {db : Values} {events : List MappedEvent}

theorem run_putEvents : ∀ {chgs : List DomainChange} {ovl : ReducerOverlay},
      (putEvents entity chgs events).run db ovl = .ok (chgs ++ events.map (change entity),
          events.foldl (putEvent entity db) ovl) := by
  induction events with
  | nil => intro chgs ovl; rw [List.map_nil, List.append_nil]; rfl
  | cons event events ih =>
    intro chgs ovl; rw [List.map_cons, List.append_cons]; exact ih

theorem foldl_putEvent_changes : ∀ {ovl : ReducerOverlay},
    (events.foldl (putEvent entity db) ovl).changes = ovl.changes ++ events.map (change entity) := by
  induction events with
  | nil => intro ovl; exact (List.append_nil _).symm
  | cons event events ih =>
    intro ovl
    rw [List.foldl_cons, ih, List.map_cons, putEvent, List.append_assoc, List.singleton_append]

theorem foldl_putEvent_entities :
    ∀ {ovl : ReducerOverlay}, (∀ (k : EntityKey) (v : OverlayValue (Option Bytes)),
        ovl.entities[k]? = some v → v.before = db.entities[k]?) → ∀ k : EntityKey,
      (events.foldl (putEvent entity db) ovl).entities[k]? = ((newest slot events k).map fun event =>
          ⟨db.entities[k]?, some (event.payload entity)⟩).or ovl.entities[k]? := by
  induction events with
  | nil => intro ovl _ k; rfl
  | cons event events ih =>
    intro ovl hloaded k
    have hput : ∀ k : EntityKey, (putEvent entity db ovl event).entities[k]? =
        if k = event.slot then some ⟨db.entities[k]?, some (event.payload entity)⟩
        else ovl.entities[k]? := by
      intro k
      rw [putEvent, ReducerOverlay.putEntity, Processor.assign, get?_insert_ite]
      by_cases hk : k = event.slot
      · subst hk
        rw [if_pos rfl, if_pos rfl, Processor.load]
        cases hstore : ovl.entities[event.slot]? with
        | none => rfl
        | some v =>
          dsimp only [Option.getD_some]; rw [hloaded _ v hstore]
      · rw [if_neg hk, if_neg hk]
    rw [List.foldl_cons, ih, hput, newest_cons]
    · by_cases hk : k = event.slot
      · subst hk
        rw [if_pos rfl, if_pos rfl]
        cases newest slot events event.slot <;> rfl
      · rw [if_neg hk, if_neg (Ne.symm hk), Option.or_none]
    · intro k v hv
      rw [hput] at hv
      split at hv
      · rw [← Option.some.inj hv]
      · exact hloaded k v hv

variable {k : EntityKey} {before after : Option Bytes}

theorem mem_mutations :
    Mutation.entity k before after ∈ (events.foldl (putEvent entity db) .new).mutations ↔
      ∃ event, newest slot events k = some event ∧ before = db.entities[k]? ∧
        after = some (event.payload entity) ∧ before ≠ after := by
  have hempty : (ReducerOverlay.new).entities[k]? = none := by simp [ReducerOverlay.new]
  rw [Processor.entity_mem_mutations, foldl_putEvent_entities
    (fun k _ h => (not_mem_empty h).elim), hempty, Option.or_none]
  cases newest slot events k with
  | none => simp
  | some event =>
    simp only [Option.map_some, Option.some.injEq, OverlayValue.mk.injEq, exists_eq_left',
      and_assoc, eq_comm]

/-! ## Inverse changes -/

def MappedEvent.inverse (event : MappedEvent) (before : Option Bytes) : DomainChange :=
  ⟨event.kind, event.key, if before.isSome then .upsert else .delete, before.getD []⟩

theorem MappedEvent.inverse_value (event : MappedEvent) (bef : Option Bytes) :
    (event.inverse bef).value = bef := by
  cases bef <;> rfl

theorem filterMap_eq_singleton {α β : Type} {f : α → Option β} {items : List α} {a : α} {b : β}
    (hnodup : items.Nodup) (ha : a ∈ items) (hb : f a = some b)
    (honly : ∀ a' ∈ items, (f a').isSome → a' = a) : items.filterMap f = [b] := by
  induction items with
  | nil => cases ha
  | cons c items ih =>
    rw [List.nodup_cons] at hnodup
    by_cases hc : c = a
    · subst hc
      rw [List.filterMap_cons_some hb, List.filterMap_eq_nil_iff.2]
      intro a' ha'
      rw [← Option.not_isSome_iff_eq_none]
      intro hsome; exact hnodup.1 (honly a' (List.mem_cons_of_mem _ ha') hsome ▸ ha')
    · have hnone : f c = none := by
        rw [← Option.not_isSome_iff_eq_none]
        exact fun hsome => hc (honly c List.mem_cons_self hsome)
      rw [List.filterMap_cons_none hnone]
      exact ih hnodup.2 ((List.mem_cons.1 ha).resolve_left (Ne.symm hc))
        fun a' ha' => honly a' (List.mem_cons_of_mem _ ha')

theorem nodup_changedKeys {κ α : Type} [Ord κ] [TransOrd κ] [LawfulEqOrd κ] [DecidableEq α]
    {t : Table κ (OverlayValue α)} {mutation : κ → α → α → Mutation}
    (h : ∀ {k k' : κ} {a b a' b' : α}, mutation k a b = mutation k' a' b' → k = k') :
    (Processor.changedKeys t mutation).Nodup := by
  rw [Processor.changedKeys, List.nodup_iff_pairwise_ne, List.pairwise_filterMap]
  refine distinct_keys_toList.imp fun {a b} hne _ he _ he' heq => hne ?_
  split at he
  · cases he
  split at he'
  · cases he'
  cases he; cases he'; exact LawfulEqCmp.compare_eq_iff_eq.2 (h heq)

theorem nodup_mutations (overlay : ReducerOverlay) : overlay.mutations.Nodup := by
  rw [ReducerOverlay.mutations, List.nodup_append, List.nodup_append]
  have hents := @nodup_changedKeys _ _ _ _ _ _ overlay.entities .entity
    fun h => (Mutation.entity.inj h).1
  have hindexes := @nodup_changedKeys _ _ _ _ _ _ overlay.indexes .index
    fun h => (Mutation.index.inj h).1
  have hstate := @nodup_changedKeys _ _ _ _ _ _ overlay.state .state fun h => (Mutation.state.inj h).1
  refine ⟨⟨hents, hindexes, ?_⟩, hstate, ?_⟩
  · intro m hm m' hm' heq
    obtain ⟨_, _, -, -, rfl⟩ := Processor.mem_changedKeys.1 hm
    obtain ⟨_, _, -, -, rfl⟩ := Processor.mem_changedKeys.1 hm'; cases heq
  · intro m hm m' hm' heq
    obtain ⟨_, _, -, -, rfl⟩ := Processor.mem_changedKeys.1 hm'
    rcases List.mem_append.1 hm with hm | hm
    · obtain ⟨_, _, -, -, rfl⟩ := Processor.mem_changedKeys.1 hm; cases heq
    · obtain ⟨_, _, -, -, rfl⟩ := Processor.mem_changedKeys.1 hm; cases heq

variable {event : MappedEvent}

theorem inverseChange_put {ovl : ReducerOverlay} (hkey : k.2 = event.key)
    (hm : Mutation.entity k before (some (event.payload entity)) ∈ ovl.mutations)
    (honly : ∀ (k' : EntityKey) (before' : Option Bytes), k'.2 = event.key →
      Mutation.entity k' before' (some (event.payload entity)) ∈ ovl.mutations → k' = k) :
    Processor.inverseChange ovl.mutations (event.change entity) = .ok (event.inverse before) := by
  have hmatch : (Processor.entityWrites ovl.mutations).filter
      (Processor.matchesChange (event.change entity)) =
        [(event.key, before, some (event.payload entity))] := by
    rw [Processor.entityWrites, ← List.filterMap_eq_filter, List.filterMap_filterMap]
    refine filterMap_eq_singleton (nodup_mutations ovl) hm ?_ ?_
    · simp [hkey, Processor.matchesChange_iff, Option.guard, change,
        Delivery.DomainChange.value, payload]
    · intro m hmem hsome
      cases m with
      | entity k' before' after =>
        obtain ⟨hkey', hafter⟩ : k'.2 = event.key ∧ after = some (event.payload entity) := by
          simpa [Processor.matchesChange_iff, Option.guard, change,
            Delivery.DomainChange.value, payload] using hsome
        subst hafter
        cases honly k' before' hkey' hmem; rw [(Processor.single_intoBatch ovl hmem hm).1]
      | index => simp at hsome
      | state => simp at hsome
  unfold Processor.inverseChange
  rw [hmatch]
  cases before <;> simp [inverse, change]

theorem mapM_map_eq_ok {α β γ ε : Type} {f : β → Except ε γ} {h : α → β} {g : α → γ} {items : List α}
    (hok : ∀ a ∈ items, f (h a) = .ok (g a)) : (items.map h).mapM f = .ok (items.map g) := by
  induction items with
  | nil => rfl
  | cons a items ih =>
    exact mapM_cons_eq_ok.2 ⟨_, _, hok a List.mem_cons_self,
      ih fun a' ha' => hok a' (List.mem_cons_of_mem _ ha'), rfl⟩

theorem buildInverseChanges_put {kept : List MappedEvent} (hnodup : (kept.map slot).Nodup)
    (hfresh : ∀ event ∈ kept, db.entities[event.slot]? ≠ some (event.payload entity))
    (hapart : ∀ event ∈ kept, ∀ event' ∈ kept, event.key = event'.key →
      event.payload entity = event'.payload entity → event.slot = event'.slot) :
    buildInverseChanges (kept.foldl (putEvent entity db) .new).intoBatch =
      .ok (kept.reverse.map fun event => event.inverse db.entities[event.slot]?) := by
  have hchgs : (kept.foldl (putEvent entity db) .new).changes =
      kept.map (change entity) := foldl_putEvent_changes
  rw [buildInverseChanges, ReducerOverlay.intoBatch, hchgs, ← List.map_reverse]
  apply mapM_map_eq_ok
  intro event hev
  rw [List.mem_reverse] at hev
  refine inverseChange_put (k := event.slot) rfl (mem_mutations.2
    ⟨event, newest_of_nodup hnodup hev, rfl, rfl, hfresh event hev⟩) ?_
  intro _ _ hkey hm
  obtain ⟨event', hnew, -, hpay, -⟩ := mem_mutations.1 hm
  obtain ⟨hev', rfl⟩ := newest_mem hnew
  exact hapart event' hev' event hev hkey (Option.some.inj hpay).symm

/-! ## Signatures tell events apart -/

/-- The configured events are found under the hash of their signature, and the `log0` entry has none
that an event could have. -/
structure Signed (tools : Tools) (processor : EvmEventsProcessor) : Prop where
  events : ∀ (topic : Topic) (event : ParsedEvent), processor.events[topic]? = some event →
    topic = tools.keccak256 (textBytes event.signature) ∧
      ∃ abi, event.abi = some abi ∧ event.signature = abi.signature
  log0 : ∀ event, processor.log0 = some event → event.signature = "log0"

theorem parseEvent_signature {definition : EventDefinition} {event : ParsedEvent}
    (h : parseEvent tools definition = .ok event) : event.abi = none ∧ event.signature = "log0" ∨
      ∃ abi, event.abi = some abi ∧ event.signature = abi.signature := by
  simp only [parseEvent, bind_eq_ok] at h
  obtain ⟨-, -, ⟨_, _⟩, hread, -, -, h⟩ := h
  cases pure_eq_ok.1 h
  unfold parseFragment at hread
  split at hread
  · cases pure_eq_ok.1 hread; exact .inl ⟨rfl, rfl⟩
  · simp only [bind_eq_ok] at hread
    obtain ⟨abi, -, hread⟩ := hread; cases pure_eq_ok.1 hread; exact .inr ⟨abi, rfl, rfl⟩

theorem signed_of_new {config : EvmEventsConfig} (h : new tools config = .ok processor) :
    Signed tools processor := by
  simp only [new, bind_eq_ok] at h
  obtain ⟨-, -, ⟨evs, log0⟩, hfold, -, -, h⟩ := h
  cases pure_eq_ok.1 h
  have hall : (∀ (topic : Topic) (event : ParsedEvent), evs[topic]? =
      some event → topic = tools.keccak256 (textBytes event.signature) ∧ ∃ abi, event.abi = some abi ∧
      event.signature = abi.signature) ∧ ∀ event, log0 = some event → event.signature = "log0" := by
    refine foldExcept_invariant (fun parsed : Table Topic ParsedEvent × Option ParsedEvent =>
        (∀ (topic : Topic) (event : ParsedEvent), parsed.1[topic]? = some event →
          topic = tools.keccak256 (textBytes event.signature) ∧
            ∃ abi, event.abi = some abi ∧ event.signature = abi.signature) ∧
              ∀ event, parsed.2 = some event → event.signature = "log0")
      ?_ ⟨fun topic event h => (not_mem_empty h).elim, fun event h => by cases h⟩ hfold
    rintro ⟨evs, log0⟩ _ ⟨_, _⟩ - ⟨hevs, hlog0⟩ hadd
    simp only [addDefinition, bind_eq_ok] at hadd
    obtain ⟨event, hevent, hadd⟩ := hadd
    have hsignature := parseEvent_signature hevent
    split at hadd
    · rename_i hnone
      simp only [bind_eq_ok] at hadd
      obtain ⟨-, -, hadd⟩ := hadd
      cases pure_eq_ok.1 hadd
      refine ⟨hevs, fun other hother => ?_⟩
      cases hother
      rcases hsignature with ⟨-, h⟩ | ⟨abi, habi, -⟩
      · exact h
      · simp [habi] at hnone
    · rename_i hsome
      simp only [bind_eq_ok] at hadd
      obtain ⟨-, -, hadd⟩ := hadd
      cases pure_eq_ok.1 hadd
      refine ⟨fun topic other hother => ?_, hlog0⟩
      rcases insert_cases hother with ⟨htopic, rfl⟩ | ⟨-, hother⟩
      · refine ⟨htopic, ?_⟩
        rcases hsignature with ⟨hnone, -⟩ | h
        · simp [hnone] at hsome
        · exact h
      · exact hevs topic other hother
  exact ⟨hall.1, hall.2⟩

theorem signature_ne_log0 (abi : EventAbi) : abi.signature ≠ "log0" := by
  intro h
  have hmem : '(' ∈ abi.signature.toList := by simp [EventAbi.signature]
  rw [h] at hmem
  revert hmem
  decide

variable {log : Log}

theorem eventOf_cases {event : ParsedEvent} (h : processor.eventOf log = some event) :
    (∃ topic : Topic, processor.events[topic]? = some event) ∨ processor.log0 = some event := by
  unfold eventOf at h
  split at h
  · split at h
    · exact .inl ⟨_, h⟩
    · exact .inr h
  · cases h

theorem Signed.eq_of_signature (hsign : Signed tools processor) {log' : Log}
    {event event' : ParsedEvent} (h : processor.eventOf log = some event)
    (h' : processor.eventOf log' = some event') (hsame : event.signature = event'.signature) :
    event = event' := by
  rcases eventOf_cases h with ⟨topic, htopic⟩ | hlog0
  · obtain ⟨hhash, abi, -, habi⟩ := hsign.events topic event htopic
    rcases eventOf_cases h' with ⟨topic', htopic'⟩ | hlog0'
    · obtain ⟨hhash', -⟩ := hsign.events topic' event' htopic'
      rw [hhash, hsame, ← hhash', htopic'] at htopic; exact (Option.some.inj htopic).symm
    · rw [hsign.log0 event' hlog0', habi] at hsame; exact absurd hsame (signature_ne_log0 abi)
  · rcases eventOf_cases h' with ⟨topic', htopic'⟩ | hlog0'
    · obtain ⟨-, abi, -, habi⟩ := hsign.events topic' event' htopic'
      rw [hsign.log0 event hlog0, habi] at hsame; exact absurd hsame.symm (signature_ne_log0 abi)
    · rw [hlog0, Option.some.injEq] at hlog0'; exact hlog0'

/-! ## The events of blocks -/

def blockEvents (tools : Tools) (processor : EvmEventsProcessor) (block : ChainFrame) :
    List MappedEvent :=
  match acceptedLogs block.logs with
  | .ok logs => (deltaOf tools processor block logs).events
  | .error _ => []

def chainEvents (tools : Tools) (processor : EvmEventsProcessor) (blocks : List ChainFrame) :
    List MappedEvent :=
  blocks.reverse.flatMap (blockEvents tools processor)

def keptEvents (tools : Tools) (processor : EvmEventsProcessor) (blocks : List ChainFrame) :
    List MappedEvent :=
  blocks.reverse.flatMap fun block => lastEvents (blockEvents tools processor block)

theorem chainEvents_cons (block : ChainFrame) (blks : List ChainFrame) :
    chainEvents tools processor (block :: blks) =
      chainEvents tools processor blks ++ blockEvents tools processor block := by
  simp [chainEvents, List.flatMap_append]

theorem keptEvents_cons (block : ChainFrame) (blks : List ChainFrame) :
    keptEvents tools processor (block :: blks) =
      keptEvents tools processor blks ++ lastEvents (blockEvents tools processor block) := by
  simp [keptEvents, List.flatMap_append]

variable {blocks : List ChainFrame}

theorem mem_keptEvents_of_below {block : ChainFrame} (h : event ∈ keptEvents tools processor blocks) :
    event ∈ keptEvents tools processor (block :: blocks) := by
  rw [keptEvents_cons]; exact List.mem_append_left _ h

theorem mem_keptEvents_of_last {block : ChainFrame}
 (h : event ∈ lastEvents (blockEvents tools processor block)) :
    event ∈ keptEvents tools processor (block :: blocks) := by
  rw [keptEvents_cons]; exact List.mem_append_right _ h

theorem newest_keptEvents (blks : List ChainFrame) (k : EntityKey) :
    newest slot (keptEvents tools processor blks) k =
      newest slot (chainEvents tools processor blks) k := by
  induction blks with
  | nil => rfl
  | cons block blks ih =>
    rw [keptEvents_cons, chainEvents_cons, newest_append, newest_append, ih, lastEvents_eq,
      newest_keepNewest]

theorem mem_chainEvents : event ∈ chainEvents tools processor blocks ↔
      ∃ block ∈ blocks, event ∈ blockEvents tools processor block := by
  simp [chainEvents, List.mem_flatMap]

theorem keptEvents_subset (h : event ∈ keptEvents tools processor blocks) :
    event ∈ chainEvents tools processor blocks := by
  rw [keptEvents, List.mem_flatMap] at h
  obtain ⟨block, hblock, h⟩ := h
  rw [lastEvents_eq] at h
  exact mem_chainEvents.2 ⟨block, List.mem_reverse.1 hblock, keepNewest_sublist.subset h⟩

structure EventFrom (processor : EvmEventsProcessor) (block : ChainFrame) (event : MappedEvent) :
    Prop where
  parsed : ∃ log parsed, processor.eventOf log = some parsed ∧ event.entity.signature =
    parsed.signature ∧ event.collection = parsed.output.collection ∧ event.kind = parsed.output.kind
  blockNumber : event.entity.blockNumber = block.block.number

theorem eventFrom_of_mapLog {block : ChainFrame} (h : processor.mapLog tools block log =
    .ok (.event event)) : EventFrom processor block event := by
  unfold mapLog at h
  cases hevent : processor.eventOf log with
  | none =>
    rw [hevent] at h; cases h
  | some parsed =>
    simp only [hevent, bind_eq_ok] at h
    obtain ⟨_, -, h⟩ := h
    cases hvals : logValues tools parsed log with
    | none =>
      rw [hvals] at h; cases h
    | some values =>
      simp only [hvals, eq_ok, MappedLog.event.injEq] at h
      obtain ⟨_, -, rfl⟩ := h; exact ⟨⟨log, parsed, hevent, rfl, rfl, rfl⟩, rfl⟩

theorem eventFrom_of_mem {block : ChainFrame}
    (h : event ∈ blockEvents tools processor block) : EventFrom processor block event := by
  unfold blockEvents at h
  split at h
  · rw [deltaOf, sortEvents, List.mem_mergeSort, eventsOf, List.mem_filterMap] at h
    obtain ⟨_, -, h⟩ := h
    unfold outcomeOf at h
    split at h
    · rename_i outcome houtc
      cases outcome with
      | event mapped =>
        cases h; exact eventFrom_of_mapLog houtc
      | ignored => cases h
      | skipped => cases h
    · cases h
  · cases h

variable {event' : MappedEvent}

theorem Signed.alike (hsign : Signed tools processor) (h : event ∈ chainEvents tools processor blocks)
    (h' : event' ∈ chainEvents tools processor blocks) (hent : event.entity = event'.entity) :
    event.collection = event'.collection ∧ event.kind = event'.kind := by
  obtain ⟨_, -, h⟩ := mem_chainEvents.1 h
  obtain ⟨_, -, h'⟩ := mem_chainEvents.1 h'
  obtain ⟨_, parsed, hparsed, hsignature, hcoll, hkind⟩ := (eventFrom_of_mem h).parsed
  obtain ⟨_, parsed', hparsed', hsignature', hcoll', hkind'⟩ := (eventFrom_of_mem h').parsed
  have hsame : parsed.signature = parsed'.signature := by
    rw [← hsignature, ← hsignature', hent]
  have heq := hsign.eq_of_signature hparsed hparsed' hsame
  subst heq; exact ⟨hcoll.trans hcoll'.symm, hkind.trans hkind'.symm⟩

/-! ## Applying a block -/

theorem mapError_eq_ok {α ε ε' : Type} {res : Except ε α} {f : ε → ε'} {a : α} :
    res.mapError f = .ok a ↔ res = .ok a := by
  cases res with
  | ok b => rw [Except.mapError, Except.ok.injEq, Except.ok.injEq]
  | error e => exact iff_of_false nofun nofun

theorem reduce_of_map (hcodes : ∀ delta, tools.Codes delta) {block : ChainFrame}
    {delta : EncodedDelta} {seq : Nat} (hmap : processor.map tools block = .ok delta) :
    processor.reduce tools entity (cursorOf processor delta block.finality seq) delta =
      putEvents entity [] (lastEvents (blockEvents tools processor block)) := by
  obtain ⟨-, logs, hlogs, -, rfl⟩ := map_eq_ok.1 hmap
  have hcur : ∀ {delta : EncodedDelta}, delta.validate tools processor.descriptor = .ok () →
      validateCursor tools processor.descriptor
        (cursorOf processor delta block.finality seq) delta = .ok () := by
    intro delta hvalid
    simp only [validateCursor, eq_ok, mapError_eq_ok]; exact ⟨(), hvalid, rfl, rfl, rfl, rfl, rfl⟩
  have hdec : tools.decodeDelta (EncodedDelta.new tools processor.descriptor block.chainId
      block.block (tools.encodeDelta (deltaOf tools processor block logs))).payload =
        .ok (deltaOf tools processor block logs) := hcodes _
  rw [reduce, hcur validate_new]; rw [hdec, blockEvents, hlogs]

def overlayOf (tools : Tools) (processor : EvmEventsProcessor) (entity : Codec DecodedEvent)
    (s : Feed) (block : ChainFrame) : ReducerOverlay :=
  (lastEvents (blockEvents tools processor block)).foldl (putEvent entity s.output.toValues) .new

theorem Feed.apply_eq_ok (hcodes : ∀ delta, tools.Codes delta) {writeTime : Mutation → Nat}
    {s s' : Feed} {block : ChainFrame} : s.apply tools entity writeTime processor block = .ok s' ↔
      (∃ delta, processor.map tools block = .ok delta) ∧ ∃ inverseChanges output,
        buildInverseChanges (overlayOf tools processor entity s block).intoBatch = .ok inverseChanges ∧
          applyMutations s.output (overlayOf tools processor entity s block).mutations false true
              ⟨block.block, block.finality, writeTime⟩ = .ok output ∧
            s' = ⟨output, ⟨block, (overlayOf tools processor entity s block).intoBatch,
              inverseChanges⟩ :: s.applied, observe s.views
                ((lastEvents (blockEvents tools processor block)).map
                  (MappedEvent.change entity))⟩ := by
  have hchgs : (overlayOf tools processor entity s block).changes =
      (lastEvents (blockEvents tools processor block)).map (change entity) :=
    foldl_putEvent_changes
  simp only [Feed.apply, eq_ok, mapError_eq_ok, Prod.exists]
  constructor
  · rintro ⟨delta, hmap, _, _, hrun, -, -, inverseChanges, hinverse, output, hout,
      rfl⟩
    rw [reduce_of_map hcodes hmap, run_putEvents, Except.ok.injEq, Prod.mk.injEq] at hrun
    obtain ⟨-, rfl⟩ := hrun
    exact ⟨⟨delta, hmap⟩, inverseChanges, output, hinverse, hout, by rw [← hchgs]; rfl⟩
  · rintro ⟨⟨delta, hmap⟩, inverseChanges, output, hinverse, hout, rfl⟩
    refine ⟨delta, hmap, (lastEvents (blockEvents tools processor block)).map
      (change entity), overlayOf tools processor entity s block, ?_, (), hchgs.symm,
      inverseChanges, hinverse, output, hout, by rw [← hchgs]; rfl⟩
    rw [reduce_of_map hcodes hmap, run_putEvents]; rfl

/-! ## What every run keeps -/

def held (tools : Tools) (processor : EvmEventsProcessor) (entity : Codec DecodedEvent)
    (blocks : List ChainFrame) (k : EntityKey) : Option Bytes :=
  (newest MappedEvent.slot (keptEvents tools processor blocks) k).map (MappedEvent.payload entity)

structure AppliedBlock.Recorded (tools : Tools) (processor : EvmEventsProcessor)
    (entity : Codec DecodedEvent) (a : AppliedBlock) (older : List ChainFrame) : Prop where
  mutations : ∀ (k : EntityKey) (before after : Option Bytes),
    Mutation.entity k before after ∈ a.batch.mutations ↔ ∃ event,
      newest MappedEvent.slot (lastEvents (blockEvents tools processor a.block)) k = some event ∧
        before = held tools processor entity older k ∧ after = some (event.payload entity)
  inverseChanges : a.inverseChanges = (lastEvents (blockEvents tools processor a.block)).reverse.map
    fun event => event.inverse (held tools processor entity older event.slot)
  fits : a.batch.mutations.any (Mutation.stamps false) = true →
    a.block.block.number ≤ i64Max ∧ a.block.block.timestamp ≤ i64Max

def Recorded (tools : Tools) (processor : EvmEventsProcessor) (entity : Codec DecodedEvent) :
    List AppliedBlock → Prop
  | [] => True
  | a :: older => a.Recorded tools processor entity (older.map AppliedBlock.block) ∧
      Recorded tools processor entity older

structure Feed.Sound (tools : Tools) (processor : EvmEventsProcessor) (entity : Codec DecodedEvent)
    (s : Feed) : Prop where
  entities : ∀ k : EntityKey, s.output.entities[k]? = held tools processor entity s.blocks k
  recorded : Recorded tools processor entity s.applied
  numbers : s.blocks.Pairwise fun later earlier => earlier.block.number < later.block.number

theorem held_cons {block : ChainFrame} : held tools processor entity (block :: blocks) k =
      ((newest slot (lastEvents (blockEvents tools processor block)) k).map
        (payload entity)).or (held tools processor entity blocks k) := by
  rw [held, keptEvents_cons, newest_append, held]
  cases newest slot (lastEvents (blockEvents tools processor block)) k <;> rfl

theorem nodup_lastEvents (evs : List MappedEvent) : ((lastEvents evs).map slot).Nodup := by
  rw [lastEvents_eq]; exact nodup_keepNewest

theorem mem_of_lastEvents (h : event ∈ lastEvents events) : event ∈ events := by
  rw [lastEvents_eq] at h; exact keepNewest_sublist.subset h

variable {s s' : Feed} {block : ChainFrame} {writeTime : Mutation → Nat}

theorem Feed.Sound.below (h : s.Sound tools processor entity) (hfol : s.Follows block) :
    ∀ older ∈ s.blocks, older.block.number < block.block.number := by
  have hnumbers := h.numbers
  unfold Feed.Follows at hfol
  unfold blocks at hnumbers ⊢
  cases happ : s.applied with
  | nil => simp
  | cons newest applied =>
    rw [happ, List.map_cons, List.pairwise_cons] at hnumbers
    rw [happ] at hfol
    have hnext := (hfol newest rfl).1
    intro older holder
    rcases List.mem_cons.1 holder with rfl | holder
    · omega
    · have := hnumbers.1 older holder; omega

theorem Feed.Sound.fresh (h : s.Sound tools processor entity) (hfol : s.Follows block)
 (hev : event ∈ blockEvents tools processor block) (k : EntityKey) :
    held tools processor entity s.blocks k ≠ some (event.payload entity) := by
  intro hheld
  obtain ⟨_, holder, hpay⟩ := Option.map_eq_some_iff.1 hheld
  obtain ⟨prior, hearlier, hmem⟩ := mem_chainEvents.1 (keptEvents_subset (newest_mem holder).1)
  have hent := entity.encode_injective hpay
  have hnum := (eventFrom_of_mem hmem).blockNumber
  rw [hent, (eventFrom_of_mem hev).blockNumber] at hnum
  have := h.below hfol prior hearlier; omega

theorem Feed.Sound.builds (hsign : Signed tools processor) (h : s.Sound tools processor entity)
    (hfol : s.Follows block) :
    buildInverseChanges (overlayOf tools processor entity s block).intoBatch =
      .ok ((lastEvents (blockEvents tools processor block)).reverse.map fun event =>
        event.inverse (held tools processor entity s.blocks event.slot)) := by
  have hents := h.entities
  rw [overlayOf, buildInverseChanges_put (nodup_lastEvents _)]
  · simp only [hents]
  · intro event hev; rw [hents]; exact h.fresh hfol (mem_of_lastEvents hev) _
  · intro event hev _ hev' hkey hpay
    have hmem : ∀ {event}, event ∈ lastEvents (blockEvents tools processor block) →
        event ∈ chainEvents tools processor [block] :=
      fun hmem => mem_chainEvents.2 ⟨block, List.mem_singleton_self _, mem_of_lastEvents hmem⟩
    have halike := hsign.alike (hmem hev) (hmem hev') (entity.encode_injective hpay)
    rw [slot, slot, halike.1, hkey]

theorem overlay_mutations (h : s.Sound tools processor entity)
    (hfol : s.Follows block) (k : EntityKey) (bef after : Option Bytes) :
    Mutation.entity k bef after ∈ (overlayOf tools processor entity s block).mutations ↔
    ∃ event, newest slot (lastEvents (blockEvents tools processor block)) k = some event ∧
    bef = held tools processor entity s.blocks k ∧ after = some (event.payload entity) := by
  have hents := h.entities k
  rw [overlayOf, mem_mutations, hents]
  constructor
  · rintro ⟨event, hnew, hbef, hafter, -⟩; exact ⟨event, hnew, hbef, hafter⟩
  · rintro ⟨event, hnew, rfl, rfl⟩
    exact ⟨event, hnew, rfl, rfl, h.fresh hfol (mem_of_lastEvents (newest_mem hnew).1) k⟩

/-! ## Entities after mutations -/

variable {inverse : Bool} {ms : List Mutation} {w : Stamp}

variable {o o' : Output}

theorem entities_of_mem (hsingle : Processor.Single ms)
    (h : applyMutations o ms inverse true w = .ok o') (hm : Mutation.entity k before after ∈ ms) :
    o'.entities[k]? = if inverse then before else after := by
  have hmem : ∀ m, m ∈ (if inverse then ms.reverse else ms) ↔ m ∈ ms := by
    cases inverse <;> simp
  rw [(Processor.applyMutations_entities h).1]
  apply Processor.get?_writeRows_of_mem
  · exact Processor.mem_entityValues.2 ⟨before, after, (hmem _).2 hm, rfl⟩
  · intro _ hval
    obtain ⟨_, _, hm', rfl⟩ := Processor.mem_entityValues.1 hval
    obtain ⟨rfl, rfl⟩ := hsingle ((hmem _).1 hm') hm; rfl

theorem entities_of_not (h : applyMutations o ms inverse true w = .ok o') (hnot : ∀ bef after,
    Mutation.entity k bef after ∉ ms) : o'.entities[k]? = o.entities[k]? := by
  have hmem : ∀ m, m ∈ (if inverse then ms.reverse else ms) ↔ m ∈ ms := by
    cases inverse <;> simp
  rw [(Processor.applyMutations_entities h).1]
  apply Processor.get?_writeRows_of_not
  intro _ hval
  obtain ⟨bef, after, hm, -⟩ := Processor.mem_entityValues.1 hval
  exact hnot bef after ((hmem _).1 hm)

theorem exists_applyMutations {inv : Bool} {ms : List Mutation} {w : Stamp} {o : Output}
    (h : ms.any (Mutation.stamps inv) = true → w.block.number ≤ i64Max ∧ w.block.timestamp ≤ i64Max) :
    ∃ o', applyMutations o ms inv true w = .ok o' := by
  simp only [applyMutations, eq_ok, Bool.true_and]
  exact ⟨_, (), fun hstamps => (h hstamps).1, (), fun hstamps => (h hstamps).2, rfl⟩

theorem fits_of_applyMutations (h : applyMutations o ms inverse true w = .ok o')
    (hstamps : ms.any (Mutation.stamps inverse) = true) :
    w.block.number ≤ i64Max ∧ w.block.timestamp ≤ i64Max := by
  simp only [applyMutations, eq_ok, Bool.true_and] at h
  obtain ⟨-, hnum, -, htimestamp, -⟩ := h; exact ⟨hnum hstamps, htimestamp hstamps⟩

/-! ## Steps -/

theorem Feed.sound_empty : empty.Sound tools processor entity where
  entities k := by
    have hnone : (∅ : Table EntityKey Bytes)[k]? = none := by simp
    exact hnone
  recorded := trivial
  numbers := List.Pairwise.nil

theorem Feed.Sound.apply (hcodes : ∀ delta, tools.Codes delta) (hsign : Signed tools processor)
    (h : s.Sound tools processor entity) (hfol : s.Follows block)
    (happly : s.apply tools entity writeTime processor block = .ok s') :
    s'.Sound tools processor entity ∧ s'.blocks = block :: s.blocks ∧ s'.views =
      observe s.views ((lastEvents (blockEvents tools processor block)).map (change entity)) := by
  obtain ⟨-, _, output, hbuild, hout, rfl⟩ := (apply_eq_ok hcodes).1 happly
  rw [h.builds hsign hfol, ok.injEq] at hbuild
  have hmuts := overlay_mutations h hfol
  refine ⟨⟨fun k => ?_, ⟨⟨hmuts, hbuild.symm, fits_of_applyMutations hout⟩, h.recorded⟩,
    List.pairwise_cons.2 ⟨h.below hfol, h.numbers⟩⟩, rfl, rfl⟩
  have hheld : held tools processor entity (block :: s.blocks) k = _ := held_cons
  change output.entities[k]? = held tools processor entity (block :: s.blocks) k
  cases hnew : newest slot (lastEvents (blockEvents tools processor block)) k with
  | some event =>
    rw [hheld, hnew, entities_of_mem (Processor.single_intoBatch _) hout
      ((hmuts k _ _).2 ⟨event, hnew, rfl, rfl⟩)]
    rfl
  | none =>
    rw [hheld, hnew, Option.map_none, Option.none_or, entities_of_not hout, h.entities]
    intro _ _ hm
    obtain ⟨event, hevent, -⟩ := (hmuts k _ _).1 hm; rw [hnew] at hevent; cases hevent

theorem AppliedBlock.Recorded.single {a : AppliedBlock} {older : List ChainFrame}
    (h : a.Recorded tools processor entity older) : Processor.Single a.batch.mutations := by
  intro _ _ _ _ _ hm hm'
  obtain ⟨_, hnew, rfl, rfl⟩ := (h.mutations _ _ _).1 hm
  obtain ⟨_, hnew', rfl, rfl⟩ := (h.mutations _ _ _).1 hm'
  rw [hnew, Option.some.injEq] at hnew'; exact ⟨rfl, by rw [hnew']⟩

theorem Feed.Sound.undo (h : s.Sound tools processor entity) (hundo : s.undo writeTime = .ok s') :
    s'.Sound tools processor entity ∧ ∃ block, s.blocks = block :: s'.blocks ∧ s'.views =
      observe s.views ((lastEvents (blockEvents tools processor block)).reverse.map fun event =>
        event.inverse (held tools processor entity s'.blocks event.slot)) := by
  obtain ⟨hents, hrecorded, hnumbers⟩ := h
  unfold Feed.undo at hundo
  unfold Feed.blocks at hents hnumbers ⊢
  cases happ : s.applied with
  | nil =>
    rw [happ] at hundo; cases hundo
  | cons a older =>
    rw [happ] at hundo hents hrecorded hnumbers
    simp only [eq_ok] at hundo
    obtain ⟨out, hout, rfl⟩ := hundo
    rw [List.map_cons] at hents hnumbers
    obtain ⟨ha, holder⟩ := hrecorded
    refine ⟨⟨fun k => ?_, holder, (List.pairwise_cons.1 hnumbers).2⟩, a.block, rfl, ?_⟩
    · change out.entities[k]? = held tools processor entity (older.map AppliedBlock.block) k
      cases hnew : newest slot (lastEvents (blockEvents tools processor a.block)) k with
      | some event =>
        rw [entities_of_mem ha.single hout ((ha.mutations k _ _).2 ⟨event, hnew, rfl, rfl⟩)]; rfl
      | none =>
        rw [entities_of_not hout, hents, held_cons, hnew, Option.map_none, Option.none_or]
        intro _ _ hm
        obtain ⟨event, hevent, -⟩ := (ha.mutations k _ _).1 hm; rw [hnew] at hevent; cases hevent
    · rw [ha.inverseChanges]

theorem Feed.Sound.accepts (hcodes : ∀ delta, tools.Codes delta) (hsign : Signed tools processor)
    (h : s.Sound tools processor entity) (hfol : s.Follows block)
    (hmap : ∃ delta, processor.map tools block = .ok delta)
    (hfits : block.block.number ≤ i64Max ∧ block.block.timestamp ≤ i64Max) :
    ∃ s', s.apply tools entity writeTime processor block = .ok s' := by
  obtain ⟨out, hout⟩ := @exists_applyMutations false
    (overlayOf tools processor entity s block).mutations ⟨block.block, block.finality, writeTime⟩
      s.output fun _ => hfits
  exact ⟨_, (apply_eq_ok hcodes).2 ⟨hmap, _, out, h.builds hsign hfol, hout, rfl⟩⟩

theorem Feed.Sound.undoes (h : s.Sound tools processor entity) (happ : s.applied ≠ []) :
    ∃ s', s.undo writeTime = .ok s' := by
  have hrecorded := h.recorded
  unfold Feed.undo
  cases hsplit : s.applied with
  | nil => exact absurd hsplit happ
  | cons a older =>
    rw [hsplit] at hrecorded
    obtain ⟨ha, -⟩ := hrecorded
    obtain ⟨out, hout⟩ := @exists_applyMutations true a.batch.mutations
      ⟨a.block.block, a.block.finality, writeTime⟩ s.output fun hstamps => by
        -- Whatever is put back was written, and what was written was stamped.
        obtain ⟨m, hm, hstamp⟩ := List.any_eq_true.1 hstamps
        refine ha.fits (List.any_eq_true.2 ⟨m, hm, ?_⟩)
        cases m with
        | entity k before after =>
          obtain ⟨_, -, -, rfl⟩ := (ha.mutations k before after).1 hm; rfl
        | index => exact hstamp
        | state => exact hstamp
    simp only [hout]; exact ⟨_, rfl⟩

/-! ## Views -/

def Apart (events : List MappedEvent) : Prop :=
  ∀ event ∈ events, ∀ event' ∈ events, event.key = event'.key →
    (event.collection = event'.collection ↔ event.kind = event'.kind)

def Feed.Viewed (tools : Tools) (processor : EvmEventsProcessor) (entity : Codec DecodedEvent)
    (s : Feed) : Prop :=
  ∀ (kind : String) (key payload : Bytes), s.views[(kind, key)]? = some payload ↔
    ∃ collection event, newest MappedEvent.slot (keptEvents tools processor s.blocks)
      (collection, key) = some event ∧ event.kind = kind ∧ event.payload entity = payload

theorem Apart.mono {events' : List MappedEvent} (h : Apart events)
    (hsub : ∀ event ∈ events', event ∈ events) : Apart events' :=
  fun event hev event' hev' => h event (hsub event hev) event' (hsub event' hev')

variable {kind : String}

theorem newest_other (hapart : Apart (keptEvents tools processor (block :: s.blocks)))
    {coll : String} {key : Bytes} (hnone : ∀ event ∈ lastEvents (blockEvents tools processor block),
    event.kind = kind → event.key ≠ key) (hkind : event.kind = kind) :
    newest slot (keptEvents tools processor (block :: s.blocks)) (coll, key) =
    some event ↔ newest slot (keptEvents tools processor s.blocks) (coll, key) = some event := by
  rw [keptEvents_cons, newest_append]
  cases hnew : newest slot (lastEvents (blockEvents tools processor block)) (coll, key) with
  | none => rw [Option.none_or]
  | some other =>
    -- The block's event under the collection and key has another kind, so `event` is under neither.
    obtain ⟨hother, hslot⟩ := newest_mem hnew
    obtain ⟨hcoll, hkey⟩ := mk.inj hslot
    have hne : other.kind ≠ kind := fun h => hnone other hother h hkey
    rw [Option.some_or, Option.some.injEq]
    constructor
    · rintro rfl; exact absurd hkind hne
    · intro hev
      obtain ⟨hmem, hslot'⟩ := newest_mem hev
      obtain ⟨hcoll', hkey'⟩ := mk.inj hslot'
      refine absurd ?_ hne
      rw [← hkind]
      refine (hapart other (mem_keptEvents_of_last hother) event ?_ (hkey.trans hkey'.symm)).1
        (hcoll.trans hcoll'.symm)
      exact mem_keptEvents_of_below hmem

theorem eq_of_kind_key (hapart : Apart (keptEvents tools processor (block :: s.blocks)))
 (h : event ∈ lastEvents (blockEvents tools processor block))
    (h' : event' ∈ keptEvents tools processor (block :: s.blocks)) (hkind : event.kind = event'.kind)
    (hkey : event.key = event'.key) : event.slot = event'.slot := by
  have hmem : event ∈ keptEvents tools processor (block :: s.blocks) := mem_keptEvents_of_last h
  rw [slot, slot, (hapart event hmem event' h' hkey).2 hkind, hkey]

theorem Feed.Viewed.apply (h : s.Viewed tools processor entity)
    (hapart : Apart (keptEvents tools processor (block :: s.blocks)))
    (hblks : s'.blocks = block :: s.blocks)
    (hviews : s'.views = observe s.views ((lastEvents (blockEvents tools processor block)).map
      (change entity))) : s'.Viewed tools processor entity := by
  intro kind key pay
  rw [hviews, hblks, observe, List.map_map]
  by_cases hkept : ∃ event ∈ lastEvents (blockEvents tools processor block),
      event.kind = kind ∧ event.key = key
  · obtain ⟨event, hev, rfl, rfl⟩ := hkept
    have hnew : newest slot (keptEvents tools processor (block :: s.blocks))
        event.slot = some event := by
      rw [keptEvents_cons, newest_append, newest_of_nodup (nodup_lastEvents _) hev, Option.some_or]
    rw [Processor.get?_writeRows_of_mem (v := some (event.payload entity))]
    · constructor
      · rintro ⟨rfl⟩; exact ⟨event.collection, event, hnew, rfl, rfl⟩
      · rintro ⟨coll, event', hnew', hkind, rfl⟩
        obtain ⟨hmem, hslot⟩ := newest_mem hnew'
        have hsame := eq_of_kind_key hapart hev hmem hkind.symm (Prod.mk.inj hslot).2.symm
        rw [← hslot, ← hsame, hnew, Option.some.injEq] at hnew'; rw [hnew']
    · exact List.mem_map.2 ⟨event, hev, rfl⟩
    · intro value hval
      obtain ⟨event', hev', heq⟩ := List.mem_map.1 hval
      obtain ⟨⟨hkind, hkey⟩, rfl⟩ := Prod.mk.inj heq |>.imp_left Prod.mk.inj
      have hmem : event' ∈ keptEvents tools processor (block :: s.blocks) :=
        mem_keptEvents_of_last hev'
      have hsame := eq_of_kind_key hapart hev hmem hkind.symm hkey.symm
      rw [List.inj_on_of_nodup_map (nodup_lastEvents _) hev hev' hsame]; rfl
  · have hnone : ∀ event ∈ lastEvents (blockEvents tools processor block), event.kind = kind →
        event.key ≠ key := fun event hev hkind hkey => hkept ⟨event, hev, hkind, hkey⟩
    rw [Processor.get?_writeRows_of_not, h kind key pay]
    · refine exists_congr fun coll => exists_congr fun event => ?_
      constructor
      · rintro ⟨hnew, hkind, hpay⟩; exact ⟨(newest_other hapart hnone hkind).2 hnew, hkind, hpay⟩
      · rintro ⟨hnew, hkind, hpay⟩; exact ⟨(newest_other hapart hnone hkind).1 hnew, hkind, hpay⟩
    · intro value hval
      obtain ⟨event, hev, heq⟩ := List.mem_map.1 hval
      obtain ⟨⟨hkind, hkey⟩, -⟩ := Prod.mk.inj heq |>.imp_left Prod.mk.inj
      exact hnone event hev hkind hkey

theorem Feed.Viewed.undo (h : s.Viewed tools processor entity)
    (hapart : Apart (keptEvents tools processor s.blocks)) (hblks : s.blocks = block :: s'.blocks)
    (hviews : s'.views = observe s.views
      ((lastEvents (blockEvents tools processor block)).reverse.map fun event =>
        event.inverse (held tools processor entity s'.blocks event.slot))) :
    s'.Viewed tools processor entity := by
  rw [hblks] at hapart
  intro kind key pay
  rw [hviews, observe, List.map_map]
  have hwrite : ∀ event : MappedEvent, ∀ bef : Option Bytes,
      (((event.inverse bef).kind, (event.inverse bef).key), (event.inverse bef).value) =
        ((event.kind, event.key), bef) := fun event bef => by
    rw [MappedEvent.inverse_value]; rfl
  have holder : ∀ {event : MappedEvent}, event ∈ keptEvents tools processor s'.blocks →
      event ∈ keptEvents tools processor (block :: s'.blocks) := mem_keptEvents_of_below
  by_cases hkept : ∃ event ∈ lastEvents (blockEvents tools processor block),
      event.kind = kind ∧ event.key = key
  · obtain ⟨event, hev, rfl, rfl⟩ := hkept
    have hmem : event ∈ keptEvents tools processor (block :: s'.blocks) :=
      mem_keptEvents_of_last hev
    rw [Processor.get?_writeRows_of_mem (v := held tools processor entity s'.blocks event.slot),
      held, Option.map_eq_some_iff]
    · constructor
      · rintro ⟨older, hnew, hpay⟩
        obtain ⟨holdest, hslot⟩ := newest_mem hnew
        obtain ⟨hcoll, hkey⟩ := Prod.mk.inj hslot
        exact ⟨event.collection, older, hnew,
          (hapart older (holder holdest) event hmem hkey).1 hcoll, hpay⟩
      · rintro ⟨coll, older, hnew, hkind, hpay⟩
        obtain ⟨holdest, hslot⟩ := newest_mem hnew
        have hsame := eq_of_kind_key hapart hev (holder holdest) hkind.symm (Prod.mk.inj hslot).2.symm
        exact ⟨older, by rw [hsame, hslot, hnew], hpay⟩
    · exact List.mem_map.2 ⟨event, List.mem_reverse.2 hev, hwrite event _⟩
    · intro value hval
      obtain ⟨event', hev', heq⟩ := List.mem_map.1 hval
      rw [List.mem_reverse] at hev'
      rw [Function.comp_apply, hwrite] at heq
      obtain ⟨hpair, rfl⟩ := Prod.mk.inj heq
      obtain ⟨hkind, hkey⟩ := Prod.mk.inj hpair
      have hmem' : event' ∈ keptEvents tools processor (block :: s'.blocks) :=
        mem_keptEvents_of_last hev'
      rw [eq_of_kind_key hapart hev hmem' hkind.symm hkey.symm]
  · have hnone : ∀ event ∈ lastEvents (blockEvents tools processor block), event.kind = kind →
        event.key ≠ key := fun event hev hkind hkey => hkept ⟨event, hev, hkind, hkey⟩
    rw [Processor.get?_writeRows_of_not, h kind key pay, hblks]
    · refine exists_congr fun coll => exists_congr fun event => ?_
      constructor
      · rintro ⟨hnew, hkind, hpay⟩; exact ⟨(newest_other hapart hnone hkind).1 hnew, hkind, hpay⟩
      · rintro ⟨hnew, hkind, hpay⟩; exact ⟨(newest_other hapart hnone hkind).2 hnew, hkind, hpay⟩
    · intro value hval
      obtain ⟨event, hev, heq⟩ := List.mem_map.1 hval
      rw [List.mem_reverse] at hev
      obtain ⟨hkind, hkey⟩ := Prod.mk.inj (Prod.mk.inj heq).1; exact hnone event hev hkind hkey

/-! ## Runs -/

def MappedEvent.position (event : MappedEvent) : Nat ×ₗ Nat ×ₗ Nat :=
  toLex (event.entity.blockNumber, toLex (event.entity.transactionIndex, event.entity.logIndex))

structure Newest (events : List MappedEvent) (k : EntityKey) (event : MappedEvent) : Prop where
  mem : event ∈ events
  slot : event.slot = k
  newest : ∀ other ∈ events, other.slot = k → other.position ≤ event.position

theorem blockEvents_ordered (block : ChainFrame) :
    (blockEvents tools processor block).Pairwise fun a b => a.position ≤ b.position := by
  have hnum : ∀ event ∈ blockEvents tools processor block,
      event.entity.blockNumber = block.block.number :=
    fun event h => (eventFrom_of_mem h).blockNumber
  have hsort : (blockEvents tools processor block).Pairwise fun a b => a.sortKey ≤ b.sortKey := by
    unfold blockEvents
    split
    · rw [deltaOf, sortEvents]
      exact (List.pairwise_mergeSort (fun a b _ hab hbc => decide_eq_true
          ((of_decide_eq_true hab).trans (of_decide_eq_true hbc)))
        (fun a b => by simpa using le_total a.sortKey b.sortKey) _).imp of_decide_eq_true
    · exact List.Pairwise.nil
  refine hsort.imp_of_mem fun {a b} ha hb hab => ?_
  rw [position, position, hnum a ha, hnum b hb, Prod.Lex.toLex_le_toLex]
  refine .inr ⟨rfl, ?_⟩
  rw [sortKey, sortKey, Prod.Lex.toLex_le_toLex] at hab
  rw [Prod.Lex.toLex_le_toLex]
  rcases hab with hlt | ⟨heq, hle⟩
  · exact .inl hlt
  · refine .inr ⟨heq, ?_⟩
    rw [Prod.Lex.toLex_le_toLex] at hle
    rcases hle with hlt | ⟨hle, -⟩
    · exact hlt.le
    · exact hle.le

theorem chainEvents_ordered
    (h : blocks.Pairwise fun later prior => prior.block.number < later.block.number) :
    (chainEvents tools processor blocks).Pairwise fun a b => a.position ≤ b.position := by
  induction blocks with
  | nil => exact List.Pairwise.nil
  | cons block blocks ih =>
    rw [List.pairwise_cons] at h
    rw [chainEvents_cons, List.pairwise_append]
    refine ⟨ih h.2, blockEvents_ordered block, fun a ha b hb => ?_⟩
    obtain ⟨prior, hearlier, ha⟩ := mem_chainEvents.1 ha
    rw [position, position, (eventFrom_of_mem ha).blockNumber,
      (eventFrom_of_mem hb).blockNumber, Prod.Lex.toLex_le_toLex]
    exact .inl (h.1 prior hearlier)

variable (tools processor entity writeTime) in
/-- The collections hold the newest events, and the steps of a run never fail: a mapped block that
builds on the newest one is applied, and the newest block can be undone. -/
structure Feed.Collects (s : Feed) : Prop where
  newest : ∀ (k : EntityKey) (payload : Bytes), s.output.entities[k]? = some payload → ∃ event,
    Newest (chainEvents tools processor s.blocks) k event ∧ entity.encode event.entity = payload
  present : ∀ event ∈ chainEvents tools processor s.blocks, event.slot ∈ s.output.entities
  accepts : ∀ block : ChainFrame,
    s.Follows block → (∃ delta, processor.map tools block = .ok delta) → block.block.number ≤ i64Max ∧
    block.block.timestamp ≤ i64Max → ∃ s', s.apply tools entity writeTime processor block = .ok s'
  undoes : s.applied ≠ [] → ∃ s', s.undo writeTime = .ok s'

variable (tools processor entity) in
def Feed.ViewsAgree (s : Feed) : Prop :=
  ∀ (kind : String) (key payload : Bytes), s.views[(kind, key)]? = some payload ↔ ∃ collection event,
    Newest (chainEvents tools processor s.blocks) (collection, key) event ∧ event.kind =
    kind ∧ s.output.entities[(collection, key)]? = some payload ∧ entity.encode event.entity = payload

theorem Feed.Sound.newest (h : s.Sound tools processor entity)
    (hnew : newest slot (keptEvents tools processor s.blocks) k = some event) :
    Newest (chainEvents tools processor s.blocks) k event := by
  rw [newest_keptEvents] at hnew
  obtain ⟨hmem, hslot⟩ := newest_mem hnew
  exact ⟨hmem, hslot, fun _ hother hkey =>
    newest_greatest (R := fun a b : MappedEvent => a.position ≤ b.position) (fun _ => le_rfl)
      (chainEvents_ordered h.numbers) hnew hother hkey⟩

theorem Feed.Sound.collects (hcodes : ∀ delta, tools.Codes delta) (hsign : Signed tools processor)
    (h : s.Sound tools processor entity) : s.Collects tools processor entity writeTime where
  newest k payload hpay := by
    rw [h.entities, held, Option.map_eq_some_iff] at hpay
    obtain ⟨event, hnew, hpay⟩ := hpay; exact ⟨event, h.newest hnew, hpay⟩
  present event hevent := by
    obtain ⟨_, hlast⟩ := exists_newest slot hevent
    rw [← newest_keptEvents] at hlast; rw [← isSome_getElem?_iff_mem, h.entities, held, hlast]; rfl
  accepts _ hfol hmap hfits := h.accepts hcodes hsign hfol hmap hfits
  undoes happ := h.undoes happ

theorem Feed.Sound.viewsAgree (hsign : Signed tools processor) (h : s.Sound tools processor entity)
    (hviewed : s.Viewed tools processor entity) : s.ViewsAgree tools processor entity := by
  intro kind key pay
  rw [hviewed kind key pay]
  constructor
  · rintro ⟨coll, event, hnew, hkind, hpay⟩
    refine ⟨coll, event, h.newest hnew, hkind, ?_, hpay⟩
    rw [h.entities, held, hnew, Option.map_some, hpay]
  · rintro ⟨coll, event, hnew, hkind, hentry, hpay⟩
    rw [h.entities, held, Option.map_eq_some_iff] at hentry
    obtain ⟨last, hlast, hsame⟩ := hentry
    have hent := entity.encode_injective (hsame.trans hpay.symm)
    have hmem := keptEvents_subset (newest_mem hlast).1
    exact ⟨coll, last, hlast, (hsign.alike hmem hnew.mem hent).2.trans hkind, hsame⟩

variable {P : List ChainFrame → ChainFrame → Prop}

theorem Feed.Reached.mono {Q : List ChainFrame → ChainFrame → Prop} (hpermits : ∀ blocks block,
    P blocks block → Q blocks block) (h : Feed.Reached tools entity writeTime processor P s) :
    Feed.Reached tools entity writeTime processor Q s := by
  induction h with
  | start => exact .start
  | apply _ hfol hpermit happly ih => exact .apply ih hfol (hpermits _ _ hpermit) happly
  | undo _ hundo ih => exact .undo ih hundo

theorem Feed.Reached.sound (hcodes : ∀ delta, tools.Codes delta) (hsign : Signed tools processor)
    (h : Feed.Reached tools entity writeTime processor P s) : s.Sound tools processor entity := by
  induction h with
  | start => exact sound_empty
  | apply _ hfol _ happly ih => exact (ih.apply hcodes hsign hfol happly).1
  | undo _ hundo ih => exact (ih.undo hundo).1

theorem Feed.Reached.viewed (hcodes : ∀ delta, tools.Codes delta) (hsign : Signed tools processor)
    (h : Feed.Reached tools entity writeTime processor
      (fun blocks block => Apart (keptEvents tools processor (block :: blocks))) s) :
    s.Viewed tools processor entity ∧ Apart (keptEvents tools processor s.blocks) := by
  induction h with
  | start =>
    refine ⟨fun _ _ _ => ?_, fun event hev => ?_⟩
    · simp [empty, blocks, keptEvents]
    · simp [empty, blocks, keptEvents] at hev
  | apply hreach hfol hapart happly ih =>
    obtain ⟨-, hblocks, hviews⟩ :=
      (hreach.sound hcodes hsign).apply hcodes hsign hfol happly
    exact ⟨ih.1.apply hapart hblocks hviews, hblocks ▸ hapart⟩
  | undo hreach hundo ih =>
    obtain ⟨-, block, hblocks, hviews⟩ := (hreach.sound hcodes hsign).undo hundo
    refine ⟨ih.1.undo ih.2 hblocks hviews, ih.2.mono fun event hev => ?_⟩
    rw [hblocks]; exact mem_keptEvents_of_below hev

/-- Over every run of blocks applied in order and undone, the collections hold the newest events;
where events of one key share their collection exactly if they share their kind, the views agree. -/
theorem collections_and_views {config : EvmEventsConfig} (hnew : new tools config = .ok processor)
    (hcodes : ∀ delta, tools.Codes delta) :
    (∀ s, Feed.Reached tools entity writeTime processor (fun _ _ => True) s →
      s.Collects tools processor entity writeTime) ∧
    ∀ s, Feed.Reached tools entity writeTime processor
      (fun blocks block => Apart (keptEvents tools processor (block :: blocks))) s →
        s.ViewsAgree tools processor entity := by
  have hsigned := signed_of_new hnew
  constructor
  · intro s h; exact (h.sound hcodes hsigned).collects hcodes hsigned
  · intro s h; exact (h.sound hcodes hsigned).viewsAgree hsigned (h.viewed hcodes hsigned).1

/-! ## Two events under one key -/

instance countableString : Countable String := by
  have hstring : Function.Injective fun text : String => text.toList.map Char.toNat := by
    intro a b h
    exact String.toList_inj.mp
      (List.map_injective_iff.mpr (fun _ _ hchar => Char.toNat_inj.mp hchar) h)
  exact hstring.countable

instance countableFixed (n : Nat) : Countable (Vector UInt8 n) := by
  have hvector : Function.Injective fun v : Vector UInt8 n => v.toList.map UInt8.toNat := by
    intro v w h
    exact Vector.toList_inj.mp
      (List.map_injective_iff.mpr (fun _ _ hbyte => UInt8.toNat_inj.mp hbyte) h)
  exact hvector.countable

instance countableTexts : Countable (Table String String) := by
  have htable : Function.Injective fun t : Table String String => t.toList := by
    intro t u h
    refine Table.ext fun k => Option.ext fun v => ?_
    dsimp only at h
    rw [← Table.mem_toList, ← Table.mem_toList, h]
  exact htable.countable

instance countableDecodedEvent : Countable DecodedEvent := by
  have hevent : Function.Injective fun e : DecodedEvent =>
      (e.schemaVersion, e.contract, e.event, e.signature, e.blockNumber, e.blockHash.toNat,
        e.blockTimestamp, e.bucketStartTimestamp, e.transactionHash, e.transactionIndex, e.logIndex,
        (decide (e.finality = .attested), decide (e.finality = .finalized)), e.values) := by
    rintro ⟨_, _, _, _, _, _, _, _, _, _, _, finality, _⟩ ⟨_, _, _, _, _, _, _, _, _, _, _, finality', _⟩ h
    simp only [Prod.mk.injEq] at h
    obtain ⟨rfl, rfl, rfl, rfl, rfl, hhash, rfl, rfl, rfl, rfl, rfl, hfinality, rfl⟩ := h
    cases BitVec.eq_of_toNat_eq hhash
    cases finality <;> cases finality' <;> first | rfl | simp at hfinality
  exact hevent.countable

instance countableEventDelta : Countable EventDelta := by
  have hmapped : Function.Injective fun e : MappedEvent =>
      (e.collection, e.kind, e.key.map UInt8.toNat, e.entity) := by
    rintro ⟨_, _, key, _⟩ ⟨_, _, key', _⟩ h
    simp only [Prod.mk.injEq] at h
    obtain ⟨rfl, rfl, hkey, rfl⟩ := h
    cases List.map_injective_iff.mpr (fun _ _ hbyte => UInt8.toNat_inj.mp hbyte) hkey
    rfl
  have : Countable MappedEvent := hmapped.countable
  have hdelta : Function.Injective fun d : EventDelta => (d.events, d.skippedLogs) := by
    rintro ⟨⟩ ⟨⟩ h
    simp_all
  exact hdelta.countable

noncomputable def deltaCodec : Codec EventDelta := Codec.nonempty_of_countable.some

noncomputable def entityCodec : Codec DecodedEvent := Codec.nonempty_of_countable.some

noncomputable def pairTools : Tools :=
  { depositTools with
    blake3 := fun _ => 5
    encodeDelta := deltaCodec.encode
    decodeDelta := deltaCodec.decode }

theorem pairTools_codes (delta : EventDelta) : pairTools.Codes delta :=
  deltaCodec.decode_encode delta

def pairConfig (kind : String) : EvmEventsConfig :=
  ⟨0, [Vector.replicate 20 2], [
    ⟨"event Deposit(address indexed owner, uint256 amount)",
      ⟨"deposits", "deposit", ["_bucket_start"], some 3600⟩⟩,
    ⟨"log0", ⟨"notes", kind, ["_bucket_start"], some 3600⟩⟩]⟩

def pairBlockFrame : ChainFrame where
  chainId := 1
  block := ⟨1, 11, 0, 12⟩
  finality := .attested
  header := .missing
  transactions := .missing
  receipts := .missing
  logs := .complete [
    ⟨Vector.replicate 20 2, [Vector.replicate 32 7, Vector.replicate 32 0], ContractAbi.word 5,
      some (Vector.replicate 32 1), 0, 0⟩,
    ⟨Vector.replicate 20 2, [], [9], some (Vector.replicate 32 1), 0, 1⟩]
  withdrawals := .missing
  blobSidecars := .missing
  traces := .missing
  stateDiffs := .missing
  verification := ⟨.verified, .verified, .verified, .verified, .verified, .verified, none⟩

structure MapsPair (kind : String) (processor : EvmEventsProcessor) : Prop where
  built : new pairTools (pairConfig kind) = .ok processor
  accepted : (processor.descriptor.requirement.validateFrame
    pairBlockFrame.toBlockFrame).toOption.isSome = true
  maps : ((pairBlockFrame.logs.asPresent.getD []).all fun log =>
    (processor.mapLog pairTools pairBlockFrame log).toOption.isSome) = true
  events : (eventsOf pairTools processor pairBlockFrame
    (pairBlockFrame.logs.asPresent.getD [])).map
      (fun event => (event.collection, event.kind, event.key)) =
        [("deposits", "deposit", BigEndian.bytes 32 5), ("notes", kind, BigEndian.bytes 32 5)]

theorem maps_pair_shared : ∃ processor, MapsPair "deposit" processor :=
  ⟨_, rfl, by decide +kernel, by decide +kernel, by decide +kernel⟩

theorem maps_pair_apart : ∃ processor, MapsPair "note" processor :=
  ⟨_, rfl, by decide +kernel, by decide +kernel, by decide +kernel⟩

theorem MapsPair.map (h : MapsPair kind processor) :
    ∃ delta, processor.map pairTools pairBlockFrame = .ok delta := by
  have hsome : ∀ {ε α : Type} {res : Except ε α}, res.toOption.isSome = true →
      ∃ a, res = .ok a := by
    rintro ε α (_ | a) hres
    · cases hres
    · exact ⟨a, rfl⟩
  obtain ⟨⟨⟩, hacc⟩ := hsome h.accepted
  exact ⟨_, map_eq_ok.2 ⟨hacc, _, rfl,
    fun log hlog => hsome (List.all_eq_true.1 h.maps log hlog), rfl⟩⟩

theorem MapsPair.mem_iff (h : MapsPair kind processor) {place : String × String × Bytes} :
    place ∈ [("deposits", "deposit", bytes 32 5), ("notes", kind, bytes 32 5)] ↔
      ∃ event ∈ chainEvents pairTools processor [pairBlockFrame],
        (event.collection, event.kind, event.key) = place := by
  have hevs : ∀ event, event ∈ chainEvents pairTools processor [pairBlockFrame] ↔
      event ∈ eventsOf pairTools processor pairBlockFrame (pairBlockFrame.logs.asPresent.getD []) := by
    intro event
    rw [mem_chainEvents]; simp only [List.mem_singleton, exists_eq_left]; exact List.mem_mergeSort
  rw [← h.events, List.mem_map]; simp only [hevs]

theorem MapsPair.reached {kind : String} (h : MapsPair kind processor)
    {P : List ChainFrame → ChainFrame → Prop} (hpermits : P [] pairBlockFrame) : ∃ s,
    Feed.Reached pairTools entityCodec (fun _ => 0) processor P s ∧ s.blocks = [pairBlockFrame] := by
  have hsign := signed_of_new h.built
  have hfol : Feed.empty.Follows pairBlockFrame := by simp [Feed.Follows, Feed.empty]
  have hfits : pairBlockFrame.block.number ≤ i64Max ∧ pairBlockFrame.block.timestamp ≤ i64Max := by
    simp [pairBlockFrame, i64Max]
  obtain ⟨s, happly⟩ : ∃ s, empty.apply pairTools entityCodec (fun _ => 0) processor
      pairBlockFrame = .ok s :=
    sound_empty.accepts pairTools_codes hsign hfol h.map hfits
  exact ⟨s, .apply .start hfol hpermits happly,
    (sound_empty.apply pairTools_codes hsign hfol happly).2.1⟩

/-- Deposits and notes with kinds of their own: the collections and the views agree. -/
theorem collections_and_views_pair : ∃ (processor : EvmEventsProcessor) (s : Feed),
    MapsPair "note" processor ∧ s.blocks = [pairBlockFrame] ∧
      s.Collects pairTools processor entityCodec (fun _ => 0) ∧
        s.ViewsAgree pairTools processor entityCodec := by
  obtain ⟨processor, h⟩ := maps_pair_apart
  obtain ⟨hcollects, hviews⟩ :=
    @collections_and_views pairTools processor entityCodec (fun _ => 0) _ h.built pairTools_codes
  have hapart : Apart (keptEvents pairTools processor [pairBlockFrame]) := by
    intro event hevent event' hevent' _
    have hplace := h.mem_iff.2 ⟨event, keptEvents_subset hevent, rfl⟩
    have hplace' := h.mem_iff.2 ⟨event', keptEvents_subset hevent', rfl⟩
    simp only [List.mem_cons, Prod.mk.injEq, List.not_mem_nil, or_false] at hplace hplace'
    rcases hplace with ⟨hc, hk, -⟩ | ⟨hc, hk, -⟩ <;>
      rcases hplace' with ⟨hc', hk', -⟩ | ⟨hc', hk', -⟩ <;>
        simp [hc, hk, hc', hk']
  obtain ⟨s, hreached, hblocks⟩ := @MapsPair.reached processor "note" h
    (fun blocks block => Apart (keptEvents pairTools processor (block :: blocks))) hapart
  exact ⟨processor, s, h, hblocks, hcollects s (hreached.mono fun _ _ _ => trivial), hviews s hreached⟩

/-- Deposits and notes that share a kind: both collections hold their event, and the one view of the
kind can hold only one of them. -/
theorem shared_kind_loses_entry : ∃ (processor : EvmEventsProcessor) (s : Feed),
    MapsPair "deposit" processor ∧
    Feed.Reached pairTools entityCodec (fun _ => 0) processor (fun _ _ => True) s ∧
      ¬ s.ViewsAgree pairTools processor entityCodec := by
  obtain ⟨processor, h⟩ := maps_pair_shared
  obtain ⟨s, hreached, hblocks⟩ := h.reached (P := fun _ _ => True) trivial
  have hsigned := signed_of_new h.built
  have hsound := hreached.sound pairTools_codes hsigned
  refine ⟨processor, s, h, hreached, fun hviews => ?_⟩
  -- Each collection holds an event under the key, which the view of its kind would hold.
  have hview : ∀ collection : String, (collection, "deposit", bytes 32 5) ∈
        [("deposits", "deposit", bytes 32 5), ("notes", "deposit", bytes 32 5)] →
        ∃ event ∈ chainEvents pairTools processor s.blocks, event.collection = collection ∧
          s.views[(("deposit", bytes 32 5) : String × Bytes)]? = some (event.payload entityCodec) := by
    intro collection hplace
    obtain ⟨event, hevent, hplace⟩ := h.mem_iff.1 hplace
    obtain ⟨hcollection, hkind⟩ := mk.inj hplace
    obtain ⟨-, hkey⟩ := mk.inj hkind
    rw [← hblocks] at hevent
    obtain ⟨last, hlast⟩ := exists_newest slot hevent
    rw [← newest_keptEvents] at hlast
    have hnewest := hsound.newest hlast
    obtain ⟨hcollection', _⟩ := mk.inj hnewest.slot
    have hmem := h.mem_iff.2 ⟨last, hblocks ▸ hnewest.mem, rfl⟩
    have hlastKind : last.kind = "deposit" := by
      simp only [List.mem_cons, Prod.mk.injEq, List.not_mem_nil, or_false] at hmem
      rcases hmem with ⟨-, hk, -⟩ | ⟨-, hk, -⟩ <;> exact hk
    refine ⟨last, hnewest.mem, hcollection'.trans hcollection, (hviews _ _ _).2
      ⟨event.collection, last, ?_, hlastKind, ?_, rfl⟩⟩
    · rw [← hkey]; exact hnewest
    · rw [← hkey]
      change s.output.entities[event.slot]? = _; rw [hsound.entities, held, hlast]; rfl
  obtain ⟨deposit, hdeposit, hdeposits, hheld⟩ := hview "deposits" (by simp)
  obtain ⟨_, hnote, hnotes, hheld'⟩ := hview "notes" (by simp)
  rw [hheld, Option.some.injEq] at hheld'
  have halike := hsigned.alike hdeposit hnote (entityCodec.encode_injective hheld')
  rw [hdeposits, hnotes] at halike; exact absurd halike.1 (by decide)

end Leani.EvmEvents
