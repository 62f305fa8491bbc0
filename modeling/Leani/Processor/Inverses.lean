import Leani.Library.Overwrites
import Leani.Processor.Following

/-!
# Taking changes back

A block's changes are taken back by the changes that `build_inverse_changes` finds for them: each is
matched by key and value with a write of the block, whatever collection or namespace that write was
in. A consumer's view is restored exactly when every change is matched with a write that started from
the value the view had (`inverse_restores_iff`). A write of the value that was already there leaves no
mutation, so a change that reports one is matched with another collection's write, and taken back to
that collection's value.
-/

namespace Leani.Processor

open Library Std Delivery List Option

abbrev View := String × Bytes → Option Bytes

def changeTarget (change : DomainChange) : String × Bytes := (change.kind, change.key)

def applyChanges (view : View) (changes : List DomainChange) : View :=
  overwrite changeTarget DomainChange.value view changes

inductive Source where
  | entities (collection : String)
  | state (scope : String)

def Source.stored (db : Values) : Source → Bytes → Option Bytes
  | .entities collection, key => db.entities[((collection, key) : EntityKey)]?
  | .state scope, key => db.state[((scope, key) : StateKey)]?

def Source.touched (overlay : ReducerOverlay) : Source → Bytes → Option (OverlayValue (Option Bytes))
  | .entities collection, key => overlay.entities[((collection, key) : EntityKey)]?
  | .state scope, key => overlay.state[((scope, key) : StateKey)]?

/-- Entity mutations first, state mutations if there are none, and for a value that no mutation has
the mutations that created the key. -/
def countedWrites (ms : List Mutation) (change : DomainChange) :
    List (Bytes × Option Bytes × Option Bytes) :=
  let entities := (entityWrites ms).filter (matchesChange change)
  let matching := if entities.isEmpty then (stateWrites ms).filter (matchesChange change) else entities
  if matching.isEmpty ∧ change.operation = .upsert then
    (entityWrites ms ++ stateWrites ms).filter fun write =>
      write.1 = change.key && write.2.1.isNone && write.2.2.isSome
  else matching

variable {ms : List Mutation}

theorem inverseChange_of_counted {change inv : DomainChange}
    (h : inverseChange ms change = .ok inv) : ∃ write, countedWrites ms change = [write] ∧
      inv.kind = change.kind ∧ inv.key = change.key ∧ inv.value = write.2.1 := by
  unfold inverseChange at h
  extract_lets entities matching created at h
  change ∃ write, (if matching.isEmpty ∧ change.operation = .upsert then created else matching) =
    [write] ∧ _
  have hval (before : Option Bytes) : DomainChange.value ⟨change.kind, change.key,
      if before.isSome then .upsert else .delete, before.getD []⟩ = before := by
    cases before <;> rfl
  have hnew : ∀ write ∈ created, write.2.1 = none := by
    intro write hwrite
    have hkept := (mem_filter.1 hwrite).2
    simp only [Bool.and_eq_true, isNone_iff_eq_none] at hkept; exact hkept.1.2
  clear_value matching created
  split at h
  · rename_i hcreated
    obtain ⟨hempty, hupsert, hlen⟩ := hcreated
    obtain ⟨write, hwrite⟩ := length_eq_one_iff.1 hlen
    rw [if_pos ⟨hempty, hupsert⟩]
    refine ⟨write, hwrite, ?_⟩
    rw [← Except.ok.inj h, hnew write (hwrite ▸ mem_singleton_self write)]; exact ⟨rfl, rfl, rfl⟩
  · split at h
    · rename_i _ before _ _
      rw [if_neg fun hc => Bool.false_ne_true hc.1]
      refine ⟨_, rfl, ?_⟩
      rw [← Except.ok.inj h]; exact ⟨rfl, rfl, hval before⟩
    · cases h

def firstChange (changes : List DomainChange) (target : String × Bytes) : Option DomainChange :=
  Library.newest changeTarget changes.reverse target

variable {inverse : List DomainChange}

theorem restores_iff_counted {batch : MutationBatch} (h : buildInverseChanges batch = .ok inverse)
    (view : View) : applyChanges (applyChanges view batch.changes)
    inverse = view ↔ ∀ tgt chg, firstChange batch.changes tgt =
    some chg → ∀ write ∈ countedWrites batch.mutations chg, write.2.1 = view tgt := by
  have hkey (a b : DomainChange) (hb : inverseChange batch.mutations a = .ok b) :
      changeTarget b = changeTarget a := by
    obtain ⟨-, -, hkind, hkey, -⟩ := inverseChange_of_counted hb
    rw [changeTarget, changeTarget, hkind, hkey]
  rw [applyChanges, applyChanges, overwrite_reverse_eq_iff hkey h]
  constructor
  · intro hall tgt chg hfst write hwrite
    obtain ⟨back, -, hback⟩ := answer_of_mapM_eq_ok h chg (newest_mem hfst).1
    obtain ⟨only, honly, -, -, hvalue⟩ := inverseChange_of_counted hback
    rw [honly, mem_singleton] at hwrite
    rw [hwrite, ← hvalue]; exact hall tgt chg back hfst hback
  · intro hall tgt chg back hfst hback
    obtain ⟨only, honly, -, -, hvalue⟩ := inverseChange_of_counted hback
    rw [hvalue]; exact hall tgt chg hfst only (honly ▸ mem_singleton_self only)

variable {overlay : ReducerOverlay} {change : DomainChange}
  {write : Bytes × Option Bytes × Option Bytes}

theorem mem_stateWrites {key : Bytes} {bef after : Option Bytes} : (key, bef, after)
    ∈ stateWrites ms ↔ ∃ scope, Mutation.state (scope, key) bef after ∈ ms := by
  rw [stateWrites, mem_filterMap]
  constructor
  · rintro ⟨m, hm, h⟩
    cases m with
    | state key' bef' after' =>
      rw [some.injEq, Prod.mk.injEq, Prod.mk.injEq] at h
      obtain ⟨rfl, rfl, rfl⟩ := h; exact ⟨key'.1, hm⟩
    | index => cases h
    | entity => cases h
  · rintro ⟨scope, hm⟩; exact ⟨_, hm, rfl⟩

theorem state_mem_mutations {key : StateKey} {bef after : Option Bytes} :
    Mutation.state key bef after ∈ overlay.mutations ↔
      overlay.state[key]? = some ⟨bef, after⟩ ∧ bef ≠ after := by
  rw [ReducerOverlay.mutations, mem_append, mem_append, mem_changedKeys,
    mem_changedKeys, mem_changedKeys]
  constructor
  · rintro ((⟨_, _, _, _, h⟩ | ⟨_, _, _, _, h⟩) | ⟨_, _, hv, hne, h⟩)
    · cases h
    · cases h
    · rw [Mutation.state.injEq] at h
      obtain ⟨rfl, rfl, rfl⟩ := h; exact ⟨hv, hne⟩
  · rintro ⟨hv, hne⟩; exact .inr ⟨key, _, hv, hne, rfl⟩

theorem before_ne_after (h : write ∈ entityWrites overlay.mutations ∨
    write ∈ stateWrites overlay.mutations) : write.2.1 ≠ write.2.2 := by
  obtain ⟨_, _, _⟩ := write
  rcases h with h | h
  · obtain ⟨_, hm⟩ := mem_entityWrites.1 h; exact (entity_mem_mutations.1 hm).2
  · obtain ⟨_, hm⟩ := mem_stateWrites.1 h; exact (state_mem_mutations.1 hm).2

theorem countedWrites_of_entity (hwrite : write ∈ entityWrites ms) (h : matchesChange change write =
    true) : countedWrites ms change = (entityWrites ms).filter (matchesChange change) := by
  have hmem := mem_filter.2 ⟨hwrite, h⟩
  have hne := isEmpty_eq_false_iff_exists_mem.2 ⟨_, hmem⟩
  rw [countedWrites]; simp only [hne, Bool.false_eq_true, if_false, false_and]

theorem countedWrites_of_state (hwrite : write ∈ stateWrites ms)
    (h : matchesChange change write = true) (hnone : ∀ w ∈ entityWrites ms, ¬ matchesChange change w =
    true) : countedWrites ms change = (stateWrites ms).filter (matchesChange change) := by
  have hmem := mem_filter.2 ⟨hwrite, h⟩
  have hne := isEmpty_eq_false_iff_exists_mem.2 ⟨_, hmem⟩
  rw [countedWrites, filter_eq_nil_iff.2 hnone]
  simp only [isEmpty_nil, if_true, hne, Bool.false_eq_true, false_and, if_false]

theorem counted_before_ne (h : write ∈ countedWrites overlay.mutations change) :
    write.2.1 ≠ change.value := by
  unfold countedWrites at h
  extract_lets entities matching at h
  have hmatching : ∀ w ∈ matching, w.2.1 ≠ change.value := by
    intro w hw
    have hboth : (w ∈ entityWrites overlay.mutations ∨ w ∈ stateWrites overlay.mutations) ∧
        matchesChange change w = true := by
      have hcases : w ∈ (stateWrites overlay.mutations).filter (matchesChange change) ∨
          w ∈ (entityWrites overlay.mutations).filter (matchesChange change) := by
        by_cases hempty : entities.isEmpty = true
        · exact .inl (by simpa only [matching, hempty, if_true] using hw)
        · exact .inr (by simpa only [matching, hempty, Bool.false_eq_true, if_false] using hw)
      rcases hcases with hw | hw
      · obtain ⟨hw, hmatch⟩ := mem_filter.1 hw; exact ⟨.inr hw, hmatch⟩
      · obtain ⟨hw, hmatch⟩ := mem_filter.1 hw; exact ⟨.inl hw, hmatch⟩
    rw [← (matchesChange_iff.1 hboth.2).2]; exact before_ne_after hboth.1
  split at h
  · rename_i hupsert
    have hkept := (mem_filter.1 h).2
    simp only [Bool.and_eq_true, isNone_iff_eq_none] at hkept
    rw [hkept.1.2, DomainChange.value, hupsert.2]; exact nofun
  · exact hmatching write h

theorem countedWrites_congr {other : DomainChange} (hkey : change.key = other.key)
    (hval : change.value = other.value) : countedWrites ms change = countedWrites ms other := by
  have hmatch : matchesChange change = matchesChange other := by
    funext write
    rw [Bool.eq_iff_iff, matchesChange_iff, matchesChange_iff, hkey, hval]
  have hupsert : change.operation = .upsert ↔ other.operation = .upsert := by
    unfold DomainChange.value at hval
    cases hc : change.operation <;> cases ho : other.operation <;> simp_all
  simp only [countedWrites, hmatch, hupsert, hkey]

def Carries (mirror : String → Source) (db : Values) (overlay : ReducerOverlay) : Prop :=
  ∀ change ∈ overlay.changes, ∃ value, (mirror change.kind).touched overlay change.key = some value ∧
    value.before = (mirror change.kind).stored db change.key ∧ value.after = change.value

/-- The block changed what the change mirrors, and no entity was given the same value under the same
key, starting elsewhere, by a change of working state. -/
def OwnWrite (db : Values) (overlay : ReducerOverlay) (source : Source) (change : DomainChange) :
    Prop :=
  source.stored db change.key ≠ change.value ∧
    match source with
    | .entities _ => True
    | .state _ => ∀ write ∈ entityWrites overlay.mutations, matchesChange change write = true →
      write.2.1 = source.stored db change.key

variable {source : Source} {db : Values}

theorem counted_of_own
    {value : OverlayValue (Option Bytes)} (htouched : source.touched overlay change.key = some value)
    (hbef : value.before = source.stored db change.key) (hafter : value.after = change.value)
    (hown : OwnWrite db overlay source change)
    (hone : ∃ only, countedWrites overlay.mutations change = [only]) :
    ∀ write ∈ countedWrites overlay.mutations change, write.2.1 = source.stored db change.key := by
  have hchanged := hbef ▸ hafter ▸ hown.1
  have hmatch : matchesChange change (change.key, value.before, value.after) = true :=
    matchesChange_iff.2 ⟨rfl, hafter⟩
  -- A write that is counted is the only one.
  have honly {w : Bytes × Option Bytes × Option Bytes}
      (hw : w ∈ countedWrites overlay.mutations change) (hb : w.2.1 = source.stored db change.key) :
      ∀ write ∈ countedWrites overlay.mutations change, write.2.1 = source.stored db change.key := by
    obtain ⟨only, honly⟩ := hone
    rw [honly, mem_singleton] at hw
    intro write hwrite; rw [honly, mem_singleton] at hwrite; rw [hwrite, ← hw, hb]
  cases source with
  | entities collection =>
    have hmem := mem_entityWrites.2 ⟨collection, entity_mem_mutations.2 ⟨htouched, hchanged⟩⟩
    apply honly (w := (change.key, value.before, value.after)) _ hbef
    rw [countedWrites_of_entity hmem hmatch]; exact mem_filter.2 ⟨hmem, hmatch⟩
  | state scope =>
    have hmem := mem_stateWrites.2 ⟨scope, state_mem_mutations.2 ⟨htouched, hchanged⟩⟩
    by_cases hent : ∃ w ∈ entityWrites overlay.mutations, matchesChange change w = true
    · obtain ⟨w, hw, hmatches⟩ := hent
      apply honly _ (hown.2 w hw hmatches)
      rw [countedWrites_of_entity hw hmatches]; exact mem_filter.2 ⟨hw, hmatches⟩
    · push Not at hent
      apply honly (w := (change.key, value.before, value.after)) _ hbef
      rw [countedWrites_of_state hmem hmatch hent]; exact mem_filter.2 ⟨hmem, hmatch⟩

theorem own_of_counted (hone : ∃ only, countedWrites overlay.mutations change = [only])
    (h : ∀ write ∈ countedWrites overlay.mutations change,
      write.2.1 = source.stored db change.key) : OwnWrite db overlay source change := by
  obtain ⟨only, honly⟩ := hone
  have hmem := honly ▸ mem_singleton_self only
  refine ⟨h only hmem ▸ counted_before_ne hmem, ?_⟩
  cases source with
  | entities => exact trivial
  | state =>
    intro write hwrite hmatch
    apply h
    rw [countedWrites_of_entity hwrite hmatch]; exact mem_filter.2 ⟨hwrite, hmatch⟩

theorem counted_iff_own {mirror : String → Source} {view : View}
 (hcarries : Carries mirror db overlay) (hview : ∀ chg ∈ overlay.changes, ∀ key,
      view (chg.kind, key) = (mirror chg.kind).stored db key)
    (h : buildInverseChanges overlay.intoBatch = .ok inverse) :
    (∀ tgt chg, firstChange overlay.changes tgt = some chg →
      ∀ write ∈ countedWrites overlay.mutations chg, write.2.1 = view tgt) ↔
        ∀ chg ∈ overlay.changes, OwnWrite db overlay (mirror chg.kind) chg := by
  have hone (chg : DomainChange) (hc : chg ∈ overlay.changes) :
      ∃ only, countedWrites overlay.mutations chg = [only] := by
    obtain ⟨_, -, hback⟩ := answer_of_mapM_eq_ok h chg (mem_reverse.2 hc)
    obtain ⟨only, honly, -⟩ := inverseChange_of_counted hback; exact ⟨only, honly⟩
  constructor
  · intro hall chg hc
    obtain ⟨first, hfst⟩ := exists_newest changeTarget (mem_reverse.2 hc)
    obtain ⟨hmem, htarget⟩ := newest_mem hfst
    rw [mem_reverse] at hmem
    obtain ⟨hkind, hkey⟩ := Prod.mk.inj htarget
    obtain ⟨value, htouched, -, hafter⟩ := hcarries chg hc
    obtain ⟨_, htouched', -, hafter'⟩ := hcarries first hmem
    rw [hkind, hkey, htouched, some.injEq] at htouched'
    have hval : first.value = chg.value := by rw [← hafter', ← htouched', hafter]
    apply own_of_counted (hone chg hc)
    intro write hwrite
    rw [← countedWrites_congr hkey hval] at hwrite
    rw [hall _ first hfst write hwrite]; exact hview chg hc chg.key
  · intro hown tgt chg hfst
    obtain ⟨hmem, rfl⟩ := newest_mem hfst
    rw [mem_reverse] at hmem
    obtain ⟨value, htouched, hbef, hafter⟩ := hcarries chg hmem
    intro write hwrite
    rw [counted_of_own htouched hbef hafter (hown chg hmem) (hone chg hmem) write hwrite]
    exact (hview chg hmem chg.key).symm

/-- A consumer's view that agreed with the store is restored by a block's changes and their inverse
exactly when the first change to each key is matched with writes that started from the value the view
had; where changes carry what the block left, exactly when each reports a write of its own. -/
theorem inverse_restores_iff {mirror : String → Source} {db : Values} {view : View}
    {inverse : List DomainChange}
    (hview : ∀ change ∈ overlay.changes, ∀ key,
      view (change.kind, key) = (mirror change.kind).stored db key)
    (h : buildInverseChanges overlay.intoBatch = .ok inverse) :
    (applyChanges (applyChanges view overlay.changes) inverse = view ↔
      ∀ target change, firstChange overlay.changes target = some change →
        ∀ write ∈ countedWrites overlay.mutations change, write.2.1 = view target) ∧
    (Carries mirror db overlay →
      (applyChanges (applyChanges view overlay.changes) inverse = view ↔
        ∀ change ∈ overlay.changes, OwnWrite db overlay (mirror change.kind) change)) := by
  have hcounted := restores_iff_counted h view
  refine ⟨hcounted, fun hcarries => ?_⟩
  exact hcounted.trans (counted_iff_own hcarries hview h)

def twoCollections : Values where
  state := ∅
  entities := ((∅ : Table EntityKey Bytes).insert ("balances", []) [7]).insert ("owners", []) [5]
  indexes := ∅

def sameValueProgram : ReducerProgram :=
  .put ("balances", []) [7] (.emit ⟨"balance", [], .upsert, [7]⟩
    (.put ("owners", []) [7] (.emit ⟨"owner", [], .upsert, [7]⟩
      (.done [⟨"balance", [], .upsert, [7]⟩, ⟨"owner", [], .upsert, [7]⟩]))))

def newOwnerProgram : ReducerProgram :=
  .put ("owners", []) [9] (.emit ⟨"owner", [], .upsert, [9]⟩ (.done [⟨"owner", [], .upsert, [9]⟩]))

def ownersMirror (kind : String) : Source :=
  if kind = "owner" then .entities "owners" else .entities "balances"

def twoCollectionsView : View := fun target => (ownersMirror target.1).stored twoCollections target.2

def overlayOf (program : ReducerProgram) : ReducerOverlay :=
  match program.run twoCollections .new with
  | .ok (_, overlay) => overlay
  | .error _ => .new

/-- The balance kept its value, so its change is matched with the owner's write, and taken back to the
former owner. -/
theorem sameValueProgram_not_restored :
    sameValueProgram.run twoCollections .new =
        .ok ([⟨"balance", [], .upsert, [7]⟩, ⟨"owner", [], .upsert, [7]⟩],
          overlayOf sameValueProgram) ∧
      Carries ownersMirror twoCollections (overlayOf sameValueProgram) ∧
      (∀ change ∈ (overlayOf sameValueProgram).changes, ∀ key, twoCollectionsView (change.kind, key) =
        (ownersMirror change.kind).stored twoCollections key) ∧
      ∃ inverse, buildInverseChanges (overlayOf sameValueProgram).intoBatch = .ok inverse ∧
        applyChanges (applyChanges twoCollectionsView (overlayOf sameValueProgram).changes) inverse ≠
          twoCollectionsView := by
  refine ⟨rfl, ?_, fun _ _ _ => rfl, [⟨"owner", [], .upsert, [5]⟩, ⟨"balance", [], .upsert, [5]⟩],
    by decide +kernel, fun h => ?_⟩
  · intro change hchange
    have hchanges : (overlayOf sameValueProgram).changes =
        [⟨"balance", [], .upsert, [7]⟩, ⟨"owner", [], .upsert, [7]⟩] := rfl
    rw [hchanges, mem_cons, mem_singleton] at hchange
    rcases hchange with rfl | rfl
    · exact ⟨⟨some [7], some [7]⟩, rfl, rfl, rfl⟩
    · exact ⟨⟨some [5], some [7]⟩, rfl, rfl, rfl⟩
  · have hbalance := congrFun h ("balance", [])
    revert hbalance
    decide +kernel

/-- A new owner is taken back. -/
theorem newOwnerProgram_restored :
    applyChanges (applyChanges twoCollectionsView (overlayOf newOwnerProgram).changes)
      [⟨"owner", [], .upsert, [5]⟩] = twoCollectionsView := by
  have hchanges : (overlayOf newOwnerProgram).changes = [⟨"owner", [], .upsert, [9]⟩] := rfl
  have hinverse : buildInverseChanges (overlayOf newOwnerProgram).intoBatch =
      .ok [⟨"owner", [], .upsert, [5]⟩] := by decide +kernel
  have hcarries : Carries ownersMirror twoCollections (overlayOf newOwnerProgram) := by
    intro change hchange
    rw [hchanges, mem_singleton] at hchange
    subst hchange; exact ⟨⟨some [5], some [9]⟩, rfl, rfl, rfl⟩
  have hiff := @inverse_restores_iff (overlayOf newOwnerProgram) ownersMirror twoCollections
    twoCollectionsView _ (fun _ _ _ => rfl) hinverse
  refine (hiff.2 hcarries).2 ?_
  intro change hchange
  rw [hchanges, mem_singleton] at hchange
  subst hchange; exact ⟨by decide +kernel, trivial⟩

end Leani.Processor
