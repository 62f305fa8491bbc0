import Leani.Processor.Checkpoints

/-!
# The working state under mutations

What a block's mutations do to the working state alone, and that its undo record takes exactly that
back: a reducer's overlay remembers what each key held before, and keys occur once.
-/

namespace Leani.Processor

open Library Std Delivery List Option Table Bool ExtTreeMap Mutation Prod ReducerOverlay ReducerProgram

def unwriteState (state : Table StateKey Bytes) : Mutation → Table StateKey Bytes
  | .state key before _ => writeRow state key before
  | _ => state

def unwriteStates (state : Table StateKey Bytes) (mutations : List Mutation) :
    Table StateKey Bytes := mutations.foldr (fun m state => unwriteState state m) state

theorem writeStates_append (state : Table StateKey Bytes) (ms ms' : List Mutation) :
    writeStates state (ms ++ ms') = writeStates (writeStates state ms) ms' := foldl_append

theorem unwriteStates_append (state : Table StateKey Bytes) (ms ms' : List Mutation) :
    unwriteStates state (ms ++ ms') = unwriteStates (unwriteStates state ms') ms :=
  foldr_append

variable {ms : List Mutation}

theorem writeStates_of_not (h : ms.any writesState = false) :
    ∀ state, writeStates state ms = state := by
  induction ms with
  | nil => exact fun _ => rfl
  | cons m ms ih =>
    rw [any_cons, or_eq_false_iff] at h
    intro state
    cases m with
    | state key before after => cases h.1
    | entity key before after => exact ih h.2 state
    | index key before after => exact ih h.2 state

theorem unwriteStates_of_not (h : ms.any writesState = false)
    (state : Table StateKey Bytes) : unwriteStates state ms = state := by
  induction ms with
  | nil => rfl
  | cons m ms ih =>
    rw [any_cons, or_eq_false_iff] at h
    change unwriteState (unwriteStates state ms) m = state
    rw [ih h.2]
    cases m with
    | state key before after => cases h.1
    | entity key before after => rfl
    | index key before after => rfl

variable {retainOutput : Bool} {w : Stamp}

variable {o : Output}

theorem applyMutation_state {inv : Bool} {m : Mutation} :
    (applyMutation inv retainOutput w o m).state =
      if inv then unwriteState o.state m else writeState o.state m := by
  cases m with
  | state key before after => cases inv <;> rfl
  | entity key before after => cases inv <;> cases retainOutput <;> rfl
  | index key before after => cases inv <;> cases retainOutput <;> rfl

variable {o' : Output}

theorem applyMutations_state (h : applyMutations o ms false retainOutput w = .ok o') :
    o'.state = writeStates o.state ms := by
  simp only [applyMutations, eq_ok, false_eq_true, if_false] at h
  obtain ⟨-, -, -, -, rfl⟩ := h
  induction ms generalizing o with
  | nil => rfl
  | cons m ms ih =>
    rw [foldl_cons, ih, applyMutation_state]; rfl

theorem applyMutations_inverse_state (h : applyMutations o ms true retainOutput w = .ok o') :
    o'.state = unwriteStates o.state ms := by
  simp only [applyMutations, eq_ok, if_true] at h
  obtain ⟨-, -, -, -, rfl⟩ := h
  rw [foldl_reverse]
  induction ms with
  | nil => rfl
  | cons m ms ih =>
    rw [foldr_cons, applyMutation_state, ih]; rfl

theorem restoreEntityMetadata_state {coveredLevel : Nat → Option Finality}
    {finalThru : Option Nat} (images : List EntityMetaImage) :
    ∀ o, (restoreEntityMetadata coveredLevel finalThru o images).state = o.state := by
  induction images with
  | nil => exact fun _ => rfl
  | cons image images ih =>
    intro o
    refine (ih _).trans ?_
    unfold restoreImage
    split <;> rfl

theorem deleteCandidate_state (st : Output × PrunedOutput) (image : EntityMetaImage) :
    (deleteCandidate st image).1.state = st.1.state ∧ (st.2.mutations.any writesState = false →
        (deleteCandidate st image).2.mutations.any writesState = false) := by
  unfold deleteCandidate
  split
  · exact ⟨rfl, fun h => by rw [any_append, h]; rfl⟩
  · exact ⟨rfl, id⟩

theorem deleteCandidates_state (cands : List EntityMetaImage) : ∀ st : Output × PrunedOutput,
    (cands.foldl deleteCandidate st).1.state = st.1.state ∧ (st.2.mutations.any writesState =
    false → (cands.foldl deleteCandidate st).2.mutations.any writesState = false) := by
  induction cands with
  | nil => exact fun _ => ⟨rfl, id⟩
  | cons image cands ih =>
    intro st
    obtain ⟨hst, hmuts⟩ := deleteCandidate_state st image
    obtain ⟨hst', hmuts'⟩ := ih (deleteCandidate st image)
    exact ⟨hst'.trans hst, fun h => hmuts' (hmuts h)⟩

theorem pruneOutputWindow_state {policy : OutputPolicy} {block : BlockRef} {now : Nat}
    {pruned : PrunedOutput} (h : pruneOutputWindow o policy block now = .ok (o', pruned)) :
    o'.state = o.state ∧ pruned.mutations.any writesState = false := by
  unfold pruneOutputWindow at h
  split at h
  · simp only [eq_ok] at h
    obtain ⟨_, -, candidates, -, h⟩ := h
    unfold deletePrunedOutput at h
    split at h
    · rw [Prod.mk.injEq] at h
      obtain ⟨rfl, rfl⟩ := h; exact ⟨rfl, rfl⟩
    · obtain ⟨hst, hmuts⟩ := deleteCandidates_state candidates (o, ⟨[], []⟩)
      rw [Prod.mk.injEq] at h
      obtain ⟨rfl, rfl⟩ := h
      refine ⟨hst, ?_⟩
      rw [List.any_append, hmuts rfl, Bool.false_or, List.any_map, List.any_eq_false]
      exact fun _ _ => Bool.false_ne_true
  · rw [pure_eq_ok, Prod.mk.injEq] at h
    obtain ⟨rfl, rfl⟩ := h; exact ⟨rfl, rfl⟩

def stateCells : Cells (Table StateKey Bytes) StateKey fun _ => Option Bytes where
  get state key := state[key]?
  set := writeRow
  set_get state key := by
    refine Table.ext fun k => ?_
    cases hv : state[key]? with
    | some v =>
      rw [writeRow, Table.get?_insert_ite]
      split
      · rename_i hk
        rw [hk, hv]
      · rfl
    | none =>
      rw [writeRow, Table.get?_erase_ite]
      split
      · rename_i hk
        rw [hk, hv]
      · rfl
  set_set state key a b := by
    refine Table.ext fun k => ?_
    cases a <;> cases b <;>
      simp only [writeRow, Table.get?_insert_ite, Table.get?_erase_ite] <;> split <;> rfl

def stateEdits (ms : List Mutation) : List (Edit StateKey fun _ => Option Bytes) :=
  ms.filterMap fun m =>
    match m with
    | .state key before after => some ⟨key, before, after⟩
    | _ => none

theorem writeStates_eq_redo (ms : List Mutation) :
    ∀ state, writeStates state ms = stateCells.redo state (stateEdits ms) := by
  induction ms with
  | nil => exact fun _ => rfl
  | cons m ms ih => cases m <;> exact fun state => ih _

theorem unwriteStates_eq_revert (state : Table StateKey Bytes) (ms : List Mutation) :
    unwriteStates state ms = stateCells.revert state (stateEdits ms) := by
  induction ms with
  | nil => rfl
  | cons m ms ih =>
    change unwriteState (unwriteStates state ms) m = _
    rw [ih]
    cases m <;> rfl

theorem fits_of_distinct {es : List (Edit StateKey fun _ => Option Bytes)} :
    ∀ {state : Table StateKey Bytes}, (∀ e ∈ es, e.before = state[e.key]?) →
      (es.map Edit.key).Nodup → stateCells.Fits state es := by
  induction es with
  | nil => exact fun _ _ => trivial
  | cons e es ih =>
    intro state hbef hnodup
    rw [map_cons, nodup_cons] at hnodup
    refine ⟨(hbef e mem_cons_self).symm, ih (fun e' he' => ?_) hnodup.2⟩
    have hne : e'.key ≠ e.key := fun h => hnodup.1 (h ▸ mem_map_of_mem he')
    rw [hbef e' (mem_cons_of_mem _ he')]
    change _ = (writeRow state e.key e.after)[e'.key]?
    cases e.after with
    | some v => rw [writeRow, get?_insert_ite, if_neg hne]
    | none => rw [writeRow, get?_erase_ite, if_neg hne]

def Loaded (db : Values) (overlay : ReducerOverlay) : Prop :=
  ∀ (key : StateKey) (value : OverlayValue (Option Bytes)), overlay.state[key]? = some value →
    value.before = db.state[key]?

theorem loaded_new (db : Values) : Loaded db .new := by
  intro _ _ h; rw [new, getElem?_empty] at h; cases h

variable {db : Values} {overlay : ReducerOverlay}

theorem Loaded.setState (h : Loaded db overlay)
    (key : StateKey) (value : Option Bytes) : Loaded db (overlay.setState db key value) := by
  intro k v hv
  change (assign _ _ _ _)[k]? = some v at hv
  rw [assign, get?_insert_ite] at hv
  split at hv
  · rename_i hk
    rw [some.injEq] at hv
    subst hk hv
    rw [load]
    cases hstore : overlay.state[k]? with
    | none => rfl
    | some stored => exact h k stored hstore
  · exact h k v hv

theorem run_loaded {program : ReducerProgram} {chgs : List DomainChange} :
    ∀ {ovl ovl' : ReducerOverlay}, program.run db ovl = .ok (chgs, ovl') →
      Loaded db ovl → Loaded db ovl' := by
  induction program with
  | done _ =>
    intro ovl ovl' h hl
    rw [ReducerProgram.run, Except.ok.injEq, Prod.mk.injEq] at h; exact h.2 ▸ hl
  | fail reason =>
    intro ovl ovl' h; rw [ReducerProgram.run] at h; cases h
  | stateGet key next ih => exact fun h hl => ih _ h (hl.setState key _)
  | statePut key value next ih => exact fun h hl => ih h (hl.setState key _)
  | stateDelete key next ih => exact fun h hl => ih h (hl.setState key _)
  | stateScan scope start limit next ih => exact fun h hl => ih _ h hl
  | get key next ih => exact fun h hl => ih _ h hl
  | put key value next ih => exact fun h hl => ih h hl
  | delete key next ih => exact fun h hl => ih h hl
  | scan scope start limit next ih => exact fun h hl => ih _ h hl
  | indexPut key next ih => exact fun h hl => ih h hl
  | indexDelete key next ih => exact fun h hl => ih h hl
  | emit change next ih => exact fun h hl => ih h hl

theorem stateEdits_of_not (h : ms.any writesState = false) : stateEdits ms = [] := by
  rw [stateEdits, filterMap_eq_nil_iff]
  intro m hm
  have hm := any_eq_false.1 h m hm
  cases m with
  | state key before after => exact absurd rfl hm
  | entity key before after => rfl
  | index key before after => rfl

theorem changedKeys_not_state {κ α : Type} [Ord κ] [TransOrd κ]
    [DecidableEq α] {t : Table κ (OverlayValue α)} {mutation : κ → α → α → Mutation} (h : ∀ k a b,
    (mutation k a b).writesState = false) : (changedKeys t mutation).any writesState = false := by
  rw [List.any_eq_false]
  intro _ hm
  obtain ⟨_, -, hrow⟩ := mem_filterMap.1 hm
  split at hrow
  · cases hrow
  · rw [← some.inj hrow, h]; exact false_ne_true

theorem stateEdits_mutations (overlay : ReducerOverlay) :
    stateEdits overlay.mutations = overlay.state.toList.filterMap fun row =>
      if row.2.before = row.2.after then none else some ⟨row.1, row.2.before, row.2.after⟩ := by
  rw [mutations, stateEdits, filterMap_append, filterMap_append]
  change stateEdits _ ++ stateEdits _ ++ stateEdits _ = _
  rw [stateEdits_of_not (changedKeys_not_state fun _ _ _ => rfl),
    stateEdits_of_not (changedKeys_not_state fun _ _ _ => rfl), nil_append, nil_append]
  rw [stateEdits, changedKeys, filterMap_filterMap]
  refine filterMap_congr fun row _ => ?_
  split <;> rfl

theorem Loaded.fits (h : Loaded db overlay) :
    stateCells.Fits db.state (stateEdits overlay.mutations) := by
  rw [stateEdits_mutations]
  refine fits_of_distinct (fun e he => ?_) ?_
  · obtain ⟨row, hrow, hedit⟩ := mem_filterMap.1 he
    split at hedit
    · cases hedit
    · rw [← some.inj hedit]; exact h row.1 row.2 (mem_toList.1 hrow)
  · rw [nodup_iff_pairwise_ne, pairwise_map, pairwise_filterMap]
    refine distinct_keys_toList.imp fun {_ _} hne e he _ he' hkey => hne ?_
    split at he
    · cases he
    split at he'
    · cases he'
    cases he; cases he'; exact LawfulEqCmp.compare_eq_iff_eq.2 hkey

theorem reduceBlock_unwrites {s : Store} {p : Processor} {cursor : ProcessorCursor}
    {delta : EncodedDelta} {batch : MutationBatch} (h : s.reduceBlock p cursor delta = .ok batch) :
    unwriteStates (writeStates s.output.state batch.mutations) batch.mutations = s.output.state := by
  simp only [Store.reduceBlock, eq_ok, Prod.exists] at h
  obtain ⟨_, _, hrun, -, -, rfl⟩ := h
  rw [writeStates_eq_redo, unwriteStates_eq_revert]
  exact stateCells.revert_redo (run_loaded hrun (loaded_new _)).fits

end Leani.Processor
