import Leani.RawHistory.Admission

/-!
# The logical budget

Retained and reserved logical bytes stay within the budget, and every reservation is released once,
by its own segment or by the next opening of the store. Both need that no segment is begun under an
identifier whose publication adopted a retained segment and has yet to remove its files: removing
them clears the reservation of that identifier again.
-/

namespace Leani.RawHistory

open Library Std List Table Catalog Ledger RawHistory Stage Store

variable {c c' : Catalog}

structure Lightens (c c' : Catalog) : Prop where
  reservations : c'.reservations = c.reservations
  retained : c'.retainedLogical ≤ c.retainedLogical

theorem Lightens.refl (c : Catalog) : Lightens c c := ⟨rfl, le_rfl⟩

theorem retained_of_sheds (h : Sheds c c') : c'.retainedLogical ≤ c.retainedLogical := by
  refine sum_le_sum rfl fun _ row hrow => ?_
  exact ⟨row, h.segments hrow, le_rfl⟩

variable {id : String}

theorem refreshJobProgress_rows (h : refreshJobProgress c id = .ok c') :
    c'.segments = c.segments ∧ c'.reservations = c.reservations := by
  obtain ⟨_, _, -, -, rfl⟩ := refreshJobProgress_eq_ok h; exact ⟨rfl, rfl⟩

variable {owners : List SegmentOwnerClaim}

theorem insertOwners_rows {seg : String} (h : insertOwners c seg owners = .ok c') :
    c'.segments = c.segments ∧ c'.reservations = c.reservations := by
  refine foldExcept_invariant
    (fun t => t.segments = c.segments ∧ t.reservations = c.reservations) ?_ ⟨rfl, rfl⟩ h
  intro t _ _ _ ht hstep
  refine ⟨(insertOwner_rows hstep).1.trans ht.1, ?_⟩
  unfold insertOwner at hstep
  split at hstep
  · cases hstep; exact ht.2
  · cases hstep; exact ht.2
  · exact (refreshJobProgress_rows hstep).2.trans ht.2

variable {metadata : SegmentMetadata}

theorem dropSegment_lightens {reason : String}
    (h : dropSegment c id metadata reason = .ok c') : Lightens c c' := by
  refine ⟨?_, retained_of_sheds (dropSegment_sheds h)⟩
  rcases dropSegment_cases h with rfl | ⟨_, hfold⟩
  · rfl
  · refine foldExcept_invariant (fun t => t.reservations = c.reservations) ?_ rfl hfold
    intro t _ _ _ ht hstep; exact (refreshJobProgress_rows hstep).2.trans ht

theorem dropUnusable_lightens {file : FileState} {ret : Option (String × SegmentRow)}
    (h : dropUnusable c id file ret = .ok c') : Lightens c c' := by
  refine ⟨?_, retained_of_sheds (dropUnusable_sheds h)⟩
  unfold dropUnusable at h
  split at h
  · cases h; rfl
  · split at h
    · exact (dropSegment_lightens h).reservations
    · cases file with
      | missing => exact (dropSegment_lightens h).reservations
      | corrupt => exact (dropSegment_lightens h).reservations
      | present =>
        cases h; rfl
      | unavailable =>
        cases h; rfl

theorem deleteMarked_lightens (c : Catalog) (id : String) : Lightens c (deleteMarked c id) := by
  refine ⟨?_, retained_of_sheds (deleteMarked_sheds c id)⟩
  unfold deleteMarked
  split
  · split <;> rfl
  · rfl

theorem markUnowned_lightens (h : markUnowned c id = .ok c') : Lightens c c' := by
  simp only [markUnowned, eq_ok] at h
  obtain ⟨-, -, row, hrow, rfl⟩ := h
  refine ⟨rfl, ?_⟩
  have hseg := (closedSegment_eq_some.1 hrow).1
  simp only [retainedLogical, sum_insert]
  rw [sum_of_get? (fun _ row => row.metadata.logicalBytes) hseg]

variable {pending : PendingSegment}

theorem insertOrAdopt_bytes (h : insertOrAdopt c id metadata pending owners = .ok c') :
    c'.reservations = c.reservations ∧
      c'.retainedLogical ≤ c.retainedLogical + metadata.logicalBytes := by
  rw [insertOrAdopt, bind_eq_ok] at h
  obtain ⟨ret, -, h⟩ := h
  cases ret with
  | some pair =>
    simp only [bind_eq_ok] at h
    obtain ⟨-, -, h⟩ := h
    obtain ⟨hsegs, hresvs⟩ := insertOwners_rows h
    refine ⟨hresvs, ?_⟩
    rw [retainedLogical, hsegs]; exact Nat.le_add_right _ _
  | none =>
    simp only [bind_eq_ok] at h
    obtain ⟨_, ht, h⟩ := h
    obtain ⟨hsegs, hresvs⟩ := insertOwners_rows h
    simp only [insertSegment, eq_ok] at ht
    obtain ⟨-, -, -, -, -, -, -, hnew, rfl⟩ := ht
    refine ⟨hresvs, ?_⟩
    have hnone := getElem?_neg c.segments id hnew
    rw [retainedLogical, hsegs, sum_insert, erase_of_get?_eq_none hnone, Nat.add_comm]
    exact le_rfl

theorem foldKeeping_reservations {γ : Type} {f : Catalog → γ → Except HistoryStoreError Catalog}
    {as : List γ} {reservations : Table String PendingSegment} (hc : c.reservations = reservations)
    (h : ∀ {t a t'}, f t a = .ok t' → t'.reservations = t.reservations) :
    (foldKeeping f c as).1.reservations = reservations :=
  foldKeeping_invariant (fun t => t.reservations = reservations)
    (fun _ ht hstep => (h hstep).trans ht) hc

variable {files : String → FileState}

theorem recoverSegment_reservations {t t' : Catalog} {seg : String × SegmentRow}
    (h : recoverSegment files t seg = .ok t') : t'.reservations = t.reservations := by
  unfold recoverSegment at h
  split at h
  · cases h; rfl
  · cases h; rfl
  · exact (dropSegment_lightens h).reservations
  · cases h

theorem reopen_bytes (c : Catalog) (files : String → FileState) :
    (reopen c files).1.reservations = ∅ ∧ (reopen c files).1.retainedLogical ≤ c.retainedLogical := by
  refine ⟨?_, retained_of_sheds (reopen_sheds c files)⟩
  have hmarked : (foldKeeping (recoverMarked files) { c with reservations := ∅ }
      (rowsWhere c.segments fun _ row => row.state = .deleting)).1.reservations = ∅ :=
    foldKeeping_reservations rfl fun {t a t'} h => by
      unfold recoverMarked at h
      split at h
      · cases h; exact (deleteMarked_lightens t a.1).reservations
      · cases h; exact (deleteMarked_lightens t a.1).reservations
      · cases h; exact (deleteMarked_lightens t a.1).reservations
      · cases h
  have hrecovered : (recover c files).1.reservations = ∅ := by
    simp only [recover]
    split
    · rename_i t error heq; rwa [heq] at hmarked
    · rename_i t heq
      rw [heq] at hmarked
      have hscan : (foldKeeping (recoverSegment files) t
          (rowsWhere t.segments fun _ row => row.state = .closed)).1.reservations = ∅ :=
        foldKeeping_reservations hmarked recoverSegment_reservations
      split
      · rename_i t' error heq'; rwa [heq'] at hscan
      · rename_i t' heq'
        rw [heq'] at hscan
        simp only [dropMissing]
        split
        · exact hscan
        · exact foldKeeping_reservations hscan fun h => (dropSegment_lightens h).reservations
  simp only [reopen]
  split
  · rename_i t error heq; rwa [heq] at hrecovered
  · rename_i t heq
    rw [heq] at hrecovered
    exact foldKeeping_reservations hrecovered fun h => (refreshJobProgress_rows h).2

def Stage.holds : Stage → Bool
  | .admitted | .discarding true => false
  | _ => true

def Stage.begins : Stage → Bool
  | .admitted | .reserved => true
  | _ => false

def Stage.admission (pending : PendingSegment) : Stage → Nat
  | .admitted => pending.reservation.maximumLogicalBytes
  | _ => 0

def Store.admission (s : Store) : Nat :=
  match s.lifecycle with
  | some (.begin t) =>
    match s.tasks[t]? with
    | some task => task.stage.admission task.pending
    | none => 0
  | _ => 0

structure Sound (budget : StorageBudget) (s : Store) : Prop where
  budgeted : s.catalog.retainedLogical + s.catalog.reservedLogical + s.admission ≤
    budget.maximumLogicalBytes
  ledger : s.ledger.WellKept
  rows : ∀ id : String, s.catalog.reservations[id]? = none ↔ s.ledger.holders[id]? = none
  held : ∀ {t : Nat} {task : SegmentTask}, s.tasks[t]? = some task → task.stage.holds = true →
    s.catalog.reservations[task.id.value]? = some task.pending ∧
      s.ledger.holders[task.id.value]? = some t
  locked : ∀ {t : Nat} {task : SegmentTask}, s.tasks[t]? = some task → task.stage.begins = true →
    s.lifecycle = some (.begin t)
  fresh : ∀ {t : Nat}, t ∈ s.tasks ∨ t ∈ s.ledger.made → t < s.next
  unmade : ∀ {t : Nat} {task : SegmentTask}, s.tasks[t]? = some task → task.stage = .admitted →
    t ∉ s.ledger.made
  adopted : ∀ {t : Nat} {task : SegmentTask}, s.tasks[t]? = some task →
    task.stage = .discarding true → s.catalog.reservations[task.id.value]? = none ∧
      ∀ {u : Nat} {task' : SegmentTask}, s.tasks[u]? = some task' → task'.stage = .admitted →
        task'.id.value ≠ task.id.value
  owner : ∀ {id : String} {t : Nat}, s.ledger.holders[id]? = some t → t ∈ s.abandoned ∨
    ∃ task, s.tasks[t]? = some task ∧ task.id.value = id ∧ task.stage.holds = true
  own : ∀ release ∈ s.ledger.releases, release.2 = some release.1 ∨ release.2 = none
  closed : ∀ {t : Nat} {task : SegmentTask} {metadata : SegmentMetadata}
    {owners : List SegmentOwnerClaim}, s.tasks[t]? = some task → task.stage =
    .publishing metadata owners → metadata.logicalBytes ≤ task.pending.reservation.maximumLogicalBytes

variable {budget : StorageBudget} {s : Store} {t : Nat} {task : SegmentTask}

theorem sound_opened (h : c.retainedLogical ≤ budget.maximumLogicalBytes)
    (hresvs : c.reservations = ∅) : Sound budget (opened c) where
  budgeted := by
    have hzero : c.reservedLogical = 0 := by
      rw [reservedLogical, hresvs]; exact sum_empty _
    simp only [Store.opened, Store.admission, hzero]; omega
  ledger := Ledger.wellKept_empty
  rows id := by
    simp [Store.opened, hresvs, Ledger.empty]
  held h := (not_mem_empty h).elim
  locked h := (not_mem_empty h).elim
  fresh h := by
    rcases h with h | h
    · simp [opened] at h
    · cases h
  unmade h := (not_mem_empty h).elim
  adopted h := (not_mem_empty h).elim
  owner h := (not_mem_empty h).elim
  own release h := by cases h
  closed h := (not_mem_empty h).elim

theorem Sound.not_begins (h : Sound budget s) (hlock : ∀ u, s.lifecycle ≠ some (.begin u))
    (ht : s.tasks[t]? = some task) : task.stage.begins = false := by
  by_contra hbegins
  exact hlock t (h.locked ht (by simpa using hbegins))

theorem Sound.lighten (h : Sound budget s) (hc : Lightens s.catalog c) :
    Sound budget { s with catalog := c } where
  budgeted := by
    have hbudget := h.budgeted
    have hret := hc.retained
    have hreserved : c.reservedLogical = s.catalog.reservedLogical := by
      rw [reservedLogical, hc.reservations]; rfl
    have hadmn : admission { s with catalog := c } = s.admission := rfl
    dsimp only; rw [hadmn, hreserved]; omega
  ledger := h.ledger
  rows id := by
    rw [hc.reservations]; exact h.rows id
  held ht hholds := by
    rw [hc.reservations]; exact h.held ht hholds
  locked := h.locked
  fresh := h.fresh
  unmade := h.unmade
  adopted ht hstage := by
    rw [hc.reservations]; exact h.adopted ht hstage
  owner := h.owner
  own := h.own
  closed := h.closed

variable {stage : Stage}

theorem Stage.admission_of_holds (h : stage.holds = true)
    (pend : PendingSegment) : stage.admission pend = 0 := by
  cases stage with
  | admitted => cases h
  | reserved => rfl
  | writing logicalBytes failed => rfl
  | publishing metadata owners => rfl
  | discarding adopted => rfl

theorem get?_setStage (u : Nat) : (s.setStage t task stage).tasks[u]? =
      if u = t then some { task with stage := stage } else s.tasks[u]? :=
  get?_insert_ite s.tasks u t _

theorem admission_setStage (ht : s.tasks[t]? = some task) (hholds : task.stage.holds = true)
    (hholds' : stage.holds = true) : (s.setStage t task stage).admission = s.admission := by
  unfold Store.admission
  cases hlock : s.lifecycle with
  | none => simp only [setStage, hlock]
  | some holder =>
    cases holder with
    | deletion id => simp only [setStage, hlock]
    | begin u =>
      have hlock' : (s.setStage t task stage).lifecycle = some (.begin u) := hlock
      simp only [hlock', get?_setStage]
      by_cases hut : u = t
      · subst hut; simp only [if_pos, ht, admission_of_holds hholds, admission_of_holds hholds']
      · simp only [if_neg hut]

theorem Sound.restage (h : Sound budget s) (ht : s.tasks[t]? = some task)
    (hholds : task.stage.holds = true) (hholds' : stage.holds = true)
    (hbegins : stage.begins = false)
    (hclosed : ∀ metadata owners, stage = .publishing metadata owners →
      metadata.logicalBytes ≤ task.pending.reservation.maximumLogicalBytes) :
    Sound budget (s.setStage t task stage) where
  budgeted := by
    rw [admission_setStage ht hholds hholds']; exact h.budgeted
  ledger := h.ledger
  rows := h.rows
  held {u task'} hu hstage := by
    rw [get?_setStage] at hu
    split at hu
    · rename_i hut
      cases hu; rw [hut]; exact @Sound.held _ _ h t task ht hholds
    · exact h.held hu hstage
  locked {u task'} hu hstage := by
    rw [get?_setStage] at hu
    split at hu
    · cases hu; rw [hbegins] at hstage; cases hstage
    · exact h.locked hu hstage
  fresh {u} hu := by
    refine h.fresh ?_
    rcases hu with hu | hu
    · rcases mem_insert_iff.1 hu with rfl | hu
      · exact .inl (mem_of_getElem? ht)
      · exact .inl hu
    · exact .inr hu
  unmade {u task'} hu hstage := by
    rw [get?_setStage] at hu
    split at hu
    · cases hu
      simp only at hstage; rw [hstage] at hbegins; cases hbegins
    · exact h.unmade hu hstage
  adopted {u task'} hu hstage := by
    have hother : ∀ {v : Nat} {task'' : SegmentTask}, (s.setStage t task stage).tasks[v]? =
        some task'' → task''.stage = .admitted → s.tasks[v]? = some task'' := by
      intro v task'' hv hadm
      rw [get?_setStage] at hv
      split at hv
      · cases hv
        simp only at hadm; rw [hadm] at hholds'; cases hholds'
      · exact hv
    rw [get?_setStage] at hu
    split at hu
    · cases hu
      simp only at hstage; rw [hstage] at hholds'; cases hholds'
    · obtain ⟨hrow, hapart⟩ := h.adopted hu hstage
      exact ⟨hrow, fun hv hadm => hapart (hother hv hadm) hadm⟩
  owner {id u} hu := by
    rcases h.owner hu with habn | ⟨task', htask', hid, hstage⟩
    · exact .inl habn
    · refine .inr ?_
      by_cases hut : u = t
      · subst hut
        rw [ht] at htask'
        cases htask'
        exact ⟨{ task with stage := stage }, by rw [get?_setStage, if_pos rfl], hid, hholds'⟩
      · exact ⟨task', by rw [get?_setStage, if_neg hut, htask'], hid, hstage⟩
  own := h.own
  closed {u task' metadata owners} hu hstage := by
    rw [get?_setStage] at hu
    split at hu
    · cases hu; exact hclosed metadata owners hstage
    · exact h.closed hu hstage

section

variable (h : Sound budget s)
  (hidle : ∀ {t : Nat} {task : SegmentTask}, s.tasks[t]? = some task → task.stage.begins = false)

include h hidle

theorem Sound.relock (lifecycle : Option Holder) : Sound budget { s with lifecycle := lifecycle } where
  budgeted := by
    have hbudget := h.budgeted
    have hzero : Store.admission { s with lifecycle := lifecycle } = 0 := by
      simp only [Store.admission]
      split
      · split
        · rename_i task htask
          have hbegins := hidle htask
          cases hstage : task.stage with
          | admitted =>
            rw [hstage] at hbegins; cases hbegins
          | reserved => rfl
          | writing logicalBytes failed => rfl
          | publishing metadata owners => rfl
          | discarding adopted => rfl
        · rfl
      · rfl
    rw [hzero]
    dsimp only; omega
  ledger := h.ledger
  rows := h.rows
  held := h.held
  locked ht hbegins := by
    rw [hidle ht] at hbegins; cases hbegins
  fresh := h.fresh
  unmade := h.unmade
  adopted := h.adopted
  owner := h.owner
  own := h.own
  closed := h.closed

theorem Sound.unlock : Sound budget s.unlocked :=
  h.relock hidle none

end

theorem get?_finished (u : Nat) : (s.finished t).tasks[u]? = if u = t then none else s.tasks[u]? :=
  get?_erase_ite s.tasks u t

variable {u : Nat}

theorem get?_of_finished (hu : (s.finished t).tasks[u]? = some task) :
    u ≠ t ∧ s.tasks[u]? = some task := by
  rw [get?_finished] at hu
  split at hu
  · cases hu
  · exact ⟨by assumption, hu⟩

theorem admission_le {s' : Store} (hlock : s'.lifecycle = s.lifecycle)
    (hkept : ∀ {u : Nat} {task' : SegmentTask}, s'.tasks[u]? = some task' →
      task'.stage = .admitted → s.tasks[u]? = some task') : s'.admission ≤ s.admission := by
  unfold Store.admission
  rw [hlock]
  split
  · rename_i u hu
    split
    · rename_i task' htask'
      by_cases hadm : task'.stage = .admitted
      · rw [hkept htask' hadm]
      · have hzero : task'.stage.admission task'.pending = 0 := by
          cases hstage : task'.stage with
          | admitted => exact absurd hstage hadm
          | reserved => rfl
          | writing logicalBytes failed => rfl
          | publishing metadata owners => rfl
          | discarding adopted => rfl
        rw [hzero]; exact Nat.zero_le _
    · exact Nat.zero_le _
  · exact le_rfl

theorem Sound.finish (h : Sound budget s) {abandoned : List Nat} (hsub : ∀ u ∈ s.abandoned,
    u ∈ abandoned) (hleft : t ∈ abandoned ∨ ∀ task, s.tasks[t]? = some task →
    task.stage.holds = false) : Sound budget { s.finished t with abandoned := abandoned } where
  budgeted := by
    have hadmn : admission { s.finished t with abandoned := abandoned } ≤ s.admission :=
      admission_le rfl fun hu _ => (get?_of_finished hu).2
    exact Nat.le_trans (Nat.add_le_add_left hadmn _) h.budgeted
  ledger := h.ledger
  rows := h.rows
  held hu hholds := h.held (get?_of_finished hu).2 hholds
  locked hu hbegins := h.locked (get?_of_finished hu).2 hbegins
  fresh {u} hu := by
    refine h.fresh ?_
    rcases hu with hu | hu
    · exact .inl ((mem_erase_iff.1 hu).2)
    · exact .inr hu
  unmade hu hstage := h.unmade (get?_of_finished hu).2 hstage
  adopted hu hstage := by
    obtain ⟨hrow, hapart⟩ := h.adopted (get?_of_finished hu).2 hstage
    exact ⟨hrow, fun hv hadm => hapart (get?_of_finished hv).2 hadm⟩
  owner {id u} hu := by
    rcases h.owner hu with habn | ⟨task', htask', hid, hholds⟩
    · exact .inl (hsub u habn)
    · by_cases hut : u = t
      · subst hut
        rcases hleft with hleft | hleft
        · exact .inl hleft
        · rw [hleft task' htask'] at hholds; cases hholds
      · refine .inr ⟨task', ?_, hid, hholds⟩
        exact (get?_finished u).trans ((if_neg hut).trans htask')
  own := h.own
  closed hu hstage := h.closed (get?_of_finished hu).2 hstage

theorem Sound.close (h : Sound budget s) (ht : s.tasks[t]? = some task)
    (hstg : task.stage.holds = true ∨ task.stage = .discarding true) {tasks : Table Nat SegmentTask}
    (hother : ∀ {u : Nat}, u ≠ t → tasks[u]? = s.tasks[u]?)
    (hself : ∀ {task' : SegmentTask}, tasks[t]? = some task' →
      task' = { task with stage := .discarding true } ∧ s.lifecycle = none)
    (hrow : c.reservations = s.catalog.reservations.erase task.id.value)
    (hbytes : c.retainedLogical + c.reservedLogical ≤
      s.catalog.retainedLogical + s.catalog.reservedLogical) :
    Sound budget { s with
      catalog := c, tasks := tasks, ledger := s.ledger.release task.id.value (some t) } := by
  have hown : s.ledger.holders[task.id.value]? = some t ∨ s.ledger.holders[task.id.value]? = none := by
    rcases hstg with hholds | hadopted
    · exact .inl (h.held ht hholds).2
    · exact .inr ((h.rows _).1 (h.adopted ht hadopted).1)
  have hkept : ∀ {u : Nat} {task' : SegmentTask}, tasks[u]? = some task' →
      s.tasks[u]? = some task' ∧ u ≠ t ∨ u = t ∧ task' = { task with stage := .discarding true } := by
    intro u task' hu
    by_cases hut : u = t
    · rw [hut] at hu; exact .inr ⟨hut, (hself hu).1⟩
    · rw [hother hut] at hu; exact .inl ⟨hu, hut⟩
  have herase : ∀ id : String, c.reservations[id]? =
      if id = task.id.value then none else s.catalog.reservations[id]? := by
    intro id; rw [hrow, get?_erase_ite]
  refine ⟨?_, h.ledger.release _, ?_, ?_, ?_, ?_, ?_, ?_, ?_, ?_, ?_⟩
  · have hbudget := h.budgeted
    have hadmn : admission { s with
        catalog := c, tasks := tasks, ledger := s.ledger.release task.id.value (some t) } ≤
          s.admission := by
      refine admission_le rfl fun {u task'} hu hadm => ?_
      rcases hkept hu with ⟨hu, -⟩ | ⟨-, rfl⟩
      · exact hu
      · cases hadm
    dsimp only; omega
  · intro id
    rw [herase, holders_release]
    split
    · exact ⟨fun _ => rfl, fun _ => rfl⟩
    · exact h.rows id
  · intro u task' hu hholds
    rcases hkept hu with ⟨hu, hut⟩ | ⟨-, rfl⟩
    · obtain ⟨hpend, hholder⟩ := h.held hu hholds
      have hid : task'.id.value ≠ task.id.value := by
        intro heq
        rw [heq] at hholder
        rcases hown with hown | hown
        · rw [hown] at hholder; cases hholder; exact hut rfl
        · rw [hown] at hholder; cases hholder
      rw [herase, holders_release, if_neg hid, if_neg hid]; exact ⟨hpend, hholder⟩
    · cases hholds
  · intro u task' hu hbegins
    rcases hkept hu with ⟨hu, -⟩ | ⟨-, rfl⟩
    · exact h.locked hu hbegins
    · cases hbegins
  · intro u hu
    refine h.fresh ?_
    rcases hu with hu | hu
    · left
      obtain ⟨task', hu⟩ : ∃ task', tasks[u]? = some task' := ⟨_, getElem?_pos tasks u hu⟩
      rcases hkept hu with ⟨hu, -⟩ | ⟨rfl, -⟩
      · exact mem_of_getElem? hu
      · exact mem_of_getElem? ht
    · rw [made_release] at hu; exact .inr hu
  · intro u task' hu hadm
    rcases hkept hu with ⟨hu, -⟩ | ⟨-, rfl⟩
    · rw [made_release]; exact h.unmade hu hadm
    · cases hadm
  · intro u task' hu hadopted
    rcases hkept hu with ⟨hu, -⟩ | ⟨rfl, rfl⟩
    · obtain ⟨hnone, hapart⟩ := h.adopted hu hadopted
      refine ⟨?_, fun {v task''} hv hadm => ?_⟩
      · rw [herase, hnone, ite_self]
      · rcases hkept hv with ⟨hv, -⟩ | ⟨-, rfl⟩
        · exact hapart hv hadm
        · cases hadm
    · refine ⟨?_, fun {v task''} hv hadm => ?_⟩
      · rw [herase, if_pos rfl]
      · -- Nobody begins a segment while this one publishes.
        rcases hkept hv with ⟨hv, -⟩ | ⟨-, rfl⟩
        · have hlock := h.locked hv (by rw [hadm]; rfl); rw [(hself hu).2] at hlock; cases hlock
        · cases hadm
  · intro id u hu
    rw [holders_release] at hu
    split at hu
    · cases hu
    · rename_i hid
      rcases h.owner hu with habn | ⟨task', htask', hid', hholds⟩
      · exact .inl habn
      · refine .inr ⟨task', ?_, hid', hholds⟩
        have hut : u ≠ t := by
          rintro rfl
          rw [ht] at htask'; cases htask'; exact hid hid'.symm
        exact (hother hut).trans htask'
  · intro release hrel
    rcases hown with hown | hown
    · rw [release_of_some hown] at hrel
      rcases mem_cons.1 hrel with rfl | hold
      · exact .inl rfl
      · exact h.own release hold
    · rw [release_of_none hown] at hrel; exact h.own release hrel
  · intro u task' _ _ hu hpubl
    rcases hkept hu with ⟨hu, -⟩ | ⟨-, rfl⟩
    · exact h.closed hu hpubl
    · cases hpubl

theorem clearReservation_bytes (c : Catalog) (id : String) :
    (clearReservation c id).retainedLogical + (clearReservation c id).reservedLogical ≤
      c.retainedLogical + c.reservedLogical := by
  refine Nat.add_le_add_left ?_ _
  refine sum_le_sum rfl fun _ pend hrow => ?_
  rw [clearReservation] at hrow
  obtain ⟨-, hrow⟩ := erase_cases hrow; exact ⟨pend, hrow, le_rfl⟩

theorem Sound.clear (h : Sound budget s) (ht : s.tasks[t]? = some task) (hstg : task.stage.holds =
    true ∨ task.stage = .discarding true) : Sound budget ((s.clear task.id t).finished t) :=
  h.close ht hstg (fun {u} hut => (get?_finished u).trans (if_neg hut)) (fun hu =>
    ((get?_of_finished hu).1 rfl).elim) rfl (clearReservation_bytes s.catalog task.id.value)

variable {task' : SegmentTask}

theorem Sound.begins_eq (h : Sound budget s)
    (ht : s.tasks[t]? = some task) (hbegins : task.stage.begins = true)
    (hu : s.tasks[u]? = some task') (hbegins' : task'.stage.begins = true) : u = t := by
  have hlock := h.locked ht hbegins
  rw [h.locked hu hbegins'] at hlock; cases hlock; rfl

theorem Sound.idle_finished (h : Sound budget s) (ht : s.tasks[t]? = some task)
    (hbegins : task.stage.begins = true)
    (hu : (s.finished t).tasks[u]? = some task') : task'.stage.begins = false := by
  obtain ⟨hut, hu⟩ := get?_of_finished hu
  by_contra hbegins'
  exact hut (h.begins_eq ht hbegins hu (by simpa using hbegins'))

theorem Sound.reserve (h : Sound budget s) (ht : s.tasks[t]? = some task)
    (hadm : task.stage = .admitted) (hnew : task.id.value ∉ s.catalog.reservations) :
    Sound budget { s.setStage t task .reserved with
      catalog := { s.catalog with
        reservations := s.catalog.reservations.insert task.id.value task.pending }
      ledger := s.ledger.grant task.id.value t } := by
  have hlock := h.locked ht (by rw [hadm]; rfl)
  have hnone := getElem?_neg s.catalog.reservations _ hnew
  have hfree := (h.rows _).1 hnone
  have hunmade := h.unmade ht hadm
  have hothers : ∀ {u : Nat} {task' : SegmentTask}, s.tasks[u]? = some task' →
      task'.stage = .admitted → u = t := fun hu hstg =>
    h.begins_eq ht (by rw [hadm]; rfl) hu (by rw [hstg]; rfl)
  refine ⟨?_, h.ledger.grant hfree hunmade, ?_, ?_, ?_, ?_, ?_, ?_, ?_, h.own, ?_⟩
  · have hbudget := h.budgeted
    have hbef : s.admission = task.pending.reservation.maximumLogicalBytes := by
      simp only [Store.admission, hlock, ht, hadm, Stage.admission]
    have hafter : Store.admission { s.setStage t task .reserved with
        catalog := { s.catalog with
          reservations := s.catalog.reservations.insert task.id.value task.pending }
        ledger := s.ledger.grant task.id.value t } = 0 := by
      simp only [Store.admission, hlock, Store.setStage, getElem?_insert_self, Stage.admission]
    have hreserved : Catalog.reservedLogical { s.catalog with
        reservations := s.catalog.reservations.insert task.id.value task.pending } =
          task.pending.reservation.maximumLogicalBytes + s.catalog.reservedLogical := by
      simp only [reservedLogical, sum_insert, erase_of_get?_eq_none hnone]
    have hret : retainedLogical { s.catalog with
        reservations := s.catalog.reservations.insert task.id.value task.pending } =
          s.catalog.retainedLogical := rfl
    rw [hafter]; rw [hreserved, hret]; omega
  · intro id
    simp only [grant, get?_insert_ite]
    split
    · exact ⟨fun hrow => (by cases hrow), fun hrow => (by cases hrow)⟩
    · exact h.rows id
  · intro u task' hu hholds
    simp only [grant, get?_insert_ite]
    simp only [get?_setStage] at hu
    split at hu
    · rename_i hut; cases hu; exact ⟨if_pos rfl, by rw [if_pos rfl, hut]⟩
    · obtain ⟨hpend, hholder⟩ := h.held hu hholds
      have hid : task'.id.value ≠ task.id.value := by
        intro heq; rw [heq, hfree] at hholder; cases hholder
      exact ⟨(if_neg hid).trans hpend, (if_neg hid).trans hholder⟩
  · intro u task' hu hbegins
    simp only [get?_setStage] at hu
    split at hu
    · rename_i hut; rw [hut]; exact hlock
    · exact h.locked hu hbegins
  · intro u hu
    have hold := h.fresh (.inl (mem_of_getElem? ht))
    rcases hu with hu | hu
    · rcases mem_insert_iff.1 hu with rfl | hu
      · exact hold
      · exact h.fresh (.inl hu)
    · rcases mem_cons.1 hu with rfl | hu
      · exact hold
      · exact h.fresh (.inr hu)
  · intro u task' hu hstg
    simp only [get?_setStage] at hu
    split at hu
    · cases hu; cases hstg
    · rename_i hut; exact absurd (hothers hu hstg) hut
  · intro u task' hu hadopted
    simp only [get?_setStage] at hu
    split at hu
    · cases hu; cases hadopted
    · obtain ⟨hrow, hapart⟩ := h.adopted hu hadopted
      refine ⟨?_, fun {_ _} hv hstg => ?_⟩
      · simp only [get?_insert_ite]; rw [if_neg (Ne.symm (hapart ht hadm)), hrow]
      · simp only [get?_setStage] at hv
        split at hv
        · cases hv; cases hstg
        · rename_i hvt; exact absurd (hothers hv hstg) hvt
  · intro id u hu
    simp only [grant, get?_insert_ite] at hu
    split at hu
    · rename_i hid
      cases hu
      exact .inr ⟨{ task with stage := .reserved }, by rw [get?_setStage, if_pos rfl],
        hid.symm, rfl⟩
    · rcases h.owner hu with habn | ⟨task', htask', hid', hholds⟩
      · exact .inl habn
      · refine .inr ⟨task', ?_, hid', hholds⟩
        have hut : u ≠ t := by
          rintro rfl
          rw [ht] at htask'
          cases htask'; rw [hadm] at hholds; cases hholds
        rw [get?_setStage, if_neg hut, htask']
  · intro u task' _ _ hu hpubl
    simp only [get?_setStage] at hu
    split at hu
    · cases hu; cases hpubl
    · exact h.closed hu hpubl

theorem Sound.begin (h : Sound budget s) (hlock : s.lifecycle = none) {id : SegmentId}
    (hroom : s.catalog.retainedLogical + s.catalog.reservedLogical +
      pending.reservation.maximumLogicalBytes ≤ budget.maximumLogicalBytes)
    (hapart : ∀ {u : Nat} {task : SegmentTask}, s.tasks[u]? = some task →
      task.stage = .discarding true → task.id.value ≠ id.value) : Sound budget { s with
      lifecycle := some (.begin s.next)
      tasks := s.tasks.insert s.next ⟨id, pending, .admitted⟩
      next := s.next + 1 } := by
  have hfresh : ∀ {u : Nat}, u ∈ s.tasks ∨ u ∈ s.ledger.made → u ≠ s.next := fun hu =>
    Nat.ne_of_lt (h.fresh hu)
  have hidle : ∀ {u : Nat} {task : SegmentTask}, s.tasks[u]? = some task →
      task.stage.begins = false := fun hu =>
    h.not_begins (fun v hv => by rw [hlock] at hv; cases hv) hu
  refine ⟨?_, h.ledger, h.rows, ?_, ?_, ?_, ?_, ?_, ?_, h.own, ?_⟩
  · have hadmn : admission { s with
        lifecycle := some (.begin s.next)
        tasks := s.tasks.insert s.next ⟨id, pending, .admitted⟩
        next := s.next + 1 } = pending.reservation.maximumLogicalBytes := by
      simp only [Store.admission, getElem?_insert_self, Stage.admission]
    rw [hadmn]; exact hroom
  · intro u task hu hholds
    simp only [get?_insert_ite] at hu
    split at hu
    · cases hu; cases hholds
    · exact h.held hu hholds
  · intro u task hu hbegins
    simp only [get?_insert_ite] at hu
    split at hu
    · rename_i hut; rw [hut]
    · rw [hidle hu] at hbegins; cases hbegins
  · intro u hu
    rcases hu with hu | hu
    · rcases mem_insert_iff.1 hu with rfl | hu
      · exact Nat.lt_succ_self _
      · exact Nat.lt_succ_of_lt (h.fresh (.inl hu))
    · exact Nat.lt_succ_of_lt (h.fresh (.inr hu))
  · intro u task hu hadm
    simp only [get?_insert_ite] at hu
    split at hu
    · rename_i hut
      rw [hut]
      intro hmade; exact hfresh (.inr hmade) rfl
    · exact h.unmade hu hadm
  · intro u task hu hadopted
    simp only [get?_insert_ite] at hu
    split at hu
    · cases hu; cases hadopted
    · refine ⟨(h.adopted hu hadopted).1, fun {v _} hv hadm => ?_⟩
      simp only [get?_insert_ite] at hv
      split at hv
      · cases hv; exact Ne.symm (hapart hu hadopted)
      · exact (h.adopted hu hadopted).2 hv hadm
  · intro _ u hu
    rcases h.owner hu with habn | ⟨task, htask, hid, hholds⟩
    · exact .inl habn
    · refine .inr ⟨task, ?_, hid, hholds⟩
      simp only [get?_insert_ite]; rw [if_neg (hfresh (.inl (mem_of_getElem? htask))), htask]
  · intro u task _ _ hu hpubl
    simp only [get?_insert_ite] at hu
    split at hu
    · cases hu; cases hpubl
    · exact h.closed hu hpubl

def Event.Apart (s : Store) : Event → Prop
  | .begin id .. => ∀ {t : Nat} {task : SegmentTask}, s.tasks[t]? = some task →
      task.stage = .discarding true → task.id.value ≠ id.value
  | _ => True

variable {digests : Digests}

theorem admitSegment_eq_ok {resv : SegmentReservation} {files : Except HistoryStoreError Unit}
    (h : admitSegment budget c resv files = .ok ()) :
    c.retainedLogical + c.reservedLogical + resv.maximumLogicalBytes ≤
      budget.maximumLogicalBytes := by
  simp only [admitSegment, eq_ok] at h
  obtain ⟨-, -, -, -, -, hroom, -⟩ := h; exact hroom

theorem close_eq_ok {logicalLen : Nat} {failed : Bool} {file : Except HistoryStoreError ClosedFile}
    {owners' : List SegmentOwnerClaim} (h : close digests c pending logicalLen failed file owners =
    .ok (metadata, owners')) : metadata.logicalBytes ≤ pending.reservation.maximumLogicalBytes := by
  simp only [close, eq_ok, Prod.mk.injEq] at h
  obtain ⟨_, -, _, -, _, -, file, -, _, hfits, rfl, -⟩ := h; exact hfits.1

theorem publishTransaction_bytes {id : SegmentId} {adopted : Bool}
    (h : publishTransaction c id metadata pend owners = .ok (adopted, c'))
    (hrow : c.reservations[id.value]? = some pend)
    (hfits : metadata.logicalBytes ≤ pend.reservation.maximumLogicalBytes) :
    c'.reservations = c.reservations.erase id.value ∧
      c'.retainedLogical + c'.reservedLogical ≤ c.retainedLogical + c.reservedLogical := by
  simp only [publishTransaction, eq_ok, Prod.mk.injEq] at h
  obtain ⟨-, -, -, -, published, hpub, -, rfl⟩ := h
  obtain ⟨hresvs, _⟩ := insertOrAdopt_bytes hpub
  have hreserved : c.reservedLogical = pend.reservation.maximumLogicalBytes +
      (clearReservation published id.value).reservedLogical := by
    simp only [reservedLogical, clearReservation, hresvs]
    exact sum_of_get? (fun _ pend => pend.reservation.maximumLogicalBytes) hrow
  have hsame : (clearReservation published id.value).retainedLogical = published.retainedLogical :=
    rfl
  refine ⟨by rw [clearReservation, hresvs], ?_⟩
  rw [hsame, hreserved]; omega

theorem appended_writing (budget : StorageBudget) (resv : SegmentReservation) (logicalBytes : Nat)
    (failed : Bool) (logicalLen : Option Nat) (valid : Bool) : ∃ logicalBytes' failed',
    appended budget resv logicalBytes failed logicalLen valid = .writing logicalBytes' failed' := by
  unfold appended
  split
  · exact ⟨_, _, rfl⟩
  · split
    · exact ⟨_, _, rfl⟩
    · split
      · exact ⟨_, _, rfl⟩
      · exact ⟨_, _, rfl⟩

theorem Sound.discarding (h : Sound budget s) (ht : s.tasks[t]? = some task)
    (hholds : task.stage.holds = true) : Sound budget (s.setStage t task (.discarding false)) :=
  h.restage ht hholds rfl rfl fun _ _ hstg => by cases hstg

theorem Sound.reopened (h : Sound budget s) (files : String → FileState) :
    Sound budget (s.step digests budget (.reopen files)) where
  budgeted := by
    obtain ⟨hresvs, _⟩ := reopen_bytes s.catalog files
    have hbudget := h.budgeted
    have hzero : (reopen s.catalog files).1.reservedLogical = 0 := by
      rw [reservedLogical, hresvs]; exact sum_empty _
    have hadmn : (s.step digests budget (.reopen files)).admission = 0 := rfl
    rw [hadmn]
    dsimp only [Store.step]; omega
  ledger := h.ledger.releaseAll
  rows id := by
    simp only [Store.step, (reopen_bytes s.catalog files).1, Ledger.releaseAll]; simp
  held hu := (not_mem_empty hu).elim
  locked hu := (not_mem_empty hu).elim
  fresh hu := by
    rcases hu with hu | hu
    · simp [Store.step] at hu
    · exact h.fresh (.inr hu)
  unmade hu := (not_mem_empty hu).elim
  adopted hu := (not_mem_empty hu).elim
  owner hu := (not_mem_empty hu).elim
  own release hrel := by
    rcases mem_append.1 hrel with hnew | hold
    · obtain ⟨_, -, rfl⟩ := mem_map.1 hnew; exact .inr rfl
    · exact h.own release hold
  closed hu := (not_mem_empty hu).elim

theorem Sound.step (h : Sound budget s) {event : Event} (hapart : event.Apart s) :
    Sound budget (s.step digests budget event) := by
  cases event with
  | «begin» id descriptor reservation profile indexes files =>
    simp only [Store.step]
    split
    · split
      · rename_i hlock
        split
        · exact h
        · rename_i hok
          obtain ⟨-, -, hok⟩ := bind_eq_ok.1 hok
          exact h.begin hlock (admitSegment_eq_ok hok) hapart
      · exact h
    · exact h
  | insertReservation t =>
    simp only [Store.step]
    split
    · rename_i id pend ht
      split
      · refine (h.finish (fun _ hu => hu) (.inr ?_)).unlock (h.idle_finished ht rfl)
        intro task htask
        rw [ht] at htask; cases htask; rfl
      · rename_i hnew; exact h.reserve ht rfl hnew
    · exact h
  | createWriter t created =>
    simp only [Store.step]
    split
    · rename_i id pend ht
      split
      · refine (h.restage ht rfl rfl rfl fun _ _ hstg => by cases hstg).unlock ?_
        intro u task hu
        rw [get?_setStage] at hu
        split at hu
        · cases hu; rfl
        · rename_i hut
          by_contra hbegins
          exact hut (h.begins_eq ht rfl hu (by simpa using hbegins))
      · exact (h.clear ht (.inl rfl)).unlock (h.idle_finished ht rfl)
    · exact h
  | append t logicalLen valid =>
    simp only [Store.step]
    split
    · rename_i id pend logicalBytes failed ht
      obtain ⟨_, _, happended⟩ :=
        appended_writing budget pend.reservation logicalBytes failed logicalLen valid
      rw [happended]; exact h.restage ht rfl rfl rfl fun _ _ hstg => by cases hstg
    · exact h
  | commit t file owners =>
    simp only [Store.step]
    split
    · rename_i id pend logicalBytes failed ht
      split
      · exact h.discarding ht rfl
      · rename_i metadata owners hclose
        refine h.restage ht rfl rfl rfl fun _ _ hstg => ?_
        cases hstg; exact close_eq_ok hclose
    · exact h
  | verifyRetained t file =>
    simp only [Store.step]
    split
    · rename_i id pend metadata owners ht
      split
      · split
        · exact h.discarding ht rfl
        · rename_i hdropped
          obtain ⟨_, -, hdropped⟩ := bind_eq_ok.1 hdropped
          exact h.lighten (dropUnusable_lightens hdropped)
      · exact h
    · exact h
  | publish t =>
    simp only [Store.step]
    split
    · rename_i id pend metadata owners ht
      split
      · rename_i hlock
        split
        · exact h.discarding ht rfl
        · rename_i adopted c hpub
          obtain ⟨hresvs, hbytes⟩ :=
            publishTransaction_bytes hpub (h.held ht rfl).1 (h.closed ht rfl)
          split
          · refine h.close ht (.inl rfl) (fun {u} hut => ?_) (fun {task'} hself => ?_) hresvs hbytes
            · rw [get?_insert_ite, if_neg hut]
            · rw [getElem?_insert_self] at hself; cases hself; exact ⟨rfl, hlock⟩
          · refine h.close ht (.inl rfl) (fun {u} hut => ?_) (fun {task'} hself => ?_) hresvs hbytes
            · rw [get?_erase_ite, if_neg hut]
            · rw [get?_erase_ite, if_pos rfl] at hself; cases hself
      · exact h
    · exact h
  | abort t =>
    simp only [Store.step]
    split
    · rename_i id pend logicalBytes failed ht; exact h.discarding ht rfl
    · exact h
  | discard t removed =>
    simp only [Store.step]
    split
    · rename_i id pend adopted ht
      split
      · refine h.clear ht ?_
        cases adopted with
        | false => exact .inl rfl
        | true => exact .inr rfl
      · exact h.finish (fun _ hu => mem_cons_of_mem _ hu) (.inl mem_cons_self)
    · exact h
  | forget t =>
    simp only [Store.step]
    split
    · rename_i task ht
      have hended : Sound budget { s.finished t with abandoned := t :: s.abandoned } :=
        h.finish (fun _ hu => mem_cons_of_mem _ hu) (.inl mem_cons_self)
      split
      · rename_i hlock
        refine hended.relock ?_ none
        intro u task' hu
        obtain ⟨hut, hu⟩ := get?_of_finished hu
        by_contra hbegins
        have hlock' := h.locked hu (by simpa using hbegins)
        rw [hlock] at hlock'; cases hlock'; exact hut rfl
      · exact hended
    · exact h
  | dropSegment id metadata reason =>
    simp only [Store.step]
    split
    · refine h.lighten ?_
      cases hdropped : dropSegment s.catalog id.value metadata reason with
      | error e => exact Lightens.refl _
      | ok c => exact dropSegment_lightens hdropped
    · exact h
  | markUnowned id =>
    simp only [Store.step]
    split
    · rename_i hlock
      split
      · exact h
      · rename_i c hmarked
        refine (h.lighten (markUnowned_lightens hmarked)).relock (fun hu => ?_) _
        exact h.not_begins (fun u hu => by rw [hlock] at hu; cases hu) hu
    · exact h
  | deleteMarked id removed =>
    simp only [Store.step]
    split
    · rename_i hlock
      have hidle : ∀ {u : Nat} {task : SegmentTask}, s.tasks[u]? = some task →
          task.stage.begins = false := fun hu =>
        h.not_begins (fun u hu => by rw [hlock] at hu; cases hu) hu
      split
      · exact (h.lighten (deleteMarked_lightens s.catalog id.value)).relock hidle none
      · exact h.unlock hidle
    · exact h
  | reopen files => exact h.reopened files

def Store.Apart (digests : Digests) (budget : StorageBudget) : Store → List Event → Prop
  | _, [] => True
  | s, event :: events =>
    event.Apart s ∧ Store.Apart digests budget (s.step digests budget event) events

variable {events : List Event}

theorem Sound.run (h : Sound budget s)
    (hapart : Store.Apart digests budget s events) : Sound budget (s.run digests budget events) := by
  induction events generalizing s with
  | nil => exact h
  | cons event events ih => exact ih (h.step hapart.1) hapart.2

structure Accounts (budget : StorageBudget) (s : Store) : Prop where
  within : s.catalog.retainedLogical + s.catalog.reservedLogical ≤ budget.maximumLogicalBytes
  kept : s.ledger.WellKept
  rows : ∀ id : String, id ∈ s.catalog.reservations ↔ ∃ t, s.ledger.holders[id]? = some t
  held : ∀ {t : Nat} {task : SegmentTask}, s.tasks[t]? = some task → task.stage.holds = true →
    s.catalog.reservations[task.id.value]? = some task.pending ∧
      s.ledger.holders[task.id.value]? = some t
  owner : ∀ {id : String} {t : Nat}, s.ledger.holders[id]? = some t → t ∈ s.abandoned ∨
    ∃ task, s.tasks[t]? = some task ∧ task.id.value = id ∧ task.stage.holds = true
  own : ∀ release ∈ s.ledger.releases, release.2 = some release.1 ∨ release.2 = none

theorem Sound.accounts (h : Sound budget s) : Accounts budget s where
  within := Nat.le_trans (Nat.le_add_right _ _) h.budgeted
  kept := h.ledger
  rows id := by
    constructor
    · intro hmem
      cases hholder : s.ledger.holders[id]? with
      | some t => exact ⟨t, rfl⟩
      | none =>
        have hnone := (h.rows id).2 hholder
        rw [getElem?_pos s.catalog.reservations id hmem] at hnone; cases hnone
    · rintro ⟨t, hholder⟩
      by_contra hmem
      rw [(h.rows id).1 (getElem?_neg s.catalog.reservations id hmem)] at hholder; cases hholder
  held := h.held
  owner := h.owner
  own := h.own

/-- From any catalog whose segments fit the budget when the store opens. -/
theorem run_accounts (hopened : (reopen c files).1.retainedLogical ≤ budget.maximumLogicalBytes)
    (hapart : Store.Apart digests budget (.opened (reopen c files).1) events) :
    Accounts budget (Store.run digests budget (.opened (reopen c files).1) events) :=
  ((sound_opened hopened (reopen_bytes c files).1).run hapart).accounts

def thousandBytes : StorageBudget := ⟨1000, 1000, 1000, 10⟩

def began (t : Nat) (id : SegmentId) (range : Range) (logicalBytes : Nat) : List Event :=
  [.begin id ⟨1, range, 0, .of .transactions, .of .transactions, .trustedDataset, .trustedDataset⟩
      ⟨logicalBytes, 10⟩ .processorReuse ⟨false, false, false⟩ (.ok ()),
    .insertReservation t, .createWriter t true]

def closed (t logicalBytes : Nat) : List Event :=
  [.append t (some logicalBytes) true, .commit t (.ok ⟨0, 10, 1, 2, 3, 4⟩) []]

theorem run_accounts_began : Accounts thousandBytes (Store.run ⟨fun _ => 1, fun _ => 1⟩
    thousandBytes (.opened (reopen .empty fun _ => .missing).1)
    (began 0 ⟨"first", by decide⟩ ⟨5, 6, by decide⟩ 600)) :=
  run_accounts (by decide +kernel) ⟨fun h => (not_mem_empty h).elim, trivial, trivial, trivial⟩

/-- Segment 1 adopts segment 0 and removes its files after segment 2 began under its identifier, and
segment 3 takes the identifier once more before segment 2 is published. -/
def sharedIdentifier : List Event :=
  began 0 ⟨"first", by decide⟩ ⟨4, 6, by decide⟩ 1 ++ closed 0 1 ++ [.publish 0] ++
  began 1 ⟨"second", by decide⟩ ⟨4, 6, by decide⟩ 1 ++ closed 1 1 ++ [.publish 1] ++
  began 2 ⟨"second", by decide⟩ ⟨7, 8, by decide⟩ 600 ++ [.discard 1 true] ++ closed 2 600 ++
  began 3 ⟨"second", by decide⟩ ⟨4, 6, by decide⟩ 1 ++
  began 4 ⟨"third", by decide⟩ ⟨9, 9, by decide⟩ 998 ++ [.publish 2]

/-- The budget is exceeded, and segment 1 released the reservation of segment 2. -/
theorem sharedIdentifier_exceeds :
    let s := Store.run ⟨fun _ => 1, fun _ => 1⟩ thousandBytes
      (.opened (reopen .empty fun _ => .missing).1) sharedIdentifier
    s.catalog.retainedLogical + s.catalog.reservedLogical = 1599 ∧
      thousandBytes.maximumLogicalBytes = 1000 ∧ (2, some 1) ∈ s.ledger.releases := by
  decide +kernel

end Leani.RawHistory
