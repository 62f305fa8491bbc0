import Leani.Library.Waiters
import Leani.Primitives
import Mathlib.Algebra.Order.Group.Nat

/-!
# The fair commit scheduler

Historical jobs take turns to commit by deficit round robin: a waiting job earns a quantum each
time it comes up and is selected once its deficit is positive, and a turn charges what it
committed. A job's run registers it, asks for one turn at a time, and may be dropped at any point:
first its waiting call or its permit goes, then the registration.
-/

namespace Leani.Turns

open Library Std List Option Table ExtTreeMap

def i128Max : Int := 2 ^ 127 - 1

def i128Min : Int := -2 ^ 127

def satI128 (n : Int) : Int := max i128Min (min n i128Max)

structure HistoricalFairCommitJob where
  deficitBytes : Int
  registered : Bool
  waiting : Bool
  deriving DecidableEq

structure HistoricalFairCommitState where
  active : Bool
  selected : Option String
  order : List String
  jobs : Table String HistoricalFairCommitJob

/-- `HISTORICAL_FAIR_COMMIT_QUANTUM_BYTES`, the quantum of the node's scheduler. -/
def historicalFairCommitQuantumBytes : Nat := 1024 * 1024

namespace HistoricalFairCommitState

def new : HistoricalFairCommitState := ⟨false, none, [], ∅⟩

def selectPass (quantumBytes : Nat) :
    Nat → HistoricalFairCommitState → Option (Option String) × HistoricalFairCommitState
  | 0, state => (none, state)
  | candidates + 1, state =>
    match state.order with
    | [] => (some none, state)
    | jobId :: order =>
      let state := { state with order }
      match state.jobs[jobId]? with
      | none => selectPass quantumBytes candidates state
      | some job =>
        if !job.waiting then selectPass quantumBytes candidates state
        else
          let job := { job with deficitBytes := satI128 (job.deficitBytes + quantumBytes) }
          let state := { state with jobs := state.jobs.insert jobId job }
          if 0 < job.deficitBytes then (some (some jobId), state)
          else selectPass quantumBytes candidates { state with order := state.order ++ [jobId] }

/-- `select_fair_commit_job`; without fuel the loop has not ended yet. -/
def selectFairCommitJob (quantumBytes : Nat) :
    Nat → HistoricalFairCommitState → Option (Option String × HistoricalFairCommitState)
  | 0, _ => none
  | fuel + 1, state =>
    if state.order.isEmpty then some (none, state)
    else
      match selectPass quantumBytes state.order.length state with
      | (some result, state) => some (result, state)
      | (none, state) => selectFairCommitJob quantumBytes fuel state

def modifyJob (state : HistoricalFairCommitState) (jobId : String)
    (f : HistoricalFairCommitJob → HistoricalFairCommitJob) : HistoricalFairCommitState :=
  match state.jobs[jobId]? with
  | some job => { state with jobs := state.jobs.insert jobId (f job) }
  | none => state

variable (state : HistoricalFairCommitState) (jobId : String)

def enqueue : HistoricalFairCommitState :=
  { state.modifyJob jobId (fun job => { job with waiting := true }) with
    order := state.order ++ [jobId] }

def claim : HistoricalFairCommitState :=
  { state.modifyJob jobId (fun job => { job with waiting := false }) with
    active := true
    selected := none }

def dequeue : HistoricalFairCommitState :=
  { state with
    selected := if state.selected = some jobId then none else state.selected
    order := state.order.filter (· ≠ jobId) }

def cancelWaiter : HistoricalFairCommitState :=
  (state.dequeue jobId).modifyJob jobId fun job => { job with waiting := false }

def dropRegistration : HistoricalFairCommitState :=
  { state.dequeue jobId with jobs := state.jobs.erase jobId }

def release (chargedBytes : Nat) : HistoricalFairCommitState :=
  { state.modifyJob jobId (fun job =>
      { job with deficitBytes := satI128 (job.deficitBytes - chargedBytes) }) with
    active := false }

end HistoricalFairCommitState

/-- The scheduler with the calls that wait for a turn and the permits that are out, each under its
job: a job is registered once, and its run makes one call at a time. -/
structure FairScheduler where
  state : HistoricalFairCommitState
  waiters : Waiters String
  permits : List String

def FairScheduler.new : FairScheduler := ⟨.new, .none, []⟩

inductive FairEvent where
  | register (jobId : String)
  | unregister (jobId : String)
  | acquire (jobId : String)
  | listen (jobId : String)
  | check (jobId : String) (fuel : Nat)
  | cancel (jobId : String)
  | abandon (jobId : String)
  | release (jobId : String) (committedBytes : Option Nat)
  | deliver
  deriving DecidableEq

namespace FairScheduler

def select (quantumBytes fuel : Nat) (state : HistoricalFairCommitState) :
    Option (HistoricalFairCommitState × Bool) :=
  if !state.active && state.selected.isNone then
    (state.selectFairCommitJob quantumBytes fuel).map fun (selected, state) =>
      ({ state with selected }, selected.isSome)
  else some (state, false)

def step (quantumBytes : Nat) (s : FairScheduler) : FairEvent → Option FairScheduler
  | .register jobId =>
    let job := (s.state.jobs[jobId]?).getD ⟨0, false, false⟩
    if job.registered then some s
    else some { s with
      state := { s.state with jobs := s.state.jobs.insert jobId { job with registered := true } } }
  | .unregister jobId =>
    if jobId ∈ s.state.jobs ∧ jobId ∉ s.waiters.table ∧ jobId ∉ s.permits then
      some { s with state := s.state.dropRegistration jobId, waiters := s.waiters.notify }
    else none
  | .acquire jobId =>
    if jobId ∈ s.waiters.table ∨ jobId ∈ s.permits then none
    else
      match s.state.jobs[jobId]? with
      | none => some s
      | some job =>
        if !job.registered || job.waiting then some s
        else some { s with state := s.state.enqueue jobId, waiters := s.waiters.enter jobId }
  | .listen jobId =>
    if s.waiters.table[jobId]? = some .polling then
      some { s with waiters := s.waiters.listen jobId }
    else none
  | .check jobId fuel =>
    match s.waiters.table[jobId]? with
    | some (.checking notified) =>
      (select quantumBytes fuel s.state).map fun (state, wakeSelected) =>
        if !state.active && state.selected = some jobId then
          { state := state.claim jobId
            waiters := s.waiters.leave jobId
            permits := jobId :: s.permits }
        else
          let waiters := s.waiters.sleep jobId (.checking notified)
          { s with state, waiters := if wakeSelected then waiters.notify else waiters }
    | _ => none
  | .cancel jobId =>
    match s.waiters.table[jobId]? with
    -- Nothing is awaited between subscribing and the check.
    | some .polling | some .asleep =>
      some { s with
        state := s.state.cancelWaiter jobId
        waiters := (s.waiters.leave jobId).notify }
    | _ => none
  | .abandon jobId =>
    match s.waiters.table[jobId]? with
    | some .polling | some .asleep => some { s with waiters := s.waiters.leave jobId }
    | _ => none
  | .release jobId committedBytes =>
    if jobId ∈ s.permits then
      some
        { state := s.state.release jobId (committedBytes.elim 0 (max · 1))
          waiters := s.waiters.notify
          permits := s.permits.erase jobId }
    else none
  | .deliver =>
    if 0 < s.waiters.pending then some { s with waiters := s.waiters.deliver } else none

def run (quantumBytes : Nat) (s : FairScheduler) (events : List FairEvent) : FairScheduler :=
  events.foldl (fun s event => (s.step quantumBytes event).getD s) s

end FairScheduler

namespace HistoricalFairCommitState

variable {state state' : HistoricalFairCommitState} {jobId : String} {quantumBytes fuel : Nat}

def Waiting (state : HistoricalFairCommitState) (jobId : String) : Prop :=
  ∃ job, state.jobs[jobId]? = some job ∧ job.waiting = true

variable {f : HistoricalFairCommitJob → HistoricalFairCommitJob}

@[simp] theorem get?_modifyJob (j : String) : (state.modifyJob jobId f).jobs[j]? =
      if j = jobId then (state.jobs[j]?).map f else state.jobs[j]? := by
  unfold modifyJob
  cases h : state.jobs[jobId]? with
  | none =>
    dsimp only
    split
    · rename_i hj; rw [hj, h, map_none]
    · rfl
  | some job =>
    rw [get?_insert_ite]
    split
    · rename_i hj; rw [hj, h, map_some]
    · rfl

@[simp] theorem modifyJob_active : (state.modifyJob jobId f).active = state.active := by
  unfold modifyJob
  split <;> rfl

@[simp] theorem modifyJob_selected : (state.modifyJob jobId f).selected = state.selected := by
  unfold modifyJob
  split <;> rfl

@[simp] theorem modifyJob_order : (state.modifyJob jobId f).order = state.order := by
  unfold modifyJob
  split <;> rfl

structure Earned (state state' : HistoricalFairCommitState) : Prop where
  flags : ∀ j : String, (state'.jobs[j]?).map (fun job => (job.registered, job.waiting)) =
    (state.jobs[j]?).map fun job => (job.registered, job.waiting)
  size : state'.jobs.size = state.jobs.size
  active : state'.active = state.active

theorem Earned.refl (state : HistoricalFairCommitState) : Earned state state :=
  ⟨fun _ => rfl, rfl, rfl⟩

variable {state'' : HistoricalFairCommitState}

theorem Earned.trans (h : Earned state state') (h' : Earned state' state'') : Earned state state'' where
  flags j := (h'.flags j).trans (h.flags j)
  size := h'.size.trans h.size
  active := h'.active.trans h.active

variable {j : String}

theorem Earned.waiting (h : Earned state state') : state'.Waiting j ↔ state.Waiting j := by
  have hiff : ∀ s : HistoricalFairCommitState, s.Waiting j ↔ ∃ flags,
      (s.jobs[j]?).map (fun job => (job.registered, job.waiting)) = some flags ∧ flags.2 = true := by
    intro s
    simp only [Waiting, map_eq_some_iff]
    constructor
    · rintro ⟨job, hj, hw⟩; exact ⟨_, ⟨job, hj, rfl⟩, hw⟩
    · rintro ⟨_, ⟨job, hj, rfl⟩, hw⟩; exact ⟨job, hj, hw⟩
  rw [hiff, hiff, h.flags j]

theorem Earned.registered (h : Earned state state')
    (hr : ∀ (j : String) (job : HistoricalFairCommitJob), state.jobs[j]? = some job →
      job.registered = true) (j : String) (job' : HistoricalFairCommitJob)
    (hj' : state'.jobs[j]? = some job') : job'.registered = true := by
  have hflags := h.flags j
  rw [hj'] at hflags
  obtain ⟨job, hj, heq⟩ := map_eq_some_iff.1 hflags.symm
  rw [← (Prod.mk.inj heq).1]; exact hr j job hj

variable {deficit : Int}

theorem lt_satI128 (hq : 0 < quantumBytes)
    (h : satI128 (deficit + quantumBytes) ≤ 0) : deficit < satI128 (deficit + quantumBytes) := by
  unfold satI128 i128Max i128Min at *; omega

theorem earned_insert {job : HistoricalFairCommitJob}
    {order : List String} (hj : state.jobs[jobId]? = some job) : Earned state { state with
      order
      jobs := state.jobs.insert jobId { job with deficitBytes := deficit } } where
  flags j := by
    rw [get?_insert_ite]
    split
    · rename_i h; rw [h, hj]; rfl
    · rfl
  size := by
    rw [size_insert, if_pos (contains_iff_mem.2 (mem_of_getElem? hj))]
  active := rfl

def debtOf (state : HistoricalFairCommitState) (jobId : String) : Nat :=
  (state.jobs[jobId]?).elim 0 fun job => (-job.deficitBytes).toNat

def debt (state : HistoricalFairCommitState) : Nat := (state.order.map state.debtOf).sum

structure Ordered (state : HistoricalFairCommitState) : Prop where
  waiting : ∀ j ∈ state.order, state.Waiting j
  nodup : state.order.Nodup

structure Selected (state : HistoricalFairCommitState) (jobId : String)
    (state' : HistoricalFairCommitState) : Prop where
  mem : jobId ∈ state.order
  order : state'.order.Perm (state.order.erase jobId)
  selected : state'.selected = state.selected
  earned : Earned state state'

structure Passed (candidates : Nat) (state state' : HistoricalFairCommitState) : Prop where
  order : state'.order.Perm state.order
  selected : state'.selected = state.selected
  earned : Earned state state'
  debts : ∀ j, state'.debtOf j ≤ state.debtOf j
  first : ∀ jobId order, state.order = jobId :: order → 0 < candidates →
    state'.debtOf jobId < state.debtOf jobId

variable {candidates : Nat}

theorem selectPass_spec (hq : 0 < quantumBytes) :
    ∀ {state : HistoricalFairCommitState}, state.Ordered → candidates ≤ state.order.length →
    (∃ jobId state', selectPass quantumBytes candidates state = (some (some jobId), state') ∧
      Selected state jobId state') ∨
    (∃ state', selectPass quantumBytes candidates state = (none, state') ∧
      Passed candidates state state') := by
  induction candidates with
  | zero =>
    intro state _ _; exact .inr ⟨state, rfl, List.Perm.refl _, rfl, .refl _, fun _ => le_rfl, nofun⟩
  | succ candidates ih =>
    intro state hord _
    obtain ⟨jobId, order, horder⟩ : ∃ jobId order, state.order = jobId :: order :=
      exists_cons_of_ne_nil (ne_nil_of_length_pos (by omega))
    obtain ⟨⟨deficit, registered, _⟩, hjob, rfl⟩ := hord.waiting jobId (horder ▸ mem_cons_self)
    rw [selectPass]
    simp only [horder, hjob, Bool.not_true, Bool.false_eq_true, if_false]
    split
    · -- The deficit is positive: the job is selected.
      refine .inl ⟨jobId, _, rfl, horder ▸ mem_cons_self, ?_, rfl, earned_insert hjob⟩
      rw [horder, erase_cons_head]
    · rename_i hpositive
      rw [Int.not_lt] at hpositive
      have hlt := lt_satI128 hq hpositive
      -- The job goes to the end with its new deficit, and the pass goes on.
      have hearned : Earned state { state with
          order := order ++ [jobId]
          jobs := state.jobs.insert jobId ⟨satI128 (deficit + quantumBytes), registered, true⟩ } :=
        earned_insert hjob
      have hrotate : (order ++ [jobId]).Perm state.order := by
        rw [horder]; exact perm_append_singleton jobId order
      have hdebt : ∀ j, debtOf { state with
          order := order ++ [jobId]
          jobs := state.jobs.insert jobId ⟨satI128 (deficit + quantumBytes), registered, true⟩ } j =
          if j = jobId then (-satI128 (deficit + quantumBytes)).toNat
          else state.debtOf j := by
        intro j
        simp only [debtOf, get?_insert_ite]
        split <;> rfl
      have hfst : (-satI128 (deficit + quantumBytes)).toNat < state.debtOf jobId := by
        rw [debtOf, hjob, elim_some]
        dsimp only; omega
      have hord' : Ordered { state with
          order := order ++ [jobId]
          jobs := state.jobs.insert jobId ⟨satI128 (deficit + quantumBytes), registered, true⟩ } :=
        ⟨fun j hj => hearned.waiting.2 (hord.waiting j (hrotate.mem_iff.1 hj)),
          hrotate.nodup_iff.2 hord.nodup⟩
      have hlen' : candidates ≤ (order ++ [jobId]).length := by
        rw [hrotate.length_eq]; omega
      rcases ih hord' hlen' with ⟨j, state', hpass, hsel⟩ | ⟨state', hpass, hpassed⟩
      · exact .inl ⟨j, state', hpass, hrotate.mem_iff.1 hsel.mem,
          hsel.order.trans (hrotate.erase j), hsel.selected, hearned.trans hsel.earned⟩
      · refine .inr ⟨state', hpass, hpassed.order.trans hrotate, hpassed.selected,
          hearned.trans hpassed.earned, fun j => ?_, fun j _ hrest _ => ?_⟩
        · refine Nat.le_trans (hpassed.debts j) ?_
          rw [hdebt]
          split
          · rename_i heq; rw [heq]; exact Nat.le_of_lt hfst
          · exact le_rfl
        · rw [horder, cons.injEq] at hrest
          rw [← hrest.1]
          refine Nat.lt_of_le_of_lt (hpassed.debts jobId) ?_
          rw [hdebt, if_pos rfl]; exact hfst

theorem Passed.debt_lt (h : Passed state.order.length state state') (hne : state.order ≠ []) :
    state'.debt < state.debt := by
  obtain ⟨jobId, order, horder⟩ := exists_cons_of_ne_nil hne
  have hfirst := h.first jobId order horder (length_pos_iff.2 hne)
  rw [debt, debt, (h.order.map _).sum_eq, horder, map_cons, map_cons, sum_cons, sum_cons]
  exact Nat.add_lt_add_of_lt_of_le hfirst (sum_le_sum fun j _ => h.debts j)

theorem Passed.ordered (h : Passed candidates state state') (hord : state.Ordered) : state'.Ordered :=
  ⟨fun j hj => h.earned.waiting.2 (hord.waiting j (h.order.mem_iff.1 hj)),
    h.order.nodup_iff.2 hord.nodup⟩

theorem Passed.of_selected (h : Passed candidates state state') (h' : Selected state' jobId state'') :
    Selected state jobId state'' :=
  ⟨h.order.mem_iff.1 h'.mem, h'.order.trans (h.order.erase jobId),
    h'.selected.trans h.selected, h.earned.trans h'.earned⟩

theorem selectFairCommitJob_sound (hq : 0 < quantumBytes) : ∀ {state : HistoricalFairCommitState}
    {res : Option String}, state.Ordered → selectFairCommitJob quantumBytes fuel state =
    some (res, state') → (res = none ∧ state.order = [] ∧ state' = state) ∨
    ∃ jobId, res = some jobId ∧ Selected state jobId state' := by
  induction fuel with
  | zero => intro state res _ h; cases h
  | succ fuel ih =>
    intro state res hord h
    rw [selectFairCommitJob] at h
    split at h
    · rename_i hempty; cases h; exact .inl ⟨rfl, isEmpty_iff.1 hempty, rfl⟩
    · rename_i hne
      rcases selectPass_spec hq hord le_rfl with
        ⟨jobId, s₁, hpass, hsel⟩ | ⟨s₁, hpass, hpassed⟩
      · rw [hpass] at h; cases h; exact .inr ⟨jobId, rfl, hsel⟩
      · rw [hpass] at h
        rcases ih (hpassed.ordered hord) h with ⟨-, hempty, -⟩ | ⟨jobId, hres, hsel⟩
        · have := hpassed.order.length_eq
          rw [hempty] at this; exact absurd (isEmpty_iff.2 (length_eq_zero_iff.1 this.symm)) hne
        · exact .inr ⟨jobId, hres, hpassed.of_selected hsel⟩

theorem selectFairCommitJob_complete (hq : 0 < quantumBytes)
    {fuel : Nat} : ∀ {state : HistoricalFairCommitState}, state.Ordered → state.order ≠ [] →
    state.debt < fuel → ∃ jobId state', selectFairCommitJob quantumBytes fuel state =
    some (some jobId, state') ∧ Selected state jobId state' := by
  induction fuel with
  | zero => intro state _ _ h; cases h
  | succ fuel ih =>
    intro state hord hne _
    have hempty : ¬ state.order.isEmpty = true := fun h => hne (isEmpty_iff.1 h)
    rw [selectFairCommitJob, if_neg hempty]
    rcases selectPass_spec hq hord le_rfl with
      ⟨jobId, s₁, hpass, hsel⟩ | ⟨s₁, hpass, hpassed⟩
    · rw [hpass]; exact ⟨jobId, s₁, rfl, hsel⟩
    · rw [hpass]
      have hne' : s₁.order ≠ [] := fun h => hne (by
        have := hpassed.order.length_eq; rw [h] at this; exact length_eq_zero_iff.1 this.symm)
      obtain ⟨jobId, s₂, hres, hsel⟩ :=
        ih (hpassed.ordered hord) hne' (by have := hpassed.debt_lt hne; omega)
      exact ⟨jobId, s₂, hres, hpassed.of_selected hsel⟩

structure Queued (state : HistoricalFairCommitState) : Prop where
  registered : ∀ (j : String) (job : HistoricalFairCommitJob), state.jobs[j]? = some job →
    job.registered = true
  waiting : ∀ j, state.Waiting j ↔ j ∈ state.order ∨ state.selected = some j
  nodup : state.order.Nodup
  apart : ∀ j, state.selected = some j → j ∉ state.order
  exclusive : state.selected ≠ none → state.active = false

theorem queued_new : Queued .new where
  registered _ _ h := (not_mem_empty h).elim
  waiting j := iff_of_false (fun ⟨_, h, _⟩ => (not_mem_empty h).elim) (by simp [new])
  nodup := nodup_nil
  apart _ _ := not_mem_nil
  exclusive _ := rfl

theorem Queued.ordered (h : state.Queued) : state.Ordered :=
  ⟨fun j hj => (h.waiting j).2 (.inl hj), h.nodup⟩

theorem waiting_modifyJob {f : HistoricalFairCommitJob → HistoricalFairCommitJob} {b : Bool}
    (hf : ∀ job, (f job).waiting = b) {j : String} : (state.modifyJob jobId f).Waiting j ↔
      if j = jobId then b = true ∧ jobId ∈ state.jobs else state.Waiting j := by
  unfold Waiting
  rw [get?_modifyJob]
  split
  · rename_i hj
    subst hj
    rw [mem_iff_isSome_getElem?]
    cases state.jobs[j]? with
    | none => simp
    | some job => simp [hf]
  · rfl

theorem waiting_modifyJob_of_keeps (hf : ∀ job, (f job).waiting = job.waiting) :
    (state.modifyJob jobId f).Waiting j ↔ state.Waiting j := by
  unfold Waiting
  rw [get?_modifyJob]
  split
  · cases state.jobs[j]? with
    | none => simp
    | some job => simp [hf]
  · rfl

theorem registered_modifyJob (h : ∀ (j : String) (job : HistoricalFairCommitJob),
    state.jobs[j]? = some job → job.registered = true)
    (hf : ∀ job, (f job).registered = job.registered) (j : String) (job : HistoricalFairCommitJob)
    (hj : (state.modifyJob jobId f).jobs[j]? = some job) : job.registered = true := by
  rw [get?_modifyJob] at hj
  split at hj
  · obtain ⟨job', hj', rfl⟩ := map_eq_some_iff.1 hj; rw [hf]; exact h j job' hj'
  · exact h j job hj

theorem Queued.enqueue (h : state.Queued) (hin : jobId ∈ state.jobs)
    (hw : ¬ state.Waiting jobId) : (state.enqueue jobId).Queued := by
  rw [h.waiting, not_or] at hw
  constructor
  · exact registered_modifyJob h.registered fun _ => rfl
  · intro j
    have hiff := @waiting_modifyJob state jobId
      (fun job => { job with waiting := true }) true (fun _ => rfl) j
    have hwait : (state.enqueue jobId).Waiting j ↔ _ := hiff
    rw [hwait]
    simp only [HistoricalFairCommitState.enqueue, modifyJob_selected, mem_append, mem_singleton]
    split
    · rename_i hj; exact iff_of_true ⟨trivial, hin⟩ (.inl (.inr hj))
    · rename_i hj; rw [h.waiting, or_iff_left hj]
  · exact nodup_append.2 ⟨h.nodup, nodup_singleton _, fun _ ha _ hb heq =>
      hw.1 ((mem_singleton.1 hb) ▸ heq ▸ ha)⟩
  · intro j hj
    simp only [HistoricalFairCommitState.enqueue, modifyJob_selected, mem_append,
      mem_singleton, not_or] at hj ⊢
    exact ⟨h.apart j hj, fun heq => hw.2 (heq ▸ hj)⟩
  · intro hsel
    simp only [HistoricalFairCommitState.enqueue, modifyJob_selected, modifyJob_active] at hsel ⊢
    exact h.exclusive hsel

theorem Queued.claim (h : state.Queued) (hsel : state.selected = some jobId) :
    (state.claim jobId).Queued := by
  constructor
  · exact registered_modifyJob h.registered fun _ => rfl
  · intro j
    have hwait : (state.claim jobId).Waiting j ↔ _ := @waiting_modifyJob state jobId
      (fun job => { job with waiting := false }) false (fun _ => rfl) j
    rw [hwait]
    simp only [HistoricalFairCommitState.claim, modifyJob_order]
    split
    · rename_i hj
      subst hj; exact iff_of_false nofun fun hor => h.apart j hsel (hor.resolve_right nofun)
    · rename_i hj; rw [h.waiting, hsel, some.injEq, or_iff_left (Ne.symm hj), or_iff_left nofun]
  · simp only [HistoricalFairCommitState.claim, modifyJob_order]; exact h.nodup
  · exact nofun
  · exact fun hne => absurd rfl hne

theorem Queued.dequeue {jobs : Table String HistoricalFairCommitJob} (h : state.Queued)
    (hreg : ∀ (j : String) (job : HistoricalFairCommitJob), jobs[j]? = some job → job.registered =
    true) (hwait : ∀ j, (HistoricalFairCommitState.Waiting { state.dequeue jobId with jobs } j) ↔
    j ≠ jobId ∧ state.Waiting j) : Queued { state.dequeue jobId with jobs } := by
  constructor
  · exact hreg
  · intro j
    rw [hwait, h.waiting]
    simp only [HistoricalFairCommitState.dequeue, mem_filter, decide_eq_true_iff]
    by_cases hj : j = jobId
    · subst hj
      refine iff_of_false (fun hand => hand.1 rfl) ?_
      rw [not_or]
      refine ⟨fun hand => hand.2 rfl, ?_⟩
      split
      · nofun
      · assumption
    · rw [and_iff_right hj, and_iff_left hj]
      refine or_congr_right ?_
      split
      · rename_i hsel; rw [hsel]; exact iff_of_false (fun heq => hj (some.inj heq).symm) nofun
      · rfl
  · exact h.nodup.filter _
  · intro j hj hmem
    simp only [HistoricalFairCommitState.dequeue] at hj hmem
    split at hj
    · cases hj
    · exact h.apart j hj (mem_filter.1 hmem).1
  · intro hsel
    simp only [HistoricalFairCommitState.dequeue] at hsel ⊢
    split at hsel
    · exact absurd rfl hsel
    · exact h.exclusive hsel

theorem waiting_cancelWaiter : (state.cancelWaiter jobId).Waiting j ↔ j ≠ jobId ∧ state.Waiting j := by
  have hwait : (state.cancelWaiter jobId).Waiting j ↔ _ := @waiting_modifyJob
    (state.dequeue jobId) jobId (fun job => { job with waiting := false }) false (fun _ => rfl) j
  rw [hwait]
  split
  · rename_i hj; exact iff_of_false nofun fun hand => hand.1 hj
  · rename_i hj; rw [and_iff_right hj]; rfl

theorem Queued.cancelWaiter (h : state.Queued) : (state.cancelWaiter jobId).Queued := by
  have hform : state.cancelWaiter jobId = { state.dequeue jobId with
      jobs := (state.cancelWaiter jobId).jobs } := by
    unfold HistoricalFairCommitState.cancelWaiter modifyJob
    split <;> rfl
  rw [hform]
  refine h.dequeue ?_ fun _ => ?_
  · exact registered_modifyJob h.registered fun _ => rfl
  · rw [← hform]; exact waiting_cancelWaiter

theorem waiting_dropRegistration :
    (state.dropRegistration jobId).Waiting j ↔ j ≠ jobId ∧ state.Waiting j := by
  unfold Waiting dropRegistration
  rw [get?_erase_ite]
  split
  · rename_i hj; exact iff_of_false nofun fun hand => hand.1 hj
  · rename_i hj; rw [and_iff_right hj]

theorem Queued.dropRegistration (h : state.Queued) : (state.dropRegistration jobId).Queued := by
  refine h.dequeue (fun j job hj => ?_) fun j => waiting_dropRegistration
  obtain ⟨-, hj⟩ := erase_cases hj; exact h.registered j job hj

theorem waiting_release {charged : Nat} :
    (state.release jobId charged).Waiting j ↔ state.Waiting j :=
  waiting_modifyJob_of_keeps (f := fun job =>
    { job with deficitBytes := satI128 (job.deficitBytes - charged) }) fun _ => rfl

theorem Queued.release (h : state.Queued) {charged : Nat} :
    (state.release jobId charged).Queued := by
  constructor
  · exact registered_modifyJob h.registered fun _ => rfl
  · intro j
    rw [waiting_release, h.waiting]
    simp only [HistoricalFairCommitState.release, modifyJob_order, modifyJob_selected]
  · simp only [HistoricalFairCommitState.release, modifyJob_order]; exact h.nodup
  · intro j hj
    simp only [HistoricalFairCommitState.release, modifyJob_order, modifyJob_selected] at hj ⊢
    exact h.apart j hj
  · exact fun _ => rfl

theorem Queued.select (h : state.Queued) (hact : state.active = false) (hnone : state.selected = none)
    (hsel : Selected state jobId state') : Queued { state' with selected := some jobId } := by
  have hmem : ∀ j, j ∈ state'.order ↔ j ≠ jobId ∧ j ∈ state.order := by
    intro j; rw [hsel.order.mem_iff, h.nodup.mem_erase_iff]
  constructor
  · exact hsel.earned.registered h.registered
  · intro j
    have hwait : HistoricalFairCommitState.Waiting { state' with selected := some jobId } j ↔
        state.Waiting j := hsel.earned.waiting
    rw [hwait, h.waiting, hnone, or_iff_left nofun, hmem, some.injEq]
    by_cases hj : j = jobId
    · subst hj; exact iff_of_true hsel.mem (.inr rfl)
    · rw [and_iff_right hj, or_iff_left (Ne.symm hj)]
  · exact hsel.order.nodup_iff.2 (h.nodup.erase _)
  · rintro j ⟨⟩ hj; exact ((hmem jobId).1 hj).1 rfl
  · exact fun _ => hsel.earned.active.trans hact

end HistoricalFairCommitState

namespace FairScheduler

variable {quantumBytes : Nat} {s s' : FairScheduler} {jobId : String}

def MayPass (s : FairScheduler) (jobId : String) : Prop :=
  s.state.active = false ∧ (s.state.selected = none ∨ s.state.selected = some jobId)

structure Inv (s : FairScheduler) : Prop where
  permits : s.permits.length = if s.state.active then 1 else 0
  queued : s.state.Queued
  live : ∀ jobId ∈ s.waiters.table, s.state.Waiting jobId
  watched : s.waiters.Watched s.MayPass

theorem inv_new : Inv FairScheduler.new :=
  ⟨rfl, HistoricalFairCommitState.queued_new, fun _ h => absurd h not_mem_empty, Waiters.watched_none⟩

variable {wake : Bool}

variable {state : HistoricalFairCommitState}

theorem select_cases (hq : 0 < quantumBytes) {fuel : Nat} (h : s.state.Queued)
    (hs : select quantumBytes fuel s.state = some (state, wake)) : (state = s.state ∧ wake = false ∧
      (s.state.active = false → s.state.selected = none → s.state.order = [])) ∨
    (s.state.active = false ∧ s.state.selected = none ∧ wake = true ∧
      ∃ jobId state', HistoricalFairCommitState.Selected s.state jobId state' ∧
        state = { state' with selected := some jobId }) := by
  unfold select at hs
  split at hs
  · rename_i hfree
    rw [Bool.and_eq_true, Bool.not_eq_eq_eq_not, Bool.not_true, isNone_iff_eq_none] at hfree
    obtain ⟨⟨_, state'⟩, hres, heq⟩ := map_eq_some_iff.1 hs
    rcases HistoricalFairCommitState.selectFairCommitJob_sound hq h.ordered hres with
      ⟨rfl, hempty, rfl⟩ | ⟨jobId, rfl, hsel⟩
    · cases heq; exact .inl ⟨by rw [← hfree.2], rfl, fun _ _ => hempty⟩
    · cases heq; exact .inr ⟨hfree.1, hfree.2, rfl, jobId, state', hsel, rfl⟩
  · rename_i hfree
    cases hs
    refine .inl ⟨rfl, rfl, fun hact hselected => absurd ?_ hfree⟩
    rw [hact, hselected]; rfl

theorem Inv.select (hq : 0 < quantumBytes) {fuel : Nat} (h : s.Inv) (hj : s.state.Waiting jobId)
    (hs : FairScheduler.select quantumBytes fuel s.state = some (state, wake)) :
    state.Queued ∧ state.active = s.state.active ∧ (∀ j, state.Waiting j ↔ s.state.Waiting j) ∧
      state.jobs.size = s.state.jobs.size ∧
      (state.active = false → state.selected ≠ none) ∧ (wake = false → state = s.state) := by
  rcases select_cases hq h.queued hs with
    ⟨rfl, rfl, hempty⟩ | ⟨hact, hnone, rfl, j, state', hsel, rfl⟩
  · refine ⟨h.queued, rfl, fun _ => Iff.rfl, rfl, fun hact hnone => ?_, fun _ => rfl⟩
    have hin := (h.queued.waiting jobId).1 hj
    rw [hempty hact hnone, hnone] at hin
    rcases hin with hin | hin
    · cases hin
    · cases hin
  · exact ⟨h.queued.select hact hnone hsel, hsel.earned.active, fun _ => hsel.earned.waiting,
      hsel.earned.size, fun _ => nofun, nofun⟩

theorem Inv.active_eq_false (h : s.Inv) (hp : s.permits = []) : s.state.active = false := by
  have hlen := h.permits
  rw [hp] at hlen
  cases hact : s.state.active with
  | false => rfl
  | true => rw [hact] at hlen; cases hlen

variable {waiters : Waiters String}

theorem mem_insert_of_get? {stage stage' : Wait} (h : waiters.table[jobId]? = some stage)
    {j : String} : j ∈ waiters.table.insert jobId stage' ↔ j ∈ waiters.table := by
  rw [Table.mem_insert_iff]; exact or_iff_right_of_imp fun hj => hj ▸ Table.mem_of_getElem? h

theorem Inv.withWaiters (h : s.Inv) (hkeys : ∀ j : String, j ∈ waiters.table → j ∈ s.waiters.table)
    (hwatched : waiters.Watched s.MayPass) : Inv { s with waiters } :=
  ⟨h.permits, h.queued, fun j hj => h.live j (hkeys j hj), hwatched⟩

theorem Inv.claim (h : s.Inv) (hqueued : state.Queued) (hact : state.active = s.state.active)
    (hwaiting : ∀ j, state.Waiting j ↔ s.state.Waiting j) (hfree : state.active = false)
    (hsel : state.selected = some jobId) :
    Inv ⟨state.claim jobId, s.waiters.leave jobId, jobId :: s.permits⟩ where
  permits := by
    have hlen := h.permits
    rw [← hact, hfree] at hlen; rw [length_cons, hlen]; rfl
  queued := hqueued.claim hsel
  live j hj := by
    obtain ⟨hne, hin⟩ := mem_erase_iff.1 hj
    rw [(hqueued.claim hsel).waiting]
    left
    have hwait := (hqueued.waiting j).1 ((hwaiting j).2 (h.live j hin))
    rw [hsel, some.injEq, or_iff_left (Ne.symm hne)] at hwait
    rwa [HistoricalFairCommitState.claim, HistoricalFairCommitState.modifyJob_order]
  watched := h.watched.leave fun _ _ hpass => absurd hpass.1 nofun

theorem Inv.wait {state : HistoricalFairCommitState} {stage : Wait} {wake : Bool} (h : s.Inv)
    (hj : s.waiters.table[jobId]? = some stage) (hqueued : state.Queued)
    (hact : state.active = s.state.active) (hwait : ∀ j, state.Waiting j ↔ s.state.Waiting j)
    (hchosen : state.active = false → state.selected ≠ none)
    (hsame : wake = false → state = s.state)
    (hfree : ¬ (!state.active && state.selected = some jobId) = true) :
    Inv ⟨state, if wake then (s.waiters.sleep jobId stage).notify else s.waiters.sleep jobId stage,
      s.permits⟩ where
  permits := by rw [hact]; exact h.permits
  queued := hqueued
  live j hin := by
    rw [hwait]
    refine h.live j ?_
    split at hin <;> exact (mem_insert_of_get? hj).1 hin
  watched := by
    cases wake with
    | true => exact Waiters.watched_notify
    | false =>
      rw [hsame rfl] at hfree hchosen ⊢
      refine h.watched.sleep ?_
      rintro ⟨hinactive, hnone | hsel⟩
      · exact hchosen hinactive hnone
      · rw [hinactive, hsel] at hfree; exact hfree (by simp)

theorem Inv.remove (h : s.Inv) (hqueued : state.Queued) (hact : state.active = s.state.active)
    (hwait : ∀ j, state.Waiting j ↔ j ≠ jobId ∧ s.state.Waiting j)
    (hkeys : ∀ j : String, j ∈ waiters.table → j ≠ jobId ∧ j ∈ s.waiters.table) :
    Inv ⟨state, waiters.notify, s.permits⟩ where
  permits := by rw [hact]; exact h.permits
  queued := hqueued
  live j hin := (hwait j).2 ⟨(hkeys j hin).1, h.live j (hkeys j hin).2⟩
  watched := Waiters.watched_notify

theorem Inv.register (h : s.Inv)
    (hreg : ¬ ((s.state.jobs[jobId]?).getD ⟨0, false, false⟩).registered = true) :
    Inv { s with state := { s.state with
      jobs := s.state.jobs.insert jobId
        { (s.state.jobs[jobId]?).getD ⟨0, false, false⟩ with registered := true } } } := by
  -- Every job that is there is registered, so this one is new.
  have hnone : s.state.jobs[jobId]? = none := by
    cases hj : s.state.jobs[jobId]? with
    | none => rfl
    | some job =>
      rw [hj] at hreg; exact absurd (h.queued.registered jobId job hj) hreg
  have hwait : ∀ j, HistoricalFairCommitState.Waiting { s.state with
      jobs := s.state.jobs.insert jobId
        { (s.state.jobs[jobId]?).getD ⟨0, false, false⟩ with registered := true } } j ↔
      s.state.Waiting j := by
    intro j
    unfold HistoricalFairCommitState.Waiting
    rw [get?_insert_ite]
    split
    · rename_i hj; rw [hj, hnone]; simp
    · rfl
  refine ⟨h.permits, ⟨?_, ?_, h.queued.nodup, h.queued.apart, h.queued.exclusive⟩, ?_, h.watched⟩
  · intro j job hj
    rcases insert_cases hj with ⟨-, rfl⟩ | ⟨-, hj⟩
    · rfl
    · exact h.queued.registered j job hj
  · intro j; rw [hwait]; exact h.queued.waiting j
  · intro j hj; rw [hwait]; exact h.live j hj

theorem Inv.acquire (h : s.Inv) {job : HistoricalFairCommitJob}
    (hj : s.state.jobs[jobId]? = some job) (hwait : job.waiting = false) :
    Inv { s with state := s.state.enqueue jobId, waiters := s.waiters.enter jobId } := by
  have hnot : ¬ s.state.Waiting jobId := by
    rintro ⟨_, hj', hw⟩
    rw [hj, some.injEq] at hj'; rw [← hj', hwait] at hw; cases hw
  have hqueued := h.queued.enqueue (mem_of_getElem? hj) hnot
  have hact : (s.state.enqueue jobId).active = s.state.active :=
    HistoricalFairCommitState.modifyJob_active
  have hsel : (s.state.enqueue jobId).selected = s.state.selected :=
    HistoricalFairCommitState.modifyJob_selected
  refine ⟨by rw [hact]; exact h.permits, hqueued, fun j hin => ?_, ?_⟩
  · rw [hqueued.waiting]
    have horder : (s.state.enqueue jobId).order = s.state.order ++ [jobId] := rfl
    rw [horder, hsel, mem_append, mem_singleton]
    rcases mem_insert_iff.1 hin with rfl | hin
    · exact .inl (.inr rfl)
    · exact ((h.queued.waiting j).1 (h.live j hin)).imp_left .inl
  · refine h.watched.enter fun _ _ hpass => ?_
    unfold MayPass at *; rwa [hact, hsel] at hpass

theorem Inv.release (h : s.Inv) (hj : jobId ∈ s.permits) {charged : Nat} :
    Inv ⟨s.state.release jobId charged, s.waiters.notify, s.permits.erase jobId⟩ where
  permits := by
    have hpos := length_pos_of_mem hj
    have hlen := h.permits
    rw [length_erase_of_mem hj]
    split at hlen
    · rw [hlen]; rfl
    · omega
  queued := h.queued.release
  live j hin := HistoricalFairCommitState.waiting_release.2 (h.live j hin)
  watched := Waiters.watched_notify

theorem Inv.step (hq : 0 < quantumBytes) (h : s.Inv) {event : FairEvent}
    (hs : s.step quantumBytes event = some s') : s'.Inv := by
  cases event with
  | register jobId =>
    simp only [FairScheduler.step] at hs
    split at hs
    · cases hs; exact h
    · cases hs; exact h.register ‹_›
  | unregister jobId =>
    simp only [FairScheduler.step] at hs
    split at hs
    · rename_i hguard
      cases hs
      exact h.remove h.queued.dropRegistration rfl
        (fun _ => HistoricalFairCommitState.waiting_dropRegistration)
        fun j hin => ⟨fun heq => hguard.2.1 (heq ▸ hin), hin⟩
    · cases hs
  | acquire jobId =>
    simp only [FairScheduler.step] at hs
    split at hs
    · cases hs
    · split at hs
      · cases hs; exact h
      · rename_i job hj
        split at hs
        · cases hs; exact h
        · rename_i hrefused
          rw [Bool.or_eq_true, not_or] at hrefused
          cases hs; exact h.acquire hj (Bool.not_eq_true _ ▸ hrefused.2)
  | listen jobId =>
    simp only [FairScheduler.step] at hs
    split at hs
    · rename_i hstg
      cases hs; exact h.withWaiters (fun j => (mem_insert_of_get? hstg).1) h.watched.listen
    · cases hs
  | check jobId fuel =>
    simp only [FairScheduler.step] at hs
    split at hs
    · rename_i notif hstg
      obtain ⟨⟨state, _⟩, hselect, heq⟩ := map_eq_some_iff.1 hs
      obtain ⟨hqueued, hact, hwait, -, hchosen, hsame⟩ :=
        h.select hq (h.live jobId (mem_of_getElem? hstg)) hselect
      split at heq
      · rename_i hfree
        rw [Bool.and_eq_true, Bool.not_eq_eq_eq_not, Bool.not_true, decide_eq_true_iff] at hfree
        cases heq; exact h.claim hqueued hact hwait hfree.1 hfree.2
      · rename_i hfree; cases heq; exact h.wait hstg hqueued hact hwait hchosen hsame hfree
    · cases hs
  | cancel jobId =>
    simp only [FairScheduler.step] at hs
    have hcancel : Inv ⟨s.state.cancelWaiter jobId, (s.waiters.leave jobId).notify, s.permits⟩ :=
      h.remove h.queued.cancelWaiter HistoricalFairCommitState.modifyJob_active
        (fun _ => HistoricalFairCommitState.waiting_cancelWaiter) fun j => mem_erase_iff.1
    split at hs
    · cases hs; exact hcancel
    · cases hs; exact hcancel
    · cases hs
  | abandon jobId =>
    simp only [FairScheduler.step] at hs
    have habandon : Inv { s with waiters := s.waiters.leave jobId } :=
      h.withWaiters (fun j hin => (mem_erase_iff.1 hin).2) (h.watched.leave fun _ _ hpass => hpass)
    split at hs
    · cases hs; exact habandon
    · cases hs; exact habandon
    · cases hs
  | release jobId committedBytes =>
    simp only [FairScheduler.step] at hs
    split at hs
    · cases hs; exact h.release ‹_›
    · cases hs
  | deliver =>
    simp only [FairScheduler.step] at hs
    split at hs
    · cases hs; exact h.withWaiters (fun j => mem_map.1) Waiters.watched_deliver
    · cases hs

theorem inv_run (hq : 0 < quantumBytes) {evs : List FairEvent} :
    ∀ {s : FairScheduler}, s.Inv → (s.run quantumBytes evs).Inv := by
  induction evs with
  | nil => exact fun h => h
  | cons event evs ih =>
    intro s h
    have hstep : ((s.step quantumBytes event).getD s).Inv := by
      cases hs : s.step quantumBytes event with
      | none => exact h
      | some s' => exact h.step hq hs
    exact ih hstep

/-- The steps the calls take by themselves, and the end of a drop that has begun: the registration
goes after the call that waited. -/
def Internal (s : FairScheduler) : FairEvent → Prop
  | .listen _ | .check .. | .deliver => True
  | .unregister jobId => s.state.Waiting jobId
  | .register _ | .acquire _ | .cancel _ | .abandon _ | .release .. => False

def Next (quantumBytes : Nat) (s s' : FairScheduler) : Prop :=
  ∃ event, s.Internal event ∧ s.step quantumBytes event = some s'

/-- Notifications still to be sent, next to the work of the calls: one for a selection, and those of
the registrations that go. -/
def work (s : FairScheduler) : Nat :=
  s.waiters.work + (2 * s.waiters.table.size + 1) *
    ((if s.state.selected = none then 1 else 0) + 3 * s.state.jobs.size)

theorem Inv.exists_next_of_awake (hq : 0 < quantumBytes) (h : s.Inv) {stage : Wait}
    (hj : s.waiters.table[jobId]? = some stage) (hpass : s.MayPass jobId) :
    ∃ s', Next quantumBytes s s' := by
  by_cases hpend : 0 < s.waiters.pending
  · exact ⟨_, .deliver, trivial, if_pos hpend⟩
  · have hawake := (h.watched.progress hj hpass).resolve_left hpend
    cases stage with
    | asleep => exact absurd rfl hawake
    | polling => exact ⟨_, .listen jobId, trivial, if_pos hj⟩
    | checking notified =>
      -- With enough fuel the selection ends.
      have hselect : ∃ fuel out, FairScheduler.select quantumBytes fuel s.state = some out := by
        unfold FairScheduler.select
        by_cases hfree : (!s.state.active && s.state.selected.isNone) = true
        · have hwait := (h.queued.waiting jobId).1 (h.live jobId (mem_of_getElem? hj))
          rw [Bool.and_eq_true, isNone_iff_eq_none] at hfree
          rw [hfree.2, or_iff_left nofun] at hwait
          obtain ⟨j, state', hres, -⟩ := HistoricalFairCommitState.selectFairCommitJob_complete
            hq h.queued.ordered (ne_nil_of_mem hwait) (Nat.lt_succ_self _)
          refine ⟨s.state.debt + 1, ({ state' with selected := some j }, true), ?_⟩
          rw [if_pos (by rw [hfree.1, hfree.2]; rfl), hres]; rfl
        · exact ⟨0, _, if_neg hfree⟩
      obtain ⟨fuel, ⟨state, _⟩, hselect⟩ := hselect
      have hstep : (s.step quantumBytes (.check jobId fuel)).isSome = true := by
        simp only [FairScheduler.step, hj, hselect, map_some, isSome_some]
      obtain ⟨s', hs'⟩ := isSome_iff_exists.1 hstep; exact ⟨s', .check jobId fuel, trivial, hs'⟩

theorem Inv.exists_next (hq : 0 < quantumBytes) (h : s.Inv) (hp : s.permits = [])
    (hj : jobId ∈ s.waiters.table) : ∃ s', Next quantumBytes s s' := by
  have hact := h.active_eq_false hp
  cases hsel : s.state.selected with
  | none =>
    obtain ⟨stage, hstage⟩ :=
      isSome_iff_exists.1 (mem_iff_isSome_getElem?.1 hj)
    exact h.exists_next_of_awake hq hstage ⟨hact, .inl hsel⟩
  | some selected =>
    by_cases hlive : selected ∈ s.waiters.table
    · obtain ⟨stage, hstage⟩ :=
        isSome_iff_exists.1 (mem_iff_isSome_getElem?.1 hlive)
      exact h.exists_next_of_awake hq hstage ⟨hact, .inr hsel⟩
    · -- The selected job's run is gone, and its registration goes too.
      have hwait := (h.queued.waiting selected).2 (.inr hsel)
      obtain ⟨_, hjob, -⟩ := hwait
      refine ⟨_, .unregister selected, (h.queued.waiting selected).2 (.inr hsel), if_pos ?_⟩
      exact ⟨mem_of_getElem? hjob, hlive, by rw [hp]; exact not_mem_nil⟩

theorem handover_lt {W J a b : Nat} (hW : 0 < W) (hb : b ≤ 1) :
    W + W * (b + 3 * J) < W * (a + 3 * (J + 1)) :=
  calc W + W * (b + 3 * J) = W * (1 + (b + 3 * J)) := by
        rw [Nat.mul_add W 1, Nat.mul_one]
    _ < W * (a + 3 * (J + 1)) := Nat.mul_lt_mul_of_pos_left (by omega) hW

theorem Inv.work_lt_of_next (hq : 0 < quantumBytes) (h : s.Inv) (hs : Next quantumBytes s s') :
    s'.permits ≠ [] ∨ ((∀ j ∈ s.waiters.table, j ∈ s'.waiters.table) ∧ s'.work < s.work) := by
  obtain ⟨event, hinternal, hs⟩ := hs
  cases event with
  | register | acquire | cancel | abandon | release => cases hinternal
  | unregister jobId =>
    simp only [FairScheduler.step] at hs
    split at hs
    · cases hs
      refine .inr ⟨fun j hj => hj, ?_⟩
      obtain ⟨_, hjob, -⟩ := hinternal
      have hsize := size_of_get? hjob
      have hlt := handover_lt (W := 2 * s.waiters.table.size + 1)
        (J := (s.state.dropRegistration jobId).jobs.size)
        (a := if s.state.selected = none then 1 else 0)
        (b := if (s.state.dropRegistration jobId).selected = none then 1 else 0)
        (Nat.succ_pos _) (by split <;> decide)
      unfold work
      rw [Waiters.work_notify, hsize, Nat.add_assoc]; exact Nat.add_lt_add_left hlt _
    · cases hs
  | listen jobId =>
    simp only [FairScheduler.step] at hs
    split at hs
    · rename_i hstg
      cases hs
      refine .inr ⟨fun j => (mem_insert_of_get? hstg).2, ?_⟩
      have hlt := Waiters.work_listen_lt hstg
      unfold work
      rw [Waiters.listen, Waiters.size_insert_of_get? hstg]; exact Nat.add_lt_add_right hlt _
    · cases hs
  | check jobId fuel =>
    simp only [FairScheduler.step] at hs
    split at hs
    · rename_i notif hstg
      obtain ⟨⟨state, _⟩, hselect, heq⟩ := map_eq_some_iff.1 hs
      split at heq
      · cases heq; exact .inl (cons_ne_nil _ _)
      · cases heq
        refine .inr ⟨fun j hj => ?_, ?_⟩
        · split <;> exact (mem_insert_of_get? hstg).2 hj
        · have hlt := Waiters.work_sleep_lt hstg
          have hsize := @Waiters.size_insert_of_get? _ _ _ _ _ _ (Wait.checking notif).sleep hstg
          rcases select_cases hq h.queued hselect with
            ⟨rfl, rfl, -⟩ | ⟨-, hnone, rfl, j, state', hsel, rfl⟩
          · unfold work
            simp only [Bool.false_eq_true, if_false]
            rw [Waiters.sleep] at hlt ⊢; rw [hsize]; exact Nat.add_lt_add_right hlt _
          · -- The notification is the one the free slot stood for.
            unfold work
            simp only [if_true, hnone, reduceCtorEq, if_false, Nat.zero_add]
            rw [Waiters.work_notify]
            rw [Waiters.sleep] at hlt ⊢
            rw [Waiters.notify]; rw [hsize, hsel.earned.size, Nat.mul_add, Nat.mul_one]; omega
    · cases hs
  | deliver =>
    simp only [FairScheduler.step] at hs
    split at hs
    · rename_i hpend
      cases hs
      refine .inr ⟨fun j => mem_map.2, ?_⟩
      have hlt := Waiters.work_deliver_lt hpend
      unfold work; rw [Waiters.size_deliver]; exact Nat.add_lt_add_right hlt _
    · cases hs

theorem Inv.inevitably_granted (hq : 0 < quantumBytes) (h : s.Inv) (hj : jobId ∈ s.waiters.table) :
    Inevitably (Next quantumBytes) (fun s => s.permits ≠ []) s := by
  refine Inevitably.of_measure (P := fun s => s.Inv ∧ jobId ∈ s.waiters.table) work
    (fun s hP hgoal => hP.1.exists_next hq (not_not.1 hgoal) hP.2) (fun s _ hP _ hs => ?_) ⟨h, hj⟩
  rcases hP.1.work_lt_of_next hq hs with hgranted | ⟨hkeys, hlt⟩
  · exact .inl hgranted
  · obtain ⟨_, -, hevent⟩ := hs; exact .inr ⟨⟨hP.1.step hq hevent, hkeys jobId hP.2⟩, hlt⟩

def SelectsWaiting (quantumBytes : Nat) (state : HistoricalFairCommitState) : Prop :=
  ∃ enough, ∀ fuel ≥ enough, ∃ jobId state', state.Waiting jobId ∧
    state.selectFairCommitJob quantumBytes fuel = some (some jobId, state')

structure Fair (quantumBytes : Nat) (s : FairScheduler) : Prop where
  onePermit : s.permits.length ≤ 1
  active : s.state.active = true ↔ s.permits ≠ []
  queued : ∀ jobId, s.state.Waiting jobId → (s.state.selected = some jobId ∧
    s.state.order.count jobId = 0) ∨ (s.state.selected ≠ some jobId ∧ s.state.order.count jobId = 1)
  order : ∀ jobId ∈ s.state.order, s.state.Waiting jobId
  selected : ∀ jobId, s.state.selected = some jobId → ∃ job, s.state.jobs[jobId]? = some job ∧
    job.registered = true ∧ job.waiting = true
  selection : (∃ jobId, s.state.Waiting jobId) → s.permits = [] →
    (∃ jobId, s.state.selected = some jobId) ∨ SelectsWaiting quantumBytes s.state
  handedOn : ∀ (jobId : String) (s' : FairScheduler), (s.step quantumBytes (.cancel jobId) =
    some s' ∨ s.step quantumBytes (.unregister jobId) = some s') → s'.state.selected ≠ some jobId ∧
    jobId ∉ s'.state.order ∧ ∀ j, s'.state.Waiting j ↔ j ≠ jobId ∧ s.state.Waiting j
  progress : ∀ jobId ∈ s.waiters.table, Inevitably (Next quantumBytes) (fun s => s.permits ≠ []) s

theorem Inv.fair (hq : 0 < quantumBytes) (h : s.Inv) : s.Fair quantumBytes where
  onePermit := by
    rw [h.permits]
    split <;> decide
  active := by
    have hlen := h.permits
    cases hact : s.state.active with
    | false =>
      rw [hact] at hlen; exact iff_of_false nofun fun hp => hp (length_eq_zero_iff.1 hlen)
    | true =>
      rw [hact] at hlen
      refine iff_of_true rfl fun hp => ?_
      rw [hp] at hlen; cases hlen
  queued jobId hwait := by
    by_cases hsel : s.state.selected = some jobId
    · exact .inl ⟨hsel, count_eq_zero.2 (h.queued.apart jobId hsel)⟩
    · have hin := ((h.queued.waiting jobId).1 hwait).resolve_right hsel
      exact .inr ⟨hsel, count_eq_one_of_mem h.queued.nodup hin⟩
  order jobId hin := (h.queued.waiting jobId).2 (.inl hin)
  selected jobId hsel := by
    obtain ⟨job, hj, hwait⟩ := (h.queued.waiting jobId).2 (.inr hsel)
    exact ⟨job, hj, h.queued.registered jobId job hj, hwait⟩
  selection := by
    rintro ⟨jobId, hwait⟩ hp
    cases hsel : s.state.selected with
    | some selected => exact .inl ⟨selected, rfl⟩
    | none =>
      have hin := (h.queued.waiting jobId).1 hwait
      rw [hsel, or_iff_left nofun] at hin
      refine .inr ⟨s.state.debt + 1, fun _ hfuel => ?_⟩
      obtain ⟨j, state', hres, hchosen⟩ := HistoricalFairCommitState.selectFairCommitJob_complete
        hq h.queued.ordered (ne_nil_of_mem hin) hfuel
      exact ⟨j, state', h.queued.ordered.waiting j hchosen.mem, hres⟩
  handedOn jobId s' hs := by
    -- Either way the job is taken out of the selection, the order and the waiting jobs.
    have hgone : ∀ state : HistoricalFairCommitState, state.Queued →
        (∀ j, state.Waiting j ↔ j ≠ jobId ∧ s.state.Waiting j) → state.selected ≠ some jobId ∧
        jobId ∉ state.order ∧ ∀ j, state.Waiting j ↔ j ≠ jobId ∧ s.state.Waiting j := by
      intro state hqueued hwaiting
      have hnot : ¬ state.Waiting jobId := fun hw => ((hwaiting jobId).1 hw).1 rfl
      rw [hqueued.waiting, not_or] at hnot; exact ⟨hnot.2, hnot.1, hwaiting⟩
    rcases hs with hs | hs
    · simp only [FairScheduler.step] at hs
      have hcancel := hgone (s.state.cancelWaiter jobId) h.queued.cancelWaiter
        fun _ => HistoricalFairCommitState.waiting_cancelWaiter
      split at hs
      · cases hs; exact hcancel
      · cases hs; exact hcancel
      · cases hs
    · simp only [FairScheduler.step] at hs
      split at hs
      · cases hs
        exact hgone _ h.queued.dropRegistration
          fun _ => HistoricalFairCommitState.waiting_dropRegistration
      · cases hs
  progress jobId hj := h.inevitably_granted hq hj

/-- However jobs register, ask for turns, are cancelled or dropped, and commit. -/
theorem run_fair (hq : 0 < quantumBytes) (events : List FairEvent) :
    (FairScheduler.new.run quantumBytes events).Fair quantumBytes :=
  (inv_run hq inv_new).fair hq

/-- The node's scheduler, with one job that was dropped while it waited behind another. -/
theorem run_fair_node : (FairScheduler.new.run historicalFairCommitQuantumBytes
    [.register "a", .register "b", .acquire "a", .listen "a", .check "a" 2, .acquire "b",
      .listen "b", .check "b" 1, .abandon "b", .release "a" (some 1), .unregister "b"]).Fair
    historicalFairCommitQuantumBytes :=
  run_fair (by decide) _

end FairScheduler

end Leani.Turns
