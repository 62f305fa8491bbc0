import Leani.Turns.FairCommits

/-!
# Credit of the fair commit scheduler

A job earns one quantum whenever it is selected and is charged what it commits, so a job that
commits little keeps what is left. The credit puts it ahead of nobody: it goes to the end of the
order after each turn, and a job in front of it earns a quantum before it is selected again.
-/

namespace Leani.Turns

open Library Std List Option Table HistoricalFairCommitState

namespace HistoricalFairCommitState

variable {state state' : HistoricalFairCommitState} {jobId : String} {quantumBytes fuel : Nat}

def deficitOf (state : HistoricalFairCommitState) (jobId : String) : Int :=
  (state.jobs[jobId]?).elim 0 (·.deficitBytes)

def earn (quantumBytes : Nat) (state : HistoricalFairCommitState) (jobId : String)
    (deficit : Int) (registered : Bool) (order : List String) : HistoricalFairCommitState :=
  { state with
    order
    jobs := state.jobs.insert jobId ⟨satI128 (deficit + quantumBytes), registered, true⟩ }

variable {deficit : Int} {registered : Bool} {order : List String}

theorem deficitOf_earn (j : String) :
    (state.earn quantumBytes jobId deficit registered order).deficitOf j =
      if j = jobId then satI128 (deficit + quantumBytes) else state.deficitOf j := by
  simp only [deficitOf, earn, get?_insert_ite]
  split <;> rfl

theorem debtOf_eq (j : String) : state.debtOf j = (-state.deficitOf j).toNat := by
  unfold debtOf deficitOf
  cases state.jobs[j]? <;> rfl

theorem Ordered.rotate (h : state.Ordered) (horder : state.order = jobId :: order)
    (hjob : state.jobs[jobId]? = some ⟨deficit, registered, true⟩) :
    (state.earn quantumBytes jobId deficit registered (order ++ [jobId])).Ordered := by
  have hearned : Earned state
      (state.earn quantumBytes jobId deficit registered (order ++ [jobId])) := earned_insert hjob
  have hrotate : (order ++ [jobId]).Perm state.order := by
    rw [horder]; exact perm_append_singleton jobId order
  exact ⟨fun j hj => hearned.waiting.2 (h.waiting j (hrotate.mem_iff.1 hj)),
    hrotate.nodup_iff.2 h.nodup⟩

def Rotates (quantumBytes : Nat) (P : HistoricalFairCommitState → Prop) : Prop :=
  ∀ (state : HistoricalFairCommitState) (jobId : String) (order : List String)
    (deficit : Int) (registered : Bool), P state → state.order = jobId :: order →
    state.jobs[jobId]? = some ⟨deficit, registered, true⟩ → satI128 (deficit + quantumBytes) ≤
    0 → P (state.earn quantumBytes jobId deficit registered (order ++ [jobId]))

def Front (quantumBytes : Nat) (P : HistoricalFairCommitState → Prop) (jobId : String)
    (state' : HistoricalFairCommitState) : Prop :=
  ∃ (state : HistoricalFairCommitState)
    (order : List String) (deficit : Int) (registered : Bool), P state ∧ state.Ordered ∧
    state.order = jobId :: order ∧ state.jobs[jobId]? = some ⟨deficit, registered, true⟩ ∧ 0 <
    satI128 (deficit + quantumBytes) ∧ state' = state.earn quantumBytes jobId deficit registered order

variable {P : HistoricalFairCommitState → Prop}

theorem selectPass_rotates (hP : Rotates quantumBytes P) {cands : Nat} :
    ∀ {state : HistoricalFairCommitState}, state.Ordered → P state → cands ≤ state.order.length →
      (∃ jobId state', selectPass quantumBytes cands state = (some (some jobId), state') ∧
        Front quantumBytes P jobId state') ∨
      ∃ state', selectPass quantumBytes cands state = (none, state') ∧ state'.Ordered ∧ P state' := by
  induction cands with
  | zero => exact fun {state} hord h _ => .inr ⟨state, rfl, hord, h⟩
  | succ cands ih =>
    intro state hord h hlen
    obtain ⟨jobId, order, horder⟩ : ∃ jobId order, state.order = jobId :: order :=
      exists_cons_of_ne_nil (ne_nil_of_length_pos (by omega))
    obtain ⟨⟨deficit, registered, _⟩, hjob, rfl⟩ :=
      hord.waiting jobId (horder ▸ mem_cons_self)
    rw [selectPass]
    simp only [horder, hjob, Bool.not_true, Bool.false_eq_true, if_false]
    split
    · rename_i hpositive
      exact .inl ⟨jobId, _, rfl, state, order, deficit, registered, h, hord, horder, hjob,
        hpositive, rfl⟩
    · rename_i hpositive
      refine ih (hord.rotate horder hjob)
        (hP state jobId order deficit registered h horder hjob (Int.not_lt.1 hpositive)) ?_
      rw [horder, length_cons] at hlen; rw [length_append, length_singleton]; omega

theorem selectFairCommitJob_rotates (hP : Rotates quantumBytes P) {fuel : Nat} :
    ∀ {state : HistoricalFairCommitState}, state.Ordered → P state →
      selectFairCommitJob quantumBytes fuel state = some (some jobId, state') →
      Front quantumBytes P jobId state' := by
  induction fuel with
  | zero => intro state _ _ h; cases h
  | succ fuel ih =>
    intro state hord hst h
    rw [selectFairCommitJob] at h
    split at h
    · cases h
    · rcases selectPass_rotates hP hord hst le_rfl with
        ⟨j, s, hpass, hfront⟩ | ⟨s, hpass, hpassed, hs⟩
      · rw [hpass] at h; cases h; exact hfront
      · rw [hpass] at h; exact ih hpassed hs h

theorem satI128_le {n : Int} : satI128 n ≤ max n 0 := by
  unfold satI128 i128Max i128Min; omega

theorem le_satI128 {n : Int} (h : satI128 n ≤ 0) : n ≤ satI128 n := by
  unfold satI128 i128Max i128Min at *; omega

theorem deficitOf_selectFairCommitJob (hord : state.Ordered)
    (h : selectFairCommitJob quantumBytes fuel state = some (some jobId, state')) (j : String) :
    state'.deficitOf j ≤ max (state.deficitOf j) 0 + if j = jobId then quantumBytes else 0 := by
  have hP : Rotates quantumBytes fun s => ∀ j, s.deficitOf j ≤ max (state.deficitOf j) 0 := by
    intro s jobId order deficit registered hs _ _ _ j
    rw [deficitOf_earn]
    split
    · omega
    · exact hs j
  obtain ⟨s, order, deficit, registered, hs, -, -, hjob, _, rfl⟩ :=
    selectFairCommitJob_rotates hP hord (fun j => le_max_left _ _) h
  rw [deficitOf_earn]
  split
  · rename_i hj
    have hdeficit : s.deficitOf j = deficit := by
      rw [hj, deficitOf, hjob, elim_some]
    have hbound := hs j
    have hsat := @satI128_le (deficit + quantumBytes); omega
  · have hbound := hs j; omega

def lead (order : List String) (job other : String) : Nat :=
  if job ∈ order.takeWhile (· ≠ other) then 1 else 0

variable {job other : String}

theorem lead_le_one : lead order job other ≤ 1 := by
  unfold lead
  split <;> decide

variable {order' : List String}

theorem takeWhile_append_of_mem (h : other ∈ order) :
    (order ++ order').takeWhile (· ≠ other) = order.takeWhile (· ≠ other) := by
  induction order with
  | nil => cases h
  | cons j order ih =>
    rw [cons_append]
    by_cases hj : j = other
    · simp [hj]
    · have hin := (mem_cons.1 h).resolve_left fun heq => hj heq.symm
      rw [takeWhile_cons_of_pos (by simpa using hj), takeWhile_cons_of_pos (by simpa using hj), ih hin]

theorem lead_append_of_mem
    (h : other ∈ order) : lead (order ++ order') job other = lead order job other := by
  rw [lead, takeWhile_append_of_mem h, lead]

theorem lead_cons_of_ne {j : String} (hother : j ≠ other)
    (hjob : j ≠ job) : lead (j :: order) job other = lead order job other := by
  rw [lead, takeWhile_cons_of_pos (by simpa using hother), lead]
  simp only [mem_cons, Ne.symm hjob, false_or]

theorem lead_cons_self (h : job ≠ other) : lead (job :: order) job other = 1 := by
  rw [lead, takeWhile_cons_of_pos (by simpa using h), if_pos mem_cons_self]

theorem lead_of_notMem (h : job ∉ order) : lead order job other = 0 := by
  rw [lead, if_neg fun hin => h ((takeWhile_sublist _).subset hin)]

theorem lead_filter {order : List String} {j job other : String} (hother : j ≠ other) :
    lead (order.filter (· ≠ j)) job other ≤ lead order job other := by
  induction order with
  | nil => exact le_rfl
  | cons i order ih =>
    by_cases hij : i = j
    · subst hij
      rw [filter_cons_of_neg (by simp)]
      by_cases hjob : i = job
      · subst hjob; rw [lead_of_notMem (by simp)]; exact Nat.zero_le _
      · rw [lead_cons_of_ne hother hjob]; exact ih
    · rw [filter_cons_of_pos (by simpa using hij)]
      by_cases hi : i = other
      · subst hi; simp [lead]
      · by_cases hjob : i = job
        · subst hjob; rw [lead_cons_self hi, lead_cons_self hi]
        · rw [lead_cons_of_ne hi hjob, lead_cons_of_ne hi hjob]; exact ih

def handicap (quantumBytes : Nat) (state : HistoricalFairCommitState) (job other : String) : Nat :=
  state.debtOf other + quantumBytes * lead state.order job other

theorem handicap_rotate (hne : job ≠ other) (horder : state.order = jobId :: order)
    (hin : other ∈ state.order) (hjob : state.jobs[jobId]? = some ⟨deficit, registered, true⟩)
    (hnodup : state.order.Nodup) (hdebt : satI128 (deficit + quantumBytes) ≤ 0) :
    (state.earn quantumBytes jobId deficit registered (order ++ [jobId])).handicap quantumBytes
      job other ≤ state.handicap quantumBytes job other := by
  unfold handicap
  rw [debtOf_eq, debtOf_eq, deficitOf_earn, horder]
  simp only [earn]
  by_cases hother : jobId = other
  · -- The other job earns a quantum, whatever stands ahead of it now.
    subst hother
    have hdeficit : state.deficitOf jobId = deficit := by rw [deficitOf, hjob, elim_some]
    have hlead : lead (order ++ [jobId]) job jobId ≤ 1 := lead_le_one
    have hmul := Nat.mul_le_mul_left quantumBytes hlead
    have hsat := le_satI128 hdebt; rw [if_pos rfl, hdeficit]; omega
  · have hin' : other ∈ order := by
      rw [horder] at hin; exact (mem_cons.1 hin).resolve_left fun heq => hother heq.symm
    rw [if_neg (Ne.symm hother), lead_append_of_mem hin']
    refine Nat.add_le_add_left (Nat.mul_le_mul_left _ ?_) _
    by_cases hsame : jobId = job
    · subst hsame
      rw [horder] at hnodup; rw [lead_of_notMem (nodup_cons.1 hnodup).1]; exact Nat.zero_le _
    · rw [lead_cons_of_ne hother hsame]

theorem handicap_selectFairCommitJob (hord : state.Ordered) (hin : other ∈ state.order)
    (hne : job ≠ other) (hother : jobId ≠ other) (h : selectFairCommitJob quantumBytes fuel state =
    some (some jobId, state')) : state'.handicap quantumBytes job other + (if jobId =
    job then quantumBytes else 0) ≤ state.handicap quantumBytes job other := by
  have hP : Rotates quantumBytes fun s => s.order.Nodup ∧ other ∈ s.order ∧
      s.handicap quantumBytes job other ≤ state.handicap quantumBytes job other := by
    intro s jobId order deficit registered hs horder hjob hdebt
    have hperm : (order ++ [jobId]).Perm s.order := by
      rw [horder]; exact perm_append_singleton jobId order
    exact ⟨hperm.nodup_iff.2 hs.1, hperm.mem_iff.2 hs.2.1,
      (handicap_rotate hne horder hs.2.1 hjob hs.1 hdebt).trans hs.2.2⟩
  obtain ⟨s, order, deficit, registered, ⟨hnodup, hs, hbound⟩, -, horder, hjob, -, rfl⟩ :=
    selectFairCommitJob_rotates hP hord ⟨hord.nodup, hin, le_rfl⟩ h
  refine Nat.le_trans ?_ hbound
  unfold handicap
  rw [debtOf_eq, debtOf_eq, deficitOf_earn, if_neg (Ne.symm hother), horder]
  simp only [earn]
  split
  · rename_i hsame
    subst hsame
    rw [horder] at hnodup; rw [lead_of_notMem (nodup_cons.1 hnodup).1, lead_cons_self hother]; omega
  · rename_i hsame; rw [lead_cons_of_ne hother hsame]; omega

theorem deficitOf_modifyJob {f : HistoricalFairCommitJob → HistoricalFairCommitJob}
    (hf : ∀ job, (f job).deficitBytes = job.deficitBytes) (j : String) :
    (state.modifyJob jobId f).deficitOf j = state.deficitOf j := by
  unfold deficitOf
  rw [get?_modifyJob]
  split
  · cases state.jobs[j]? with
    | none => rfl
    | some job => exact hf job
  · rfl

theorem deficitOf_release {charged : Nat} (j : String) :
    (j ≠ jobId → (state.release jobId charged).deficitOf j = state.deficitOf j) ∧
      (state.release jobId charged).deficitOf j ≤ max (state.deficitOf j) 0 := by
  have hget : (state.release jobId charged).jobs[j]? = if j = jobId then
      (state.jobs[j]?).map (fun job =>
        { job with deficitBytes := satI128 (job.deficitBytes - charged) })
      else state.jobs[j]? := get?_modifyJob j
  unfold deficitOf
  rw [hget]
  refine ⟨fun hne => by rw [if_neg hne], ?_⟩
  split
  · cases state.jobs[j]? with
    | none => exact le_max_right _ _
    | some job =>
      have hsat := @satI128_le (job.deficitBytes - charged)
      simp only [map_some, elim_some]; omega
  · exact le_max_left _ _

theorem deficitOf_dropRegistration (j : String) :
    (state.dropRegistration jobId).deficitOf j = if j = jobId then 0 else state.deficitOf j := by
  simp only [deficitOf, dropRegistration, get?_erase_ite]
  split <;> rfl

end HistoricalFairCommitState

namespace FairScheduler

variable {quantumBytes : Nat} {s s' : FairScheduler} {event : FairEvent}

def selection (quantumBytes : Nat) (s : FairScheduler) : FairEvent → Option (String × Int)
  | .check jobId fuel =>
    match s.waiters.table[jobId]? with
    | some (.checking _) =>
      if !s.state.active && s.state.selected.isNone then
        match s.state.selectFairCommitJob quantumBytes fuel with
        | some (some selected, state) => some (selected, state.deficitOf selected)
        | _ => none
      else none
    | _ => none
  | _ => none

inductive Moved (quantumBytes : Nat) (s s' : FairScheduler) : Option (String × Int) → Prop
  | kept (orders : List String) (deficits : ∀ j, s'.state.deficitOf j = s.state.deficitOf j)
    (order : s'.state.order = s.state.order ++ orders) : Moved quantumBytes s s' none
  | left (jobId : String) (deficits : ∀ j ≠ jobId, s'.state.deficitOf j = s.state.deficitOf j)
    (deficit : s'.state.deficitOf jobId ≤ max (s.state.deficitOf jobId) 0)
    (order : s'.state.order = s.state.order.filter (· ≠ jobId)) : Moved quantumBytes s s' none
  | charged (jobId : String) (permit : jobId ∈ s.permits)
    (deficits : ∀ j ≠ jobId, s'.state.deficitOf j = s.state.deficitOf j)
    (deficit : s'.state.deficitOf jobId ≤ max (s.state.deficitOf jobId) 0)
    (order : s'.state.order = s.state.order) : Moved quantumBytes s s' none
  | selected (fuel : Nat) (jobId : String) (state : HistoricalFairCommitState)
    (selected : s.state.selectFairCommitJob quantumBytes fuel = some (some jobId, state))
    (deficits : ∀ j, s'.state.deficitOf j = state.deficitOf j) (order : s'.state.order =
    state.order) : Moved quantumBytes s s' (some (jobId, state.deficitOf jobId))

theorem Moved.of_state (h : s'.state = s.state) : Moved quantumBytes s s' none :=
  .kept [] (fun _ => by rw [h]) (by rw [h, append_nil])

theorem selection_check (hq : 0 < quantumBytes) (h : s.Inv) {jobId : String} {fuel : Nat}
    {notif : Bool} {state : HistoricalFairCommitState} {wake : Bool} (hstg : s.waiters.table[jobId]? =
    some (.checking notif)) (hselect : select quantumBytes fuel s.state = some (state, wake)) :
    (selection quantumBytes s (.check jobId fuel) =
    none ∧ (∀ j, state.deficitOf j = s.state.deficitOf j) ∧ state.order = s.state.order) ∨
    ∃ selected state', s.state.selectFairCommitJob quantumBytes fuel = some (some selected, state') ∧
    selection quantumBytes s (.check jobId fuel) = some (selected, state'.deficitOf selected) ∧
    (∀ j, state.deficitOf j = state'.deficitOf j) ∧ state.order = state'.order := by
  unfold select at hselect
  split at hselect
  · rename_i hfree
    obtain ⟨⟨res, state'⟩, hres, heq⟩ := map_eq_some_iff.1 hselect
    cases heq
    cases res with
    | some selected =>
      refine .inr ⟨selected, state', hres, ?_, fun _ => rfl, rfl⟩
      simp only [selection, hstg, hfree, if_true, hres]
    | none =>
      refine .inl ⟨?_, ?_⟩
      · simp only [selection, hstg, hfree, if_true, hres]
      · rcases selectFairCommitJob_sound hq h.queued.ordered hres with
          ⟨-, -, rfl⟩ | ⟨_, hsome, -⟩
        · exact ⟨fun _ => rfl, rfl⟩
        · cases hsome
  · rename_i hfree
    cases hselect
    refine .inl ⟨?_, fun _ => rfl, rfl⟩
    simp only [selection, hstg, hfree, Bool.false_eq_true, if_false]

theorem moved_of_step (hq : 0 < quantumBytes) (h : s.Inv) (hs : s.step quantumBytes event = some s') :
    Moved quantumBytes s s' (selection quantumBytes s event) := by
  cases event with
  | register jobId =>
    simp only [step] at hs
    split at hs
    · cases hs; exact .of_state rfl
    · cases hs
      refine .kept [] (fun j => ?_) (append_nil _).symm
      simp only [deficitOf, get?_insert_ite]
      split
      · rename_i hj
        rw [hj]
        cases s.state.jobs[jobId]? <;> rfl
      · rfl
  | unregister jobId =>
    simp only [step] at hs
    split at hs
    · cases hs
      refine .left jobId (fun j hj => ?_) ?_ rfl
      · rw [deficitOf_dropRegistration, if_neg hj]
      · rw [deficitOf_dropRegistration, if_pos rfl]; exact le_max_right _ _
    · cases hs
  | acquire jobId =>
    simp only [step] at hs
    split at hs
    · cases hs
    · split at hs
      · cases hs; exact .of_state rfl
      · split at hs
        · cases hs; exact .of_state rfl
        · cases hs
          exact .kept [jobId] (deficitOf_modifyJob (f := fun job =>
              { job with waiting := true }) fun _ => rfl) rfl
  | listen jobId =>
    simp only [step] at hs
    split at hs
    · cases hs; exact .of_state rfl
    · cases hs
  | check jobId fuel =>
    simp only [step] at hs
    split at hs
    · rename_i notif hstg
      obtain ⟨⟨state, _⟩, hselect, heq⟩ := map_eq_some_iff.1 hs
      -- Taking the turn moves no deficit and nobody in the order.
      have hst : (∀ j, s'.state.deficitOf j = state.deficitOf j) ∧ s'.state.order = state.order := by
        split at heq
        · cases heq
          exact ⟨deficitOf_modifyJob (f := fun job => { job with waiting := false }) fun _ => rfl,
            modifyJob_order⟩
        · cases heq; exact ⟨fun _ => rfl, rfl⟩
      rcases selection_check hq h hstg hselect with
        ⟨hnone, hd, ho⟩ | ⟨j, state', hsel, hsome, hd, ho⟩
      · rw [hnone]
        exact .kept [] (fun j => (hst.1 j).trans (hd j)) (by rw [hst.2, ho, append_nil])
      · rw [hsome]
        exact .selected fuel j state' hsel (fun i => (hst.1 i).trans (hd i)) (hst.2.trans ho)
    · cases hs
  | cancel jobId =>
    simp only [step] at hs
    have hcancel : Moved quantumBytes s ⟨s.state.cancelWaiter jobId,
        (s.waiters.leave jobId).notify, s.permits⟩ none := by
      have hd := @deficitOf_modifyJob (s.state.dequeue jobId) jobId
        (fun job => { job with waiting := false }) fun _ => rfl
      exact .left jobId (fun j _ => hd j) ((hd jobId).le.trans (le_max_left _ _)) modifyJob_order
    split at hs
    · cases hs; exact hcancel
    · cases hs; exact hcancel
    · cases hs
  | abandon jobId =>
    simp only [step] at hs
    split at hs
    · cases hs; exact .of_state rfl
    · cases hs; exact .of_state rfl
    · cases hs
  | release jobId committedBytes =>
    simp only [step] at hs
    split at hs
    · rename_i hpermit
      cases hs
      exact .charged jobId hpermit (fun j hj => (deficitOf_release j).1 hj) (deficitOf_release jobId).2
        modifyJob_order
    · cases hs
  | deliver =>
    simp only [step] at hs
    split at hs
    · cases hs; exact .of_state rfl
    · cases hs

def next (quantumBytes : Nat) (s : FairScheduler) (event : FairEvent) : FairScheduler :=
  (s.step quantumBytes event).getD s

def selects (quantumBytes : Nat) (s : FairScheduler) (event : FairEvent) (jobId : String) : Bool :=
  (selection quantumBytes s event).any (·.1 = jobId)

theorem selection_of_step_eq_none (hs : s.step quantumBytes event = none) :
    selection quantumBytes s event = none := by
  cases event with
  | check jobId fuel =>
    simp only [step] at hs
    simp only [selection]
    split
    · rename_i notif hstg
      rw [hstg] at hs
      simp only [map_eq_none_iff, select] at hs
      split
      · rename_i hfree; rw [if_pos hfree, map_eq_none_iff] at hs; rw [hs]
      · rfl
    · rfl
  | register | unregister | acquire | listen | cancel | abandon | release | deliver => rfl

theorem moved_next (hq : 0 < quantumBytes) (h : s.Inv) (event : FairEvent) :
    Moved quantumBytes s (s.next quantumBytes event) (selection quantumBytes s event) := by
  unfold next
  cases hs : s.step quantumBytes event with
  | none =>
    rw [selection_of_step_eq_none hs]; exact .of_state rfl
  | some s' => exact moved_of_step hq h hs

theorem Inv.next (hq : 0 < quantumBytes) (h : s.Inv) : (s.next quantumBytes event).Inv := by
  unfold FairScheduler.next
  cases hs : s.step quantumBytes event with
  | none => exact h
  | some s' => exact h.step hq hs

variable {selected : Option (String × Int)}

theorem Moved.deficit_le (h : s.Inv) (hmoved : Moved quantumBytes s s' selected) (j : String) :
    s'.state.deficitOf j ≤ max (s.state.deficitOf j) 0 +
      if selected.any (·.1 = j) then quantumBytes else 0 := by
  cases hmoved with
  | kept orders deficits order =>
    rw [deficits]; simp
  | left jobId deficits deficit order =>
    by_cases hj : j = jobId
    · subst hj; simpa using deficit
    · rw [deficits j hj]; simp
  | charged jobId permit deficits deficit order =>
    by_cases hj : j = jobId
    · subst hj; simpa using deficit
    · rw [deficits j hj]; simp
  | selected fuel jobId state selected deficits order =>
    rw [deficits]
    have hbound := deficitOf_selectFairCommitJob h.queued.ordered selected j
    simpa [eq_comm] using hbound

def selectionsSince (quantumBytes : Nat) (jobId : String) : Nat → FairScheduler → List FairEvent → Nat
  | n, _, [] => n
  | n, s, event :: events =>
    let s' := s.next quantumBytes event
    let n := if s.selects quantumBytes event jobId then n + 1 else n
    selectionsSince quantumBytes jobId (if jobId ∈ s'.state.jobs then n else 0) s' events

theorem deficit_le_selectionsSince (hq : 0 < quantumBytes)
    (jobId : String) (evs : List FairEvent) : ∀ {n : Nat} {s : FairScheduler}, s.Inv →
    s.state.deficitOf jobId ≤ quantumBytes * n → (s.run quantumBytes evs).state.deficitOf jobId ≤
    quantumBytes * selectionsSince quantumBytes jobId n s evs := by
  induction evs with
  | nil => exact fun _ h => h
  | cons event evs ih =>
    intro n s h _
    refine ih (h.next hq) ?_
    change (s.next quantumBytes event).state.deficitOf jobId ≤ _
    split
    · have hbound := (moved_next hq h event).deficit_le h jobId
      have hpos : (0 : Int) ≤ quantumBytes * n :=
        Int.mul_nonneg (Int.natCast_nonneg _) (Int.natCast_nonneg _)
      rw [← selects] at hbound
      split
      · rename_i hsel
        rw [if_pos hsel] at hbound
        rw [Int.natCast_add, Int.mul_add, Int.natCast_one, Int.mul_one]; omega
      · rename_i hsel; rw [if_neg hsel] at hbound; omega
    · rename_i hgone; rw [deficitOf, Std.ExtTreeMap.getElem?_eq_none hgone]; simp

theorem credit_le (hq : 0 < quantumBytes) (h : s.Inv) {jobId : String} {credit : Int}
    (hsel : selection quantumBytes s event = some (jobId, credit)) :
    credit ≤ max (s.state.deficitOf jobId) 0 + quantumBytes := by
  have hmoved := moved_next hq h event
  have hbound := hmoved.deficit_le h jobId
  rw [hsel] at hmoved hbound
  cases hmoved with
  | selected fuel jobId state selected deficits order =>
    rw [deficits] at hbound; simpa using hbound

def WaitsThroughout (quantumBytes : Nat) (jobId : String) : FairScheduler → List FairEvent → Prop
  | s, [] => jobId ∈ s.state.order
  | s, event :: events => jobId ∈ s.state.order ∧
    WaitsThroughout quantumBytes jobId (s.next quantumBytes event) events

def selectionsIn (quantumBytes : Nat) (jobId : String) : FairScheduler → List FairEvent → Nat
  | _, [] => 0
  | s, event :: events => (if s.selects quantumBytes event jobId then 1 else 0) +
    selectionsIn quantumBytes jobId (s.next quantumBytes event) events

def Apart (s : FairScheduler) : Prop := ∀ j ∈ s.permits, j ∉ s.state.order

theorem apart_new : Apart .new := fun _ h => absurd h not_mem_nil

theorem Apart.step (hq : 0 < quantumBytes) (hinv : s.Inv) (h : s.Apart)
    (hs : s.step quantumBytes event = some s') : s'.Apart := by
  cases event with
  | register jobId =>
    simp only [step] at hs
    split at hs
    · cases hs; exact h
    · cases hs; exact h
  | unregister jobId =>
    simp only [step] at hs
    split at hs
    · cases hs; exact fun j hj hin => h j hj (mem_filter.1 hin).1
    · cases hs
  | acquire jobId =>
    simp only [step] at hs
    split at hs
    · cases hs
    · rename_i hcalls
      split at hs
      · cases hs; exact h
      · split at hs
        · cases hs; exact h
        · cases hs
          intro j hj hin
          rcases mem_append.1 hin with hin | hin
          · exact h j hj hin
          · exact hcalls (.inr (mem_singleton.1 hin ▸ hj))
  | listen jobId =>
    simp only [step] at hs
    split at hs
    · cases hs; exact h
    · cases hs
  | check jobId fuel =>
    simp only [step] at hs
    split at hs
    · rename_i notif hstg
      obtain ⟨⟨state, _⟩, hselect, heq⟩ := map_eq_some_iff.1 hs
      have hwait := hinv.live jobId (mem_of_getElem? hstg)
      obtain ⟨hqueued, _, -, -, -, -⟩ := hinv.select hq hwait hselect
      have horder : ∀ j ∈ state.order, j ∈ s.state.order := by
        rcases select_cases hq hinv.queued hselect with
          ⟨rfl, -, -⟩ | ⟨-, -, -, i, state', hsel, rfl⟩
        · exact fun _ hj => hj
        · exact fun j hj => mem_of_mem_erase (hsel.order.mem_iff.1 hj)
      split at heq
      · rename_i hfree
        rw [Bool.and_eq_true, Bool.not_eq_eq_eq_not, Bool.not_true, decide_eq_true_iff] at hfree
        cases heq
        intro j hj
        rw [claim, modifyJob_order]
        rcases mem_cons.1 hj with rfl | hj
        · exact hqueued.apart j hfree.2
        · exact fun hin => h j hj (horder j hin)
      · cases heq; exact fun j hj hin => h j hj (horder j hin)
    · cases hs
  | cancel jobId =>
    simp only [step] at hs
    have hcancel : Apart ⟨s.state.cancelWaiter jobId, (s.waiters.leave jobId).notify, s.permits⟩ := by
      intro j hj
      rw [cancelWaiter, modifyJob_order]; exact fun hin => h j hj (mem_filter.1 hin).1
    split at hs
    · cases hs; exact hcancel
    · cases hs; exact hcancel
    · cases hs
  | abandon jobId =>
    simp only [step] at hs
    split at hs
    · cases hs; exact h
    · cases hs; exact h
    · cases hs
  | release jobId committedBytes =>
    simp only [step] at hs
    split at hs
    · cases hs
      intro j hj
      rw [release]; rw [modifyJob_order]; exact h j (mem_of_mem_erase hj)
    · cases hs
  | deliver =>
    simp only [step] at hs
    split at hs
    · cases hs; exact h
    · cases hs

theorem Apart.next (hq : 0 < quantumBytes) (hinv : s.Inv) (h : s.Apart) :
    (s.next quantumBytes event).Apart := by
  unfold FairScheduler.next
  cases hs : s.step quantumBytes event with
  | none => exact h
  | some s' => exact h.step hq hinv hs

theorem Moved.handicap {job other : String} (hq : 0 < quantumBytes) (h : s.Inv) (hapart : s.Apart)
    (hmoved : Moved quantumBytes s s' selected) (hne : job ≠ other)
    (hin : other ∈ s.state.order) (hin' : other ∈ s'.state.order) :
    s'.state.handicap quantumBytes job other + (if selected.any (·.1 = job) then quantumBytes else 0) ≤
      s.state.handicap quantumBytes job other := by
  unfold HistoricalFairCommitState.handicap
  simp only [HistoricalFairCommitState.debtOf_eq]
  cases hmoved with
  | kept orders deficits order =>
    rw [deficits, order, lead_append_of_mem hin]; simp
  | left jobId deficits deficit order =>
    have hother : jobId ≠ other := by
      rintro rfl; rw [order, mem_filter] at hin'; simp at hin'
    rw [deficits other (Ne.symm hother), order]
    have hlead := @lead_filter s.state.order jobId job other hother
    simpa using Nat.mul_le_mul_left quantumBytes hlead
  | charged jobId permit deficits deficit order =>
    have hother : other ≠ jobId := by
      rintro rfl; exact hapart other permit hin
    rw [deficits other hother, order]; simp
  | selected fuel jobId state selected deficits order =>
    have hother : jobId ≠ other := by
      rintro rfl
      rcases selectFairCommitJob_sound hq h.queued.ordered selected with
        ⟨hnone, -, -⟩ | ⟨j, hj, hsel⟩
      · cases hnone
      · cases hj
        rw [order, hsel.order.mem_iff, h.queued.nodup.mem_erase_iff] at hin'; exact hin'.1 rfl
    have hbound := handicap_selectFairCommitJob h.queued.ordered hin hne hother selected
    unfold handicap at hbound
    simp only [debtOf_eq] at hbound; rw [deficits, order]; simpa using hbound

theorem selectionsIn_le (hq : 0 < quantumBytes) {job other : String} (hne : job ≠ other)
    {evs : List FairEvent} : ∀ {s : FairScheduler}, s.Inv → s.Apart →
      WaitsThroughout quantumBytes other s evs →
      quantumBytes * selectionsIn quantumBytes job s evs ≤
        s.state.handicap quantumBytes job other := by
  induction evs with
  | nil => exact fun _ _ _ => Nat.zero_le _
  | cons event evs ih =>
    intro s hinv hapart hwaits
    have hin' : other ∈ (s.next quantumBytes event).state.order := by
      cases evs with
      | nil => exact hwaits.2
      | cons => exact hwaits.2.1
    have hrest := ih (hinv.next hq) (hapart.next hq hinv) hwaits.2
    have hstep := (moved_next hq hinv event).handicap hq hinv hapart hne hwaits.1 hin'
    rw [← selects] at hstep
    rw [selectionsIn, Nat.mul_add]
    refine Nat.le_trans ?_ hstep
    rw [Nat.add_comm]
    refine Nat.add_le_add hrest ?_
    split <;> simp

theorem inv_apart_run (hq : 0 < quantumBytes) (evs : List FairEvent) : ∀ {s : FairScheduler},
    s.Inv → s.Apart → (s.run quantumBytes evs).Inv ∧ (s.run quantumBytes evs).Apart := by
  induction evs with
  | nil => exact fun hinv h => ⟨hinv, h⟩
  | cons event evs ih => exact fun hinv h => ih (hinv.next hq) (h.next hq hinv)

def largestCharge (jobId : String) : List FairEvent → Nat
  | [] => 0
  | .release j committedBytes :: events =>
    max (if j = jobId then committedBytes.elim 0 (max · 1) else 0) (largestCharge jobId events)
  | _ :: events => largestCharge jobId events

/-- A job that commits one byte a turn is selected with the better part of two quanta. -/
theorem credit_over_quantum :
    ¬ ∀ (events : List FairEvent) (event : FairEvent) (jobId : String) (credit : Int),
      selection historicalFairCommitQuantumBytes
        (FairScheduler.new.run historicalFairCommitQuantumBytes events) event =
          some (jobId, credit) →
      credit ≤ historicalFairCommitQuantumBytes + largestCharge jobId events := by
  intro h
  have hcredit := h [.register "a", .acquire "a", .listen "a", .check "a" 1,
    .release "a" (some 1), .acquire "a", .listen "a"] (.check "a" 1) "a" 2097151 (by decide +kernel)
  exact absurd hcredit (by decide)

structure Banked (quantumBytes : Nat) (events : List FairEvent) : Prop where
  credit : ∀ (event : FairEvent) (jobId : String) (credit : Int),
    selection quantumBytes (new.run quantumBytes events) event = some (jobId, credit) →
    credit ≤ quantumBytes * (selectionsSince quantumBytes jobId 0 new events + 1)
  turns : ∀ (job other : String) (later : List FairEvent), job ≠ other →
    WaitsThroughout quantumBytes other (new.run quantumBytes events) later →
    selectionsIn quantumBytes job (new.run quantumBytes events) later ≤
      (new.run quantumBytes events).state.debtOf other / quantumBytes + 1

/-- However jobs register, ask for turns, commit and leave. -/
theorem run_banked (hq : 0 < quantumBytes) (events : List FairEvent) :
    Banked quantumBytes events := by
  obtain ⟨hinv, hapart⟩ := inv_apart_run hq events inv_new apart_new
  constructor
  · intro _ jobId _ hsel
    have hcredit := credit_le hq hinv hsel
    have hnew : new.state.deficitOf jobId ≤ quantumBytes * (0 : Nat) := by
      simp [HistoricalFairCommitState.deficitOf, new, HistoricalFairCommitState.new]
    have hbanked := deficit_le_selectionsSince hq jobId events inv_new hnew
    have hpos : (0 : Int) ≤ quantumBytes * selectionsSince quantumBytes jobId 0 new events :=
      Int.mul_nonneg (Int.natCast_nonneg _) (Int.natCast_nonneg _)
    rw [Int.mul_add, Int.mul_one]; omega
  · intro job other _ hne hwaits
    have hturns := selectionsIn_le hq hne hinv hapart hwaits
    have hlead : lead (new.run quantumBytes events).state.order job other ≤ 1 :=
      lead_le_one
    rw [← Nat.add_div_right _ hq, Nat.le_div_iff_mul_le hq, Nat.mul_comm]
    refine hturns.trans (Nat.add_le_add_left ?_ _)
    exact (Nat.mul_le_mul_left _ hlead).trans (Nat.mul_one _).le

/-- The node's scheduler, with a job in debt that waits while another commits a byte. -/
theorem run_banked_node : Banked historicalFairCommitQuantumBytes
    [.register "a", .register "b", .acquire "b", .listen "b", .check "b" 1,
      .release "b" (some (4 * 1024 * 1024)), .acquire "b", .acquire "a", .listen "a",
      .check "a" 1, .release "a" (some 1)] :=
  run_banked (by decide) _

end FairScheduler

end Leani.Turns
