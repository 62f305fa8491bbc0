import Leani.Library.Sums
import Mathlib.Algebra.Order.BigOperators.Group.List

/-!
# Waiters on a notification

Tasks wait for their turn in a loop: a task subscribes to the next notification, looks at a shared
state under a lock, and when it may not pass sleeps until it is notified. A notification reaches
every task that subscribed before it was sent, also one that does not sleep yet. No wakeup is lost
as long as a task that sleeps while no notification is under way may not pass, and each change of
the shared state that lets a sleeping task pass is followed by a notification.
-/

namespace Library

open Std Table ExtTreeMap

inductive Wait where
  | polling
  | checking (notified : Bool)
  | asleep
  deriving DecidableEq

namespace Wait

def wake : Wait → Wait
  | polling | asleep => polling
  | checking _ => checking true

def sleep : Wait → Wait
  | checking true => polling
  | polling | checking false | asleep => asleep

def rank : Wait → Nat
  | asleep => 0
  | checking false => 1
  | polling => 2
  | checking true => 3

theorem wake_ne_asleep (w : Wait) : w.wake ≠ asleep := by
  cases w <;> nofun

theorem rank_wake_le (w : Wait) : w.wake.rank ≤ w.rank + 2 := by
  rcases w with _ | notif | _
  · decide
  · cases notif <;> decide
  · decide

theorem rank_sleep_lt (notif : Bool) : (checking notif).sleep.rank < (checking notif).rank := by
  cases notif <;> decide

end Wait

structure Waiters (κ : Type) [Ord κ] where
  table : Table κ Wait
  pending : Nat

namespace Waiters

variable {κ : Type} [Ord κ]

def none : Waiters κ := ⟨∅, 0⟩

section Operations

variable [TransOrd κ] (w : Waiters κ) (k : κ)

def enter : Waiters κ := { w with table := w.table.insert k .polling }

def leave : Waiters κ := { w with table := w.table.erase k }

def listen : Waiters κ := { w with table := w.table.insert k (.checking false) }

def sleep (stage : Wait) : Waiters κ := { w with table := w.table.insert k stage.sleep }

def notify : Waiters κ := { w with pending := w.pending + 1 }

def deliver : Waiters κ where
  table := w.table.map fun _ stage => stage.wake
  pending := w.pending - 1

end Operations

variable [TransOrd κ] [LawfulEqOrd κ] [DecidableEq κ] {w : Waiters κ} {k : κ} {stage : Wait}

def Watched (w : Waiters κ) (MayPass : κ → Prop) : Prop :=
  w.pending = 0 → ∀ k : κ, w.table[k]? = some .asleep → ¬ MayPass k

variable {MayPass MayPass' : κ → Prop}

omit [LawfulEqOrd κ] [DecidableEq κ] in
theorem watched_none : (none : Waiters κ).Watched MayPass :=
  fun _ _ h => (not_mem_empty h).elim

omit [LawfulEqOrd κ] [DecidableEq κ] in
theorem watched_notify : w.notify.Watched MayPass :=
  fun h => absurd h (Nat.succ_ne_zero _)

omit [DecidableEq κ] in
theorem watched_deliver : w.deliver.Watched MayPass := by
  intro _ k hk
  simp only [deliver, getElem?_map, Option.map_eq_some_iff] at hk
  obtain ⟨stage, -, hstage⟩ := hk; exact absurd hstage stage.wake_ne_asleep

theorem Watched.insert (h : w.Watched MayPass) (hpass : ∀ a, a ≠ k → MayPass' a → MayPass a)
    (hk : stage = .asleep → ¬ MayPass' k) :
    Watched { w with table := w.table.insert k stage } MayPass' := by
  intro hp a ha
  rcases insert_cases ha with ⟨heq, ha⟩ | ⟨hne, ha⟩
  · rw [heq]; exact hk ha
  · exact fun hm => h hp a ha (hpass a hne hm)

theorem Watched.enter (h : w.Watched MayPass) (hpass : ∀ a, a ≠ k → MayPass' a → MayPass a) :
    (w.enter k).Watched MayPass' := h.insert hpass nofun

theorem Watched.listen (h : w.Watched MayPass) : (w.listen k).Watched MayPass :=
  h.insert (fun _ _ hm => hm) nofun

theorem Watched.sleep (h : w.Watched MayPass) (hk : ¬ MayPass k) :
    (w.sleep k stage).Watched MayPass := h.insert (fun _ _ hm => hm) fun _ => hk

theorem Watched.leave (h : w.Watched MayPass) (hpass : ∀ a, a ≠ k → MayPass' a → MayPass a) :
    (w.leave k).Watched MayPass' := by
  intro hp a ha
  dsimp only [Waiters.leave] at ha
  obtain ⟨hne, ha⟩ := erase_cases ha; exact fun hm => h hp a ha (hpass a hne hm)

omit [LawfulEqOrd κ] [DecidableEq κ] in
theorem Watched.progress (h : w.Watched MayPass) (hk : w.table[k]? = some stage)
    (hpass : MayPass k) : 0 < w.pending ∨ stage ≠ .asleep := by
  by_cases hp : w.pending = 0
  · right
    rintro rfl; exact h hp k hk hpass
  · exact .inl (Nat.pos_of_ne_zero hp)

def work (w : Waiters κ) : Nat :=
  w.pending * (2 * w.table.size + 1) + Table.sum w.table fun _ stage => stage.rank

omit [LawfulEqOrd κ] [DecidableEq κ] in
theorem work_notify : w.notify.work = w.work + (2 * w.table.size + 1) := by
  rw [work, work, notify, Nat.add_mul, Nat.one_mul]; exact Nat.add_right_comm ..

omit [LawfulEqOrd κ] [DecidableEq κ] in
theorem size_insert_of_get? {stage' : Wait} (hk : w.table[k]? = some stage) :
    (w.table.insert k stage').size = w.table.size := by
  rw [size_insert, if_pos (contains_iff_mem.2 (mem_of_getElem? hk))]

omit [LawfulEqOrd κ] [DecidableEq κ] in
theorem size_deliver : w.deliver.table.size = w.table.size := size_map

theorem work_insert_lt {stage' : Wait} (hk : w.table[k]? = some stage)
    (hrank : stage'.rank < stage.rank) :
    work { w with table := w.table.insert k stage' } < w.work := by
  rw [work, work, sum_insert, sum_of_get? _ hk]
  dsimp only; rw [size_insert_of_get? hk]; omega

theorem work_listen_lt (hk : w.table[k]? = some .polling) : (w.listen k).work < w.work :=
  work_insert_lt hk (by decide)

theorem work_sleep_lt {notif : Bool} (hk : w.table[k]? = some (.checking notif)) :
    (w.sleep k (.checking notif)).work < w.work :=
  work_insert_lt hk (Wait.rank_sleep_lt notif)

omit [LawfulEqOrd κ] [DecidableEq κ] in
theorem work_deliver_lt (hp : 0 < w.pending) : w.deliver.work < w.work := by
  have hsum : ∀ rows : List (κ × Wait), ((rows.map fun row => (row.1, row.2.wake)).map fun row =>
      row.2.rank).sum ≤ (rows.map fun row => row.2.rank).sum + 2 * rows.length := by
    intro rows
    induction rows with
    | nil => exact Nat.le_refl 0
    | cons row rows ih =>
      simp only [List.map_cons, List.sum_cons, List.length_cons]
      have := row.2.rank_wake_le; omega
  have hrows := hsum w.table.toList
  rw [length_toList] at hrows
  obtain ⟨n, hn⟩ := Nat.exists_eq_succ_of_ne_zero (Nat.ne_of_gt hp)
  rw [work, work, deliver, hn]
  dsimp only
  rw [size_map, sum, toList_map, Nat.succ_eq_add_one, Nat.add_sub_cancel, Nat.add_mul, sum]; omega

end Waiters

section Progress

variable {σ : Type} {Next : σ → σ → Prop} {Goal : σ → Prop}

inductive Inevitably (Next : σ → σ → Prop) (Goal : σ → Prop) : σ → Prop where
  | now {s : σ} : Goal s → Inevitably Next Goal s
  | later {s : σ} : (∃ s', Next s s') → (∀ s', Next s s' → Inevitably Next Goal s') →
      Inevitably Next Goal s

theorem Inevitably.of_measure {P : σ → Prop} (measure : σ → Nat)
    (hnext : ∀ s, P s → ¬ Goal s → ∃ s', Next s s') (hstep : ∀ s s', P s → ¬ Goal s → Next s s' →
    Goal s' ∨ (P s' ∧ measure s' < measure s)) {s : σ} (h : P s) : Inevitably Next Goal s := by
  induction hn : measure s using Nat.strongRecOn generalizing s with
  | ind n ih =>
    by_cases hgoal : Goal s
    · exact .now hgoal
    · refine .later (hnext s h hgoal) fun s' hs' => ?_
      rcases hstep s s' h hgoal hs' with hgoal' | ⟨hP, hlt⟩
      · exact .now hgoal'
      · exact ih (measure s') (hn ▸ hlt) hP rfl

end Progress

end Library
