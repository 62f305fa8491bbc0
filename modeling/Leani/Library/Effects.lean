import Mathlib.Tactic.Common

/-!
# Operations on a state

Operations that change a state and may fail, with the list of those performed so far. A list of
operations stops at the first that fails.
-/

namespace Library

open List

structure Session (σ ο : Type) where
  state : σ
  performed : List ο

namespace Session

variable {σ ο ε ρ : Type} (apply : ο → σ → σ × Except ε ρ)

def perform (operation : ο) (session : Session σ ο) : Session σ ο × Except ε ρ :=
  (⟨(apply operation session.state).1, session.performed ++ [operation]⟩,
    (apply operation session.state).2)

def performAll : List ο → Session σ ο → Session σ ο × Except ε Unit
  | [], session => (session, .ok ())
  | operation :: rest, session =>
    match (session.perform apply operation).2 with
    | .ok _ => performAll rest (session.perform apply operation).1
    | .error e => ((session.perform apply operation).1, .error e)

variable {apply} {session : Session σ ο}

theorem performAll_append {later : List ο} : ∀ {ops : List ο} {sess : Session σ ο},
    sess.performAll apply (ops ++ later) = match (sess.performAll apply ops).2 with
      | .ok _ => (sess.performAll apply ops).1.performAll apply later
      | .error e => ((sess.performAll apply ops).1, .error e) := by
  intro ops
  induction ops with
  | nil =>
    intro sess; rfl
  | cons operation rest ih =>
    intro sess
    simp only [cons_append, performAll]
    cases (sess.perform apply operation).2 with
    | ok _ => exact ih
    | error e => rfl

theorem performAll_concat {ops : List ο} {op : ο} {next : Session σ ο}
    (h : session.performAll apply ops = (next, .ok ())) : session.performAll apply (ops ++ [op]) =
    ((next.perform apply op).1, (next.perform apply op).2.map fun _ => ()) := by
  rw [performAll_append, h]
  simp only [performAll]
  cases (next.perform apply op).2 with
  | ok _ => rfl
  | error e => rfl

theorem performed_performAll : ∀ {ops : List ο} {sess : Session σ ο}, ∃ done, done <+: ops ∧
      (sess.performAll apply ops).1.performed = sess.performed ++ done := by
  intro ops
  induction ops with
  | nil =>
    intro sess; exact ⟨[], nil_prefix, (append_nil _).symm⟩
  | cons operation rest ih =>
    intro sess
    simp only [performAll]
    split
    · obtain ⟨done, hdone, hperf⟩ := @ih (sess.perform apply operation).1
      refine ⟨operation :: done, prefix_cons_inj operation |>.2 hdone, ?_⟩
      rw [hperf, perform, append_assoc]; rfl
    · exact ⟨[operation], ⟨rest, rfl⟩, rfl⟩

end Session

end Library
