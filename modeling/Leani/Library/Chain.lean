import Mathlib.Logic.Function.Iterate
import Mathlib.Tactic.Common

/-!
# Parent-linked rows

A partial map from heights to rows, each row naming its own hash and its parent's. `PathDown m n`
says that parent hashes lead from the row at height `m` through consecutive heights to the row at
`n`; it is the same as a link at every height in between.
-/

namespace Library.Chain

open Option

variable {ρ η : Type} (row : Nat → Option ρ) (hash parent : ρ → η)

/-- The row at `n + 1` names the row at `n` as its parent. -/
def Link (n : Nat) : Prop :=
  ∃ child below, row (n + 1) = some child ∧ row n = some below ∧ parent child = hash below

inductive PathDown : Nat → Nat → Prop where
  | refl {n : Nat} {r : ρ} (h : row n = some r) : PathDown n n
  | step {m n : Nat} (h : PathDown m (n + 1)) (link : Link row hash parent n) : PathDown m n

variable {row hash parent}

variable {n : Nat}

theorem Link.isSome (h : Link row hash parent n) : (row n).isSome := by
  obtain ⟨_, _, -, hr, -⟩ := h; rw [hr]; rfl

theorem link_iff {child below : ρ} (hc : row (n + 1) = some child)
    (hb : row n = some below) : Link row hash parent n ↔ parent child = hash below := by
  constructor
  · rintro ⟨_, _, hc', hb', h⟩
    rw [hc, some.injEq] at hc'; rw [hb, some.injEq] at hb'; rw [hc', hb']; exact h
  · intro h; exact ⟨child, below, hc, hb, h⟩

variable {m : Nat}

theorem pathDown_iff : PathDown row hash parent m n ↔
      n ≤ m ∧ (row m).isSome ∧ ∀ j, n ≤ j → j < m → Link row hash parent j := by
  constructor
  · intro h
    induction h with
    | refl h => exact ⟨Nat.le_refl _, by rw [h]; rfl, fun j h₁ h₂ => by omega⟩
    | step h link ih =>
      obtain ⟨hle, hsome, hlinks⟩ := ih
      refine ⟨by omega, hsome, fun j h₁ h₂ => ?_⟩
      rcases Nat.eq_or_lt_of_le h₁ with rfl | h₁
      · exact link
      · exact hlinks j h₁ h₂
  · rintro ⟨hle, hsome, hlinks⟩
    obtain ⟨k, rfl⟩ := Nat.exists_eq_add_of_le hle
    clear hle
    induction k generalizing n with
    | zero =>
      obtain ⟨_, hr⟩ := isSome_iff_exists.1 hsome; exact .refl hr
    | succ k ih =>
      have e : n + (k + 1) = n + 1 + k := by omega
      rw [e] at hsome hlinks ⊢
      exact .step (ih hsome fun j h₁ h₂ => hlinks j (by omega) h₂) (hlinks n (by omega) (by omega))

theorem PathDown.le (h : PathDown row hash parent m n) : n ≤ m := (pathDown_iff.1 h).1

theorem PathDown.trans {l : Nat} (h₁ : PathDown row hash parent l m)
    (h₂ : PathDown row hash parent m n) : PathDown row hash parent l n := by
  induction h₂ with
  | refl _ => exact h₁
  | step _ link ih => exact .step ih link

theorem PathDown.split {l : Nat} (h : PathDown row hash parent l n) (h₁ : n ≤ m) (h₂ : m ≤ l) :
    PathDown row hash parent l m ∧ PathDown row hash parent m n := by
  obtain ⟨-, hsome, hlinks⟩ := pathDown_iff.1 h
  refine ⟨pathDown_iff.2 ⟨h₂, hsome, fun j hj hj' => hlinks j (by omega) hj'⟩,
    pathDown_iff.2 ⟨h₁, ?_, fun j hj hj' => hlinks j hj (by omega)⟩⟩
  rcases Nat.eq_or_lt_of_le h₂ with rfl | hlt
  · exact hsome
  · exact (hlinks m h₁ hlt).isSome

theorem PathDown.isSome (h : PathDown row hash parent m n) : (row n).isSome := by
  cases h with
  | refl h => rw [h]; rfl
  | step _ link => exact link.isSome

theorem PathDown.iterate {up : η → η} (h : PathDown row hash parent m n) (hup : ∀ k r, n < k →
    k ≤ m → row k = some r → parent r = up (hash r)) {top bottom : ρ} (htop : row m = some top)
    (hbottom : row n = some bottom) : up^[m - n] (hash top) = hash bottom := by
  induction h generalizing bottom with
  | refl hr =>
    rw [htop, some.injEq] at hbottom; rw [Nat.sub_self, Function.iterate_zero_apply, hbottom]
  | @step n hpath link ih =>
    obtain ⟨child, _, hchild, hbelow, hpar⟩ := link
    rw [hbottom, some.injEq] at hbelow
    have hle := hpath.le
    have e : m - n = (m - (n + 1)) + 1 := by omega
    rw [e, Function.iterate_succ_apply', ih (fun k r _ => hup k r (by omega)) hchild,
      ← hup (n + 1) child (by omega) hle hchild, hpar, hbelow]

end Library.Chain
