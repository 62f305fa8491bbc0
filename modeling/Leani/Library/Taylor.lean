import Mathlib.Algebra.BigOperators.Ring.Finset
import Mathlib.Algebra.Order.BigOperators.Group.Finset
import Mathlib.Tactic.Common

/-!
# Integer expansions of an exponential

`factor * e ^ (numerator / denominator)` as a sum of integer terms. Each term is the one before times
the fraction over its index, floored; the sum is scaled by the denominator until the end. The terms
may grow at first, and reach zero for every fraction.
-/

namespace Library.Taylor

section Terms

variable (factor numerator denominator : Nat)

def term : Nat → Nat
  | 0 => factor * denominator
  | k + 1 => term k * numerator / (denominator * (k + 1))

def total (k : Nat) : Nat := ∑ i ∈ Finset.range k, term factor numerator denominator i

variable {denominator}

theorem exists_term_eq_zero (hd : 0 < denominator) :
    ∃ k, term factor numerator denominator k = 0 := by
  -- Once the index has passed the numerator, every term is below the one before.
  suffices h : ∀ bound k, numerator ≤ k → term factor numerator denominator k ≤ bound →
      ∃ j, term factor numerator denominator j = 0 from h _ numerator (Nat.le_refl _) (Nat.le_refl _)
  intro bound
  induction bound with
  | zero => exact fun k _ h => ⟨k, Nat.le_zero.1 h⟩
  | succ bound ih =>
    intro k hk h
    by_cases hzero : term factor numerator denominator k = 0
    · exact ⟨k, hzero⟩
    · have hdivisor := Nat.lt_of_lt_of_le (Nat.lt_succ_of_le hk) (Nat.le_mul_of_pos_left _ hd)
      have hlt : term factor numerator denominator (k + 1) < term factor numerator denominator k :=
        Nat.div_lt_of_lt_mul (by
          rw [Nat.mul_comm]; exact Nat.mul_lt_mul_of_pos_right hdivisor (Nat.pos_of_ne_zero hzero))
      exact ih (k + 1) (by omega) (by omega)

/-- The terms before the first zero, divided by the denominator. -/
def expansion (hd : 0 < denominator) : Nat :=
  total factor numerator denominator (Nat.find (exists_term_eq_zero factor numerator hd)) / denominator

end Terms

variable {factor numerator denominator k : Nat}

theorem term_eq_zero {j : Nat} (h : term factor numerator denominator k = 0) (hle : k ≤ j) :
    term factor numerator denominator j = 0 := by
  induction j, hle using Nat.le_induction with
  | base => exact h
  | succ j _ ih => rw [term, ih, Nat.zero_mul, Nat.zero_div]

theorem total_eq {j : Nat} (h : term factor numerator denominator k = 0) (hle : k ≤ j) :
    total factor numerator denominator k = total factor numerator denominator j :=
  Finset.sum_subset (Finset.range_mono hle) fun _ _ hi =>
    term_eq_zero h (Nat.le_of_not_lt fun hlt => hi (Finset.mem_range.2 hlt))

theorem expansion_eq (hd : 0 < denominator) (h : term factor numerator denominator k = 0) :
    expansion factor numerator hd = total factor numerator denominator k / denominator := by
  have hfind := exists_term_eq_zero factor numerator hd
  rw [expansion, total_eq (Nat.find_spec hfind) (Nat.find_min' hfind h)]

theorem le_expansion (hd : 0 < denominator) (hfactor : 0 < factor) :
    factor ≤ expansion factor numerator hd := by
  obtain ⟨k, hk⟩ := exists_term_eq_zero factor numerator hd
  have hpos : 0 < k := Nat.pos_of_ne_zero fun h => by
    subst h; exact (Nat.mul_pos hfactor hd).ne' hk
  rw [expansion_eq hd hk, Nat.le_div_iff_mul_le hd]
  exact Finset.single_le_sum (f := term factor numerator denominator) (fun _ _ => Nat.zero_le _)
    (Finset.mem_range.2 hpos)

theorem term_mono {numerator' : Nat} (h : numerator ≤ numerator') :
    term factor numerator denominator k ≤ term factor numerator' denominator k := by
  induction k with
  | zero => exact Nat.le_refl _
  | succ k ih => exact Nat.div_le_div_right (Nat.mul_le_mul ih h)

theorem expansion_mono {numerator' : Nat} (hd : 0 < denominator) (h : numerator ≤ numerator') :
    expansion factor numerator hd ≤ expansion factor numerator' hd := by
  obtain ⟨k, hk⟩ := exists_term_eq_zero factor numerator' hd
  rw [expansion_eq hd hk, expansion_eq hd (Nat.le_zero.1 (hk ▸ term_mono h))]
  exact Nat.div_le_div_right (Finset.sum_le_sum fun i _ => term_mono h)

theorem div_le_div_of_mul_le {a b a' b' : Nat} (hb : 0 < b) (hb' : 0 < b') (h : a' * b ≤ a * b') :
    a' / b' ≤ a / b := by
  rw [Nat.le_div_iff_mul_le hb]
  refine Nat.le_of_mul_le_mul_right ?_ hb'
  calc a' / b' * b * b' = a' / b' * b' * b := Nat.mul_right_comm ..
    _ ≤ a' * b := Nat.mul_le_mul_right b (Nat.div_mul_le_self a' b')
    _ ≤ a * b' := h

variable {denominator' : Nat}

/-- Over the denominators, the terms fall as the denominator grows; flooring keeps it so. -/
theorem term_mul_le (hd : 0 < denominator) (h : denominator ≤ denominator') :
    term factor numerator denominator' k * denominator ≤
      term factor numerator denominator k * denominator' := by
  induction k with
  | zero => exact (Nat.mul_right_comm ..).le
  | succ k ih =>
    refine Nat.mul_le_mul (div_le_div_of_mul_le (Nat.mul_pos hd k.succ_pos)
      (Nat.mul_pos (hd.trans_le h) k.succ_pos) ?_) h
    calc term factor numerator denominator' k * numerator * (denominator * (k + 1))
        = term factor numerator denominator' k * denominator * (numerator * (k + 1)) := by
          rw [Nat.mul_mul_mul_comm]
      _ ≤ term factor numerator denominator k * denominator' * (numerator * (k + 1)) :=
          Nat.mul_le_mul_right _ ih
      _ = term factor numerator denominator k * numerator * (denominator' * (k + 1)) := by
          rw [Nat.mul_mul_mul_comm]

theorem expansion_antitone (hd : 0 < denominator) (h : denominator ≤ denominator') :
    expansion factor numerator (hd.trans_le h) ≤ expansion factor numerator hd := by
  obtain ⟨k, hk⟩ := exists_term_eq_zero factor numerator hd
  have hzero : term factor numerator denominator' k = 0 := by
    have := @term_mul_le factor numerator denominator k denominator' hd h
    rw [hk, Nat.zero_mul, Nat.le_zero, Nat.mul_eq_zero] at this; exact this.resolve_right hd.ne'
  rw [expansion_eq _ hk, expansion_eq _ hzero]
  refine div_le_div_of_mul_le hd (hd.trans_le h) ?_
  rw [total, total, Finset.sum_mul, Finset.sum_mul]
  exact Finset.sum_le_sum fun i _ => term_mul_le hd h

end Library.Taylor
